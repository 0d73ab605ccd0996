import MoqRelay.Log.Ceiling
import MoqRelay.Log.Run

/-!
# Log/Budget — the byte budget over whole runs

Byte amounts are 64-bit and the log's aggregates follow its records modulo `2 ^ 64` whatever is
appended (`Log.Wf.bytes`).  The budget is a statement about the *exact* total of the retained
records (`byteTotal`): no quiet change raises it, a commit or a chunk raises it by its own length,
and the loops that make room compare it with the budget faithfully as long as that sum does not
wrap.
-/

namespace MoqRelay

open List Function

/-- A 64-bit sum is the exact sum modulo `2 ^ 64`. -/
theorem toNat_sum (l : List UInt64) : l.sum.toNat = (l.map UInt64.toNat).sum % 2 ^ 64 := by
  induction l with
  | nil => rfl
  | cons a l ih => rw [sum_cons, UInt64.toNat_add, ih, map_cons, sum_cons, Nat.add_mod_mod]

/-- The exact size of a group's records. -/
def Group.byteTotal (g : Group) : ℕ := (g.recs.map fun r => r.bytes.toNat).sum

/-- An OPEN record accounts for its properties, and for the chunks on top of them. -/
def Group.OpenProps (g : Group) : Prop :=
  ∀ r ∈ g.recs, r.objState = .open → rcbufLen r.properties ≤ r.bytes

namespace Log

variable {log log' : Log} {gid sid oid i : ℕ} {g : Group} {r : Rec} {d : AppendDesc}
  {mem : AppendMem} {l₁ l₂ : List Group}

/-- **The exact size of the retained records.** -/
def byteTotal (log : Log) : ℕ := (log.groups.map Group.byteTotal).sum

theorem byteTotal_split (log : Log) (hgs : log.groups = l₁ ++ g :: l₂) :
    log.byteTotal = (l₁.map Group.byteTotal).sum + g.byteTotal + (l₂.map Group.byteTotal).sum := by
  simp [byteTotal, hgs, Nat.add_assoc]

theorem Wf.toNat_retainedBytes (h : log.Wf) : log.retainedBytes.toNat = log.byteTotal % 2 ^ 64 := by
  have hsum : log.retainedBytes = (log.allRecs.map Rec.bytes).sum := by
    rw [← h.bytes, allRecs, map_flatMap, flatMap_def, sum_flatten, map_map]
    refine congrArg sum (map_congr_left fun g hg => ?_)
    exact ((h.group g hg).bytes).symm
  rw [hsum, toNat_sum, allRecs]
  simp only [flatMap_def, map_map, map_flatten, sum_flatten, comp_def]
  rfl

/-- **The budget is respected exactly.** -/
structure Within (log : Log) : Prop where
  total_le : log.byteTotal ≤ log.lim.maxBytes.toNat
  openProps : ∀ g ∈ log.groups, g.OpenProps

theorem Within.toNat_retainedBytes (h : log.Within) (hw : log.Wf) :
    log.retainedBytes.toNat = log.byteTotal := by
  rw [hw.toNat_retainedBytes]
  exact Nat.mod_eq_of_lt (lt_of_le_of_lt h.total_le log.lim.maxBytes.toNat_lt)

/-! ## Quiet changes -/

/-- What a change that does not raise the total leaves behind. -/
structure Shrinks (log log' : Log) : Prop where
  lim : log'.lim = log.lim
  total_le : log'.byteTotal ≤ log.byteTotal
  openProps : ∀ g ∈ log'.groups, g.OpenProps

theorem Shrinks.within (hs : Shrinks log log') (h : log.Within) : log'.Within :=
  ⟨hs.lim ▸ hs.total_le.trans h.total_le, hs.openProps⟩

theorem Room.shrinks (hr : Room gid log log') (hw : log.Wf) (ho : ∀ g ∈ log.groups, g.OpenProps) :
    Shrinks log log' := by
  cases hr with
  | compact => exact ⟨rfl, le_rfl, ho⟩
  | drop hgs =>
    refine ⟨rfl, ?_, fun x hx => ho x (mem_of_mem_eraseIdx hx)⟩
    simp [byteTotal, dropGroup, hgs]
  | activate hgid habs hhor hroom =>
    rename_i nowUs
    obtain ⟨l₁, l₂, hgs, hins, -⟩ := insert_split hw.sorted habs nowUs
    have hempty : (Group.fresh gid nowUs).recs = [] := rfl
    refine ⟨rfl, ?_, ?_⟩
    · rw [byteTotal, hins, byteTotal, hgs]
      simp [Group.byteTotal, hempty]
    · rw [hgs, forall_mem_append] at ho
      rw [hins, forall_mem_append, forall_mem_cons]
      exact ⟨ho.1, by simp [Group.OpenProps, hempty], ho.2⟩

variable {F : Subgroup → Subgroup} {f : Rec → Rec} {e : Group → Group}

/-- An edit of one list moves the total by the change of its last record. -/
theorem byteTotal_edit (hw : log.Wf) {sg : Subgroup}
    (hfind : log.groupFind gid = some g) (hi : g.sgs[i]? = some sg)
    (hr : sg.v.recs.getLast? = some r) (hF : Subgroup.Edit F f)
    (he : (e g).recs = (g.modifySg i F).recs) :
    (log.modifyGroup gid e).byteTotal + r.bytes.toNat = log.byteTotal + (f r).bytes.toNat := by
  obtain ⟨l₁, l₂, hgs, hid, hmod⟩ := modifyGroup_split hw.sorted hfind
  have hsum := Group.sum_map_modifySg (g := g) (fun r => (r.bytes.toNat : ℤ)) hF hi hr
  have hcast : ∀ g : Group, (g.recs.map fun r => (r.bytes.toNat : ℤ)).sum = (g.byteTotal : ℤ) :=
    fun g => by simp [Group.byteTotal, Nat.cast_list_sum, comp_def]
  rw [hcast, hcast] at hsum
  have heq : (e g).byteTotal = (g.modifySg i F).byteTotal := by simp [Group.byteTotal, he]
  rw [hmod, byteTotal_split { log with groups := l₁ ++ e g :: l₂ } rfl, byteTotal_split log hgs]
  omega

/-- An edit whose rewritten records still account for their properties. -/
theorem openProps_edit (hw : log.Wf) (hfind : log.groupFind gid = some g) (hF : Subgroup.Edit F f)
    (he : (e g).recs = (g.modifySg i F).recs)
    (hf : ∀ r ∈ g.recs, (r.objState = .open → rcbufLen r.properties ≤ r.bytes) →
      (f r).objState = .open → rcbufLen (f r).properties ≤ (f r).bytes)
    (ho : ∀ g ∈ log.groups, g.OpenProps) : ∀ g ∈ (log.modifyGroup gid e).groups, g.OpenProps := by
  obtain ⟨l₁, l₂, hgs, hid, hmod⟩ := modifyGroup_split hw.sorted hfind
  rw [hgs, forall_mem_append, forall_mem_cons] at ho
  rw [hmod, forall_mem_append, forall_mem_cons]
  refine ⟨ho.1, fun r hr hopen => ?_, ho.2.2⟩
  rcases Group.mem_recs_modifySg hF (he ▸ hr) with hmem | ⟨y, hy, rfl⟩
  · exact ho.2.1 r hmem hopen
  · exact hf y hy (ho.2.1 y hy) hopen

/-- An edit that leaves bytes and properties alone. -/
theorem shrinks_mark (hw : log.Wf) (hfind : log.groupFind gid = some g) (hF : Subgroup.Edit F f)
    (he : (e g).recs = (g.modifySg i F).recs)
    (hf : ∀ r, (f r).bytes = r.bytes ∧ (f r).properties = r.properties)
    (ho : ∀ g ∈ log.groups, g.OpenProps) : Shrinks log (log.modifyGroup gid e) := by
  refine ⟨rfl, le_of_eq ?_, openProps_edit hw hfind hF he (fun r _ h hopen => ?_) ho⟩
  · obtain ⟨l₁, l₂, hgs, hid, hmod⟩ := modifyGroup_split hw.sorted hfind
    have heq : (e g).byteTotal = g.byteTotal := by
      rw [Group.byteTotal, he, Group.recs_map_modifySg hF (fun r => by rw [(hf r).1]),
        Group.byteTotal]
    rw [hmod, byteTotal_split { log with groups := l₁ ++ e g :: l₂ } rfl,
      byteTotal_split log hgs, heq]
  · rw [(hf r).1, (hf r).2]
    exact h (by_contra fun hne => hF.tail.notOpen r hne hopen)

/-- **No quiet change raises the total.** -/
theorem Quiet.shrinks (hq : Quiet log log') (hw : log.Wf) (ho : ∀ g ∈ log.groups, g.OpenProps) :
    Shrinks log log' := by
  cases hq with
  | room hr => exact hr.shrinks hw ho
  | abandon hr =>
    rename_i gid sid oid i g r reset
    obtain ⟨hfind, sg, hi, -, htail, -, hopen⟩ := resolveOpenRec_eq_ok hr
    have hF := Subgroup.Edit.ofTail (edit_abandon reset)
    have hmem : g ∈ log.groups := ((groupFind_eq_some_iff hw.sorted).mp hfind).1
    have hrm : r ∈ g.recs := Group.mem_recs_of_sg (mem_of_getElem? hi) (mem_of_getLast? htail)
    have htot := byteTotal_edit hw hfind hi htail hF (e := fun g =>
      { g.modifyTail i (·.abandon reset) with bytes := g.bytes - r.chunkBytes }) rfl
    have hle : (r.abandon reset).bytes.toNat ≤ r.bytes.toNat := ho g hmem r hrm hopen
    refine ⟨rfl, ?_, openProps_edit hw hfind hF rfl (fun r _ _ hopen => ?_) ho⟩
    · change (log.modifyGroup gid _).byteTotal ≤ _
      omega
    · simp [Rec.abandon] at hopen
  | mark hfind hF hc _ =>
    exact shrinks_mark hw hfind hF rfl (fun r => ⟨(hc r).bytes, (hc r).properties⟩) ho
  | final hfind hi hF hbeyond => exact shrinks_mark hw hfind hF rfl (fun _ => ⟨rfl, rfl⟩) ho
  | floor n => exact ⟨rfl, le_rfl, ho⟩
  | hole gid sid =>
    unfold addHole
    split <;> exact ⟨rfl, le_rfl, ho⟩

theorem Quiets.shrinks (hq : Quiets log log') (hw : log.Wf) (ho : ∀ g ∈ log.groups, g.OpenProps) :
    Shrinks log log' := by
  induction hq with
  | refl => exact ⟨rfl, le_rfl, ho⟩
  | tail hprev hstep ih =>
    have hs := hstep.shrinks (Quiets.wf hprev hw) ih.openProps
    exact ⟨hs.lim.trans ih.lim, hs.total_le.trans ih.total_le, hs.openProps⟩

/-! ## Content -/

/-- **A commit raises the total by the record's bytes.** -/
theorem commit_byteTotal (hw : log.Wf) (hready : log.Ready g d)
    (hc : log.commit g d mem = some log') (ho : ∀ g ∈ log.groups, g.OpenProps) :
    log'.lim = log.lim ∧ log'.byteTotal = log.byteTotal + d.bytes.toNat ∧
      ∀ g ∈ log'.groups, g.OpenProps := by
  obtain ⟨l₁, l₂, hgs, hid, hmod⟩ := modifyGroup_split hw.sorted hready.find
  obtain ⟨f, s, n, r, hcom⟩ := hready.committed hw hc
  obtain ⟨holes, rfl⟩ := hcom.eq
  obtain ⟨-, -, hbytes, hstate, hprops, -⟩ := hcom.record
  have htot : (f g).byteTotal = d.bytes.toNat + g.byteTotal := by
    have := (hcom.pushed.perm.map fun r => r.bytes.toNat).sum_eq
    simpa [Group.byteTotal, hbytes] using this
  rw [hmod]
  refine ⟨rfl, ?_, ?_⟩
  · rw [byteTotal_split (Log.account { log with groups := l₁ ++ f g :: l₂, holes := holes } d s n)
      rfl, byteTotal_split log hgs]
    omega
  · rw [hgs, forall_mem_append, forall_mem_cons] at ho
    simp only [account, forall_mem_append, forall_mem_cons]
    refine ⟨ho.1, fun y hy hopen => ?_, ho.2.2⟩
    rcases mem_cons.mp (hcom.pushed.perm.mem_iff.mp hy) with rfl | hy
    · -- An OPEN descriptor has no payload, so the record's bytes are its properties.
      obtain ⟨hp, -, -⟩ := hready.admitted.openForm (hstate ▸ hopen)
      rw [hprops, hbytes, AppendDesc.bytes, hp]
      simp [rcbufLen]
    · exact ho.2.1 y hy hopen

/-- **A chunk raises the total by at most its length.** -/
theorem commitChunk_byteTotal (hw : log.Wf) {buf : Rcbuf}
    (hr : log.resolveOpenRec gid sid oid = .ok (g, i, r))
    (hc : log.commitChunk gid i r buf = some log') (ho : ∀ g ∈ log.groups, g.OpenProps)
    (hfit : log.byteTotal + buf.len.toNat < 2 ^ 64) :
    log'.lim = log.lim ∧ log'.byteTotal = log.byteTotal + buf.len.toNat ∧
      ∀ g ∈ log'.groups, g.OpenProps := by
  obtain ⟨hfind, sg, hi, -, htail, -, hopen⟩ := resolveOpenRec_eq_ok hr
  obtain ⟨node, pool, -, rfl⟩ := commitChunk_eq hc
  have hF := Subgroup.Edit.ofTail (edit_addChunk node buf.len)
  have hgm : g ∈ log.groups := ((groupFind_eq_some_iff hw.sorted).mp hfind).1
  have hle : ∀ x ∈ g.recs, x.bytes.toNat ≤ log.byteTotal := fun x hx =>
    calc x.bytes.toNat ≤ g.byteTotal :=
          single_le_sum (fun _ _ => Nat.zero_le _) _
            (mem_map_of_mem (f := fun r : Rec => r.bytes.toNat) hx)
      _ ≤ log.byteTotal := single_le_sum (fun _ _ => Nat.zero_le _) _ (mem_map_of_mem hgm)
  have hadd : ∀ x ∈ g.recs, (x.bytes + buf.len).toNat = x.bytes.toNat + buf.len.toNat :=
    fun x hx => by
      rw [UInt64.toNat_add]
      have := hle x hx
      omega
  have htot := byteTotal_edit hw hfind hi htail hF (e := (·.chunked i node buf.len)) rfl
  have hnew := hadd r (Group.mem_recs_of_sg (mem_of_getElem? hi) (mem_of_getLast? htail))
  refine ⟨rfl, ?_, openProps_edit hw hfind hF rfl (fun x hx h hxo => ?_) ho⟩
  · refine Nat.add_right_cancel (htot.trans ?_)
    change log.byteTotal + (r.bytes + buf.len).toNat = _
    omega
  · change _ ≤ (x.bytes + buf.len).toNat
    rw [hadd x hx]
    exact (UInt64.le_iff_toNat_le.mp (h hxo)).trans (Nat.le_add_right _ _)

/-- **The comparison with the budget does not wrap** for the content a call brings. -/
def NoWrap (log : Log) : LogOp → Prop
  | .append d _ | .openRecord d _ => log.retainedBytes.toNat + d.bytes.toNat < 2 ^ 64
  | .appendChunk _ _ _ chunk => log.retainedBytes.toNat + (rcbufLen chunk).toNat < 2 ^ 64
  | _ => True

instance (log : Log) (op : LogOp) : Decidable (log.NoWrap op) := by
  unfold NoWrap
  split <;> infer_instance

theorem toNat_add_le {log₀ : Log} {b : UInt64} (hs : Shrinks log log₀) (hw : log₀.Wf)
    (h : log.Within) (hret : log.retainedBytes.toNat = log.byteTotal)
    (hfit : log.retainedBytes.toNat + b.toNat < 2 ^ 64)
    (hle : log₀.retainedBytes + b ≤ log₀.lim.maxBytes) :
    log₀.byteTotal + b.toNat ≤ log₀.lim.maxBytes.toNat := by
  have hret₀ := (hs.within h).toNat_retainedBytes hw
  have htot := hs.total_le
  rwa [UInt64.le_iff_toNat_le, UInt64.toNat_add, hret₀, Nat.mod_eq_of_lt (by omega)] at hle

variable {out : Result × Log}

theorem Within.append (hap : Appended log d mem out) (hw : log.Wf)
    (h : log.Within) (hfit : log.retainedBytes.toNat + d.bytes.toNat < 2 ^ 64) : out.2.Within := by
  cases hap with
  | refused _ ht _ => exact (ht.rooms.quiets.shrinks hw h.openProps).within h
  | committed ht₀ hbytes ht₁ hready hc =>
    have hs₀ := ht₀.rooms.quiets.shrinks hw h.openProps
    have hw₀ := ht₀.wf hw
    have hs₁ := ht₁.rooms.quiets.shrinks hw₀ hs₀.openProps
    have hle := toNat_add_le hs₀ hw₀ h (h.toNat_retainedBytes hw) hfit hbytes
    obtain ⟨hlim, htot, hopen⟩ := commit_byteTotal (ht₁.wf hw₀) hready hc hs₁.openProps
    have := hs₁.total_le
    refine ⟨?_, hopen⟩
    rw [hlim, hs₁.lim, htot]
    omega

theorem Within.chunk {chunk : Option Rcbuf}
    (hch : Chunked log gid sid oid chunk out) (hw : log.Wf) (h : log.Within)
    (hfit : log.retainedBytes.toNat + (rcbufLen chunk).toNat < 2 ^ 64) : out.2.Within := by
  cases hch with
  | refused _ hr => exact (hr.quiets.shrinks hw h.openProps).within h
  | empty _ => exact h
  | linked hr _ hres hlen hbytes hc =>
    have hs := hr.quiets.shrinks hw h.openProps
    have hw₁ := hr.wf hw
    have hret := h.toNat_retainedBytes hw
    have htot := hs.total_le
    have hle := toNat_add_le hs hw₁ h hret hfit hbytes
    simp only [rcbufLen] at hfit
    obtain ⟨hlim, heq, hopen⟩ := commitChunk_byteTotal hw₁ hres hc hs.openProps (by omega)
    refine ⟨?_, hopen⟩
    rwa [hlim, heq]

/-- **A call whose content does not wrap the comparison keeps the budget.** -/
theorem Within.step (h : log.Within) (hw : log.Wf) {op : LogOp} (hfit : log.NoWrap op) :
    (log.step op).Within := by
  cases hc : op.isCursor with
  | true =>
    obtain ⟨cursors, count, he⟩ := step_cursor hw hc
    rw [he]
    exact ⟨h.total_le, h.openProps⟩
  | false =>
    cases ha : op.admits with
    | false => exact ((step_quiets hc ha).shrinks hw h.openProps).within h
    | true =>
      cases op <;> simp only [LogOp.admits, Bool.false_eq_true] at ha
      case append d mem => exact h.append (append_spec hw d mem) hw hfit
      case openRecord d mem => exact h.append (openRecord_spec hw d mem) hw hfit
      case appendChunk gid sid oid chunk =>
        exact h.chunk (appendChunk_spec hw gid sid oid chunk) hw hfit

/-- What `moqr_log_capacity_check` stands for, with the sums taken exactly. -/
structure Accounted (sz : Sizes) (log : Log) : Prop where
  check : log.capacityCheck sz = (.ok, "ok")
  sorted : log.groups.Pairwise fun a b => a.groupId < b.groupId
  groups_le : log.groups.length ≤ log.lim.maxGroups
  groupBytes : log.retainedBytes.toNat = (log.groups.map fun g => g.bytes.toNat).sum
  recordBytes : log.retainedBytes.toNat = (log.allRecs.map fun r => r.bytes.toNat).sum
  budget : log.retainedBytes ≤ log.lim.maxBytes
  live : log.liveRecords = (log.groups.map Group.recordCount).sum
  recordCount : ∀ g ∈ log.groups, g.recordCount = g.recs.length
  live_le : log.liveRecords ≤ log.nextSeq - log.beginSeq
  window : log.nextSeq - log.beginSeq ≤ log.lim.maxRecords
  ascending : ∀ g ∈ log.groups, ∀ sg ∈ g.sgs, (sg.v.recs.map Rec.objectId).Pairwise (· < ·)
  final : ∀ g ∈ log.groups, g.hasFinal → ∀ r ∈ g.recs, r.objectId ≤ g.finalObjectId
  cursors : log.cursorCount = log.liveCursors
  structure_le : log.structureBytes sz ≤ structureCeiling sz log.lim

theorem Within.accounted (h : log.Within) (hw : log.Wf) (sz : Sizes) : log.Accounted sz := by
  have hret := h.toNat_retainedBytes hw
  have hbudget : log.retainedBytes ≤ log.lim.maxBytes := by
    rw [UInt64.le_iff_toNat_le, hret]
    exact h.total_le
  have hwin := hw.window
  -- No group's own sum wraps, since the log's does not.
  have hgroup : ∀ g ∈ log.groups, g.bytes.toNat = g.byteTotal := fun g hg => by
    have hle : g.byteTotal ≤ log.byteTotal :=
      single_le_sum (fun _ _ => Nat.zero_le _) _ (mem_map_of_mem hg)
    have hlt := log.retainedBytes.toNat_lt
    rw [← (hw.group g hg).bytes, toNat_sum, map_map]
    exact Nat.mod_eq_of_lt (by change g.byteTotal < _; omega)
  refine ⟨hw.capacityCheck_eq hbudget sz, hw.sorted, hw.groups_le, ?_, ?_, hbudget, hw.live,
    fun g hg => (hw.group g hg).recordCount, hw.live_le, by omega,
    fun g hg sg hsg => ((hw.group g hg).sgs sg hsg).ascending, fun g hg hf => ?_, hw.cursors,
    hw.structureBytes_le sz⟩
  · rw [hret]
    exact congrArg sum (map_congr_left fun g hg => (hgroup g hg).symm)
  · rw [hret, allRecs]
    simp only [flatMap_def, map_map, map_flatten, sum_flatten, comp_def]
    rfl
  · have := (hw.group g hg).final
    rw [Group.FinalOk, if_pos hf] at this
    exact this.2

theorem Within.create {cfg : LogCfg} {ok : Bool} (h : Log.create cfg ok = .ok log) :
    log.Within := by
  obtain ⟨lim, -, rfl⟩ := create_eq_ok h
  exact ⟨Nat.zero_le _, fun _ hg => absurd hg not_mem_nil⟩

/-- **The capacity check passes in every state of a run whose comparisons do not wrap.** -/
theorem run_accounted (cfg : LogCfg) (ok : Bool) (log : Log) (ops : List LogOp) (sz : Sizes)
    (hc : Log.create cfg ok = .ok log) (hfit : RunAll NoWrap log ops) :
    (log.run ops).Accounted sz := by
  have hrun := run_induct (P := NoWrap) (I := fun log => log.Wf ∧ log.Within)
    (fun log op h hop => ⟨step_wf h.1 op, h.2.step h.1 hop⟩) ops log
    ⟨create_wf hc, Within.create hc⟩ hfit
  exact hrun.2.accounted hrun.1 sz

/-- A configuration whose budget is near the end of the 64-bit range. -/
def wideCfg : LogCfg := ⟨56, true, 4, 0xFFFFFFFFFFFFFFFE, 0, 4, 8, 2, 4⟩

/-- Three appends whose second wraps the comparison with the budget, and one eviction. -/
def wrapOps : List LogOp :=
  [.append (payloadDesc 1 3) ⟨true, true, true⟩,
    .append (payloadDesc 2 0xFFFFFFFFFFFFFFFE) ⟨true, true, true⟩,
    .append (payloadDesc 3 1) ⟨true, true, true⟩, .evictGroups 1]

/-- Four records in two groups and three lists, and the sizes of an implementation. -/
theorem run_accounted_mixed : Log.create smallCfg true = .ok smallLog ∧
    (mixedLog.groups.map fun g => g.recs.length) = [3, 1] ∧ mixedLog.retainedBytes = 6 ∧
    mixedLog.Accounted ⟨512, 192, 96, 128, 24, 32, 48, by decide⟩ :=
  ⟨rfl, by decide +kernel, by decide +kernel,
    run_accounted smallCfg true smallLog mixedOps _ rfl (by decide +kernel)⟩

/-- **A comparison that wraps admits a record past the budget**, and the capacity check fails after
the next eviction. -/
theorem run_wraps_budget : ∃ log, Log.create wideCfg true = .ok log ∧
    ∀ sz, (log.run wrapOps).capacityCheck sz = (.internal, "retained bytes exceed budget") := by
  refine ⟨_, rfl, fun sz => ?_⟩
  have hlt : ∀ log, Log.create wideCfg true = .ok log →
      (log.run wrapOps).lim.maxBytes < (log.run wrapOps).retainedBytes := by
    intro log hlog
    cases hlog
    decide +kernel
  rw [capacityCheck, capacityFault, if_pos (hlt _ rfl)]

end Log

end MoqRelay
