import MoqRelay.Log.Ceiling

/-!
# Log/Commit — a committed record keeps its group's invariant

A commit pushes one record to one list of a group (`pushed_recs_perm`: the group's records gain
exactly it) and then accounts for it.  The refusals of `moqr_log_append` are what each part of
`Group.Wf` needs: the order check keeps a list ascending, the open-tail check keeps at most the tail
OPEN, the identity check keeps ids unique, and the final-evidence preflight keeps a final the
largest id.
-/

namespace MoqRelay

open List Function

variable {lim : LogLimits} {g : Group} {d : AppendDesc}

/-! ## The identity set -/

variable {cap : ℕ} {g' : Group}

theorem idHash_lt (h : 0 < cap) (id : ℕ) : idHash cap id < cap :=
  lt_of_le_of_lt Nat.and_le_right (by omega)

theorem idNext_eq (h : ∃ k, cap = 2 ^ k) (i : ℕ) : idNext cap i = (i + 1) % cap := by
  obtain ⟨k, rfl⟩ := h
  exact Nat.and_two_pow_sub_one_eq_mod _ _

theorem LogLimits.Ok.idSetCap_pos (h : lim.Ok) : 0 < lim.idSetCap := by
  have := h.idSetCap_ge
  have := h.maxObjects_pos
  omega

/-- **The identity set answers membership among the retained ids.** -/
theorem Group.IdsOk.contains_iff (h : g.IdsOk lim.idSetCap) (hl : lim.Ok) (id : ℕ) :
    g.idSetContains lim.idSetCap id ↔ id ∈ g.recs.map Rec.objectId := by
  unfold idSetContains
  split
  · rename_i hmax
    rw [hmax]
    exact h.max
  · rename_i hmax
    rw [Option.isSome_iff_exists]
    have hfind := fun a => probeFind_eq_some_iff h.probed
      (fun i _ => idNext_eq hl.idSetCap_pow i) (idHash_lt hl.idSetCap_pos id) (a := a)
    simp only [hfind]
    constructor
    · rintro ⟨_, i, hi, ha, rfl⟩
      exact ((h.mem _).mp ⟨i, hi, ha⟩).2
    · intro hmem
      obtain ⟨i, hi, ha⟩ := (h.mem id).mpr ⟨hmax, hmem⟩
      exact ⟨id, i, hi, ha, rfl⟩

/-- Inserting an absent id adds exactly it. -/
theorem Group.IdsOk.insert {id : ℕ} (hl : lim.Ok) (h : g.IdsOk lim.idSetCap)
    (hset : g'.idSet = g.idSet) (hflag : g'.hasMaxObject = g.hasMaxObject)
    (hnew : id ∉ g.recs.map Rec.objectId) (hlen : (g.recs.map Rec.objectId).length < lim.idSetCap)
    (hperm : (g'.recs.map Rec.objectId).Perm (id :: g.recs.map Rec.objectId)) :
    (g'.idSetInsert lim.idSetCap id).IdsOk lim.idSetCap := by
  have hrecs : (g'.idSetInsert lim.idSetCap id).recs = g'.recs := by
    unfold idSetInsert
    split <;> rfl
  have hmem : ∀ x, x ∈ (g'.idSetInsert lim.idSetCap id).recs.map Rec.objectId ↔
      x = id ∨ x ∈ g.recs.map Rec.objectId := fun x => by
    rw [hrecs, hperm.mem_iff, mem_cons]
  by_cases hmax : id = u64Max
  · have hins : g'.idSetInsert lim.idSetCap id = { g' with hasMaxObject := true } := by
      simp [idSetInsert, hmax]
    refine ⟨?_, fun x => ?_, ?_⟩
    · rw [hins]
      exact hset ▸ h.probed
    · rw [hmem, hins]
      simp only [hset]
      rw [h.mem x]
      constructor
      · rintro ⟨hx, hx'⟩
        exact ⟨hx, .inr hx'⟩
      · rintro ⟨hx, rfl | hx'⟩
        · exact absurd hmax hx
        · exact ⟨hx, hx'⟩
    · rw [hmem, hins]
      simp [hmax]
  · have hins : g'.idSetInsert lim.idSetCap id = { g' with
        idSet := update g.idSet
          (probeEmpty g.idSet (idNext lim.idSetCap) lim.idSetCap (idHash lim.idSetCap id))
          (some id) } := by
      simp [idSetInsert, hmax, hset]
    have hempty : ∃ i < lim.idSetCap, g.idSet i = none :=
      h.probed.exists_empty (fun i hi a ha => ((h.mem a).mp ⟨i, hi, ha⟩).2) hlen
    obtain ⟨e, he, hj, hfree, hocc⟩ := probeEmpty_spec (fun i _ => idNext_eq hl.idSetCap_pow i)
      (idHash_lt hl.idSetCap_pos id) hempty
    have habs : ∀ i < lim.idSetCap, ∀ b, g.idSet i = some b → b ≠ id := by
      rintro i hi b hb rfl
      exact hnew ((h.mem b).mp ⟨i, hi, hb⟩).2
    refine ⟨?_, fun x => ?_, ?_⟩
    · rw [hins]
      exact h.probed.insert he hj hocc habs
    · rw [hmem, hins]
      simp only [hj]
      constructor
      · rintro ⟨i, hi, hx⟩
        rw [update_apply] at hx
        split at hx
        · obtain rfl : id = x := by simpa using hx
          exact ⟨hmax, .inl rfl⟩
        · have := (h.mem x).mp ⟨i, hi, hx⟩
          exact ⟨this.1, .inr this.2⟩
      · rintro ⟨hx, rfl | hx'⟩
        · exact ⟨_, Nat.mod_lt _ hl.idSetCap_pos, update_self ..⟩
        · obtain ⟨i, hi, hix⟩ := (h.mem x).mpr ⟨hx, hx'⟩
          refine ⟨i, hi, ?_⟩
          rw [update_of_ne]
          · exact hix
          · rintro rfl
            rw [hfree] at hix
            cases hix
    · rw [hmem, hins]
      simp only [hflag]
      rw [h.max]
      constructor
      · exact .inr
      · rintro (hc | hc)
        · exact absurd hc.symm hmax
        · exact hc

/-! ## Finals -/

variable {sg : Subgroup} {r : Rec}

theorem Subgroup.Wf.le_last (h : sg.Wf) (hr : r ∈ sg.v.recs) : r.objectId ≤ sg.lastObjectId := by
  obtain ⟨ids, hids⟩ := getLast?_eq_some_iff.mp h.last
  have hmem : r.objectId ∈ sg.v.recs.map Rec.objectId := mem_map_of_mem hr
  have hasc := h.ascending
  rw [hids] at hmem hasc
  rcases mem_append.mp hmem with hm | hm
  · exact ((pairwise_append.mp hasc).2.2 _ hm _ (by simp)).le
  · exact (mem_singleton.mp hm).le

/-- **The preflight sees every record**: a list's last id is its largest. -/
theorem Group.Lists.le_of_not_retainsBeyond (h : g.Lists lim) {q : ℕ}
    (hq : g.retainsBeyond q = false) : ∀ r ∈ g.recs, r.objectId ≤ q := by
  simp only [retainsBeyond, Bool.or_eq_false_iff, any_eq_false, Bool.and_eq_true,
    decide_eq_true_eq, not_and, Nat.not_lt] at hq
  intro r hr
  rcases mem_append.mp hr with hr | hr
  · obtain ⟨sg, hsg, hr⟩ := mem_flatMap.mp hr
    exact ((h.sgs sg hsg).le_last hr).trans (hq.1 sg hsg (h.sgs sg hsg).has)
  · exact hq.2 r hr

/-- The records of a group are untouched by its accounting. -/
@[simp] theorem Group.account_recs (g : Group) (cap : ℕ) (d : AppendDesc) :
    (g.account cap d).recs = g.recs := rfl

/-- A record that is evidence of a first or lower final becomes the final. -/
def Group.Lowers (g : Group) (d : AppendDesc) : Prop :=
  d.eogEvidence ∧ (g.hasFinal = false ∨ d.objectId < g.finalObjectId) ∨
    d.eotEvidence ∧ g.hasFinal = false

theorem Group.finalAfter_of_lowers (h : g.Lowers d) : g.finalAfter d = (true, d.objectId) := by
  unfold Lowers at h
  unfold finalAfter
  cases hf : g.hasFinal <;> cases he : d.eogEvidence <;> cases ht : d.eotEvidence <;>
    simp_all

theorem Group.finalAfter_of_not_lowers (h : ¬ g.Lowers d) :
    g.finalAfter d = (g.hasFinal, g.finalObjectId) := by
  obtain ⟨hg, ht⟩ := not_or.mp h
  have hg' : ¬ (d.eogEvidence ∧ ((!g.hasFinal) ∨ d.objectId < g.finalObjectId)) := by simpa using hg
  have ht' : ¬ (d.eotEvidence ∧ (!g.hasFinal)) := by simpa using ht
  simp only [finalAfter, if_neg hg', if_neg ht']

/-- **A final stays the largest retained id**: the new record is not beyond a known final, and it
becomes the final only when nothing retained lies beyond it. -/
theorem Group.FinalOk.account (h : g.FinalOk)
    (hfin : g'.hasFinal = g.hasFinal ∧ g'.finalObjectId = g.finalObjectId)
    (hperm : (g'.recs.map Rec.objectId).Perm (d.objectId :: g.recs.map Rec.objectId))
    (hle : g.hasFinal → d.objectId ≤ g.finalObjectId)
    (hlow : g.Lowers d → ∀ r ∈ g.recs, r.objectId ≤ d.objectId) : (g'.account cap d).FinalOk := by
  have hall : ∀ q, d.objectId ≤ q → (∀ r ∈ g.recs, r.objectId ≤ q) →
      ∀ r ∈ g'.recs, r.objectId ≤ q := by
    intro q hd hg r hr
    have hm : r.objectId ∈ d.objectId :: g.recs.map Rec.objectId :=
      hperm.mem_iff.mp (mem_map_of_mem hr)
    rcases mem_cons.mp hm with hm | hm
    · omega
    · obtain ⟨r', hr', he⟩ := mem_map.mp hm
      exact he ▸ hg r' hr'
  have hsame : g'.Lowers d ↔ g.Lowers d := by simp only [Lowers, hfin.1, hfin.2]
  unfold FinalOk
  by_cases hlw : g.Lowers d
  · have hf : (g'.account cap d).hasFinal ∧ (g'.account cap d).finalObjectId = d.objectId := by
      have := finalAfter_of_lowers (hsame.mpr hlw)
      simp [Group.account, this]
    rw [hf.1, hf.2]
    exact ⟨hperm.mem_iff.mpr (by simp), hall _ le_rfl (hlow hlw)⟩
  · have hf : (g'.account cap d).hasFinal = g.hasFinal ∧
        (g'.account cap d).finalObjectId = g.finalObjectId := by
      have := finalAfter_of_not_lowers (mt hsame.mp hlw)
      simp [Group.account, this, hfin]
    unfold FinalOk at h
    rw [hf.1, hf.2]
    split
    · rename_i hk
      rw [if_pos hk] at h
      exact ⟨hperm.mem_iff.mpr (mem_cons_of_mem _ h.1), hall _ (hle hk) h.2⟩
    · rename_i hk
      rwa [if_neg hk] at h

/-! ## Pushing a record to a list -/

variable {sid i : ℕ} {v : RecVec} {sg' : Subgroup}

theorem Group.listOf_eq_some (h : g.listOf sid = some (i, sg)) :
    g.sgs[i]? = some sg ∧ sg.subgroupId = sid := by
  obtain ⟨j, hj, hsg⟩ := Option.bind_eq_some_iff.mp h
  obtain ⟨x, hx, he⟩ := Option.map_eq_some_iff.mp hsg
  obtain ⟨rfl, rfl⟩ := Prod.mk.inj he
  obtain ⟨hlt, hp, -⟩ := findIdx?_eq_some_iff_getElem.mp hj
  rw [getElem?_eq_getElem hlt] at hx
  cases hx
  exact ⟨getElem?_eq_getElem hlt, by simpa using hp⟩

theorem Group.listOf_eq_none (h : g.listOf sid = none) : ∀ sg ∈ g.sgs, sg.subgroupId ≠ sid := by
  cases hj : g.sgs.findIdx? fun sg => sg.subgroupId = sid with
  | none =>
    intro sg hsg
    simpa using findIdx?_eq_none_iff.mp hj sg hsg
  | some j =>
    obtain ⟨hlt, -⟩ := findIdx?_eq_some_iff_getElem.mp hj
    simp [listOf, hj, getElem?_eq_getElem hlt] at h

theorem RecVec.push_eq_some {v' : RecVec} {mem : Bool} (h : v.push r mem = some v') :
    v'.recs = v.recs ++ [r] ∧ (v.Wf → v'.Wf) := by
  unfold push at h
  split at h
  · split at h
    · cases h
      refine ⟨rfl, fun hv => ⟨?_, ?_⟩⟩ <;> simp only [length_append, length_singleton] <;>
        split <;> omega
    · cases h
  · cases h
    refine ⟨rfl, fun hv => ⟨?_, ?_⟩⟩ <;> simp only [length_append, length_singleton]
    · have := hv.length_le
      omega
    · have := hv.cap_le
      omega

/-- `g'` is `g` with the record `r` pushed to the end of the list `s`. -/
structure Group.Pushed (g g' : Group) (s : ListSlot) (n : ℕ) (r : Rec) : Prop where
  perm : g'.recs.Perm (r :: g.recs)
  free : g.recAt? s n = none
  recAt : ∀ s' j, g'.recAt? s' j = if s' = s ∧ j = n then some r else g.recAt? s' j

theorem Group.Pushed.account {s : ListSlot} {n : ℕ} (h : g.Pushed g' s n r) (cap : ℕ)
    (d : AppendDesc) : g.Pushed (g'.account cap d) s n r := ⟨h.perm, h.free, h.recAt⟩

theorem Group.pushed_datagram (g : Group) (r : Rec) (hv : v.recs = g.dg.recs ++ [r]) :
    g.Pushed { g with dg := v } .datagram g.dg.recs.length r where
  perm := by
    simp only [recs, hv, ← append_assoc]
    exact perm_append_singleton _ _
  free := by simp [recAt?, list?]
  recAt s' j := by
    cases s' with
    | datagram => simp [recAt?, list?, hv, getElem?_snoc]
    | subgroup k => simp [recAt?, list?]

theorem Group.pushed_subgroup (hi : g.sgs[i]? = some sg) (hv : sg'.v.recs = sg.v.recs ++ [r]) :
    g.Pushed (g.pushSubgroup i sg') (.subgroup i) sg.v.recs.length r := by
  obtain ⟨hlt, hget⟩ := List.getElem?_eq_some_iff.mp hi
  have hpush : (g.pushSubgroup i sg').sgs = g.sgs.set i sg' := if_neg (by omega)
  refine ⟨?_, by simp [recAt?, list?, hi], ?_⟩
  · have hsplit : g.sgs = g.sgs.take i ++ sg :: g.sgs.drop (i + 1) := by
      rw [← hget]
      simp
    have hset : g.sgs.set i sg' = g.sgs.take i ++ sg' :: g.sgs.drop (i + 1) :=
      set_eq_take_append_cons_drop.trans (if_pos hlt)
    rw [recs, recs, hpush, hset]
    conv_rhs => rw [hsplit]
    simp only [flatMap_append, flatMap_cons, hv, append_assoc]
    refine (List.Perm.append_left _ ?_).trans perm_middle
    exact perm_middle
  · intro s' j
    cases s' with
    | datagram => simp [recAt?, list?, pushSubgroup]
    | subgroup k =>
      simp only [recAt?, list?, hpush, ListSlot.subgroup.injEq, getElem?_set]
      by_cases hk : i = k
      · subst hk
        simp only [if_true, hlt, Option.map_some, Option.bind_some, hv, hi, true_and, getElem?_snoc]
      · simp [hk, Ne.symm hk]

theorem Group.pushed_new_subgroup (g : Group) (hv : sg'.v.recs = [r]) :
    g.Pushed (g.pushSubgroup g.sgs.length sg') (.subgroup g.sgs.length) 0 r := by
  have hpush : (g.pushSubgroup g.sgs.length sg').sgs = g.sgs ++ [sg'] := if_pos rfl
  refine ⟨?_, by simp [recAt?, list?], ?_⟩
  · rw [recs, hpush]
    simp only [flatMap_append, flatMap_cons, flatMap_nil, hv, append_nil,
      append_assoc, singleton_append]
    exact perm_middle
  · intro s' j
    cases s' with
    | datagram => simp [recAt?, list?, pushSubgroup]
    | subgroup k =>
      simp only [recAt?, list?, hpush, ListSlot.subgroup.injEq, getElem?_snoc]
      by_cases hk : k = g.sgs.length
      · simp only [hk, if_true, Option.map_some, Option.bind_some, hv, true_and,
          getElem?_eq_none le_rfl, Option.map_none, Option.bind_none]
        cases j <;> simp
      · simp [hk]

/-- The rewritten record holds the same buffers and chunks. -/
structure Rec.SameContent (r r' : Rec) : Prop where
  bytes : r'.bytes = r.bytes
  declaredLen : r'.declaredLen = r.declaredLen
  payload : r'.payload = r.payload
  properties : r'.properties = r.properties
  chunkHead : r'.chunkHead = r.chunkHead
  chunkTail : r'.chunkTail = r.chunkTail
  chunkCount : r'.chunkCount = r.chunkCount

theorem Rec.SameContent.refl (r : Rec) : r.SameContent r := ⟨rfl, rfl, rfl, rfl, rfl, rfl, rfl⟩

/-! ## What the refusals leave -/

namespace Log

variable {log : Log}

/-- What an append that passed every check before activation looks like. -/
structure Admitted (log : Log) (d : AppendDesc) : Prop where
  state : d.objState = .complete ∨ d.objState = .open
  openForm : d.objState = .open → d.payload = none ∧ d.datagramPref = false ∧ d.status = .normal
  status : d.status ≠ .normal → d.payload = none
  beforeEnd : log.endOfTrack → d.groupId ≤ log.finalGroupId ∧
    (d.groupId = log.finalGroupId → d.objectId ≤ log.finalTrackObjectId)
  ceiling : d.ceiling ≤ log.lim.maxBytes
  preflight : log.finalPreflight d = false

theorem appendRefuse_eq_none (h : log.appendRefuse d = none) : log.Admitted d := by
  unfold appendRefuse at h
  split_ifs at h with h1 h2 h3 h4 h5 h6 h7
  refine ⟨by tauto, fun ho => ?_, fun hs => ?_, fun he => ?_, UInt64.not_lt.mp h6,
    by simpa using h7⟩
  · simp only [ho, true_and, not_or, Bool.not_eq_true, ne_eq, not_not] at h4
    exact ⟨by simpa using h4.1, h4.2.1, h4.2.2⟩
  · simpa [hs] using h2
  · simp only [he, true_and, not_or, not_and, Nat.not_lt] at h5
    exact h5

/-- The order checks against the subgroup list an append goes to. -/
def ListOrder (lim : LogLimits) (g : Group) (d : AppendDesc) : Prop :=
  match g.listOf d.subgroupId with
  | none => g.sgs.length ≠ lim.maxSubgroups
  | some (_, sg) => sg.hasRecords →
      sg.lastObjectId < d.objectId ∧ ∀ r ∈ sg.v.recs.getLast?, r.objState ≠ .open

/-- What an append that passed every check against its group looks like. -/
structure Fits (log : Log) (g : Group) (d : AppendDesc) : Prop where
  final : g.hasFinal → d.objectId ≤ g.finalObjectId
  count : g.recordCount < log.lim.maxObjectsPerGroup
  fresh : g.idSetContains log.lim.idSetCap d.objectId = false
  order : d.datagramPref = false → ListOrder log.lim g d

theorem groupRefuse_eq_none (h : log.groupRefuse g d = none) : log.Fits g d := by
  unfold groupRefuse at h
  by_cases h1 : g.hasFinal ∧ g.finalObjectId < d.objectId
  · simp [h1] at h
  by_cases h2 : log.lim.maxObjectsPerGroup ≤ g.recordCount
  · simp [h1, h2] at h
  by_cases h3 : g.idSetContains log.lim.idSetCap d.objectId
  · simp [h1, h2, h3] at h
  refine ⟨fun hf => ?_, by omega, by simpa using h3, fun hd => ?_⟩
  · simp only [hf, true_and, Nat.not_lt] at h1
    exact h1
  · rw [if_neg h1, if_neg h2, if_neg h3, hd, if_neg (by simp)] at h
    unfold ListOrder
    cases hl : g.listOf d.subgroupId with
    | none =>
      rw [hl] at h
      simpa using h
    | some p =>
      simp only [hl] at h
      split_ifs at h with h5 h6
      intro hr
      simp only [hr, true_and, Nat.not_le] at h5 h6
      refine ⟨h5, fun r hm => ?_⟩
      rw [Option.mem_def.mp hm] at h6
      simpa using h6

/-- **The preflight clears the group**: a record that would become the final has nothing retained
beyond it. -/
theorem finalPreflight_clears (hg : log.groupFind d.groupId = some g)
    (h : log.finalPreflight d = false) (hlow : g.Lowers d) :
    g.retainsBeyond d.objectId = false := by
  have hev : (d.eogEvidence || d.eotEvidence) := by
    rcases hlow with h | h <;> simp [h.1]
  simp only [finalPreflight, hev, if_true, hg, Bool.or_eq_false_iff, Bool.and_eq_false_iff] at h
  refine h.1.1.resolve_left fun hc => ?_
  rcases hlow with ⟨-, hf | hf⟩ | ⟨ht, -⟩
  · simp [hf] at hc
  · simp [hf] at hc
  · simp [ht] at hc

end Log

/-! ## The lists after a push -/

theorem RecVec.Wf.empty : RecVec.empty.Wf := ⟨le_rfl, by decide⟩

/-- A list that is ascending below the new id and has nothing OPEN stays well formed when the record
is pushed. -/
theorem Subgroup.Wf.pushed (hvec : v.Wf)
    (hv : v.recs = sg.v.recs ++ [r]) (hid : r.objectId = d.objectId)
    (hr : r.subgroupId = sg.subgroupId ∧ r.datagramPref = false)
    (hasc : (sg.v.recs.map Rec.objectId).Pairwise (· < ·))
    (hlt : ∀ x ∈ sg.v.recs, x.objectId < d.objectId)
    (howner : ∀ x ∈ sg.v.recs, x.subgroupId = sg.subgroupId ∧ x.datagramPref = false)
    (hopen : ∀ x ∈ sg.v.recs, x.objState ≠ .open) : (sg.pushed d v).Wf where
  vec := hvec
  has := rfl
  ascending := by
    simp only [Subgroup.pushed, hv, map_append, map_cons, map_nil]
    refine pairwise_append.mpr ⟨hasc, by simp, fun a ha b hb => ?_⟩
    obtain ⟨x, hx, rfl⟩ := mem_map.mp ha
    rw [mem_singleton.mp hb, hid]
    exact hlt x hx
  last := by simp [Subgroup.pushed, hv, hid]
  owner x hx := by
    simp only [Subgroup.pushed, hv, mem_append, mem_singleton] at hx
    rcases hx with hx | rfl
    · exact howner x hx
    · exact hr
  tailOpen x hx := by
    simp only [Subgroup.pushed, hv, dropLast_concat] at hx
    exact hopen x hx

/-- The records of a list whose tail is not OPEN are all not OPEN. -/
theorem Subgroup.Wf.not_open (h : sg.Wf)
    (ht : ∀ r ∈ sg.v.recs.getLast?, r.objState ≠ .open) : ∀ x ∈ sg.v.recs, x.objState ≠ .open := by
  intro x hx
  have hne : sg.v.recs ≠ [] := ne_nil_of_mem hx
  rw [← dropLast_append_getLast hne] at hx
  rcases mem_append.mp hx with hx | hx
  · exact h.tailOpen x hx
  · rw [mem_singleton.mp hx]
    exact ht _ (getLast?_eq_some_getLast hne)

theorem Group.Lists.push_datagram (h : g.Lists lim) (hvec : v.Wf)
    (hv : v.recs = g.dg.recs ++ [r]) (hr : r.datagramPref ∧ r.objState = .complete)
    (hid : r.groupId = g.groupId) : ({ g with dg := v } : Group).Lists lim where
  sgs_le := h.sgs_le
  sgs := h.sgs
  sgIds := h.sgIds
  dg := hvec
  dgOwner x hx := by
    simp only [hv, mem_append, mem_singleton] at hx
    rcases hx with hx | rfl
    · exact h.dgOwner x hx
    · exact hr
  owner x hx := by
    rcases mem_cons.mp ((g.pushed_datagram r hv).perm.mem_iff.mp hx) with rfl | hx
    · exact hid
    · exact h.owner x hx

theorem Group.Lists.push_subgroup (h : g.Lists lim)
    (hi : g.sgs[i]? = some sg) (hv : sg'.v.recs = sg.v.recs ++ [r]) (hwf : sg'.Wf)
    (hsid : sg'.subgroupId = sg.subgroupId) (hid : r.groupId = g.groupId) :
    (g.pushSubgroup i sg').Lists lim := by
  obtain ⟨hlt, hget⟩ := List.getElem?_eq_some_iff.mp hi
  have hpush : (g.pushSubgroup i sg').sgs = g.sgs.set i sg' := if_neg (by omega)
  refine ⟨?_, fun x hx => ?_, ?_, h.dg, h.dgOwner, fun x hx => ?_⟩
  · rw [hpush, length_set]
    exact h.sgs_le
  · rw [hpush] at hx
    rcases mem_or_eq_of_mem_set hx with hx | rfl
    · exact h.sgs x hx
    · exact hwf
  · have hmap : (g.sgs.set i sg').map Subgroup.subgroupId = g.sgs.map Subgroup.subgroupId := by
      refine ext_getElem? fun k => ?_
      rw [map_set, hsid, getElem?_set]
      split
      · rename_i hik
        simp [← hik, hget, hlt]
      · rfl
    rw [hpush, hmap]
    exact h.sgIds
  · rcases mem_cons.mp ((pushed_subgroup hi hv).perm.mem_iff.mp hx) with rfl | hx
    · exact hid
    · exact h.owner x hx

theorem Group.Lists.push_new_subgroup (h : g.Lists lim)
    (hv : sg'.v.recs = [r]) (hwf : sg'.Wf) (hroom : g.sgs.length ≠ lim.maxSubgroups)
    (hnew : ∀ sg ∈ g.sgs, sg.subgroupId ≠ sg'.subgroupId) (hid : r.groupId = g.groupId) :
    (g.pushSubgroup g.sgs.length sg').Lists lim := by
  have hpush : (g.pushSubgroup g.sgs.length sg').sgs = g.sgs ++ [sg'] := if_pos rfl
  refine ⟨?_, fun x hx => ?_, ?_, h.dg, h.dgOwner, fun x hx => ?_⟩
  · have := h.sgs_le
    rw [hpush, length_append, length_singleton]
    omega
  · rw [hpush] at hx
    rcases mem_append.mp hx with hx | hx
    · exact h.sgs x hx
    · rwa [mem_singleton.mp hx]
  · rw [hpush, map_append, nodup_append]
    refine ⟨h.sgIds, by simp, fun a ha b hb => ?_⟩
    obtain ⟨sg, hsg, rfl⟩ := mem_map.mp ha
    rw [mem_singleton.mp hb]
    exact hnew sg hsg
  · rcases mem_cons.mp ((g.pushed_new_subgroup hv).perm.mem_iff.mp hx) with rfl | hx
    · exact hid
    · exact h.owner x hx

/-- **Accounting for a pushed record restores the group's invariant.** -/
theorem Group.Wf.account {s : ListSlot} {n : ℕ} {log : Log}
    (hl : log.lim.Ok) (h : g.Wf log.lim) (hlists : g'.Lists log.lim) (hp : g.Pushed g' s n r)
    (hr : r.objectId = d.objectId ∧ r.bytes = d.bytes) (hfit : log.Fits g d)
    (hlow : g.Lowers d → ∀ x ∈ g.recs, x.objectId ≤ d.objectId)
    (hsame : g'.idSet = g.idSet ∧ g'.hasMaxObject = g.hasMaxObject ∧ g'.bytes = g.bytes ∧
      g'.recordCount = g.recordCount ∧ g'.hasFinal = g.hasFinal ∧
      g'.finalObjectId = g.finalObjectId) : (g'.account log.lim.idSetCap d).Wf log.lim := by
  obtain ⟨hset, hflag, hbytes, hcount, hhas, hfin⟩ := hsame
  have hids : (g'.recs.map Rec.objectId).Perm (d.objectId :: g.recs.map Rec.objectId) := by
    simpa [hr.1] using hp.perm.map Rec.objectId
  have hnew : d.objectId ∉ g.recs.map Rec.objectId := fun hc => by
    have := (h.ids.contains_iff hl _).mpr hc
    rw [hfit.fresh] at this
    cases this
  have hlen : (g.recs.map Rec.objectId).length < log.lim.idSetCap := by
    have h1 := hl.idSetCap_ge
    have h2 := hfit.count
    rw [length_map, ← h.recordCount]
    omega
  have hins := h.ids.insert hl hset hflag hnew hlen hids
  exact
    { hlists with
      recordCount := by
        change g'.recordCount + 1 = g'.recs.length
        rw [hcount, h.recordCount, hp.perm.length_eq, length_cons]
      count_le := by
        change g'.recordCount + 1 ≤ _
        rw [hcount]
        exact hfit.count
      bytes := by
        change (g'.recs.map Rec.bytes).sum = g'.bytes + d.bytes
        rw [(hp.perm.map Rec.bytes).sum_eq, map_cons, sum_cons, h.bytes, hr.2, hbytes, add_comm]
      idsNodup := hids.nodup_iff.mpr (nodup_cons.mpr ⟨hnew, h.idsNodup⟩)
      ids := by
        have hrecs : (g'.idSetInsert log.lim.idSetCap d.objectId).recs = g'.recs := by
          unfold idSetInsert
          split <;> rfl
        exact ⟨hins.probed, fun x => by rw [account_recs, ← hrecs]; exact hins.mem x,
          by rw [account_recs, ← hrecs]; exact hins.max⟩
      final := h.final.account ⟨hhas, hfin⟩ hids hfit.final hlow }

/-! ## The commit -/

namespace Log

variable {log log' : Log} {mem : AppendMem}

/-- What a commit does to the target group: one record pushed to one list, and accounted for. -/
structure Committed (log log' : Log) (g : Group) (d : AppendDesc) (f : Group → Group) (s : ListSlot)
    (n : ℕ) (r : Rec) : Prop where
  eq : ∃ holes, log' = ({ log.modifyGroup d.groupId f with holes := holes }).account d s n
  pushed : g.Pushed (f g) s n r
  wf : (f g).Wf log.lim
  groupId : (f g).groupId = g.groupId
  recordCount : (f g).recordCount = g.recordCount + 1
  bytes : (f g).bytes = g.bytes + d.bytes
  final : (f g).hasFinal = (g.finalAfter d).1 ∧ (f g).finalObjectId = (g.finalAfter d).2
  record : r.arrivalSeq = log.nextSeq ∧ r.objectId = d.objectId ∧ r.bytes = d.bytes ∧
    r.objState = d.objState ∧ r.properties = d.properties ∧ r.status = d.status
  content : (log.baseRec d).SameContent r

/-- The list a subgroup record is pushed to: an existing one, ascending below the record and with
nothing OPEN, or the prepared slot after the last. -/
theorem destSubgroup_cases (hwf : g.Wf log.lim) (hord : ListOrder log.lim g d) {i : ℕ}
    {sg : Subgroup} (h : log.destSubgroup g d = (i, sg)) :
    sg.subgroupId = d.subgroupId ∧
      (g.sgs[i]? = some sg ∧ sg.Wf ∧ (∀ x ∈ sg.v.recs, x.objectId < d.objectId) ∧
          (∀ x ∈ sg.v.recs, x.objState ≠ .open) ∨
        i = g.sgs.length ∧ g.sgs.length ≠ log.lim.maxSubgroups ∧ sg.v = .empty ∧
          ∀ x ∈ g.sgs, x.subgroupId ≠ d.subgroupId) := by
  unfold destSubgroup at h
  unfold ListOrder at hord
  cases hl : g.listOf d.subgroupId with
  | none =>
    rw [hl] at h hord
    obtain ⟨rfl, rfl⟩ := Prod.mk.inj h
    exact ⟨rfl, .inr ⟨rfl, hord, rfl, Group.listOf_eq_none hl⟩⟩
  | some p =>
    rw [hl] at h hord
    obtain rfl : p = (i, sg) := h
    obtain ⟨hi, hsid⟩ := Group.listOf_eq_some hl
    have hsg := hwf.sgs sg (mem_of_getElem? hi)
    obtain ⟨hlast, hopen⟩ := hord hsg.has
    exact ⟨hsid, .inl ⟨hi, hsg, fun x hx => lt_of_le_of_lt (hsg.le_last hx) hlast,
      hsg.not_open hopen⟩⟩

/-- **A commit pushes one record and keeps the group's invariant.** -/
theorem commit_spec (hl : log.lim.Ok) (hfind : log.groupFind d.groupId = some g)
    (hid : g.groupId = d.groupId) (hwf : g.Wf log.lim) (hadm : log.Admitted d)
    (hfit : log.Fits g d) (h : log.commit g d mem = some log') :
    ∃ f s n r, log.Committed log' g d f s n r := by
  have hlow : g.Lowers d → ∀ x ∈ g.recs, x.objectId ≤ d.objectId := fun hlw =>
    hwf.toLists.le_of_not_retainsBeyond (finalPreflight_clears hfind hadm.preflight hlw)
  unfold commit at h
  split at h
  · -- A datagram: the group's one unordered list.
    rename_i hdg
    cases hp : g.dg.push (log.baseRec d) mem.vec with
    | none => simp [hp] at h
    | some v =>
      simp only [hp, Option.some.injEq] at h
      obtain ⟨hv, hvec⟩ := RecVec.push_eq_some hp
      have hst : d.objState = .complete := hadm.state.resolve_right fun ho => by
        simpa [hdg] using (hadm.openForm ho).2.1
      have hpush := g.pushed_datagram (log.baseRec d) hv
      refine ⟨fun g => ({ g with dg := v } : Group).account log.lim.idSetCap d, .datagram,
        g.dg.recs.length, log.baseRec d, ⟨log.holes, h.symm⟩, hpush.account _ d, ?_, rfl, rfl, rfl,
        ⟨rfl, rfl⟩, ⟨rfl, rfl, rfl, rfl, rfl, rfl⟩, .refl _⟩
      exact hwf.account hl (hwf.toLists.push_datagram (hvec hwf.dg) hv ⟨hdg, hst⟩ hid.symm) hpush
        ⟨rfl, rfl⟩ hfit hlow ⟨rfl, rfl, rfl, rfl, rfl, rfl⟩
  · -- A subgroup record.
    rename_i hdg
    have hdg' : d.datagramPref = false := by simpa using hdg
    obtain ⟨i, sg, hdest⟩ : ∃ i sg, log.destSubgroup g d = (i, sg) := ⟨_, _, rfl⟩
    simp only [hdest] at h
    obtain ⟨hsid, hcase⟩ := destSubgroup_cases hwf (hfit.order hdg') hdest
    cases hp : sg.v.push (log.subgroupRec d sg) mem.vec with
    | none => simp [hp] at h
    | some v =>
      simp only [hp, Option.some.injEq] at h
      obtain ⟨hv, hvec⟩ := RecVec.push_eq_some hp
      have hrec : (log.subgroupRec d sg).subgroupId = sg.subgroupId ∧
          (log.subgroupRec d sg).datagramPref = false := by
        simp [subgroupRec, baseRec, hdg', hsid]
      have hgid : (log.subgroupRec d sg).groupId = g.groupId := hid.symm
      have hlog : ∃ holes, log' = ({ log.modifyGroup d.groupId (fun g =>
            (g.pushSubgroup i (sg.pushed d v)).account log.lim.idSetCap d) with
            holes := holes }).account d (.subgroup i) sg.v.recs.length := by
        split at h <;> exact ⟨_, h.symm⟩
      have hres : g.Pushed (g.pushSubgroup i (sg.pushed d v)) (.subgroup i) sg.v.recs.length
            (log.subgroupRec d sg) ∧ (g.pushSubgroup i (sg.pushed d v)).Lists log.lim := by
        rcases hcase with ⟨hi, hsg, hlt, hopen⟩ | ⟨rfl, hroom, hempty, hnew⟩
        · exact ⟨Group.pushed_subgroup hi hv, hwf.toLists.push_subgroup hi hv
            (Subgroup.Wf.pushed (hvec hsg.vec) hv rfl hrec hsg.ascending hlt hsg.owner hopen) rfl
            hgid⟩
        · have hv' : v.recs = [log.subgroupRec d sg] := by rw [hv, hempty]; rfl
          have hsgwf : (sg.pushed d v).Wf := by
            refine Subgroup.Wf.pushed (hvec (hempty ▸ RecVec.Wf.empty)) hv rfl hrec ?_ ?_ ?_ ?_ <;>
              simp [hempty, RecVec.empty]
          rw [hempty]
          exact ⟨g.pushed_new_subgroup hv', hwf.toLists.push_new_subgroup hv' hsgwf hroom
            (fun x hx => hsid ▸ hnew x hx) hgid⟩
      refine ⟨fun g => (g.pushSubgroup i (sg.pushed d v)).account log.lim.idSetCap d, .subgroup i,
        sg.v.recs.length, log.subgroupRec d sg, hlog, hres.1.account _ d, ?_, rfl, rfl, rfl,
        ⟨rfl, rfl⟩, ⟨rfl, rfl, rfl, rfl, rfl, rfl⟩, ⟨rfl, rfl, rfl, rfl, rfl, rfl, rfl⟩⟩
      exact hwf.account hl hres.2 hres.1 ⟨rfl, rfl⟩ hfit hlow ⟨rfl, rfl, rfl, rfl, rfl, rfl⟩

end Log

end MoqRelay
