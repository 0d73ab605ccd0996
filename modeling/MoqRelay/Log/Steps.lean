import MoqRelay.Log.Atom

/-!
# Log/Steps — the operations, decomposed

Each operation of the log is shown to be a sequence of atoms.  For an append the sequence is pinned
down: room is made, and then, exactly when the call reports `MOQR_OK`, one record is committed into
a log that passes the checks the call made before it evicted anything.
-/

namespace MoqRelay

open List

namespace Log

variable {log log' : Log} {gid sid oid i : ℕ} {g : Group} {r : Rec} {d : AppendDesc}
  {mem : AppendMem}

/-! ## Evicting the oldest group -/

@[simp] theorem evictGroupAt_groups (log : Log) :
    (log.evictGroupAt 0).groups = log.groups.tail := by
  cases hgs : log.groups with
  | nil => simp [evictGroupAt, hgs]
  | cons g rest => simp [evictGroupAt, hgs, dropGroup, journalCompactHead]

@[simp] theorem evictGroupAt_lim (log : Log) (n : ℕ) : (log.evictGroupAt n).lim = log.lim := by
  unfold evictGroupAt
  split <;> rfl

theorem rooms_evictGroupAt (gid : ℕ) (log : Log) : Rooms gid log (log.evictGroupAt 0) := by
  cases hgs : log.groups with
  | nil =>
    rw [show log.evictGroupAt 0 = log by simp [evictGroupAt, hgs]]
    exact .refl
  | cons g rest =>
    rw [show log.evictGroupAt 0 = (log.dropGroup 0 g).journalCompactHead by
      simp [evictGroupAt, hgs]]
    exact (Relation.ReflTransGen.single (.drop hgs)).tail .compact

/-- Evicting the oldest group leaves the lookup of every other group alone. -/
theorem groupFind_evictGroupAt (h : log.Wf) (hold : log.isOldest gid = false) :
    (log.evictGroupAt 0).groupFind gid = log.groupFind gid := by
  cases hgs : log.groups with
  | nil => simp [evictGroupAt, hgs]
  | cons g rest =>
    have hne : ¬ gid = g.groupId := fun he => by simp [isOldest, hgs, he] at hold
    rw [show log.evictGroupAt 0 = (log.dropGroup 0 g).journalCompactHead by
      simp [evictGroupAt, hgs]]
    exact (groupFind_dropGroup h.sorted hgs gid).trans (if_neg hne)

/-! ## The preflight survives making room -/

theorem finalPreflight_eq_false_iff : log.finalPreflight d = false ↔
    (d.eogEvidence || d.eotEvidence) →
      (∀ pg, log.groupFind d.groupId = some pg →
        ((d.eotEvidence || !pg.hasFinal || decide (d.objectId < pg.finalObjectId)) →
          pg.retainsBeyond d.objectId = false) ∧
        ((d.eotEvidence && pg.hasFinal) → pg.finalObjectId ≤ d.objectId)) ∧
      (d.eotEvidence → ∀ last, log.groups.getLast? = some last →
        last.groupId ≤ d.groupId) := by
  unfold finalPreflight
  split
  · rename_i hev
    simp only [hev, true_implies, Bool.or_eq_false_iff]
    refine and_congr ?_ ?_
    · cases log.groupFind d.groupId with
      | none => simp
      | some pg =>
        simp only [Option.some.injEq, forall_eq']
        cases d.eotEvidence <;> cases pg.hasFinal <;> cases pg.retainsBeyond d.objectId <;> simp
    · cases hl : log.groups.getLast? with
      | none => simp
      | some last =>
        cases d.eotEvidence <;> simp
  · rename_i hev
    simp [hev]

theorem Room.admitted (hr : Room d.groupId log log') (hwf : log.Wf) (h : log.Admitted d) :
    log'.Admitted d := by
  cases hr with
  | compact => exact { h with }
  | drop hgs =>
    rename_i g rest
    refine { h with preflight := ?_ }
    have hp := finalPreflight_eq_false_iff.mp h.preflight
    refine finalPreflight_eq_false_iff.mpr fun hev =>
      ⟨fun pg hpg => (hp hev).1 pg ?_, fun ht last hl =>
      (hp hev).2 ht last ?_⟩
    · rw [groupFind_dropGroup hwf.sorted hgs] at hpg
      exact (Option.ite_none_left_eq_some.mp hpg).2
    · have : rest.getLast? = some last := by simpa [dropGroup, hgs] using hl
      rw [hgs, getLast?_cons, this]
      rfl
  | activate hgid habs hhor hroom =>
    rename_i nowUs
    refine { h with preflight := ?_ }
    have hp := finalPreflight_eq_false_iff.mp h.preflight
    obtain ⟨l₁, l₂, hgs, hins, -⟩ := insert_split hwf.sorted habs nowUs
    refine finalPreflight_eq_false_iff.mpr fun hev => ⟨fun pg hpg => ?_, fun ht last hl => ?_⟩
    · -- The group is the fresh one: it has no final and retains nothing.
      rw [groupFind_insertIdx hwf.sorted habs, if_pos rfl] at hpg
      cases hpg
      simp [Group.fresh, Group.retainsBeyond, RecVec.empty]
    · have hlast : (l₁ ++ .fresh d.groupId nowUs :: l₂).getLast? = some last := hins ▸ hl
      rw [getLast?_append, getLast?_cons] at hlast
      cases hl2 : l₂.getLast? with
      | none =>
        rw [hl2] at hlast
        obtain rfl : Group.fresh d.groupId nowUs = last := by simpa using hlast
        exact le_rfl
      | some x =>
        rw [hl2] at hlast
        refine (hp hev).2 ht last ?_
        rw [hgs, getLast?_append, hl2]
        simpa using hlast

theorem Rooms.admitted (hr : Rooms d.groupId log log') (hwf : log.Wf) (h : log.Admitted d) :
    log'.Admitted d := by
  induction hr with
  | refl => exact h
  | tail hprev hstep ih => exact hstep.admitted (Rooms.wf hprev hwf) ih

theorem Rooms.lim (hr : Rooms gid log log') : log'.lim = log.lim := by
  induction hr with
  | refl => rfl
  | tail _ hstep ih => cases hstep <;> exact ih

/-! ## The loops that make room -/

/-- One step of making room for the group `gid`: the head of the journal moves on, the oldest group
goes, which is an older one, or the group itself is put in. -/
inductive Trim (gid : ℕ) : Log → Log → Prop
  | compact {log : Log} : Trim gid log log.journalCompactHead
  | evict {log : Log} (hold : ∀ g ∈ log.groups.head?, g.groupId < gid) :
      Trim gid log (log.evictGroupAt 0)
  | activate {log : Log} {nowUs : ℕ} (hgid : gid ≤ u64Max) (habs : log.groupFind gid = none)
      (hhor : log.belowHorizon gid = false) (hroom : log.groups.length < log.lim.maxGroups) :
      Trim gid log { log with
        groups := log.groups.insertIdx (log.groupIdx gid) (.fresh gid nowUs) }

/-- Making room for a group, which stays. -/
def Trims (gid : ℕ) : Log → Log → Prop := Relation.ReflTransGen (Trim gid)

theorem Trims.rooms (h : Trims gid log log') : Rooms gid log log' := by
  induction h with
  | refl => exact .refl
  | tail _ hstep ih =>
    cases hstep with
    | compact => exact ih.tail .compact
    | evict => exact ih.trans (rooms_evictGroupAt gid _)
    | activate hgid habs hhor hroom => exact ih.tail (.activate hgid habs hhor hroom)

theorem Trims.wf (h : Trims gid log log') (hw : log.Wf) : log'.Wf := h.rooms.wf hw

/-- A retained group that is not the oldest has an older one before it. -/
theorem head_lt_of_not_oldest (hw : log.Wf) (hfind : log.groupFind gid = some g)
    (hold : log.isOldest gid = false) : ∀ g ∈ log.groups.head?, g.groupId < gid := by
  obtain ⟨hmem, rfl⟩ := (groupFind_eq_some_iff hw.sorted).mp hfind
  intro x hx
  obtain ⟨rest, hgs⟩ := head?_eq_some_iff.mp hx
  rw [hgs] at hmem
  rcases mem_cons.mp hmem with rfl | hmem
  · simp [isOldest, hgs] at hold
  · have hs := hgs ▸ hw.sorted
    exact rel_of_pairwise_cons hs hmem

/-- One turn of a loop: the oldest group goes, and the target stays as it was. -/
theorem trim_evictGroupAt (hw : log.Wf) (hfind : log.groupFind gid = some g)
    (hold : ¬ log.isOldest gid) :
    Trim gid log (log.evictGroupAt 0) ∧ (log.evictGroupAt 0).groupFind gid = some g := by
  rw [Bool.not_eq_true] at hold
  exact ⟨.evict (head_lt_of_not_oldest hw hfind hold), (groupFind_evictGroupAt hw hold).trans hfind⟩

/-- What a loop that makes room for the group `g` leaves behind: a refusal for want of capacity, or
a log in which the group is untouched and `P` holds. -/
def MadeRoom (gid : ℕ) (g : Group) (log : Log) (P : Log → Prop) : Except (Result × Log) Log → Prop
  | .ok log' => Trims gid log log' ∧ log'.groupFind gid = some g ∧ P log'
  | .error e => Trims gid log e.2 ∧ e.1 = .capacity

variable {log₁ : Log}

theorem MadeRoom.head {P : Log → Prop} {out : Except (Result × Log) Log}
    (ht : Trims gid log log₁) (h : MadeRoom gid g log₁ P out) : MadeRoom gid g log P out := by
  cases out with
  | ok log' | error e => exact ⟨ht.trans h.1, h.2⟩

/-- **The byte-budget loop.** -/
theorem fitBytes_madeRoom (b : UInt64) : ∀ n log, log.Wf → log.groupFind gid = some g →
    MadeRoom gid g log (fun l => l.retainedBytes + b ≤ l.lim.maxBytes) (fitBytes gid b n log)
  | 0, log, _, hf => by
      unfold fitBytes
      split
      · exact ⟨.refl, rfl⟩
      · rename_i hle
        exact ⟨.refl, hf, UInt64.not_lt.mp hle⟩
  | n + 1, log, h, hf => by
      unfold fitBytes
      by_cases hlt : log.lim.maxBytes < log.retainedBytes + b
      · rw [if_pos hlt]
        by_cases hold : log.isOldest gid
        · rw [if_pos hold]
          exact ⟨.refl, rfl⟩
        · obtain ⟨ht, hf'⟩ := trim_evictGroupAt h hf hold
          have ht : Trims gid log (log.evictGroupAt 0) := .single ht
          rw [if_neg hold]
          dsimp only
          rw [hf']
          exact (fitBytes_madeRoom b n _ (ht.wf h) hf').head ht
      · rw [if_neg hlt]
        exact ⟨.refl, hf, UInt64.not_lt.mp hlt⟩

/-- **The journal-window loop.** -/
theorem fitJournal_madeRoom (n : ℕ) (log : Log) (h : log.Wf) (hf : log.groupFind gid = some g) :
    MadeRoom gid g log (fun l => l.nextSeq < l.beginSeq + l.lim.maxRecords)
      (fitJournal gid n log) := by
  have hw := h.window
  have hc : Trims gid log log.journalCompactHead := .single .compact
  cases n with
  | zero =>
    unfold fitJournal
    split
    · dsimp only
      split
      · exact ⟨hc, hf, by omega⟩
      · exact ⟨hc, rfl⟩
    · exact ⟨.refl, hf, by omega⟩
  | succ n =>
    unfold fitJournal
    by_cases hfull : log.nextSeq - log.beginSeq = log.lim.maxRecords
    · rw [if_pos hfull]
      dsimp only
      by_cases hlt : log.journalCompactHead.nextSeq - log.journalCompactHead.beginSeq
          < log.journalCompactHead.lim.maxRecords
      · rw [if_pos hlt]
        exact ⟨hc, hf, by omega⟩
      · rw [if_neg hlt]
        by_cases hold : log.journalCompactHead.isOldest gid
        · rw [if_pos hold]
          exact ⟨hc, rfl⟩
        · obtain ⟨ht, hf'⟩ := trim_evictGroupAt (hc.wf h) hf hold
          have ht : Trims gid log (log.journalCompactHead.evictGroupAt 0) := hc.tail ht
          rw [if_neg hold, hf']
          exact (fitJournal_madeRoom n _ (ht.wf h) hf').head ht
    · rw [if_neg hfull]
      exact ⟨.refl, hf, by omega⟩

/-- A group above the horizon that is not retained and not below the oldest one stays above the
horizon when the oldest is evicted. -/
theorem belowHorizon_evictGroupAt (h : log.Wf) (hf : log.groupFind gid = none)
    (hhor : log.belowHorizon gid = false)
    (hhead : (log.groups.head?.any fun g => gid < g.groupId) = false) :
    (log.evictGroupAt 0).belowHorizon gid = false := by
  cases hgs : log.groups with
  | nil =>
    rwa [show log.evictGroupAt 0 = log by simp [evictGroupAt, hgs]]
  | cons g rest =>
    rw [show log.evictGroupAt 0 = (log.dropGroup 0 g).journalCompactHead by
      simp [evictGroupAt, hgs]]
    have hne := (groupFind_eq_none_iff h.sorted).mp hf g (by simp [hgs])
    have hle : ¬ gid < g.groupId := by simpa [hgs] using hhead
    have hfl : log.maxEvictedGroupId < gid := by
      cases hany : log.anyEvicted with
      | false =>
        rw [h.noFloor hany]
        omega
      | true => simpa [belowHorizon, hany] using hhor
    change decide (gid ≤ max log.maxEvictedGroupId g.groupId) = false
    rw [decide_eq_false_iff_not]
    omega

/-- The results that report a descriptor the log cannot accept. -/
def Unacceptable (rc : Result) : Prop := rc = .inval ∨ rc = .wrongState ∨ rc = .tooOld

/-- What activation leaves behind: a log with the group, which was there or is fresh; or a refusal,
the log unchanged if it is the descriptor's. -/
def Activated (gid : ℕ) (log : Log) : Except (Result × Log) Log → Prop
  | .ok log' => Trims gid log log' ∧
      (log' = log ∨ ∃ nowUs, log'.groupFind gid = some (.fresh gid nowUs))
  | .error e => Trims gid log e.2 ∧ e.1 ≠ .ok ∧ (Unacceptable e.1 → e.2 = log)

/-- The group is put in. -/
theorem Activated.fresh (h : log.Wf) (ht : Trims gid log log₁) (hgid : gid ≤ u64Max)
    (habs : log₁.groupFind gid = none) (hhor : log₁.belowHorizon gid = false)
    (hroom : log₁.groups.length < log₁.lim.maxGroups) (nowUs : ℕ) :
    Activated gid log (.ok { log₁ with
      groups := log₁.groups.insertIdx (log₁.groupIdx gid) (.fresh gid nowUs) }) := by
  refine ⟨ht.tail (.activate hgid habs hhor hroom), .inr ⟨nowUs, ?_⟩⟩
  exact (groupFind_insertIdx (ht.wf h).sorted habs nowUs gid).trans (if_pos rfl)

/-- **Activation**: room is made and the group inserted, or the call is refused. -/
theorem groupActivate_spec (h : log.Wf) (hgid : gid ≤ u64Max) (nowUs : ℕ) (mem : AppendMem) :
    Activated gid log (log.groupActivate gid nowUs mem) := by
  unfold groupActivate
  cases hf : log.groupFind gid with
  | some g => exact ⟨.refl, .inl rfl⟩
  | none =>
    by_cases hhor : log.belowHorizon gid
    · rw [if_pos hhor]
      exact ⟨.refl, nofun, fun _ => rfl⟩
    rw [if_neg hhor]
    rw [Bool.not_eq_true] at hhor
    by_cases hfull : log.groups.length = log.lim.maxGroups
    · -- A full array: the oldest group makes place for a newer one.
      simp only [hfull, true_and, if_true]
      by_cases hhead : (log.groups.head?.any fun g => gid < g.groupId)
      · rw [if_pos hhead]
        exact ⟨.refl, nofun, fun _ => rfl⟩
      rw [if_neg hhead]
      rw [Bool.not_eq_true] at hhead
      have ht : Trims gid log (log.evictGroupAt 0) := .single <| .evict fun g hg => by
        have hne := (groupFind_eq_none_iff h.sorted).mp hf g (mem_of_mem_head? hg)
        have hle : ¬ gid < g.groupId := by simpa [Option.mem_def.mp hg] using hhead
        omega
      by_cases hmem : (mem.sgs && mem.idSet)
      · rw [if_pos hmem]
        refine .fresh h ht hgid ?_ (belowHorizon_evictGroupAt h hf hhor hhead) ?_ nowUs
        · refine (groupFind_eq_none_iff (ht.wf h).sorted).mpr fun x hx =>
            (groupFind_eq_none_iff h.sorted).mp hf x (mem_of_mem_tail ?_)
          rwa [evictGroupAt_groups] at hx
        · have := h.lim.maxGroups_pos
          rw [evictGroupAt_groups, length_tail, evictGroupAt_lim]
          omega
      · rw [if_neg hmem]
        exact ⟨ht, nofun, by simp [Unacceptable]⟩
    · simp only [hfull, false_and, if_false]
      by_cases hmem : (mem.sgs && mem.idSet)
      · rw [if_pos hmem]
        exact .fresh h .refl hgid hf hhor (lt_of_le_of_ne h.groups_le hfull) nowUs
      · rw [if_neg hmem]
        exact ⟨.refl, nofun, fun _ => rfl⟩

/-! ## Append -/

variable {rc : Result} {out : Result × Log}

theorem appendRefuse_ne_ok (h : log.appendRefuse d = some rc) : rc ≠ .ok := by
  unfold appendRefuse at h
  split_ifs at h <;> (cases h; decide)

theorem groupRefuse_ne_ok (h : log.groupRefuse g d = some rc) : rc ≠ .ok := by
  unfold groupRefuse at h
  split at h
  · cases h; decide
  split at h
  · cases h; decide
  split at h
  · cases h; decide
  split at h
  · cases h
  split at h
  · split at h <;> cases h
    decide
  · split at h
    · cases h; decide
    · split at h <;> cases h
      decide

/-- A group that was just activated refuses nothing but for want of capacity. -/
theorem groupRefuse_fresh {nowUs : ℕ} (h : log.groupRefuse (.fresh gid nowUs) d = some rc) :
    rc = .capacity := by
  have hids : (Group.fresh gid nowUs).idSetContains log.lim.idSetCap d.objectId = false := by
    unfold Group.idSetContains
    split
    · rfl
    · cases log.lim.idSetCap <;> rfl
  have hlist : (Group.fresh gid nowUs).listOf d.subgroupId = none := rfl
  unfold groupRefuse at h
  rw [if_neg (by simp [Group.fresh]), hids, hlist] at h
  split at h
  · exact (Option.some.inj h).symm
  · simp only [Bool.false_eq_true, if_false] at h
    split at h
    · cases h
    · split at h
      · exact (Option.some.inj h).symm
      · cases h

/-- What an append of `d` did: it made room, and committed the record exactly when it succeeded; a
descriptor it could not accept left the log as it was.  The budget was checked in `log₀`, before the
journal window was made to fit. -/
inductive Appended (log : Log) (d : AppendDesc) (mem : AppendMem) : Result × Log → Prop
  | refused {rc : Result} {log₁ : Log} (hne : rc ≠ .ok) (ht : Trims d.groupId log log₁)
      (hsame : Unacceptable rc → log₁ = log) : Appended log d mem (rc, log₁)
  | committed {log₀ log₁ log₂ : Log} {g : Group} (ht₀ : Trims d.groupId log log₀)
      (hbytes : log₀.retainedBytes + d.bytes ≤ log₀.lim.maxBytes)
      (ht₁ : Trims d.groupId log₀ log₁) (hready : log₁.Ready g d)
      (hc : log₁.commit g d mem = some log₂) : Appended log d mem (.ok, log₂)

/-- A refusal of the log as it was. -/
theorem Appended.early (hne : rc ≠ .ok) : Appended log d mem (rc, log) :=
  .refused hne .refl fun _ => rfl

/-- A refusal for want of something, after room was made. -/
theorem Appended.short (hrc : rc = .capacity ∨ rc = .internal ∨ rc = .nomem)
    (ht : Trims d.groupId log log₁) : Appended log d mem (rc, log₁) := by
  rcases hrc with rfl | rfl | rfl <;> exact .refused nofun ht (by simp [Unacceptable])

/-- The checks an append made before it evicted anything still hold when it commits. -/
theorem ready_of_rooms (h : log.Wf) (hadm : log.Admitted d)
    (hg : log.groupRefuse g d = none) (hr : Rooms d.groupId log log₁)
    (hfind : log₁.groupFind d.groupId = some g)
    (hroom : log₁.nextSeq < log₁.beginSeq + log₁.lim.maxRecords) : log₁.Ready g d := by
  have hlim := hr.lim
  have hfit := groupRefuse_eq_none hg
  exact ⟨hr.admitted h hadm, hfind,
    ⟨hfit.final, hlim ▸ hfit.count, hlim ▸ hfit.fresh, fun hd => hlim ▸ hfit.order hd⟩, hroom⟩

/-- The part of an append that runs on an activated group: that group cannot refuse the descriptor,
or nothing was changed to activate it. -/
theorem appendActive_spec (h : log.Wf) (hadm : log.Admitted d) (ht : Trims d.groupId log log₁)
    (hnew : log₁ = log ∨ ∃ nowUs, log₁.groupFind d.groupId = some (.fresh d.groupId nowUs)) :
    Appended log d mem (log₁.appendActive d mem) := by
  have hw := ht.wf h
  unfold appendActive
  cases hf : log₁.groupFind d.groupId with
  | none => exact .short (.inr (.inl rfl)) ht
  | some g =>
    dsimp only
    cases hg : log₁.groupRefuse g d with
    | some rc =>
      rcases hnew with rfl | ⟨nowUs, hfresh⟩
      · exact .early (groupRefuse_ne_ok hg)
      · cases hf.symm.trans hfresh
        exact .short (.inl (groupRefuse_fresh hg)) ht
    | none =>
      have hb := fitBytes_madeRoom d.bytes log₁.groups.length log₁ hw hf
      cases he : fitBytes d.groupId d.bytes log₁.groups.length log₁ with
      | error e =>
        rw [he] at hb
        exact .short (.inl hb.2) (ht.trans hb.1)
      | ok log₂ =>
        rw [he] at hb
        obtain ⟨ht₂, hf₂, hle⟩ := hb
        have hj := fitJournal_madeRoom log₂.groups.length log₂ (ht₂.wf hw) hf₂
        simp only [Except.bind]
        cases hj' : fitJournal d.groupId log₂.groups.length log₂ with
        | error e =>
          rw [hj'] at hj
          exact .short (.inl hj.2) (ht.trans (ht₂.trans hj.1))
        | ok log₃ =>
          rw [hj'] at hj
          obtain ⟨ht₃, hf₃, hroom⟩ := hj
          -- The target group went untouched through both loops, so its checks still hold.
          have hready := ready_of_rooms hw (ht.rooms.admitted h hadm) hg
            (Trims.rooms (ht₂.trans ht₃)) hf₃ hroom
          simp only [hf₃]
          cases hc : log₃.commit g d mem with
          | none => exact .short (.inr (.inr rfl)) (ht.trans (ht₂.trans ht₃))
          | some log₄ => exact .committed (ht.trans ht₂) hle ht₃ hready hc

/-- **An append makes room and then commits one record, or is refused.** -/
theorem append_spec (h : log.Wf) (d : AppendDesc) (mem : AppendMem) :
    Appended log d mem (log.append d mem) := by
  unfold append
  cases hp : log.appendRefuse d with
  | some rc => exact .early (appendRefuse_ne_ok hp)
  | none =>
    have hact := groupActivate_spec h d.group_le d.nowUs mem
    cases ha : log.groupActivate d.groupId d.nowUs mem with
    | error e =>
      rw [ha] at hact
      exact .refused hact.2.1 hact.1 hact.2.2
    | ok log₁ =>
      rw [ha] at hact
      exact appendActive_spec h (appendRefuse_eq_none hp) hact.1 hact.2

theorem openRecord_spec (h : log.Wf) (d : AppendDesc) (mem : AppendMem) :
    Appended log d mem (log.openRecord d mem) := by
  unfold openRecord
  split_ifs
  iterate 2 exact .early (by decide)
  · exact append_spec h d mem

theorem Appended.atoms (h : Appended log d mem out) : Atoms log out.2 := by
  cases h with
  | refused _ ht _ => exact ht.rooms.quiets.atoms
  | committed ht₀ _ ht₁ hready hc =>
    exact (Trims.rooms (ht₀.trans ht₁)).quiets.atoms.tail (.commit hready hc)

/-! ## Chunks -/

theorem resolveOpenRec_ne_ok (h : log.resolveOpenRec gid sid oid = .error rc) : rc ≠ .ok := by
  unfold resolveOpenRec at h
  split at h
  · split at h <;> cases h <;> decide
  · split at h
    · cases h; decide
    · split at h
      · cases h; decide
      · split at h <;> cases h
        decide

/-- An open record is found through its group alone. -/
theorem resolveOpenRec_congr {p : Group × ℕ × Rec} (hf : log'.groupFind gid = log.groupFind gid)
    (h : log.resolveOpenRec gid sid oid = .ok p) : log'.resolveOpenRec gid sid oid = .ok p := by
  have hfind := (resolveOpenRec_eq_ok h).1
  unfold resolveOpenRec at h ⊢
  rw [hf]
  rw [hfind] at h ⊢
  exact h

/-- **The chunk loop.** -/
theorem fitChunk_madeRoom (len : UInt64) : ∀ n b log, log.Wf →
    log.resolveOpenRec gid sid oid = .ok (g, i, r) →
    MadeRoom gid g log (fun l => l.retainedBytes + len ≤ l.lim.maxBytes)
      (fitChunk gid sid oid len n b log)
  | 0, _, log, _, hres => by
      unfold fitChunk
      split
      · rename_i hle
        exact ⟨.refl, (resolveOpenRec_eq_ok hres).1, UInt64.not_lt.mp hle.1⟩
      · exact ⟨.refl, rfl⟩
  | n + 1, b, log, h, hres => by
      have hf := (resolveOpenRec_eq_ok hres).1
      unfold fitChunk
      dsimp only
      split
      · rename_i hle
        simp only [Bool.and_eq_true, Bool.not_eq_true', decide_eq_false_iff_not] at hle
        exact ⟨.refl, hf, UInt64.not_lt.mp hle.1⟩
      split
      · exact ⟨.refl, rfl⟩
      rename_i hold
      split
      · exact ⟨.refl, rfl⟩
      obtain ⟨ht, hf'⟩ := trim_evictGroupAt h hf hold
      have ht : Trims gid log (log.evictGroupAt 0) := .single ht
      have hres' := resolveOpenRec_congr (hf'.trans hf.symm) hres
      rw [hres']
      exact (fitChunk_madeRoom len n _ _ (ht.wf h) hres').head ht

/-- What a chunk append did: nothing for an empty chunk, otherwise room was made and the chunk
linked to the record the call resolved. -/
inductive Chunked (log : Log) (gid sid oid : ℕ) : Option Rcbuf → Result × Log → Prop
  | refused {chunk : Option Rcbuf} {rc : Result} {log₁ : Log} (hne : rc ≠ .ok)
      (hr : Rooms gid log log₁) : Chunked log gid sid oid chunk (rc, log₁)
  | empty {chunk : Option Rcbuf} (h : rcbufLen chunk = 0) : Chunked log gid sid oid chunk (.ok, log)
  | linked {buf : Rcbuf} {log₁ log₂ : Log} {g : Group} {i : ℕ} {r : Rec} (hr : Rooms gid log log₁)
      (hres₀ : log.resolveOpenRec gid sid oid = .ok (g, i, r))
      (hres : log₁.resolveOpenRec gid sid oid = .ok (g, i, r))
      (hlen : r.chunkBytes + buf.len ≤ r.declaredLen)
      (hbytes : log₁.retainedBytes + buf.len ≤ log₁.lim.maxBytes)
      (hc : log₁.commitChunk gid i r buf = some log₂) :
      Chunked log gid sid oid (some buf) (.ok, log₂)

/-- **A chunk append makes room and then links one chunk, or is refused.** -/
theorem appendChunk_spec (h : log.Wf) (gid sid oid : ℕ) (chunk : Option Rcbuf) :
    Chunked log gid sid oid chunk (log.appendChunk gid sid oid chunk) := by
  unfold appendChunk
  cases hres : log.resolveOpenRec gid sid oid with
  | error rc => exact .refused (resolveOpenRec_ne_ok hres) .refl
  | ok p =>
    obtain ⟨g, i, r⟩ := p
    dsimp only
    by_cases hlen : r.declaredLen < r.chunkBytes + rcbufLen chunk
    · rw [if_pos hlen]
      exact .refused (by decide) .refl
    rw [if_neg hlen]
    cases chunk with
    | none => exact .empty rfl
    | some buf =>
      dsimp only
      split
      · rename_i hzero
        exact .empty hzero
      have hb := fitChunk_madeRoom (rcbufLen (some buf)) log.groups.length false log h hres
      cases hfit : fitChunk gid sid oid (rcbufLen (some buf)) log.groups.length false log with
      | error e =>
        rw [hfit] at hb
        exact .refused (by rw [hb.2]; decide) hb.1.rooms
      | ok log₁ =>
        rw [hfit] at hb
        obtain ⟨ht, hf, hle⟩ := hb
        have hr := ht.rooms
        have hres₁ := resolveOpenRec_congr (hf.trans (resolveOpenRec_eq_ok hres).1.symm) hres
        simp only [hres₁]
        cases hc : log₁.commitChunk gid i r buf with
        | none => exact .refused (by decide) hr
        | some log₂ => exact .linked hr hres hres₁ (UInt64.not_lt.mp hlen) hle hc

theorem Chunked.atoms {chunk : Option Rcbuf}
    (h : Chunked log gid sid oid chunk out) : Atoms log out.2 := by
  cases h with
  | refused _ hr => exact hr.quiets.atoms
  | empty _ => exact .refl
  | linked hr _ hres hlen hbytes hc => exact hr.quiets.atoms.tail (.chunk hres hlen hc)

/-! ## Lists touched

A call that writes neither a new record nor the hole table edits the last record of a list, seals
it, or resets it; a group that stays keeps its lists in place. -/

variable {g' : Group}

/-- `g'` has the lists of `g`, each touched. -/
def SameLists (g g' : Group) : Prop :=
  g'.sgs.length = g.sgs.length ∧
    ∀ (i : ℕ) (sg sg' : Subgroup), g.sgs[i]? = some sg → g'.sgs[i]? = some sg' → sg.Touched sg'

theorem SameLists.of_sgs_eq (h : g'.sgs = g.sgs) : SameLists g g' := by
  refine ⟨by rw [h], fun i sg sg' hi hi' => ?_⟩
  cases hi.symm.trans (h ▸ hi')
  exact .refl

theorem SameLists.modify {F : Subgroup → Subgroup} (hgs : g'.sgs = g.sgs.modify i F)
    (hF : ∀ sg : Subgroup, sg.Touch (F sg)) : SameLists g g' := by
  refine ⟨by rw [hgs, length_modify], fun j sg sg' hj hj' => ?_⟩
  rw [hgs, getElem?_modify, hj] at hj'
  cases hj'
  split
  · exact .single (hF sg)
  · exact .refl

/-- An edit of the last record of a list. -/
theorem SameLists.modifyTail {f : Rec → Rec} (hgs : g'.sgs = (g.modifyTail i f).sgs) :
    SameLists g g' :=
  .modify hgs fun _ => .tail f

/-- **A change that only touches lists**: the groups that stay have theirs touched, a group that
appears has none, and the hole table is untouched. -/
structure Touches (log log' : Log) : Prop where
  group : ∀ gid g', log'.groupFind gid = some g' →
    (∃ g, log.groupFind gid = some g ∧ SameLists g g') ∨ log.groupFind gid = none ∧ g'.sgs = []
  holes : log'.holes = log.holes
  next : log'.holesNext = log.holesNext

theorem Touches.refl (log : Log) : Touches log log :=
  ⟨fun _ g' hg => .inl ⟨g', hg, .of_sgs_eq rfl⟩, rfl, rfl⟩

theorem touches_modifyGroup (hw : log.Wf) {e : Group → Group} (hfind : log.groupFind gid = some g)
    (hid : (e g).groupId = g.groupId) (hm : SameLists g (e g)) (pool : ChunkPool) (b : UInt64) :
    Touches log { log.modifyGroup gid e with pool := pool, retainedBytes := b } := by
  refine ⟨fun k x hx => .inl ?_, rfl, rfl⟩
  exact groupFind_of_modifyGroup hw.sorted (fun _ => .of_sgs_eq rfl) hfind hid hm hx

theorem Room.touches (hr : Room gid log log') (hw : log.Wf) : Touches log log' := by
  refine ⟨fun k x hx => ?_, ?_, ?_⟩
  · rcases hr.groupFind_cases hw hx with h | ⟨hnone, nowUs, rfl⟩
    · exact .inl ⟨x, h, .of_sgs_eq rfl⟩
    · exact .inr ⟨hnone, rfl⟩
  all_goals cases hr <;> rfl

/-- A quiet change that only touches lists. -/
structure Tended (log log' : Log) : Prop where
  quiet : Quiet log log'
  touches : log.Wf → Touches log log'

def Tendeds : Log → Log → Prop := Relation.ReflTransGen Tended

theorem Tendeds.quiets (h : Tendeds log log') : Quiets log log' :=
  Relation.ReflTransGen.mono (fun _ _ h => h.quiet) _ _ h

theorem Rooms.tended (h : Rooms gid log log') : Tendeds log log' :=
  Relation.ReflTransGen.mono (fun _ _ h => ⟨.room h, h.touches⟩) _ _ h

/-- A list is marked. -/
theorem Tended.mark {F : Subgroup → Subgroup} (hf : log.groupFind gid = some g)
    (hE : Subgroup.Edit F id) (hF : ∀ sg : Subgroup, sg.Touch (F sg)) :
    Tended log (log.modifyGroup gid (·.modifySg i F)) :=
  ⟨.mark hf hE Rec.SameContent.refl fun _ _ _ _ => .inl rfl,
    fun hw => touches_modifyGroup hw hf rfl (.modify rfl hF) _ _⟩

/-! ## Marks and terminals -/

theorem setOpener_tended (log : Log) (gid sid oid conn src : ℕ) :
    Tendeds log (log.setOpener gid sid oid conn src).2 := by
  unfold setOpener
  cases hres : log.resolveOpenRec gid sid oid with
  | error rc => exact .refl
  | ok p =>
    have hfind := (resolveOpenRec_eq_ok hres).1
    refine .single ⟨.mark hfind (Subgroup.Edit.ofTail ?_)
      (fun _ => ⟨rfl, rfl, rfl, rfl, rfl, rfl, rfl⟩) fun _ _ _ _ => .inl rfl,
      fun hw => touches_modifyGroup hw hfind rfl (.modifyTail rfl) _ _⟩
    constructor <;> simp

theorem completeRecord_tended (log : Log) (gid sid oid : ℕ) :
    Tendeds log (log.completeRecord gid sid oid).2 := by
  unfold completeRecord
  cases hres : log.resolveOpenRec gid sid oid with
  | error rc => exact .refl
  | ok p =>
    obtain ⟨g, i, r⟩ := p
    obtain ⟨hfind, sg, hi, -, htail, -, hopen⟩ := resolveOpenRec_eq_ok hres
    dsimp only
    split
    · exact .refl
    · rename_i hlen
      refine .single ⟨.mark hfind (Subgroup.Edit.ofTail ?_)
        (fun _ => ⟨rfl, rfl, rfl, rfl, rfl, rfl, rfl⟩) fun sg' r' hi' hr' => .inr ⟨rfl, ?_⟩,
        fun hw => touches_modifyGroup hw hfind rfl (.modifyTail rfl) _ _⟩
      · constructor <;> simp
      · cases hi.symm.trans hi'
        cases htail.symm.trans hr'
        exact ⟨hopen, not_not.mp hlen⟩

theorem abandonRecord_tended (log : Log) (gid sid oid : ℕ) (reset : ResetDesc) :
    Tendeds log (log.abandonRecord gid sid oid reset).2 := by
  unfold abandonRecord
  cases hres : log.resolveOpenRec gid sid oid with
  | error rc => exact .refl
  | ok p =>
    exact .single ⟨.abandon hres, fun hw =>
      touches_modifyGroup hw (resolveOpenRec_eq_ok hres).1 rfl (.modifyTail rfl) _ _⟩

theorem edit_resetWith (reset : ResetDesc) : Subgroup.Edit (·.resetWith reset) id := by
  refine Subgroup.Edit.ofMarks ?_ ?_ ?_ ?_ <;> intro sg <;> unfold Subgroup.resetWith <;>
    split <;> rfl

theorem edit_seal : Subgroup.Edit (fun sg => { sg with sealed := true }) id :=
  Subgroup.Edit.ofMarks (fun _ => rfl) (fun _ => rfl) (fun _ => rfl) fun _ => rfl

theorem edit_gap :
    Subgroup.Edit (fun sg => { sg with gapPending := true, incomplete := true }) id :=
  Subgroup.Edit.ofMarks (fun _ => rfl) (fun _ => rfl) (fun _ => rfl) fun _ => rfl

theorem resetSubgroup_tended (log : Log) (gid sid : ℕ) (reset : ResetDesc) :
    Tendeds log (log.resetSubgroup gid sid reset).2 := by
  unfold resetSubgroup
  cases hf : log.groupFind gid with
  | none => exact .refl
  | some g =>
    dsimp only
    cases hl : g.listOf sid with
    | none => exact .refl
    | some p => exact .single (.mark hf (edit_resetWith reset) fun _ => .reset reset)

theorem sealSubgroup_tended (log : Log) (gid sid : ℕ) :
    Tendeds log (log.sealSubgroup gid sid).2 := by
  unfold sealSubgroup
  cases hf : log.groupFind gid with
  | none => exact .refl
  | some g =>
    dsimp only
    cases hl : g.listOf sid with
    | none => exact .refl
    | some p =>
      dsimp only
      split
      · exact .single (.mark hf (edit_resetWith _) fun _ => .reset _)
      split
      · split
        · exact .refl
        · rename_i hbeyond
          exact .single ⟨.final hf (Group.listOf_eq_some hl).1 edit_seal (by simpa using hbeyond),
            fun hw => touches_modifyGroup hw hf rfl (.modify rfl fun _ => .sealList) _ _⟩
      · exact .single (.mark hf edit_seal fun _ => .sealList)

theorem noteGap_quiets (log : Log) (gid sid : ℕ) : Quiets log (log.noteGap gid sid).2 := by
  unfold noteGap
  cases hf : log.groupFind gid with
  | none =>
    dsimp only
    split
    · exact .refl
    · exact .single (.hole gid sid)
  | some g =>
    dsimp only
    cases hl : g.listOf sid with
    | none => exact .single (.hole gid sid)
    | some p => exact .single (.mark hf edit_gap Rec.SameContent.refl fun _ _ _ _ => .inl rfl)

/-! ## Operations over many lists -/

/-- A loop whose body tends is a sequence of such changes. -/
theorem tended_foldl {ι : Type*} {body : ℕ × Log → ι → ℕ × Log}
    (h : ∀ acc x, Tendeds acc.2 (body acc x).2) (l : List ι) (acc : ℕ × Log) :
    Tendeds acc.2 (l.foldl body acc).2 := by
  induction l generalizing acc with
  | nil => exact .refl
  | cons x l ih => exact (h acc x).trans (ih (body acc x))

theorem abandonListOpen_tended (gid : ℕ) (reset : ResetDesc) (acc : ℕ × Log) (si : ℕ) :
    Tendeds acc.2 (abandonListOpen gid reset acc si).2 := by
  unfold abandonListOpen
  split
  · exact .refl
  · split
    · exact .refl
    · split
      · exact abandonRecord_tended ..
      · exact .refl

theorem abandonGroupOpen_tended (log : Log) (gid : ℕ) (reset : ResetDesc) :
    Tendeds log (log.abandonGroupOpen gid reset).2.2 := by
  unfold abandonGroupOpen
  cases hf : log.groupFind gid with
  | none => exact .refl
  | some g => exact tended_foldl (abandonListOpen_tended gid reset) _ (0, log)

theorem endList_tended (acc : ℕ × Log) (gid si : ℕ) : Tendeds acc.2 (endList acc gid si).2 := by
  unfold endList
  split
  · exact .refl
  split
  · exact .refl
  dsimp only
  split
  · split
    · exact abandonRecord_tended ..
    · exact (abandonRecord_tended ..).trans (resetSubgroup_tended ..)
  · exact resetSubgroup_tended ..

theorem endGroupLists_tended (acc : ℕ × Log) (gid : ℕ) :
    Tendeds acc.2 (endGroupLists acc gid).2 := by
  unfold endGroupLists
  split
  · exact .refl
  · exact tended_foldl (fun acc si => endList_tended acc gid si) _ acc

theorem noteEvictedBelow_tended (log : Log) (n : ℕ) : Tendeds log (log.noteEvictedBelow n).2 := by
  unfold noteEvictedBelow
  split
  · exact .refl
  · exact Relation.ReflTransGen.tail (tended_foldl endGroupLists_tended _ (0, log)) 
      ⟨.floor n, fun _ => { Touches.refl _ with }⟩

theorem evictGroups_rooms (gid : ℕ) (log : Log) (k : ℕ) : Rooms gid log (log.evictGroups k).2 := by
  have : ∀ n e (log : Log), Rooms gid log (evictGroupsFrom k n e log).2 := by
    intro n
    induction n with
    | zero => exact fun _ _ => .refl
    | succ n ih =>
      intro e log
      unfold evictGroupsFrom
      split
      · exact (rooms_evictGroupAt gid log).trans (ih _ _)
      · exact .refl
  exact this _ 0 log

theorem tick_rooms (gid : ℕ) (log : Log) (nowUs : ℕ) : Rooms gid log (log.tick nowUs).2 := by
  have : ∀ n e (log : Log), Rooms gid log (tickFrom nowUs n e log).2 := by
    intro n
    induction n with
    | zero => exact fun _ _ => .refl
    | succ n ih =>
      intro e log
      unfold tickFrom
      split
      · exact .refl
      · split
        · exact .refl
        · exact (rooms_evictGroupAt gid log).trans (ih _ _)
  unfold tick
  split
  · exact .refl
  · exact this _ 0 log

end Log

end MoqRelay
