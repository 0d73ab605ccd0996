import MoqRelay.Log.Commit

/-!
# Log/Keep — elementary changes keep the invariant

Dropping the oldest group, compacting the window, inserting an empty group, replacing a group by one
with the same sequence numbers, and pushing a record: the structural changes every operation is made
of, each with the reason the journal correspondence survives it.
-/

namespace MoqRelay

open List

variable {log : Log} {gid : ℕ} {g : Group}

/-! ## Lookup in a sorted group array -/

namespace Log

section Sorted

variable (hs : log.groups.Pairwise fun a b => a.groupId < b.groupId)
include hs

theorem groupFind_eq_some_iff : log.groupFind gid = some g ↔ g ∈ log.groups ∧ g.groupId = gid :=
  findKey_eq_some_iff hs

theorem groupFind_eq_none_iff : log.groupFind gid = none ↔ ∀ g ∈ log.groups, g.groupId ≠ gid :=
  findKey_eq_none_iff hs

/-- A write through `group_find`'s pointer replaces one entry of the array. -/
theorem modifyGroup_split (hf : log.groupFind gid = some g) :
    ∃ l₁ l₂, log.groups = l₁ ++ g :: l₂ ∧ g.groupId = gid ∧
      ∀ f, log.modifyGroup gid f = { log with groups := l₁ ++ f g :: l₂ } := by
  obtain ⟨l₁, l₂, hl, hidx, hid⟩ := findKey_some_split hs hf
  refine ⟨l₁, l₂, hl, hid, fun f => ?_⟩
  have : log.groups.modify (log.groupIdx gid) f = l₁ ++ f g :: l₂ := by
    rw [groupIdx, hidx, hl]
    simp [modify_eq_take_cons_drop]
  rw [modifyGroup, this]

/-- A write through `group_find`'s pointer is seen under that id alone. -/
theorem groupFind_modifyGroup (hf : log.groupFind gid = some g) {f : Group → Group}
    (hid : (f g).groupId = g.groupId) (k : ℕ) :
    (log.modifyGroup gid f).groupFind k = if k = gid then some (f g) else log.groupFind k := by
  obtain ⟨l₁, l₂, hgs, hg, hmod⟩ := modifyGroup_split hs hf
  rw [hgs] at hs
  rw [hmod, groupFind, groupFind, hgs, findKey_middle (sorted_replace hs hid), findKey_middle hs,
    hid, hg]
  split_ifs <;> rfl

/-- What a group is in after a write is related to what it was. -/
theorem groupFind_of_modifyGroup {R : Group → Group → Prop} (hR : ∀ x, R x x)
    (hf : log.groupFind gid = some g) {f : Group → Group} (hid : (f g).groupId = g.groupId)
    (h : R g (f g)) {k : ℕ} {x : Group} (hx : (log.modifyGroup gid f).groupFind k = some x) :
    ∃ y, log.groupFind k = some y ∧ R y x := by
  rw [groupFind_modifyGroup hs hf hid] at hx
  split_ifs at hx with hk
  · exact ⟨g, hk ▸ hf, Option.some.inj hx ▸ h⟩
  · exact ⟨x, hx, hR x⟩

/-- The groups around a replaced one have other ids. -/
theorem mem_replaced {l₁ l₂ : List Group} (hgs : log.groups = l₁ ++ g :: l₂) {g' x : Group}
    (hx : x ∈ l₁ ++ g' :: l₂) : x = g' ∨ x ∈ log.groups ∧ x.groupId ≠ g.groupId := by
  rw [hgs, pairwise_append, pairwise_cons] at hs
  rw [hgs]
  simp only [mem_append, mem_cons] at hx ⊢
  rcases hx with hx | rfl | hx
  · exact .inr ⟨.inl hx, (hs.2.2 x hx g (by simp)).ne⟩
  · exact .inl rfl
  · exact .inr ⟨.inr (.inr hx), (hs.2.1.1 x hx).ne'⟩

/-- An absent group is inserted between the smaller and the larger ids. -/
theorem insert_split (habs : log.groupFind gid = none) (nowUs : ℕ) :
    ∃ l₁ l₂, log.groups = l₁ ++ l₂ ∧
      log.groups.insertIdx (log.groupIdx gid) (.fresh gid nowUs) = l₁ ++ .fresh gid nowUs :: l₂ ∧
      (l₁ ++ .fresh gid nowUs :: l₂).Pairwise fun a b => a.groupId < b.groupId := by
  obtain ⟨l₁, l₂, hgs, hidx, hlt, hgt⟩ := findKey_none_split hs habs
  obtain ⟨hs₁, hs₂, hs₁₂⟩ := pairwise_append.mp (hgs ▸ hs)
  refine ⟨l₁, l₂, hgs, ?_, pairwise_append.mpr ⟨hs₁, pairwise_cons.mpr ⟨hgt, hs₂⟩, ?_⟩⟩
  · rw [groupIdx, hidx, hgs]
    exact modifyTailIdx_add (List.cons (.fresh gid nowUs)) 0 l₁ l₂
  · intro a ha b hb
    rcases mem_cons.mp hb with rfl | hb
    · exact hlt a ha
    · exact hs₁₂ a ha b hb

/-- An inserted group is found under its id alone. -/
theorem groupFind_insertIdx (habs : log.groupFind gid = none) (nowUs k : ℕ) :
    groupFind { log with groups := log.groups.insertIdx (log.groupIdx gid) (.fresh gid nowUs) } k =
      if k = gid then some (.fresh gid nowUs) else log.groupFind k := by
  obtain ⟨l₁, l₂, hgs, hins, hsorted⟩ := insert_split hs habs nowUs
  rw [groupFind, hins, findKey_middle hsorted, groupFind, hgs]
  rfl

/-- The oldest group is gone, and no other. -/
theorem groupFind_dropGroup {rest : List Group} (hgs : log.groups = g :: rest) (k : ℕ) :
    (log.dropGroup 0 g).groupFind k = if k = g.groupId then none else log.groupFind k := by
  rw [hgs] at hs
  have hrest : (log.dropGroup 0 g).groups = rest := by simp [dropGroup, hgs]
  have hfind : log.groupFind k = if k = g.groupId then some g
    else findKey Group.groupId k rest := by
    rw [groupFind, hgs]
    exact findKey_middle (nil_append (g :: rest) ▸ hs) k
  rw [hfind, groupFind, hrest]
  split_ifs with hk
  · exact (findKey_eq_none_iff (pairwise_cons.mp hs).2).mpr fun x hx =>
      hk ▸ ((pairwise_cons.mp hs).1 x hx).ne'
  · rfl

end Sorted

/-- A horizon that is raised stays above what it was above. -/
theorem horizon_raised {n : ℕ} (h : log.belowHorizon gid) :
    decide (gid ≤ max log.maxEvictedGroupId n) := by
  simp only [belowHorizon, Bool.and_eq_true, decide_eq_true_eq] at h
  exact decide_eq_true (h.2.trans (Nat.le_max_left _ _))

/-! ## Window compaction -/

theorem compactFrom_spec (log : Log) : ∀ n q, q ≤ log.compactFrom n q ∧
    log.compactFrom n q ≤ q + n ∧
    ∀ p, q ≤ p → p < log.compactFrom n q → log.groupFind (log.slotOf p).groupId = none
  | 0, q => ⟨le_rfl, le_rfl, fun p h1 h2 => absurd h2 (by simp [compactFrom]; omega)⟩
  | n + 1, q => by
      unfold compactFrom
      split
      · exact ⟨le_rfl, by omega, fun p h1 h2 => absurd h2 (by omega)⟩
      · rename_i hgone
        obtain ⟨h1, h2, h3⟩ := compactFrom_spec log n (q + 1)
        refine ⟨by omega, by omega, fun p hp hlt => ?_⟩
        rcases hp.eq_or_lt with rfl | hp
        · simpa using hgone
        · exact h3 p hp hlt

end Log

/-! ## Replacing one group -/

/-- `g'` carries the same sequence numbers as `g`, position by position. -/
structure Group.SameSeqs (g g' : Group) : Prop where
  groupId : g'.groupId = g.groupId
  recordCount : g'.recordCount = g.recordCount
  seqAt : g'.seqAt = g.seqAt
  seqs : g'.recs.map Rec.arrivalSeq = g.recs.map Rec.arrivalSeq

/-- An empty group. -/
theorem Group.Wf.fresh {lim : LogLimits} (gid nowUs : ℕ) : (Group.fresh gid nowUs).Wf lim := by
  refine ⟨⟨Nat.zero_le _, by simp [Group.fresh], by simp [Group.fresh], RecVec.Wf.empty,
    by simp [Group.fresh, RecVec.empty], by simp [Group.fresh, Group.recs, RecVec.empty]⟩,
    rfl, Nat.zero_le _, rfl, nodup_nil, ⟨Probed.empty, ?_, ?_⟩, rfl⟩
  iterate 2 simp [Group.fresh, Group.recs, RecVec.empty]

namespace Log.Wf

/-- **Replacing a group by one with the same sequence numbers keeps the invariant**, the log's byte
total following the group's. -/
theorem replace (h : log.Wf) {l₁ l₂ : List Group} {g' : Group} (hgs : log.groups = l₁ ++ g :: l₂)
    (hs : g.SameSeqs g') (hwf : g'.Wf log.lim) :
    Log.Wf { log with
      groups := l₁ ++ g' :: l₂
      retainedBytes := log.retainedBytes - g.bytes + g'.bytes } := by
  have hmem : ∀ x, x ∈ l₁ ++ g' :: l₂ → x = g' ∨ x ∈ log.groups := fun x hx =>
    (mem_replaced h.sorted hgs hx).imp_right And.left
  have hg : g ∈ log.groups := by simp [hgs]
  have hsorted := h.sorted
  have hbytes := h.bytes
  have hlive := h.live
  have hnodup := h.seqNodup
  rw [hgs] at hsorted hbytes hlive
  rw [allRecs, hgs] at hnodup
  refine ⟨h.lim, ?_, ?_, fun x hx => ?_, ?_, ?_, h.begin_le, h.window, ?_, fun x hx s i q hq => ?_,
    fun q h1 h2 x hx hid => ?_, fun q h1 h2 hx => ?_, h.cursors, h.noFloor⟩
  · exact sorted_replace hsorted hs.groupId
  · have := h.groups_le
    simpa [hgs] using this
  · rcases hmem x hx with rfl | hx
    · exact hwf
    · exact h.group x hx
  · simp only [map_append, map_cons, sum_append, sum_cons] at hbytes ⊢
    rw [← hbytes]
    abel
  · simp only [map_append, map_cons, sum_append, sum_cons, hs.recordCount]
      at hlive ⊢
    exact hlive
  · simp only [allRecs, flatMap_append, flatMap_cons, map_append, hs.seqs]
      at hnodup ⊢
    exact hnodup
  · rcases hmem x hx with rfl | hx
    · rw [hs.seqAt] at hq
      rw [hs.groupId]
      exact h.slotOfRec g hg s i q hq
    · exact h.slotOfRec x hx s i q hq
  · rcases hmem x hx with rfl | hx
    · rw [hs.seqAt]
      exact h.recOfSlot q h1 h2 g hg (hs.groupId ▸ hid)
    · exact h.recOfSlot q h1 h2 x hx hid
  · rw [forall_mem_append, forall_mem_cons, hs.groupId] at hx
    refine h.gone q h1 h2 ?_
    rwa [hgs, forall_mem_append, forall_mem_cons]

/-! ## Dropping, compacting, activating -/

/-- Compaction passes only slots of groups that are gone. -/
theorem compact (h : log.Wf) : log.journalCompactHead.Wf := by
  obtain ⟨h1, h2, h3⟩ := log.compactFrom_spec (log.nextSeq - log.beginSeq) log.beginSeq
  have hb := h.begin_le
  have hw := h.window
  refine { h with
    begin_le := show log.compactFrom _ _ ≤ log.nextSeq by omega
    window := show log.nextSeq ≤ log.compactFrom _ _ + log.lim.maxRecords by omega
    slotOfRec := fun g hg s i q hq => ?_
    recOfSlot := fun q hq1 hq2 => h.recOfSlot q (h1.trans hq1) hq2
    gone := fun q hq1 hq2 => h.gone q (h1.trans hq1) hq2 }
  · obtain ⟨hq1, hq2, hslot⟩ := h.slotOfRec g hg s i q hq
    refine ⟨?_, hq2, hslot⟩
    by_contra hlt
    have hnone := h3 q hq1 (Nat.lt_of_not_le hlt)
    rw [hslot] at hnone
    exact (groupFind_eq_none_iff h.sorted).mp hnone g hg rfl

/-- Dropping the oldest group leaves its slots pointing below the horizon. -/
theorem drop (h : log.Wf) {rest : List Group} (hgs : log.groups = g :: rest) :
    (log.dropGroup 0 g).Wf := by
  have hrest : (log.dropGroup 0 g).groups = rest := by simp [dropGroup, hgs]
  have hmem : ∀ x ∈ rest, x ∈ log.groups := fun x hx => by simp [hgs, hx]
  have hsorted := h.sorted
  have hbytes := h.bytes
  have hlive := h.live
  have hnodup := h.seqNodup
  have hlen := h.groups_le
  rw [hgs] at hsorted hbytes hlive hlen
  rw [allRecs, hgs] at hnodup
  refine ⟨h.lim, ?_, ?_, fun x hx => ?_, ?_, ?_, h.begin_le, h.window, ?_, fun x hx => ?_,
    fun q h1 h2 x hx => ?_, fun q h1 h2 hx => ?_, h.cursors, fun hx => ?_⟩
  · rw [hrest]
    exact (pairwise_cons.mp hsorted).2
  · rw [hrest]
    exact (Nat.le_succ _).trans hlen
  · rw [hrest] at hx
    exact h.group x (hmem x hx)
  · rw [hrest]
    simp only [map_cons, sum_cons] at hbytes
    change _ = log.retainedBytes - g.bytes
    rw [← hbytes]
    abel
  · rw [hrest]
    simp only [map_cons, sum_cons] at hlive
    change log.liveRecords - g.recordCount = _
    omega
  · rw [allRecs, hrest]
    simp only [flatMap_cons, map_append] at hnodup
    exact (nodup_append.mp hnodup).2.1
  · rw [hrest] at hx
    exact h.slotOfRec x (hmem x hx)
  · rw [hrest] at hx
    exact h.recOfSlot q h1 h2 x (hmem x hx)
  · rw [hrest] at hx
    by_cases hid : g.groupId = (log.slotOf q).groupId
    · exact decide_eq_true (hid ▸ Nat.le_max_right _ _)
    · refine horizon_raised (h.gone q h1 h2 fun y hy => ?_)
      rw [hgs] at hy
      rcases mem_cons.mp hy with rfl | hy
      · exact hid
      · exact hx y hy
  · simp [dropGroup] at hx

/-- **An absent group above the horizon may be inserted**: no slot of the window names it, since a
slot of an absent group lies below the horizon. -/
theorem activate (h : log.Wf) {nowUs : ℕ} (habs : log.groupFind gid = none)
    (hhor : log.belowHorizon gid = false) (hroom : log.groups.length < log.lim.maxGroups) :
    Log.Wf { log with
      groups := log.groups.insertIdx (log.groupIdx gid) (.fresh gid nowUs) } := by
  obtain ⟨l₁, l₂, hgs, hins, hsorted⟩ := insert_split h.sorted habs nowUs
  have hmem : ∀ x, x ∈ l₁ ++ .fresh gid nowUs :: l₂ → x = .fresh gid nowUs ∨ x ∈ log.groups :=
    fun x hx => by
      rw [hgs]
      simp only [mem_append, mem_cons] at hx ⊢
      tauto
  have hbytes := h.bytes
  have hlive := h.live
  have hnodup := h.seqNodup
  rw [hgs] at hbytes hlive hroom
  rw [allRecs, hgs] at hnodup
  rw [hins]
  refine ⟨h.lim, ?_, ?_, fun x hx => ?_, ?_, ?_, h.begin_le, h.window, ?_, fun x hx s i q hq => ?_,
    fun q h1 h2 x hx hid => ?_, fun q h1 h2 hx => ?_, h.cursors, h.noFloor⟩
  · exact hsorted
  · simp only [length_append, length_cons] at hroom ⊢
    omega
  · rcases hmem x hx with rfl | hx
    · exact Group.Wf.fresh gid nowUs
    · exact h.group x hx
  · simpa [Group.fresh] using hbytes
  · simpa [Group.fresh] using hlive
  · simpa [allRecs, Group.fresh, Group.recs, RecVec.empty] using hnodup
  · rcases hmem x hx with rfl | hx
    · cases s <;> simp [Group.seqAt, Group.recAt?, Group.list?, Group.fresh, RecVec.empty] at hq
    · exact h.slotOfRec x hx s i q hq
  · rcases hmem x hx with rfl | hx
    · have := h.gone q h1 h2 fun y hy hc =>
        (groupFind_eq_none_iff h.sorted).mp habs y hy (hc.trans hid.symm)
      rw [show log.belowHorizon (log.slotOf q).groupId = log.belowHorizon gid from
        congrArg _ hid.symm, hhor] at this
      cases this
    · exact h.recOfSlot q h1 h2 x hx hid
  · refine h.gone q h1 h2 fun y hy => hx y ?_
    rw [hgs] at hy
    rw [mem_append, mem_cons]
    exact (mem_append.mp hy).imp_right .inr

end Log.Wf

/-! ## Committing a record -/

/-- The slot of the new record. -/
theorem Log.slotOf_account_next (log : Log) (d : AppendDesc) (s : ListSlot) (n : ℕ) :
    (log.account d s n).slotOf log.nextSeq = ⟨d.groupId, s, n⟩ := Function.update_self ..

/-- A window that is not full keeps its slots: the new one is no residue of the old. -/
theorem Log.slotOf_account (log : Log) {d : AppendDesc} {s : ListSlot} {n q : ℕ}
    (hroom : log.nextSeq < log.beginSeq + log.lim.maxRecords) (h1 : log.beginSeq ≤ q)
    (h2 : q < log.nextSeq) : (log.account d s n).slotOf q = log.slotOf q := by
  refine Function.update_of_ne (fun heq => ?_) _ _
  have := ring_slot_inj log.beginSeq (log.nextSeq + 1) hroom ⟨h1, by omega⟩
    ⟨by omega, by omega⟩ heq
  omega

section Push

variable {g' : Group} {l₁ l₂ : List Group} {s : ListSlot} {n : ℕ} {r : Rec}

theorem Group.Pushed.seqAt (hp : g.Pushed g' s n r) (s' : ListSlot) (j : ℕ) :
    g'.seqAt s' j = if s' = s ∧ j = n then some r.arrivalSeq else g.seqAt s' j := by
  rw [Group.seqAt, hp.recAt]
  split <;> rfl

/-- The records of a log one of whose groups got a record. -/
theorem Group.Pushed.allRecs (hp : g.Pushed g' s n r) (hgs : log.groups = l₁ ++ g :: l₂) :
    ((l₁ ++ g' :: l₂).flatMap Group.recs).Perm (r :: log.allRecs) := by
  rw [Log.allRecs, hgs]
  simp only [flatMap_append, flatMap_cons]
  exact ((hp.perm.append_right _).append_left _).trans perm_middle

/-- The next sequence number is no record's. -/
theorem Log.Wf.nextSeq_fresh (h : log.Wf) : log.nextSeq ∉ log.allRecs.map Rec.arrivalSeq := by
  intro hm
  obtain ⟨x, hx, he⟩ := mem_map.mp hm
  obtain ⟨y, hy, hxy⟩ := mem_flatMap.mp hx
  obtain ⟨s', i, hs'⟩ := y.exists_recAt?_of_mem hxy
  have := h.slotOfRec y hy s' i x.arrivalSeq (by simp [Group.seqAt, hs'])
  omega

/-- **A committed record takes the next slot of a window that is not full.** -/
theorem Log.Wf.push (h : log.Wf) {d : AppendDesc} (hgs : log.groups = l₁ ++ g :: l₂)
    (hroom : log.nextSeq < log.beginSeq + log.lim.maxRecords) (hp : g.Pushed g' s n r)
    (hseq : r.arrivalSeq = log.nextSeq) (hwf : g'.Wf log.lim) (hid : g'.groupId = g.groupId)
    (hdid : g.groupId = d.groupId) (hcount : g'.recordCount = g.recordCount + 1)
    (hbytes : g'.bytes = g.bytes + d.bytes) (holes : ℕ → Hole) :
    (Log.account { log with groups := l₁ ++ g' :: l₂, holes := holes } d s n).Wf := by
  have hg : g ∈ log.groups := by simp [hgs]
  have hb := h.begin_le
  have hmem : ∀ x, x ∈ l₁ ++ g' :: l₂ → x = g' ∨ x ∈ log.groups ∧ x.groupId ≠ g.groupId :=
    fun x hx => mem_replaced h.sorted hgs hx
  have hslot := fun q => Log.slotOf_account (q := q) (d := d) (s := s) (n := n)
    { log with groups := l₁ ++ g' :: l₂, holes := holes } hroom
  have hslotNew := Log.slotOf_account_next
    { log with groups := l₁ ++ g' :: l₂, holes := holes } d s n
  have hold : ∀ q, log.slotOf q = Log.slotOf { log with
    groups := l₁ ++ g' :: l₂, holes := holes } q := fun _ => rfl
  have hsorted := h.sorted
  have hsum := h.bytes
  have hlive := h.live
  have hlen := h.groups_le
  rw [hgs] at hsorted hsum hlive hlen
  refine ⟨h.lim, ?_, ?_, fun x hx => ?_, ?_, ?_, Nat.le_succ_of_le hb, hroom, ?_,
    fun x hx s' i q hq => ?_, fun q h1 h2 x hx hxid => ?_, fun q h1 h2 hx => ?_,
      h.cursors, h.noFloor⟩
  · exact sorted_replace hsorted hid
  · simpa [account] using hlen
  · rcases hmem x hx with rfl | hx
    · exact hwf
    · exact h.group x hx.1
  · simp only [account, map_append, map_cons, sum_append, sum_cons, hbytes]
      at hsum ⊢
    rw [← hsum]
    abel
  · simp only [account, map_append, map_cons, sum_append, sum_cons, hcount]
      at hlive ⊢
    omega
  · have hperm := (hp.allRecs hgs).map Rec.arrivalSeq
    rw [map_cons, hseq] at hperm
    exact hperm.nodup_iff.mpr (nodup_cons.mpr ⟨h.nextSeq_fresh, h.seqNodup⟩)
  · rcases hmem x hx with rfl | ⟨hx, -⟩
    · rw [hp.seqAt, hseq] at hq
      rw [hid]
      split at hq
      · rename_i hpos
        cases hq
        rw [hpos.1, hpos.2, hdid]
        exact ⟨hb, Nat.lt_succ_self _, hslotNew⟩
      · obtain ⟨hq1, hq2, hq3⟩ := h.slotOfRec g hg s' i q hq
        exact ⟨hq1, Nat.lt_succ_of_lt hq2, (hslot q hq1 hq2).trans hq3⟩
    · obtain ⟨hq1, hq2, hq3⟩ := h.slotOfRec x hx s' i q hq
      exact ⟨hq1, Nat.lt_succ_of_lt hq2, (hslot q hq1 hq2).trans hq3⟩
  · rcases Nat.lt_succ_iff_lt_or_eq.mp h2 with hlt | rfl
    · rw [hslot q h1 hlt, ← hold] at hxid ⊢
      rcases hmem x hx with rfl | ⟨hx, -⟩
      · have hpos := h.recOfSlot q h1 hlt g hg (hid ▸ hxid)
        rw [hp.seqAt, if_neg]
        · exact hpos
        · rintro ⟨he1, he2⟩
          rw [Group.seqAt, he1, he2, hp.free] at hpos
          cases hpos
      · exact h.recOfSlot q h1 hlt x hx hxid
    · rw [hslotNew] at hxid ⊢
      rcases hmem x hx with rfl | ⟨-, hne⟩
      · rw [hp.seqAt, hseq]
        simp
      · exact absurd (hxid.trans hdid.symm) hne
  · rcases Nat.lt_succ_iff_lt_or_eq.mp h2 with hlt | rfl
    · rw [hslot q h1 hlt] at hx ⊢
      dsimp only [account] at hx
      rw [forall_mem_append, forall_mem_cons, hid] at hx
      refine h.gone q h1 hlt ?_
      rwa [hgs, forall_mem_append, forall_mem_cons]
    · rw [hslotNew] at hx
      exact absurd (hid.trans hdid) (hx g' (by simp [account]))

end Push

end MoqRelay
