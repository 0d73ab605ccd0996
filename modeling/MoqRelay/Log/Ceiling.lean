import MoqRelay.Log.Wf

/-!
# Log/Ceiling — a well-formed log passes the capacity check

The walk over the groups reads off `Group.Wf`; the structure ceiling is the amortised part.  A
vector doubles from 8, so its capacity is at most twice its records plus 8 (`RecVec.Wf.cap_le`);
summed over every list that is the two record terms of the closed form, and the saturated ceiling
bounds the wrapped total (`mod_le_sat`).
-/

namespace MoqRelay

open List

/-! ## The walk over the groups -/

theorem checkList_eq_none {fin : ℕ} :
    ∀ {prev : Option ℕ} {rs : List Rec}, (rs.map Rec.objectId).Pairwise (· < ·) →
      (∀ p ∈ prev, ∀ r ∈ rs, p < r.objectId) →
      (fin ≠ finalUnknown → ∀ r ∈ rs, r.objectId ≤ fin) → checkList fin prev rs = none
  | _, [], _, _, _ => rfl
  | prev, r :: rs, hasc, hprev, hfin => by
      obtain ⟨hr, hrs⟩ := pairwise_cons.mp (map_cons ▸ hasc)
      have h1 : (prev.any fun p => r.objectId ≤ p) = false := by
        cases prev with
        | none => rfl
        | some p => simpa using hprev p rfl r (by simp)
      have h2 : ¬ (fin ≠ finalUnknown ∧ fin < r.objectId) := fun h =>
        absurd (hfin h.1 r (by simp)) (by omega)
      rw [checkList, h1, if_neg h2]
      refine checkList_eq_none hrs (fun p hp s hs => ?_) fun hf s hs => hfin hf s (by simp [hs])
      obtain rfl : r.objectId = p := by simpa using hp
      exact hr _ (mem_map_of_mem hs)

variable {lim : LogLimits} {g : Group}

/-- A final the check looks at bounds every record: an unknown one is never compared. -/
theorem Group.FinalOk.le (h : g.FinalOk) (hne : g.finalObjectId ≠ finalUnknown) {r : Rec}
    (hr : r ∈ g.recs) : r.objectId ≤ g.finalObjectId := by
  unfold FinalOk at h
  split at h
  · exact h.2 r hr
  · exact absurd h hne

theorem Group.mem_recs_of_sg {sg : Subgroup} {r : Rec} (hsg : sg ∈ g.sgs) (hr : r ∈ sg.v.recs) :
    r ∈ g.recs :=
  mem_append_left _ (mem_flatMap.mpr ⟨sg, hsg, hr⟩)

theorem Group.Wf.check_eq_none (h : g.Wf lim) {prev : Option ℕ}
    (hprev : ∀ p ∈ prev, p < g.groupId) : g.check lim prev = none := by
  have hp : (prev.any fun p => g.groupId ≤ p) = false := by
    cases prev with
    | none => rfl
    | some p => simpa using hprev p rfl
  have hlists : (g.sgs.findSome? fun sg => checkList g.finalObjectId none sg.v.recs) = none := by
    refine findSome?_eq_none_iff.mpr fun sg hsg => ?_
    exact checkList_eq_none (h.sgs sg hsg).ascending (by simp) fun hne r hr =>
      h.final.le hne (mem_recs_of_sg hsg hr)
  unfold check
  simp only [hp, hlists, h.bytes, h.recordCount, ne_eq, not_true_eq_false, if_false,
    Bool.false_eq_true]
  rw [if_neg (by have := h.count_le; rw [h.recordCount] at this; omega),
    if_neg (by have := h.sgs_le; omega)]

theorem checkGroups_eq_none : ∀ {prev : Option ℕ} {gs : List Group},
    gs.Pairwise (fun a b => a.groupId < b.groupId) → (∀ g ∈ gs, g.Wf lim) →
      (∀ p ∈ prev, ∀ g ∈ gs, p < g.groupId) → checkGroups lim prev gs = none
  | _, [], _, _, _ => rfl
  | prev, g :: gs, hs, hwf, hprev => by
      obtain ⟨hg, hgs⟩ := pairwise_cons.mp hs
      rw [checkGroups, (hwf g (by simp)).check_eq_none fun p hp => hprev p hp g (by simp)]
      refine checkGroups_eq_none hgs (fun x hx => hwf x (by simp [hx])) fun p hp x hx => ?_
      obtain rfl : g.groupId = p := by simpa using hp
      exact hg x hx

/-! ## The structure ceiling -/

/-- The vectors of a group: twice its records, and 8 per list. -/
theorem Group.Wf.caps_le (h : g.Wf lim) :
    (g.sgs.map fun sg => sg.v.cap).sum + g.dg.cap
      ≤ 2 * g.recordCount + 8 * (g.sgs.length + 1) := by
  have hlists : ∀ sgs : List Subgroup, (∀ sg ∈ sgs, sg.Wf) →
      (sgs.map fun sg => sg.v.cap).sum
        ≤ 2 * (sgs.flatMap fun sg => sg.v.recs).length + 8 * sgs.length := by
    intro sgs
    induction sgs with
    | nil => simp
    | cons sg sgs ih =>
      intro hw
      have h1 := (hw sg (by simp)).vec.cap_le
      have h2 := ih fun x hx => hw x (by simp [hx])
      simp only [map_cons, sum_cons, flatMap_cons, length_append, length_cons]
      omega
  have h1 := hlists g.sgs h.sgs
  have h2 := h.dg.cap_le
  rw [h.recordCount, recs, length_append]
  omega

/-- One group's structure bytes. -/
theorem Group.Wf.structureBytes_le (h : g.Wf lim) (sz : Sizes) :
    g.structureBytes sz lim ≤ lim.maxSubgroups * sz.subgroup + lim.idSetCap * 8 +
      (2 * g.recordCount + 8 * (lim.maxSubgroups + 1)) * sz.record := by
  have hcaps : (g.sgs.map fun sg => sg.v.cap * sz.record).sum + g.dg.cap * sz.record
      = ((g.sgs.map fun sg => sg.v.cap).sum + g.dg.cap) * sz.record := by
    rw [sum_map_mul_right, Nat.add_mul]
  have hbound : (g.sgs.map fun sg => sg.v.cap).sum + g.dg.cap
      ≤ 2 * g.recordCount + 8 * (lim.maxSubgroups + 1) := by
    have h1 := h.caps_le
    have h2 := h.sgs_le
    omega
  rw [structureBytes, Nat.add_assoc, hcaps]
  exact Nat.add_le_add_left (Nat.mul_le_mul_right _ hbound) _

/-- The closed form, computed exactly. -/
def exactCeiling (sz : Sizes) (lim : LogLimits) (liveCap : ℕ) : ℕ :=
  sz.log + lim.maxGroups * sz.group + lim.maxGroups * lim.maxSubgroups * sz.subgroup +
    lim.maxGroups * lim.idSetCap * 8 + lim.maxRecords * sz.jslot +
    lim.maxCursors * sz.cursorSlot + lim.maxChunkNodes * sz.chunkNode +
    2 * liveCap * sz.record + lim.maxGroups * (lim.maxSubgroups + 1) * (8 * sz.record)

/-- **The ceiling is the closed form, saturated.** -/
theorem structureCeiling_eq (sz : Sizes) (lim : LogLimits) :
    structureCeiling sz lim = sat u64Max
      (exactCeiling sz lim (min (sat u64Max (lim.maxGroups * lim.maxObjectsPerGroup))
        lim.maxRecords)) := by
  unfold structureCeiling exactCeiling capAdd capMul
  simp only [satMul_eq, sat_sat_mul]
  rw [← sat_of_le sz.log_le]
  simp only [satAdd_sat]
  rw [sat_of_le sz.log_le]

namespace Log.Wf

variable {log : Log}

variable (h : log.Wf)
include h

/-- **Live records fit the journal window**: their sequence numbers are distinct members of it. -/
theorem live_le : log.liveRecords ≤ log.nextSeq - log.beginSeq := by
  have hlen : log.liveRecords = (log.allRecs.map Rec.arrivalSeq).length := by
    rw [h.live, length_map, allRecs, length_flatMap]
    congr 1
    exact map_congr_left fun g hg => (h.group g hg).recordCount
  rw [hlen]
  refine length_le_window h.seqNodup fun q hq => ?_
  obtain ⟨r, hr, rfl⟩ := mem_map.mp hq
  obtain ⟨g, hg, hrg⟩ := mem_flatMap.mp hr
  obtain ⟨s, i, hs⟩ := g.exists_recAt?_of_mem hrg
  have := h.slotOfRec g hg s i r.arrivalSeq (by simp [Group.seqAt, hs])
  exact ⟨this.1, this.2.1⟩

theorem live_le_caps :
    log.liveRecords ≤ min (sat u64Max (log.lim.maxGroups * log.lim.maxObjectsPerGroup))
      log.lim.maxRecords := by
  have hrec : log.liveRecords ≤ log.lim.maxRecords := by
    have h1 := h.live_le
    have h2 := h.window
    omega
  have hgrp : log.liveRecords ≤ log.lim.maxGroups * log.lim.maxObjectsPerGroup := by
    rw [h.live]
    calc (log.groups.map Group.recordCount).sum
        ≤ log.groups.length * log.lim.maxObjectsPerGroup := by
          rw [← length_map (f := Group.recordCount)]
          refine sum_le_card_nsmul _ _ fun n hn => ?_
          obtain ⟨g, hg, rfl⟩ := mem_map.mp hn
          exact (h.group g hg).count_le
      _ ≤ _ := Nat.mul_le_mul_right _ h.groups_le
  have h64 : log.lim.maxRecords ≤ u64Max := by rw [h.lim.maxRecords_eq]; decide
  exact le_min (le_min (hrec.trans h64) hgrp) hrec

/-- The groups' structure bytes, against the group terms of the closed form. -/
theorem sum_structureBytes_le (sz : Sizes) :
    (log.groups.map fun g => g.structureBytes sz log.lim).sum
      ≤ log.lim.maxGroups * (log.lim.maxSubgroups * sz.subgroup + log.lim.idSetCap * 8 +
          8 * (log.lim.maxSubgroups + 1) * sz.record) + 2 * log.liveRecords * sz.record := by
  have hsum : ∀ gs : List Group, (∀ g ∈ gs, g.Wf log.lim) →
      (gs.map fun g => g.structureBytes sz log.lim).sum
        ≤ gs.length * (log.lim.maxSubgroups * sz.subgroup + log.lim.idSetCap * 8 +
          8 * (log.lim.maxSubgroups + 1) * sz.record) +
          2 * (gs.map Group.recordCount).sum * sz.record := by
    intro gs
    induction gs with
    | nil => simp
    | cons g gs ih =>
      intro hw
      have h1 := (hw g (by simp)).structureBytes_le sz
      have h2 := ih fun x hx => hw x (by simp [hx])
      simp only [map_cons, sum_cons, length_cons]
      refine (Nat.add_le_add h1 h2).trans (le_of_eq ?_)
      ring
  refine (hsum log.groups h.group).trans ?_
  rw [← h.live]
  exact Nat.add_le_add_right (Nat.mul_le_mul_right _ h.groups_le) _

/-- **The actual structure bytes stay under the described ceiling.** -/
theorem structureBytes_le (sz : Sizes) : log.structureBytes sz ≤ structureCeiling sz log.lim := by
  have hsum := h.sum_structureBytes_le sz
  have hlive : 2 * log.liveRecords * sz.record
      ≤ 2 * min (sat u64Max (log.lim.maxGroups * log.lim.maxObjectsPerGroup))
          log.lim.maxRecords * sz.record :=
    Nat.mul_le_mul_right _ (Nat.mul_le_mul_left _ h.live_le_caps)
  rw [structureCeiling_eq, structureBytes, foldl_wrap]
  refine mod_le_sat ?_
  unfold exactCeiling
  refine (Nat.add_le_add_left (hsum.trans (Nat.add_le_add_left hlive _)) _).trans (le_of_eq ?_)
  ring

/-- **A well-formed log within its byte budget passes the capacity check.** -/
theorem capacityCheck_eq (hle : log.retainedBytes ≤ log.lim.maxBytes) (sz : Sizes) :
    log.capacityCheck sz = (.ok, "ok") := by
  have hgroups : checkGroups log.lim none log.groups = none :=
    checkGroups_eq_none h.sorted h.group (by simp)
  have hbytes : (log.groups.map fun g => (g.recs.map Rec.bytes).sum).sum = log.retainedBytes := by
    rw [← h.bytes]
    exact congrArg List.sum (map_congr_left fun g hg => (h.group g hg).bytes)
  have hlive : (log.groups.map fun g => g.recs.length).sum = log.liveRecords := by
    rw [h.live]
    exact congrArg List.sum (map_congr_left fun g hg => (h.group g hg).recordCount.symm)
  have hfault : log.capacityFault sz = none := by
    unfold capacityFault
    rw [if_neg (UInt64.not_lt.mpr hle), if_neg (by have := h.groups_le; omega),
      if_neg (by have := h.window; omega), if_neg (by have := h.live_le; omega), hgroups]
    simp only [hbytes, hlive, ← h.cursors, ne_eq, not_true_eq_false, if_false]
    rw [if_neg (Nat.not_lt.mpr (h.structureBytes_le sz))]
  rw [capacityCheck, hfault]

end Log.Wf

end MoqRelay
