import MoqRelay.Log.Capacity

/-!
# Log/Wf — the invariant of a log

`Log.Wf` is what every operation keeps.  Its core is the **journal correspondence**: inside the
window a slot either names a group that is gone for good (`gone`) or the position of the record with
that sequence number (`recOfSlot`), and every retained record has its slot (`slotOfRec`).  The rest
is the shape of the group array, the per-group facts (`Group.Wf`), and the aggregates.
-/

namespace MoqRelay

open List

/-- A record vector's capacity covers its records, with the slack of doubling from 8. -/
structure RecVec.Wf (v : RecVec) : Prop where
  length_le : v.recs.length ≤ v.cap
  cap_le : v.cap ≤ 2 * v.recs.length + 8

/-- **A committed subgroup list**: nonempty, ascending, at most its tail OPEN. -/
structure Subgroup.Wf (sg : Subgroup) : Prop where
  vec : sg.v.Wf
  has : sg.hasRecords
  ascending : (sg.v.recs.map Rec.objectId).Pairwise (· < ·)
  last : (sg.v.recs.map Rec.objectId).getLast? = some sg.lastObjectId
  owner : ∀ r ∈ sg.v.recs, r.subgroupId = sg.subgroupId ∧ r.datagramPref = false
  tailOpen : ∀ r ∈ sg.v.recs.dropLast, r.objState ≠ .open

/-- The identity set holds the object ids of a list of records: the table all but `UINT64_MAX`, the
flag that one. -/
structure Group.IdsOk (cap : ℕ) (g : Group) : Prop where
  probed : Probed g.idSet cap (fun x : ℕ => x) (idHash cap)
  mem : ∀ id, (∃ i < cap, g.idSet i = some id) ↔ id ≠ u64Max ∧ id ∈ g.recs.map Rec.objectId
  max : g.hasMaxObject ↔ u64Max ∈ g.recs.map Rec.objectId

/-- **A known final is the largest retained object id.** -/
def Group.FinalOk (g : Group) : Prop :=
  if g.hasFinal then
    g.finalObjectId ∈ g.recs.map Rec.objectId ∧ ∀ r ∈ g.recs, r.objectId ≤ g.finalObjectId
  else g.finalObjectId = finalUnknown

/-- The record lists of a group. -/
structure Group.Lists (lim : LogLimits) (g : Group) : Prop where
  sgs_le : g.sgs.length ≤ lim.maxSubgroups
  sgs : ∀ sg ∈ g.sgs, sg.Wf
  sgIds : (g.sgs.map Subgroup.subgroupId).Nodup
  dg : g.dg.Wf
  dgOwner : ∀ r ∈ g.dg.recs, r.datagramPref ∧ r.objState = .complete
  owner : ∀ r ∈ g.recs, r.groupId = g.groupId

/-- **The invariant of one retained group.** -/
structure Group.Wf (lim : LogLimits) (g : Group) : Prop extends g.Lists lim where
  recordCount : g.recordCount = g.recs.length
  count_le : g.recordCount ≤ lim.maxObjectsPerGroup
  bytes : (g.recs.map Rec.bytes).sum = g.bytes
  idsNodup : (g.recs.map Rec.objectId).Nodup
  ids : g.IdsOk lim.idSetCap
  final : g.FinalOk

/-- The arrival sequence number at a position of a group. -/
def Group.seqAt (g : Group) (s : ListSlot) (i : ℕ) : Option ℕ := (g.recAt? s i).map Rec.arrivalSeq

/-- Every retained record sits at some position. -/
theorem Group.exists_recAt?_of_mem (g : Group) {r : Rec} (hr : r ∈ g.recs) :
    ∃ s i, g.recAt? s i = some r := by
  rcases mem_append.mp hr with hr | hr
  · obtain ⟨sg, hsg, hr⟩ := mem_flatMap.mp hr
    obtain ⟨j, hj⟩ := mem_iff_getElem?.mp hsg
    obtain ⟨i, hi⟩ := mem_iff_getElem?.mp hr
    exact ⟨.subgroup j, i, by simp [recAt?, list?, hj, hi]⟩
  · obtain ⟨i, hi⟩ := mem_iff_getElem?.mp hr
    exact ⟨.datagram, i, by simp [recAt?, list?, hi]⟩

theorem Group.mem_recs_of_recAt? {g : Group} {s : ListSlot} {i : ℕ} {r : Rec}
    (h : g.recAt? s i = some r) : r ∈ g.recs := by
  cases s with
  | datagram => exact mem_append_right _ (mem_of_getElem? (by simpa [recAt?, list?] using h))
  | subgroup j =>
    cases hj : g.sgs[j]? with
    | none => simp [recAt?, list?, hj] at h
    | some sg =>
      have hr : r ∈ sg.v.recs := mem_of_getElem? (by simpa [recAt?, list?, hj] using h)
      exact mem_append_left _ (mem_flatMap.mpr ⟨sg, mem_of_getElem? hj, hr⟩)

/-- Every retained record of the log. -/
def Log.allRecs (log : Log) : List Rec := log.groups.flatMap Group.recs

/-- **The invariant of a log.** -/
structure Log.Wf (log : Log) : Prop where
  lim : log.lim.Ok
  sorted : log.groups.Pairwise fun a b => a.groupId < b.groupId
  groups_le : log.groups.length ≤ log.lim.maxGroups
  group : ∀ g ∈ log.groups, g.Wf log.lim
  bytes : (log.groups.map Group.bytes).sum = log.retainedBytes
  live : log.liveRecords = (log.groups.map Group.recordCount).sum
  begin_le : log.beginSeq ≤ log.nextSeq
  window : log.nextSeq ≤ log.beginSeq + log.lim.maxRecords
  seqNodup : (log.allRecs.map Rec.arrivalSeq).Nodup
  slotOfRec : ∀ g ∈ log.groups, ∀ s i q, g.seqAt s i = some q →
    log.beginSeq ≤ q ∧ q < log.nextSeq ∧ log.slotOf q = ⟨g.groupId, s, i⟩
  recOfSlot : ∀ q, log.beginSeq ≤ q → q < log.nextSeq → ∀ g ∈ log.groups,
    g.groupId = (log.slotOf q).groupId →
      g.seqAt (log.slotOf q).list (log.slotOf q).recIndex = some q
  gone : ∀ q, log.beginSeq ≤ q → q < log.nextSeq →
    (∀ g ∈ log.groups, g.groupId ≠ (log.slotOf q).groupId) →
      log.belowHorizon (log.slotOf q).groupId
  cursors : log.cursorCount = log.liveCursors
  noFloor : log.anyEvicted = false → log.maxEvictedGroupId = 0

theorem Log.Wf.fresh {lim : LogLimits} (h : lim.Ok) : (Log.fresh lim).Wf where
  lim := h
  sorted := List.Pairwise.nil
  groups_le := Nat.zero_le _
  group _ hg := absurd hg not_mem_nil
  bytes := rfl
  live := rfl
  begin_le := le_rfl
  window := Nat.zero_le _
  seqNodup := nodup_nil
  slotOfRec _ hg := absurd hg not_mem_nil
  recOfSlot q _ hq := absurd hq (Nat.not_lt_zero q)
  gone q _ hq := absurd hq (Nat.not_lt_zero q)
  cursors := by simp [Log.liveCursors, Log.fresh]
  noFloor _ := rfl

end MoqRelay
