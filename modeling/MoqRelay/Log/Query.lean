import MoqRelay.Log.Later
import MoqRelay.Log.Stored

/-!
# Log/Query — read-only questions about a log

`moqr_log_group_last`, `moqr_log_group_final`, `moqr_log_object_status` and its companion for the
arrival time, `moqr_log_view_chunk`, and `moqr_log_read_rec` with its companions for a list's
terminal.  On a well-formed log each answers for the records the group holds: the greatest id, the
record with an id, the bytes of a chunk.
-/

namespace MoqRelay

open List

/-! ## Questions about one group -/

/-- The greater of a maximum so far and a new value; a tie keeps the first. -/
def runningMax : Option ℕ → ℕ → Option ℕ := keepLeast OrderDual.toDual

theorem foldl_runningMax {l : List ℕ} {m : Option ℕ} : match l.foldl runningMax m with
    | none => m = none ∧ l = []
    | some q => (q ∈ m ∨ q ∈ l) ∧ (∀ x ∈ m, x ≤ q) ∧ ∀ x ∈ l, x ≤ q := by
  have h := foldl_keepLeast (fun x : ℕ => OrderDual.toDual x) (l := l) (m := m)
  cases hq : l.foldl (keepLeast fun x : ℕ => OrderDual.toDual x) m with
  | none =>
    have hq' : l.foldl runningMax m = none := hq
    rw [hq] at h
    rwa [hq']
  | some q =>
    have hq' : l.foldl runningMax m = some q := hq
    rw [hq] at h
    rwa [hq']

namespace Group

/-- `moqr_log_group_last` on a group that was found. -/
def last (g : Group) : Option ℕ :=
  (g.dg.recs.map Rec.objectId).foldl runningMax
    (((g.sgs.filter fun sg => sg.hasRecords && !sg.v.recs.isEmpty).map
      Subgroup.lastObjectId).foldl runningMax none)

/-- The scan of a subgroup list, which stops at the first greater id. -/
def scanList (oid : ℕ) : List Rec → Option Rec
  | [] => none
  | r :: rs => if r.objectId = oid then some r else if oid < r.objectId then none
    else scanList oid rs

/-- The record with an object id: the identity set decides whether there is one, then the lists are
searched, the subgroups first. -/
def findRec (cap : ℕ) (g : Group) (oid : ℕ) : Option Rec :=
  if g.idSetContains cap oid then
    (g.sgs.findSome? fun sg => scanList oid sg.v.recs).or
    (g.dg.recs.find? fun r => r.objectId = oid)
  else none

variable {lim : LogLimits} {g : Group} {oid : ℕ} {l : List Rec} {r : Rec}

theorem scanList_eq_some (h : scanList oid l = some r) : r ∈ l ∧ r.objectId = oid := by
  induction l with
  | nil => simp [scanList] at h
  | cons x l ih =>
    unfold scanList at h
    split_ifs at h with h1 h2
    · cases h
      exact ⟨by simp, h1⟩
    · exact ⟨mem_cons_of_mem _ (ih h).1, (ih h).2⟩

/-- On an ascending list stopping early misses nothing. -/
theorem scanList_isSome (hl : (l.map Rec.objectId).Pairwise (· < ·)) (hr : r ∈ l)
    (hid : r.objectId = oid) : (scanList oid l).isSome := by
  induction l with
  | nil => cases hr
  | cons x l ih =>
    obtain ⟨hx, hl⟩ := pairwise_cons.mp (map_cons ▸ hl)
    unfold scanList
    split_ifs with h1 h2
    · rfl
    · rcases mem_cons.mp hr with rfl | hr
      · exact absurd hid h1
      · have := hx _ (mem_map_of_mem hr)
        omega
    · rcases mem_cons.mp hr with rfl | hr
      · exact absurd hid h1
      · exact ih hl hr

theorem mem_recs_iff : r ∈ g.recs ↔ (∃ sg ∈ g.sgs, r ∈ sg.v.recs) ∨ r ∈ g.dg.recs := by simp [recs]

/-- **The record found is the one with the id.** -/
theorem Wf.findRec_eq_some_iff (h : g.Wf lim) (hl : lim.Ok) :
    g.findRec lim.idSetCap oid = some r ↔ r ∈ g.recs ∧ r.objectId = oid := by
  have huniq : ∀ a ∈ g.recs, ∀ b ∈ g.recs, a.objectId = b.objectId → a = b :=
    fun a ha b hb hab => inj_on_of_nodup_map h.idsNodup ha hb hab
  have hsound : ∀ x, g.findRec lim.idSetCap oid = some x → x ∈ g.recs ∧ x.objectId = oid := by
    intro x hx
    unfold findRec at hx
    split at hx
    · rcases Option.or_eq_some_iff.mp hx with hx | ⟨-, hx⟩
      · obtain ⟨sg, hsg, hx⟩ := exists_of_findSome?_eq_some hx
        obtain ⟨hm, hid⟩ := scanList_eq_some hx
        exact ⟨mem_recs_iff.mpr (.inl ⟨sg, hsg, hm⟩), hid⟩
      · exact ⟨mem_recs_iff.mpr (.inr (mem_of_find?_eq_some hx)), by simpa using find?_some hx⟩
    · cases hx
  refine ⟨hsound r, fun ⟨hr, hid⟩ => ?_⟩
  have hin : g.idSetContains lim.idSetCap oid :=
    (h.ids.contains_iff hl oid).mpr (hid ▸ mem_map_of_mem hr)
  have hsome : (g.findRec lim.idSetCap oid).isSome := by
    rw [findRec, if_pos hin]
    rcases mem_recs_iff.mp hr with ⟨sg, hsg, hm⟩ | hm
    · have hs : (g.sgs.findSome? fun sg => scanList oid sg.v.recs).isSome :=
        findSome?_isSome_iff.mpr ⟨sg, hsg, scanList_isSome (h.sgs sg hsg).ascending hm hid⟩
      simp [hs]
    · have hs : (g.dg.recs.find? fun r => r.objectId = oid).isSome :=
        find?_isSome.mpr ⟨r, hm, by simpa using hid⟩
      simp [hs]
  obtain ⟨x, hx⟩ := Option.isSome_iff_exists.mp hsome
  obtain ⟨hxm, hxid⟩ := hsound x hx
  rw [hx, huniq x hxm r hr (hxid.trans hid.symm)]

/-- **The last id of a group**: the greatest its records carry. -/
theorem Wf.last_spec (h : g.Wf lim) : match g.last with
    | none => g.recs = []
    | some q => q ∈ g.recs.map Rec.objectId ∧ ∀ r ∈ g.recs, r.objectId ≤ q := by
  have hfilter : (g.sgs.filter fun sg => sg.hasRecords && !sg.v.recs.isEmpty) = g.sgs :=
    filter_eq_self.mpr fun sg hsg => by
      have hlast := (h.sgs sg hsg).last
      have hne : sg.v.recs ≠ [] := fun e => by simp [e] at hlast
      simp [(h.sgs sg hsg).has, hne]
  have h1 := foldl_runningMax (l := g.sgs.map Subgroup.lastObjectId) (m := none)
  have h2 := foldl_runningMax (l := g.dg.recs.map Rec.objectId)
    (m := (g.sgs.map Subgroup.lastObjectId).foldl runningMax none)
  have hlastmem : ∀ sg ∈ g.sgs, sg.lastObjectId ∈ g.recs.map Rec.objectId := fun sg hsg => by
    obtain ⟨r, hr, he⟩ := mem_map.mp (mem_of_getLast? (h.sgs sg hsg).last)
    exact he ▸ mem_map_of_mem (mem_recs_of_sg hsg hr)
  unfold last
  rw [hfilter]
  cases hm : (g.sgs.map Subgroup.lastObjectId).foldl runningMax none with
  | none =>
    rw [hm] at h1 h2
    have hsgs : g.sgs = [] := by simpa using h1.2
    cases hq : (g.dg.recs.map Rec.objectId).foldl runningMax none with
    | none =>
      rw [hq] at h2
      simpa [recs, hsgs] using h2.2
    | some q =>
      rw [hq] at h2
      have hmem : q ∈ g.dg.recs.map Rec.objectId := by simpa using h2.1
      refine ⟨by simpa [recs, hsgs] using hmem, fun r hr => ?_⟩
      exact h2.2.2 _ (mem_map_of_mem (by simpa [recs, hsgs] using hr))
  | some m =>
    rw [hm] at h1 h2
    have hmmem : m ∈ g.sgs.map Subgroup.lastObjectId := by simpa using h1.1
    cases hq : (g.dg.recs.map Rec.objectId).foldl runningMax (some m) with
    | none =>
      rw [hq] at h2
      simp at h2
    | some q =>
      rw [hq] at h2
      obtain ⟨hqmem, hmq, hdg⟩ := h2
      have hmq := hmq m rfl
      refine ⟨?_, fun r hr => ?_⟩
      · rcases hqmem with hqm | hqm
        · obtain rfl : m = q := by simpa using hqm
          obtain ⟨sg, hsg, rfl⟩ := mem_map.mp hmmem
          exact hlastmem sg hsg
        · obtain ⟨r, hr, rfl⟩ := mem_map.mp hqm
          exact mem_map_of_mem (mem_recs_iff.mpr (.inr hr))
      · rcases mem_recs_iff.mp hr with ⟨sg, hsg, hr⟩ | hr
        · have := (h.sgs sg hsg).le_last hr
          have := h1.2.2 _ (mem_map_of_mem hsg)
          omega
        · exact hdg _ (mem_map_of_mem hr)

end Group

/-! ## Questions about the log -/

namespace Log

section

variable (log : Log)

/-- `moqr_log_group_last`. -/
def groupLast (gid : ℕ) : Option ℕ := (log.groupFind gid).bind Group.last

/-- `moqr_log_group_final`. -/
def groupFinal (gid : ℕ) : Option ℕ :=
  (log.groupFind gid).bind fun g => if g.hasFinal then some g.finalObjectId else none

/-- The search of `moqr_log_object_status` and `moqr_log_internal_object_arrival`. -/
def findRec (gid oid : ℕ) : Option Rec :=
  (log.groupFind gid).bind fun g => g.findRec log.lim.idSetCap oid

/-- `moqr_log_object_status`. -/
def objectStatus (gid oid : ℕ) : Option (ObjStatus × ObjState) :=
  (log.findRec gid oid).map fun r => (r.status, r.objState)

/-- `moqr_log_internal_object_arrival`. -/
def objectArrival (gid oid : ℕ) : Option ℕ := (log.findRec gid oid).map Rec.arrivalUs

/-- `oldest_group_id` of `moqr_log_get_stats`. -/
def oldestGroupId : ℕ := (log.groups.head?.map Group.groupId).getD u64Max

/-- `moqr_log_view_chunk`: the buffer and the length of a chunk. -/
def viewChunk (r : Rec) (idx : ℕ) : Except Result (Option Rcbuf × UInt64) :=
  if r.chunkCount ≤ idx then .error .done
  else match chainNth log.pool.next idx r.chunkHead with
    | none => .error .inval
    | some node => .ok ((log.pool.nodes node).buf, (log.pool.nodes node).len)

/-! ### The heads of a group's lists -/

/-- `moqr_log_read_rec`. -/
def readRec (gid : ℕ) (s : ListSlot) (i : ℕ) : Except Result Rec :=
  match log.groupFind gid with
  | none => .error (if log.belowHorizon gid then .tooOld else .done)
  | some g =>
    match g.recAt? s i with
    | none => .error .done
    | some r => .ok r

/-- The probe with which the core asks whether a group was evicted. -/
def groupGone (gid : ℕ) : Bool := (log.groupFind gid).isNone && log.belowHorizon gid

/-- `moqr_log_group_list_count`. -/
def listCount (gid : ℕ) : ℕ := ((log.groupFind gid).map fun g => g.sgs.length).getD 0

/-- The subgroup a list slot of a group names. -/
def subgroup? (gid i : ℕ) : Option Subgroup := (log.groupFind gid).bind fun g => g.sgs[i]?

/-- `moqr_log_subgroup_sealed`: the id of a sealed subgroup. -/
def subgroupSealed (gid i : ℕ) : Option ℕ :=
  (log.subgroup? gid i).bind fun sg => if sg.sealed then some sg.subgroupId else none

/-- `moqr_log_subgroup_reset`: the cause of a subgroup that ended by a reset. -/
def subgroupReset (gid i : ℕ) : Option ResetDesc :=
  (log.subgroup? gid i).bind fun sg => if sg.sealedReset then some sg.reset else none

/-- `moqr_log_subgroup_is_final`. -/
def subgroupIsFinal (gid i oid : ℕ) : Bool :=
  (log.subgroup? gid i).any fun sg =>
    sg.sealed && !sg.sealedReset && !sg.v.recs.isEmpty && oid = sg.lastObjectId

/-- `moqr_log_internal_rec_flags`: whether the record carries subgroup properties, whether it
follows a gap, and the reset owed to what it does not continue. -/
def recFlags (gid : ℕ) (s : ListSlot) (i : ℕ) : Bool × Bool × ResetDesc :=
  match s with
  | .datagram => (false, false, resetDescNone)
  | .subgroup _ =>
    match log.readRec gid s i with
    | .error _ => (false, false, resetDescNone)
    | .ok r => (r.subgroupProperties, r.followsGap, r.gapReset)

end

variable {log : Log} {gid oid q : ℕ} {r : Rec}

theorem Wf.mem_allRecs_iff (hw : log.Wf) :
    r ∈ log.allRecs ↔ ∃ g, log.groupFind r.groupId = some g ∧ r ∈ g.recs := by
  simp only [allRecs, mem_flatMap, groupFind_eq_some_iff hw.sorted]
  constructor
  · rintro ⟨g, hg, hr⟩
    exact ⟨g, ⟨hg, ((hw.group g hg).owner r hr).symm⟩, hr⟩
  · rintro ⟨g, ⟨hg, -⟩, hr⟩
    exact ⟨g, hg, hr⟩

/-- **The record at a Location.** -/
theorem Wf.findRec_eq_some_iff (hw : log.Wf) :
    log.findRec gid oid = some r ↔ r ∈ log.allRecs ∧ r.groupId = gid ∧ r.objectId = oid := by
  rw [findRec, Option.bind_eq_some_iff, hw.mem_allRecs_iff]
  constructor
  · rintro ⟨g, hf, hr⟩
    obtain ⟨hg, hid⟩ := (groupFind_eq_some_iff hw.sorted).mp hf
    obtain ⟨hm, ho⟩ := ((hw.group g hg).findRec_eq_some_iff hw.lim).mp hr
    have hgid : r.groupId = gid := ((hw.group g hg).owner r hm).trans hid
    exact ⟨⟨g, hgid ▸ hf, hm⟩, hgid, ho⟩
  · rintro ⟨⟨g, hf, hm⟩, rfl, ho⟩
    obtain ⟨hg, -⟩ := (groupFind_eq_some_iff hw.sorted).mp hf
    exact ⟨g, hf, ((hw.group g hg).findRec_eq_some_iff hw.lim).mpr ⟨hm, ho⟩⟩

/-- **The last id of a group**, and what its absence says. -/
theorem Wf.groupLast_spec (hw : log.Wf) (gid : ℕ) : match log.groupLast gid with
    | none => ∀ r ∈ log.allRecs, r.groupId ≠ gid
    | some q => (∃ r ∈ log.allRecs, r.groupId = gid ∧ r.objectId = q) ∧
        ∀ r ∈ log.allRecs, r.groupId = gid → r.objectId ≤ q := by
  unfold groupLast
  cases hf : log.groupFind gid with
  | none =>
    intro r hr hid
    obtain ⟨g, hg, -⟩ := hw.mem_allRecs_iff.mp hr
    rw [hid, hf] at hg
    cases hg
  | some g =>
    obtain ⟨hg, hid⟩ := (groupFind_eq_some_iff hw.sorted).mp hf
    have hmem : ∀ r ∈ log.allRecs, r.groupId = gid → r ∈ g.recs := fun r hr hr' => by
      obtain ⟨g', hg', hm⟩ := hw.mem_allRecs_iff.mp hr
      rw [hr', hf] at hg'
      exact Option.some.inj hg' ▸ hm
    have hlast := (hw.group g hg).last_spec
    rw [Option.bind_some]
    cases hl : g.last with
    | none =>
      rw [hl] at hlast
      intro r hr hr'
      simpa [hlast] using hmem r hr hr'
    | some q =>
      rw [hl] at hlast
      obtain ⟨r, hr, ho⟩ := mem_map.mp hlast.1
      exact ⟨⟨r, mem_flatMap.mpr ⟨g, hg, hr⟩, ((hw.group g hg).owner r hr).trans hid, ho⟩,
        fun x hx hxid => hlast.2 x (hmem x hx hxid)⟩

/-- A known final bounds the records of its group. -/
theorem Wf.groupFinal_le (hw : log.Wf) (h : log.groupFinal gid = some q) (hr : r ∈ log.allRecs)
    (hid : r.groupId = gid) : r.objectId ≤ q := by
  obtain ⟨g, hf, hm⟩ := hw.mem_allRecs_iff.mp hr
  rw [hid] at hf
  obtain ⟨hg, -⟩ := (groupFind_eq_some_iff hw.sorted).mp hf
  have hfin := (hw.group g hg).final
  simp only [groupFinal, hf, Option.bind_some] at h
  split at h
  · rename_i hhas
    rw [Group.FinalOk, if_pos hhas] at hfin
    cases h
    exact hfin.2 r hm
  · cases h

/-- A known final is itself retained. -/
theorem Wf.groupFinal_mem (hw : log.Wf) (h : log.groupFinal gid = some q) :
    ∃ r ∈ log.allRecs, r.groupId = gid ∧ r.objectId = q := by
  unfold groupFinal at h
  cases hf : log.groupFind gid with
  | none => simp [hf] at h
  | some g =>
    obtain ⟨hg, hid⟩ := (groupFind_eq_some_iff hw.sorted).mp hf
    have hfin := (hw.group g hg).final
    simp only [hf, Option.bind_some] at h
    split at h
    · rename_i hhas
      rw [Group.FinalOk, if_pos hhas] at hfin
      cases h
      obtain ⟨r, hr, ho⟩ := mem_map.mp hfin.1
      exact ⟨r, mem_flatMap.mpr ⟨g, hg, hr⟩, ((hw.group g hg).owner r hr).trans hid, ho⟩
    · cases h

/-- **A chunk of a stored record** is the node its chain has there. -/
theorem viewChunk_eq {maxBytes : UInt64} {l : List ℕ} {idx : ℕ}
    (h : r.Stores log.pool maxBytes l) (hidx : idx < l.length) :
    ∃ node, l[idx]? = some node ∧ log.viewChunk r idx
      = .ok ((log.pool.nodes node).buf, log.pool.len node) := by
  obtain ⟨node, hnode⟩ : ∃ node, l[idx]? = some node := ⟨_, getElem?_eq_getElem hidx⟩
  refine ⟨node, hnode, ?_⟩
  have hnth := h.chain.nth idx
  rw [viewChunk, if_neg (by rw [h.count]; omega), hnth, hnode]
  rfl

/-- **What was found stays**: whatever is called, the same record is found at the Location, or none
is, for good. -/
theorem run_findRec (h : log.Reachable) (hr : log.findRec gid oid = some r) (ops : List LogOp) :
    (∃ r', (log.run ops).findRec gid oid = some r' ∧ r.Same r') ∨
      ∀ more, ((log.run ops).run more).findRec gid oid = none := by
  obtain ⟨hm, rfl, rfl⟩ := h.wf.findRec_eq_some_iff.mp hr
  obtain ⟨g, hg, hrec⟩ := h.wf.mem_allRecs_iff.mp hm
  have hw := run_wf h.wf ops
  have hlater := run_later h.wf ops
  cases hg' : (log.run ops).groupFind r.groupId with
  | none =>
    -- no group below the horizon comes back
    refine .inr fun more => ?_
    have hgone := hlater.evicted _ (by rw [hg]; rfl) hg'
    rw [findRec, (run_later hw more).gone _ hg' hgone]
    rfl
  | some g' =>
    obtain ⟨s, i, hat⟩ := g.exists_recAt?_of_mem hrec
    obtain ⟨r', hat', hsame⟩ := hlater.keeps _ g g' hg hg' s i r hat
    have hm' := hw.mem_allRecs_iff.mpr ⟨g', hsame.groupId ▸ hg', Group.mem_recs_of_recAt? hat'⟩
    exact .inl ⟨r', hw.findRec_eq_some_iff.mpr ⟨hm', hsame.groupId, hsame.objectId⟩, hsame⟩

/-- The datagram of group 1, found again. -/
theorem run_findRec_mixed : ∃ r, (mixedLog.run [.tick 5]).findRec 1 5 = some r := by
  have hr : (mixedLog.findRec 1 5).isSome := by decide +kernel
  have h := run_findRec mixedLog_reachable (Option.some_get hr).symm [.tick 5]
  exact (h.resolve_right fun h => absurd (h []) (by decide +kernel)).imp fun _ h => h.1

end Log

end MoqRelay
