import MoqRelay.Log.Later

/-!
# Log/Finals — a known final bounds what is retained, and stays known

A group's final is established by an END_OF_GROUP object, an end-of-group datagram, the seal of a
list whose header promised it, or an END_OF_TRACK object; the track's final Location by the last of
these alone.  `Bounded` says what a change that admits no record does to one group, and the commit
is the only change that adds a Location or moves the track's final.
-/

namespace MoqRelay

open List

/-- The Location of a record. -/
def Rec.loc (r : Rec) : ℕ × ℕ := (r.groupId, r.objectId)

/-- `g'` still knows the final of `g`, not raised. -/
def Group.FinalKept (g g' : Group) : Prop :=
  g.hasFinal → g'.hasFinal ∧ g'.finalObjectId ≤ g.finalObjectId

theorem Group.FinalKept.refl (g : Group) : g.FinalKept g := fun h => ⟨h, le_rfl⟩

theorem Group.FinalKept.trans {a b c : Group} (h : a.FinalKept b) (h' : b.FinalKept c) :
    a.FinalKept c := fun ha =>
  have hb := h ha
  ⟨(h' hb.1).1, (h' hb.1).2.trans hb.2⟩

/-- `g'` holds the Locations of `g` and still knows its final. -/
structure Group.Bounded (g g' : Group) : Prop where
  locs : g'.recs.map Rec.loc = g.recs.map Rec.loc
  final : g.FinalKept g'

theorem Group.Bounded.refl (g : Group) : g.Bounded g := ⟨rfl, .refl g⟩

/-- An edit of the last record moves no Location and no final. -/
theorem Group.Bounded.edit {g : Group} {F : Subgroup → Subgroup} {f : Rec → Rec}
    (h : Subgroup.Edit F f) (i : ℕ) : g.Bounded (g.modifySg i F) :=
  ⟨Group.recs_map_modifySg h (fun r => by simp [Rec.loc, h.tail.groupId, h.tail.objectId]) i,
    fun hf => ⟨hf, le_rfl⟩⟩

namespace Log

variable {log log' log'' : Log} {gid : ℕ} {g g' : Group} {d : AppendDesc} {mem : AppendMem}

/-- The track's final, when it is known, bounds the Locations of a list of records. -/
def EndBounds (log : Log) (rs : List Rec) : Prop :=
  log.endOfTrack → ∀ r ∈ rs, r.groupId < log.finalGroupId ∨
    r.groupId = log.finalGroupId ∧ r.objectId ≤ log.finalTrackObjectId

/-- The track's final is still known, not raised. -/
def EndKept (log log' : Log) : Prop :=
  log.endOfTrack → log'.endOfTrack ∧ (log'.finalGroupId < log.finalGroupId ∨
    log'.finalGroupId = log.finalGroupId ∧ log'.finalTrackObjectId ≤ log.finalTrackObjectId)

theorem EndKept.refl (log : Log) : EndKept log log := fun h => ⟨h, .inr ⟨rfl, le_rfl⟩⟩

theorem EndKept.trans (h : EndKept log log') (h' : EndKept log' log'') : EndKept log log'' := by
  intro he
  obtain ⟨he', hle⟩ := h he
  obtain ⟨he'', hle'⟩ := h' he'
  exact ⟨he'', by omega⟩

/-- **The finals of `log` in `log'`**: kept by every group that stays, and by the track. -/
structure FinalsKept (log log' : Log) : Prop where
  group : ∀ gid g g', log.groupFind gid = some g → log'.groupFind gid = some g' → g.FinalKept g'
  track : EndKept log log'

/-! ## Changes that admit no record -/

/-- A change that admits no record: each group left is an earlier one, with its Locations and its
final, or an empty one that was not there; the track's final is untouched. -/
structure Narrows (log log' : Log) : Prop where
  group : ∀ gid g', log'.groupFind gid = some g' →
    (∃ g, log.groupFind gid = some g ∧ g.Bounded g') ∨ log.groupFind gid = none ∧ g'.recs = []
  endOfTrack : log'.endOfTrack = log.endOfTrack
  finalGroupId : log'.finalGroupId = log.finalGroupId
  finalTrackObjectId : log'.finalTrackObjectId = log.finalTrackObjectId

theorem Narrows.refl (log : Log) : Narrows log log :=
  ⟨fun _ g' hg => .inl ⟨g', hg, .refl g'⟩, rfl, rfl, rfl⟩

/-- A change of one group that keeps its id, its Locations and its final. -/
theorem narrows_modifyGroup (hw : log.Wf) {e : Group → Group} (hfind : log.groupFind gid = some g)
    (hid : (e g).groupId = g.groupId) (hb : g.Bounded (e g)) (pool : ChunkPool) (b : UInt64) :
    Narrows log { log.modifyGroup gid e with pool := pool, retainedBytes := b } := by
  refine ⟨fun k x hx => .inl ?_, rfl, rfl, rfl⟩
  exact groupFind_of_modifyGroup hw.sorted .refl hfind hid hb hx

/-- Making room drops groups, or opens an empty one. -/
theorem Room.narrows (hr : Room gid log log') (hw : log.Wf) : Narrows log log' := by
  refine ⟨fun k x hx => ?_, ?_, ?_, ?_⟩
  · rcases hr.groupFind_cases hw hx with h | ⟨hnone, nowUs, rfl⟩
    · exact .inl ⟨x, h, .refl x⟩
    · exact .inr ⟨hnone, rfl⟩
  all_goals cases hr <;> rfl

/-- **A quiet change admits no record**; one that sets a final does not raise it. -/
theorem Quiet.narrows (hq : Quiet log log') (hw : log.Wf) : Narrows log log' := by
  cases hq with
  | room hr => exact hr.narrows hw
  | abandon hr =>
    exact narrows_modifyGroup hw (resolveOpenRec_eq_ok hr).1 rfl
      ⟨(Group.Bounded.edit (Subgroup.Edit.ofTail (edit_abandon _)) _).locs, fun h =>
        ⟨h, le_rfl⟩⟩ _ _
  | mark hfind hF _ _ => exact narrows_modifyGroup hw hfind rfl (.edit hF _) _ _
  | final hfind hi hF hbeyond =>
    rename_i gid i g sg F
    have hg := hw.group g ((groupFind_eq_some_iff hw.sorted).mp hfind).1
    refine narrows_modifyGroup hw hfind rfl ⟨(Group.Bounded.edit hF i).locs, fun hk =>
      ⟨rfl, ?_⟩⟩ _ _
    -- The known final is itself retained, and nothing is retained beyond the new one.
    have hfin := hg.final
    rw [Group.FinalOk, if_pos hk] at hfin
    have hmem : sg.lastObjectId ∈ g.recs.map Rec.objectId := by
      obtain ⟨x, hx, hxe⟩ := mem_map.mp
        (mem_of_getLast? (hg.sgs sg (mem_of_getElem? hi)).last)
      exact hxe ▸ mem_map_of_mem (Group.mem_recs_of_sg (mem_of_getElem? hi) hx)
    obtain ⟨y, hy, hye⟩ := mem_map.mp hmem
    have hyle := hfin.2 y hy
    dsimp only
    omega
  | floor n => exact { Narrows.refl log with }
  | hole gid sid =>
    unfold addHole
    split <;> exact { Narrows.refl log with }

/-- The bound outlives a change that admits no record. -/
theorem Narrows.endBounds (h : Narrows log log') (hw : log.Wf) (hw' : log'.Wf)
    (hb : log.EndBounds log.allRecs) : log'.EndBounds log'.allRecs := by
  intro he r hr
  rw [h.finalGroupId, h.finalTrackObjectId]
  obtain ⟨g', hg', hr'⟩ := mem_flatMap.mp hr
  have hfind := (groupFind_eq_some_iff hw'.sorted).mpr ⟨hg', rfl⟩
  rcases h.group _ g' hfind with ⟨g, hg, hbd⟩ | ⟨-, hnil⟩
  · have hloc : r.loc ∈ g.recs.map Rec.loc := hbd.locs ▸ mem_map_of_mem hr'
    obtain ⟨x, hx, hxe⟩ := mem_map.mp hloc
    have hmem := ((groupFind_eq_some_iff hw.sorted).mp hg).1
    have := hb (h.endOfTrack ▸ he) x (mem_flatMap.mpr ⟨g, hmem, hx⟩)
    have h1 : x.groupId = r.groupId := congrArg Prod.fst hxe
    have h2 : x.objectId = r.objectId := congrArg Prod.snd hxe
    rwa [h1, h2] at this
  · rw [hnil] at hr'
    cases hr'

/-- Such a change keeps the finals. -/
theorem Narrows.finalsKept (h : Narrows log log') : FinalsKept log log' := by
  refine ⟨fun gid g g' hg hg' => ?_, fun he => ?_⟩
  · rcases h.group gid g' hg' with ⟨x, hx, hb⟩ | ⟨hn, -⟩
    · cases hg.symm.trans hx
      exact hb.final
    · rw [hg] at hn
      cases hn
  · exact ⟨h.endOfTrack.trans he, .inr ⟨h.finalGroupId, h.finalTrackObjectId.le⟩⟩

/-! ## The commit -/

/-- Evidence of a final never raises the one that is known. -/
theorem Group.finalAfter_le (hk : g.hasFinal) :
    (g.finalAfter d).1 ∧ (g.finalAfter d).2 ≤ g.finalObjectId := by
  by_cases hl : g.Lowers d
  · rw [Group.finalAfter_of_lowers hl]
    rcases hl with ⟨-, hf | hlt⟩ | ⟨-, hf⟩
    · simp [hk] at hf
    · exact ⟨rfl, hlt.le⟩
    · simp [hk] at hf
  · rw [Group.finalAfter_of_not_lowers hl]
    exact ⟨hk, le_rfl⟩

/-- A commit is before the known end, so it never raises it. -/
theorem commit_finalsKept (hw : log.Wf) (hready : log.Ready g d)
    (h : log.commit g d mem = some log') :
    FinalsKept log log' := by
  obtain ⟨f, s, n, r, hcom⟩ := hready.committed hw h
  obtain ⟨holes, rfl⟩ := hcom.eq
  refine ⟨fun k a b ha hb => ?_, fun hk => ⟨by simp [account, modifyGroup, hk], ?_⟩⟩
  · obtain ⟨y, hy, hkept⟩ := groupFind_of_modifyGroup hw.sorted Group.FinalKept.refl hready.find
      hcom.groupId (fun hf => by rw [hcom.final.1, hcom.final.2]; exact Group.finalAfter_le hf) hb
    exact Option.some.inj (hy.symm.trans ha) ▸ hkept
  · have hbefore := hready.admitted.beforeEnd hk
    dsimp only [account, modifyGroup]
    split
    · rcases hbefore.1.lt_or_eq with hlt | heq
      · exact .inl hlt
      · exact .inr ⟨heq, hbefore.2 heq⟩
    · exact .inr ⟨rfl, le_rfl⟩

/-- **A record is committed within the track's final**, and becomes the final only when it is the
last Location retained. -/
theorem commit_endBounds (hw : log.Wf) (hready : log.Ready g d)
    (h : log.commit g d mem = some log') (hb : log.EndBounds log.allRecs) :
    log'.EndBounds log'.allRecs := by
  obtain ⟨hmem, hid⟩ := (groupFind_eq_some_iff hw.sorted).mp hready.find
  have hg := hw.group g hmem
  obtain ⟨f, s, n, r, hcom⟩ := hready.committed hw h
  have hrecs := fun x => (hcom.allRecs hw hready.find).mem_iff (a := x)
  have hrloc : r.groupId = d.groupId ∧ r.objectId = d.objectId := by
    have hin : r ∈ (f g).recs := hcom.pushed.perm.mem_iff.mpr (by simp)
    exact ⟨((hcom.wf.owner r hin).trans hcom.groupId).trans hid, hcom.record.2.1⟩
  intro hend x hx
  rw [hrecs, mem_cons] at hx
  obtain ⟨holes, rfl⟩ := hcom.eq
  dsimp only [account, modifyGroup] at hend ⊢
  cases ht : d.eotEvidence with
  | false =>
    have hend' : log.endOfTrack := by simpa [ht] using hend
    rcases hx with rfl | hx
    · have := hready.admitted.beforeEnd hend'
      simp only [Bool.false_eq_true, if_false, hrloc.1, hrloc.2]
      rcases this.1.lt_or_eq with hlt | heq
      · exact .inl hlt
      · exact .inr ⟨heq, this.2 heq⟩
    · simpa using hb hend' x hx
  | true =>
    obtain ⟨hpg, hlast⟩ := finalPreflight_eq_false_iff.mp hready.admitted.preflight (by simp [ht])
    rcases hx with rfl | hx
    · exact .inr ⟨hrloc.1, hrloc.2.le⟩
    · obtain ⟨y, hy, hxy⟩ := mem_flatMap.mp hx
      have hxid := (hw.group y hy).owner x hxy
      have hyle : y.groupId ≤ d.groupId := by
        obtain ⟨last, hl⟩ : ∃ last, log.groups.getLast? = some last :=
          Option.isSome_iff_exists.mp (by simpa using ne_nil_of_mem hy)
        have hlle := hlast ht last hl
        obtain ⟨init, hinit⟩ := getLast?_eq_some_iff.mp hl
        have hs := hinit ▸ hw.sorted
        rw [hinit] at hy
        rcases mem_append.mp hy with hy | hy
        · have := (pairwise_append.mp hs).2.2 y hy last (by simp)
          omega
        · obtain rfl : y = last := by simpa using hy
          exact hlle
      rcases hyle.lt_or_eq with hlt | heq
      · exact .inl (hxid ▸ hlt)
      · refine .inr ⟨hxid.trans heq, ?_⟩
        obtain rfl : g = y := Option.some.inj
          (hready.find.symm.trans ((groupFind_eq_some_iff hw.sorted).mpr ⟨hy, heq⟩))
        exact hg.toLists.le_of_not_retainsBeyond ((hpg g hready.find).1 (by simp [ht])) x hxy

/-! ## Steps and runs -/

/-- A chunk goes to a record that is there. -/
theorem chunk_narrows (hw : log.Wf) {gid sid oid i : ℕ} {r : Rec} {buf : Rcbuf}
    (hr : log.resolveOpenRec gid sid oid = .ok (g, i, r))
    (hc : log.commitChunk gid i r buf = some log') : Narrows log log' := by
  obtain ⟨node, pool, -, rfl⟩ := commitChunk_eq hc
  exact narrows_modifyGroup hw (resolveOpenRec_eq_ok hr).1 rfl
    ⟨(Group.Bounded.edit (Subgroup.Edit.ofTail (edit_addChunk _ _)) _).locs,
      fun h => ⟨h, le_rfl⟩⟩ _ _

/-- **One step**: the finals are kept and the bound holds after it. -/
theorem Atom.finals (ha : Atom log log') (hw : log.Wf) (hb : log.EndBounds log.allRecs) :
    FinalsKept log log' ∧ log'.EndBounds log'.allRecs := by
  have hw' := ha.wf hw
  cases ha with
  | quiet hq => exact ⟨(hq.narrows hw).finalsKept, (hq.narrows hw).endBounds hw hw' hb⟩
  | commit hready hc => exact ⟨commit_finalsKept hw hready hc, commit_endBounds hw hready hc hb⟩
  | chunk hr _ hc =>
    exact ⟨(chunk_narrows hw hr hc).finalsKept, (chunk_narrows hw hr hc).endBounds hw hw' hb⟩

/-- A group found at both ends of two changes is found between them. -/
theorem FinalsKept.trans (hl : Later log log') (hl' : Later log' log'') (h : FinalsKept log log')
    (h' : FinalsKept log' log'') : FinalsKept log log'' := by
  refine ⟨fun gid a c ha hc => ?_, h.track.trans h'.track⟩
  cases hb : log'.groupFind gid with
  | none =>
    have := hl'.gone gid hb (hl.evicted gid (by simp [ha]) hb)
    simp [this] at hc
  | some b => exact (h.group gid a b ha hb).trans (h'.group gid b c hb hc)

theorem FinalsKept.refl (log : Log) : FinalsKept log log := by
  refine ⟨fun gid a b ha hb => ?_, .refl log⟩
  cases ha.symm.trans hb
  exact .refl a

/-- **Any steps.** -/
theorem Atoms.finals (ha : Atoms log log') (hw : log.Wf) (hb : log.EndBounds log.allRecs) :
    FinalsKept log log' ∧ log'.EndBounds log'.allRecs := by
  induction ha with
  | refl => exact ⟨.refl log, hb⟩
  | tail hprev hstep ih =>
    have hwm := Atoms.wf hprev hw
    have hnext := hstep.finals hwm ih.2
    exact ⟨ih.1.trans (Atoms.later hprev hw) (hstep.later hwm) hnext.1, hnext.2⟩

/-- One call; a cursor call touches no record. -/
theorem step_finals (hw : log.Wf) (hb : log.EndBounds log.allRecs) (op : LogOp) :
    FinalsKept log (log.step op) ∧ (log.step op).EndBounds (log.step op).allRecs := by
  cases hc : op.isCursor with
  | false => exact (step_atoms hw hc).finals hw hb
  | true =>
    obtain ⟨cursors, count, h⟩ := step_cursor hw hc
    rw [h]
    have hn : Narrows log { log with cursors := cursors, cursorCount := count } :=
      { Narrows.refl log with }
    exact ⟨hn.finalsKept, hb⟩

/-- Any calls. -/
theorem run_finals (hw : log.Wf) (hb : log.EndBounds log.allRecs) (ops : List LogOp) :
    FinalsKept log (log.run ops) ∧ (log.run ops).EndBounds (log.run ops).allRecs := by
  induction ops generalizing log with
  | nil => exact ⟨.refl log, hb⟩
  | cons op ops ih =>
    obtain ⟨hk, hb'⟩ := step_finals hw hb op
    obtain ⟨hk', hb''⟩ := ih (step_wf hw op) hb'
    exact ⟨hk.trans (step_later hw op) (run_later (step_wf hw op) ops) hk', hb''⟩

/-- The track has no final at first, so the bound holds from there on. -/
theorem Reachable.endBounds (h : Reachable log) : log.EndBounds log.allRecs := by
  obtain ⟨cfg, mem, log₀, ops, hc, rfl⟩ := h
  obtain ⟨lim, -, rfl⟩ := create_eq_ok hc
  exact (run_finals (create_wf hc) (by simp [EndBounds, fresh]) ops).2

/-- **Identities are unique and known, and nothing is retained beyond a known final.**  In a group
no object id occurs twice over all its lists, and the identity set with its flag for `UINT64_MAX`
answers for exactly the retained ids.  No record lies beyond its group's final or the track's, and
whatever happens next a known final is neither forgotten nor raised while its group is retained. -/
theorem finals_bound (log : Log) (h : log.Reachable) :
    (∀ g ∈ log.groups, (g.recs.map Rec.objectId).Nodup ∧
      (∀ id, g.idSetContains log.lim.idSetCap id ↔ id ∈ g.recs.map Rec.objectId) ∧
      (g.hasFinal → ∀ r ∈ g.recs, r.objectId ≤ g.finalObjectId)) ∧
    log.EndBounds log.allRecs ∧
    ∀ ops, FinalsKept log (log.run ops) := by
  have hw := h.wf
  refine ⟨fun g hg => ⟨(hw.group g hg).idsNodup, (hw.group g hg).ids.contains_iff hw.lim,
    fun hk => ?_⟩, h.endBounds, fun ops => (run_finals hw h.endBounds ops).1⟩
  have hfin := (hw.group g hg).final
  rw [Group.FinalOk, if_pos hk] at hfin
  exact hfin.2

/-- Ids from two lists and a datagram, and the final of another group. -/
theorem finals_bound_mixed : mixedLog.Reachable ∧
    mixedLog.groups.map (fun g => g.recs.map Rec.objectId) = [[0, 4, 5], [0]] ∧
    mixedLog.groups.map Group.hasFinal = [false, true] ∧
    ∀ g ∈ mixedLog.groups, (g.recs.map Rec.objectId).Nodup :=
  ⟨mixedLog_reachable, by decide +kernel, by decide +kernel, fun g hg =>
    ((finals_bound _ mixedLog_reachable).1 g hg).1⟩

end Log

end MoqRelay
