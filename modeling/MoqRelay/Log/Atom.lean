import MoqRelay.Log.Edit

/-!
# Log/Atom — every operation is a sequence of elementary changes

`Room` are the changes that make room for a record of one group: a group dropped, the window
compacted, the group itself activated.  `Quiet` adds the others that admit no content: an OPEN
record abandoned, a list or record marked, a final resolved by a seal, the floor raised, a hole
remembered.  `Atom` adds the two that do: a record committed, a chunk linked.  Each constructor
carries the guards its operation has checked, and each keeps `Log.Wf`, so an invariant of the log is
a property of the atoms.
-/

namespace MoqRelay

open List

/-- The group after its open record took a chunk. -/
def Group.chunked (g : Group) (i node : ℕ) (len : UInt64) : Group :=
  { g.modifyTail i (·.addChunk node len) with bytes := g.bytes + len }

namespace Log

/-- The changes that make room for a record of group `gid`. -/
inductive Room (gid : ℕ) : Log → Log → Prop
  | drop {log : Log} {g : Group} {rest : List Group} (h : log.groups = g :: rest) :
      Room gid log (log.dropGroup 0 g)
  | compact {log : Log} : Room gid log log.journalCompactHead
  | activate {log : Log} {nowUs : ℕ} (hgid : gid ≤ u64Max) (habs : log.groupFind gid = none)
      (hhor : log.belowHorizon gid = false) (hroom : log.groups.length < log.lim.maxGroups) :
      Room gid log { log with
        groups := log.groups.insertIdx (log.groupIdx gid) (.fresh gid nowUs) }

/-- Making room, any number of times. -/
def Rooms (gid : ℕ) : Log → Log → Prop := Relation.ReflTransGen (Room gid)

/-- The changes that admit no content. -/
inductive Quiet : Log → Log → Prop
  | room {log log' : Log} {gid : ℕ} (h : Room gid log log') : Quiet log log'
  | abandon {log : Log} {gid sid oid i : ℕ} {g : Group} {r : Rec} {reset : ResetDesc}
      (hr : log.resolveOpenRec gid sid oid = .ok (g, i, r)) :
      Quiet log (log.abandonTail gid i r reset)
  | mark {log : Log} {gid i : ℕ} {g : Group} {F : Subgroup → Subgroup} {f : Rec → Rec}
      (hfind : log.groupFind gid = some g) (h : Subgroup.Edit F f)
      (hcontent : ∀ r : Rec, r.SameContent (f r))
      (hstate : ∀ sg r, g.sgs[i]? = some sg → sg.v.recs.getLast? = some r →
        (f r).objState = r.objState ∨
          (f r).objState = .complete ∧ r.objState = .open ∧ r.chunkBytes = r.declaredLen) :
      Quiet log (log.modifyGroup gid (·.modifySg i F))
  | final {log : Log} {gid i : ℕ} {g : Group} {sg : Subgroup} {F : Subgroup → Subgroup}
      (hfind : log.groupFind gid = some g) (hi : g.sgs[i]? = some sg) (h : Subgroup.Edit F id)
      (hbeyond : g.retainsBeyond sg.lastObjectId = false) :
      Quiet log (log.modifyGroup gid fun g =>
        { g.modifySg i F with finalObjectId := sg.lastObjectId, hasFinal := true })
  | floor {log : Log} (n : ℕ) : Quiet log (log.raiseFloor n)
  | hole {log : Log} (gid sid : ℕ) : Quiet log (log.addHole gid sid)

/-- Quiet changes, any number of them. -/
def Quiets : Log → Log → Prop := Relation.ReflTransGen Quiet

/-- What an append has established when it commits. -/
structure Ready (log : Log) (g : Group) (d : AppendDesc) : Prop where
  admitted : log.Admitted d
  find : log.groupFind d.groupId = some g
  fits : log.Fits g d
  room : log.nextSeq < log.beginSeq + log.lim.maxRecords

/-- What a commit that is ready does to its group. -/
theorem Ready.committed {log log' : Log} {g : Group} {d : AppendDesc} {mem : AppendMem}
    (hready : log.Ready g d) (hw : log.Wf) (hc : log.commit g d mem = some log') :
    ∃ f s n r, Committed log log' g d f s n r := by
  obtain ⟨hmem, hid⟩ := (groupFind_eq_some_iff hw.sorted).mp hready.find
  exact commit_spec hw.lim hready.find hid (hw.group g hmem) hready.admitted hready.fits hc

/-- The records after a commit. -/
theorem Committed.allRecs {log log' : Log} {g : Group} {d : AppendDesc} {f : Group → Group}
    {s : ListSlot} {n : ℕ} {r : Rec} (hcom : Committed log log' g d f s n r) (hw : log.Wf)
    (hfind : log.groupFind d.groupId = some g) : log'.allRecs.Perm (r :: log.allRecs) := by
  obtain ⟨l₁, l₂, hgs, -, hmod⟩ := modifyGroup_split hw.sorted hfind
  obtain ⟨holes, rfl⟩ := hcom.eq
  rw [hmod]
  exact hcom.pushed.allRecs hgs

/-- The elementary changes of a log. -/
inductive Atom : Log → Log → Prop
  | quiet {log log' : Log} (h : Quiet log log') : Atom log log'
  | commit {log log' : Log} {g : Group} {d : AppendDesc} {mem : AppendMem}
      (hready : log.Ready g d) (h : log.commit g d mem = some log') : Atom log log'
  | chunk {log log' : Log} {gid sid oid i : ℕ} {g : Group} {r : Rec} {buf : Rcbuf}
      (hr : log.resolveOpenRec gid sid oid = .ok (g, i, r))
      (hlen : r.chunkBytes + buf.len ≤ r.declaredLen)
      (h : log.commitChunk gid i r buf = some log') : Atom log log'

/-- Elementary changes, any number of them. -/
def Atoms : Log → Log → Prop := Relation.ReflTransGen Atom

variable {log log' : Log} {gid sid oid i : ℕ} {g : Group} {r : Rec}

/-- What linking a chunk does. -/
theorem commitChunk_eq {buf : Rcbuf} (hc : log.commitChunk gid i r buf = some log') :
    ∃ node pool, pool.used = log.pool.used + 1 ∧
      log' = { log.modifyGroup gid (·.chunked i node buf.len) with
        pool := pool, retainedBytes := log.retainedBytes + buf.len } := by
  unfold commitChunk ChunkPool.alloc at hc
  cases hhead : log.pool.freeHead with
  | none => simp [hhead] at hc
  | some node =>
    simp only [hhead, Option.some.injEq] at hc
    exact ⟨node, _, rfl, hc.symm⟩

/-! ## Each atom keeps the invariant -/

theorem Room.wf (hr : Room gid log log') (h : log.Wf) : log'.Wf := by
  cases hr with
  | drop hgs => exact h.drop hgs
  | compact => exact h.compact
  | activate _ habs hhor hroom => exact h.activate habs hhor hroom

/-- The group is gone for good, and every group the log holds is past it. -/
structure Lost (log : Log) (gid : ℕ) : Prop where
  horizon : log.belowHorizon gid
  past : ∀ g ∈ log.groups, gid < g.groupId

/-- What making room does to the group with an id. -/
inductive Fate (log log' : Log) (k : ℕ) : Prop
  | same (h : log'.groupFind k = log.groupFind k)
  | evicted (h : log'.groupFind k = none) (hlost : log'.Lost k)
  | activated {nowUs : ℕ} (habs : log.groupFind k = none) (hhor : log.belowHorizon k = false)
      (h : log'.groupFind k = some (.fresh k nowUs))

/-- **Making room evicts the oldest group or activates an absent one.** -/
theorem Room.fate (hr : Room gid log log') (hw : log.Wf) (k : ℕ) : Fate log log' k := by
  cases hr with
  | compact => exact .same rfl
  | @drop g rest hgs =>
    have hfind := groupFind_dropGroup hw.sorted hgs k
    split_ifs at hfind with hk
    · subst hk
      refine .evicted hfind ⟨decide_eq_true (le_max_right _ _), fun x hx => ?_⟩
      have hrest : (log.dropGroup 0 g).groups = rest := by simp [dropGroup, hgs]
      exact (pairwise_cons.mp (hgs ▸ hw.sorted)).1 x (hrest ▸ hx)
    · exact .same hfind
  | @activate nowUs _ habs hhor _ =>
    have hfind := groupFind_insertIdx hw.sorted habs nowUs k
    split_ifs at hfind with hk
    · subst hk
      exact .activated habs hhor hfind
    · exact .same hfind

/-- A group found after making room was there before, or is the one just activated. -/
theorem Room.groupFind_cases (hr : Room gid log log') (h : log.Wf) {k : ℕ} {g' : Group}
    (hf : log'.groupFind k = some g') :
    log.groupFind k = some g' ∨ log.groupFind k = none ∧ ∃ nowUs, g' = .fresh k nowUs := by
  cases hr.fate h k with
  | same hsame => exact .inl (hsame ▸ hf)
  | evicted hnone _ => rw [hnone] at hf; cases hf
  | activated habs _ hfresh => exact .inr ⟨habs, _, Option.some.inj (hf.symm.trans hfresh)⟩

/-- What `resolve_open_rec` found: the OPEN last record of the list. -/
theorem resolveOpenRec_eq_ok (h : log.resolveOpenRec gid sid oid = .ok (g, i, r)) :
    log.groupFind gid = some g ∧ ∃ sg, g.sgs[i]? = some sg ∧ sg.subgroupId = sid ∧
      sg.v.recs.getLast? = some r ∧ r.objectId = oid ∧ r.objState = .open := by
  unfold resolveOpenRec at h
  cases hf : log.groupFind gid with
  | none => simp [hf] at h
  | some g' =>
    cases hl : g'.listOf sid with
    | none => simp [hf, hl] at h
    | some p =>
      obtain ⟨j, sg⟩ := p
      cases ht : sg.v.recs.getLast? with
      | none => simp [hf, hl, ht] at h
      | some r' =>
        simp only [hf, hl, ht] at h
        split at h
        · cases h
        · rename_i hc
          simp only [not_or, ne_eq, not_not] at hc
          obtain ⟨rfl, rfl, rfl⟩ : g' = g ∧ j = i ∧ r' = r := by simpa using h
          obtain ⟨hi, hsid⟩ := Group.listOf_eq_some hl
          exact ⟨rfl, sg, hi, hsid, ht, hc.1, hc.2⟩

theorem edit_addChunk (node : ℕ) (len : UInt64) : Rec.Edit (·.addChunk node len) := by
  constructor <;> simp [Rec.addChunk]

theorem edit_abandon (reset : ResetDesc) : Rec.Edit (·.abandon reset) := by
  constructor <;> simp [Rec.abandon]

variable {F : Subgroup → Subgroup} {f : Rec → Rec}

/-- An edit of one list, with the byte totals following the edited record. -/
theorem Wf.editTail (h : log.Wf) {sg : Subgroup}
    {b : UInt64} (hfind : log.groupFind gid = some g) (hi : g.sgs[i]? = some sg)
    (hr : sg.v.recs.getLast? = some r) (hF : Subgroup.Edit F f) (hb : (f r).bytes = r.bytes + b)
    (pool : ChunkPool) :
    Log.Wf { log.modifyGroup gid (fun g => { g.modifySg i F with bytes := g.bytes + b }) with
      pool := pool
      retainedBytes := log.retainedBytes + b } := by
  obtain ⟨l₁, l₂, hgs, hid, hmod⟩ := modifyGroup_split h.sorted hfind
  have hg := h.group g (by simp [hgs])
  have hsum : ((g.modifySg i F).recs.map Rec.bytes).sum = g.bytes + b := by
    rw [Group.sum_map_modifySg Rec.bytes hF hi hr, hg.bytes, hb]
    abel
  have hwf := h.replace hgs (Group.SameSeqs.edit hF) (hg.edit hF hsum hg.final)
  have hret : log.retainedBytes - g.bytes + (g.bytes + b) = log.retainedBytes + b := by abel
  rw [hmod]
  simp only [hret] at hwf
  exact { hwf with }

/-- An edit that leaves every byte count alone. -/
theorem Wf.editMarks (h : log.Wf) {fin : Bool} {q : ℕ}
    (hfind : log.groupFind gid = some g) (hF : Subgroup.Edit F f) (hb : ∀ r, (f r).bytes = r.bytes)
    (hfin : ({ g with hasFinal := fin, finalObjectId := q } : Group).FinalOk) {e : Group → Group}
    (he : e g = { g.modifySg i F with hasFinal := fin, finalObjectId := q }) :
    (log.modifyGroup gid e).Wf := by
  obtain ⟨l₁, l₂, hgs, hid, hmod⟩ := modifyGroup_split h.sorted hfind
  have hg := h.group g (by simp [hgs])
  have hsum : ((g.modifySg i F).recs.map Rec.bytes).sum = g.bytes := by
    rw [Group.recs_map_modifySg hF hb, hg.bytes]
  have hwf := h.replace hgs (Group.SameSeqs.edit hF) (hg.edit hF hsum hfin)
  rw [hmod, he]
  simp only [sub_add_cancel] at hwf
  exact hwf

theorem Wf.floor (h : log.Wf) (n : ℕ) : (log.raiseFloor n).Wf :=
  { h with
    gone := fun q h1 h2 hx => horizon_raised (h.gone q h1 h2 hx)
    noFloor := fun hx => by simp [raiseFloor] at hx }

theorem Quiet.wf (ha : Quiet log log') (h : log.Wf) : log'.Wf := by
  cases ha with
  | room hr => exact hr.wf h
  | abandon hr =>
    rename_i gid sid oid i g r reset
    obtain ⟨hfind, sg, hi, -, htail, -, -⟩ := resolveOpenRec_eq_ok hr
    have hb : (r.abandon reset).bytes = r.bytes + (-r.chunkBytes) := by
      simp only [Rec.abandon, Rec.chunkBytes]
      abel
    have := h.editTail hfind hi htail (Subgroup.Edit.ofTail (edit_abandon reset)) hb
      (log.pool.releaseFrom log.lim.maxChunkNodes r.chunkHead)
    simp only [← sub_eq_add_neg] at this
    exact this
  | mark hfind hF hc hst =>
    rename_i gid i g F f
    obtain ⟨l₁, l₂, hgs, hid, -⟩ := modifyGroup_split h.sorted hfind
    exact h.editMarks hfind hF (fun r => (hc r).bytes) (h.group g (by simp [hgs])).final rfl
  | final hfind hi hF hbeyond =>
    rename_i gid i g sg F
    obtain ⟨l₁, l₂, hgs, hid, -⟩ := modifyGroup_split h.sorted hfind
    have hg := h.group g (by simp [hgs])
    have hsg := hg.sgs sg (mem_of_getElem? hi)
    refine h.editMarks hfind hF (fun _ => rfl) ?_ rfl
    refine (if_pos rfl).mpr ⟨?_, hg.toLists.le_of_not_retainsBeyond hbeyond⟩
    have hlast := mem_of_getLast? hsg.last
    obtain ⟨x, hx, he⟩ := mem_map.mp hlast
    exact he ▸ mem_map_of_mem (Group.mem_recs_of_sg (mem_of_getElem? hi) hx)
  | floor n => exact h.floor n
  | hole gid sid =>
    unfold addHole
    split
    · exact h
    · exact { h with }

/-- **Every elementary change keeps the invariant.** -/
theorem Atom.wf (ha : Atom log log') (h : log.Wf) : log'.Wf := by
  cases ha with
  | quiet hq => exact hq.wf h
  | commit hready hc =>
    obtain ⟨l₁, l₂, hgs, hid, hmod⟩ := modifyGroup_split h.sorted hready.find
    obtain ⟨f, s, n, r, hcom⟩ := hready.committed h hc
    obtain ⟨holes, rfl⟩ := hcom.eq
    rw [hmod]
    exact h.push hgs hready.room hcom.pushed hcom.record.1 hcom.wf hcom.groupId hid
      hcom.recordCount hcom.bytes holes
  | chunk hr hlen hc =>
    obtain ⟨hfind, sg, hi, -, htail, -, -⟩ := resolveOpenRec_eq_ok hr
    obtain ⟨node, pool, -, rfl⟩ := commitChunk_eq hc
    exact h.editTail hfind hi htail (Subgroup.Edit.ofTail (edit_addChunk node _)) rfl _

theorem Atoms.wf (ha : Atoms log log') (h : log.Wf) : log'.Wf := by
  induction ha with
  | refl => exact h
  | tail _ hs ih => exact hs.wf ih

theorem Quiets.atoms (ha : Quiets log log') : Atoms log log' :=
  Relation.ReflTransGen.mono (fun _ _ h => Atom.quiet h) _ _ ha

theorem Rooms.quiets (ha : Rooms gid log log') : Quiets log log' :=
  Relation.ReflTransGen.mono (fun _ _ h => Quiet.room h) _ _ ha

theorem Quiets.wf (ha : Quiets log log') (h : log.Wf) : log'.Wf := ha.atoms.wf h

theorem Rooms.wf (ha : Rooms gid log log') (h : log.Wf) : log'.Wf := ha.quiets.wf h

end Log

end MoqRelay
