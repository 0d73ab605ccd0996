import MoqRelay.Log.Later

/-!
# Log/Hole — the mark of a missing object

`moqr_log_note_gap` remembers that an object of a subgroup was not retained, so that the subgroup's
graceful end is recorded as a reset.  The mark is a flag of the subgroup's list, or an entry of the
hole table while there is no list; the append that creates the list moves it over.

The mark holds until the list ends when it was set on a list whose stream is still open, or entered
into the table anew (`gap_resets`).  Two notes that also report `MOQR_OK` are lost: a flag set on a
list that has ended is cleared by the append that reopens it, and a note of a pair that is already
in the table does not renew its place there (`gap_lost`).
-/

namespace MoqRelay

open List Function

variable {sg sg' : Subgroup}

/-- The list of a subgroup is the one with its id. -/
theorem Group.listOf_map_eq_some_iff {g : Group} {sid : ℕ} {lim : LogLimits} (h : g.Lists lim) :
    (g.listOf sid).map Prod.snd = some sg ↔ sg ∈ g.sgs ∧ sg.subgroupId = sid := by
  cases hl : g.listOf sid with
  | none => simpa using Group.listOf_eq_none hl sg
  | some p =>
    obtain ⟨hi, hid⟩ := Group.listOf_eq_some hl
    have hmem := mem_of_getElem? hi
    simp only [Option.map_some, Option.some.injEq]
    refine ⟨fun he => he ▸ ⟨hmem, hid⟩, fun hx => ?_⟩
    exact inj_on_of_nodup_map h.sgIds hmem hx.1 (hid.trans hx.2.symm)

theorem Subgroup.Touch.subgroupId (h : sg.Touch sg') : sg'.subgroupId = sg.subgroupId := by
  cases h with
  | tail f => rfl
  | sealList => rfl
  | reset r => exact (Log.edit_resetWith r).subgroupId sg

theorem Subgroup.Touch.incomplete (h : sg.Touch sg') : sg'.incomplete = sg.incomplete := by
  cases h with
  | tail f => rfl
  | sealList => rfl
  | reset r =>
    unfold Subgroup.resetWith
    split <;> rfl

/-- What every write keeps, any number of them do. -/
theorem Subgroup.Touched.keeps {α : Type*} {k : Subgroup → α} (h : sg.Touched sg')
    (hk : ∀ a b : Subgroup, a.Touch b → k b = k a) : k sg' = k sg := by
  induction h with
  | refl => rfl
  | tail _ hstep ih => exact (hk _ _ hstep).trans ih

theorem Subgroup.Touched.subgroupId (h : sg.Touched sg') : sg'.subgroupId = sg.subgroupId :=
  h.keeps fun _ _ => Subgroup.Touch.subgroupId

/-- The object `d` belongs to the list of the subgroup. -/
def AppendDesc.isOf (d : AppendDesc) (gid sid : ℕ) : Bool :=
  d.groupId = gid && d.subgroupId = sid && !d.datagramPref

/-- What a call can do to a list that stays; `grows` says when it adds an object. -/
inductive Subgroup.Change (grows : Prop) (sg : Subgroup) : Subgroup → Prop
  | touched {sg' : Subgroup} (h : sg.Touched sg') : Change grows sg sg'
  | marked : Change grows sg { sg with gapPending := true, incomplete := true }
  | pushed (h : grows) (d : AppendDesc) (v : RecVec) : Change grows sg (sg.pushed d v)

theorem Subgroup.Change.refl (grows : Prop) (sg : Subgroup) : sg.Change grows sg := .touched .refl

namespace Log

variable {log log' log'' : Log} {gid sid oid i : ℕ} {g g' : Group} {sg : Subgroup} {d : AppendDesc}
  {mem : AppendMem}

/-! ## The list of a subgroup -/

/-- The list of subgroup `sid` in group `gid`. -/
def listAt (log : Log) (gid sid : ℕ) : Option Subgroup :=
  (log.groupFind gid).bind fun g => (g.listOf sid).map Prod.snd

theorem listAt_eq_some_iff (hw : log.Wf) : log.listAt gid sid = some sg ↔
    ∃ g, log.groupFind gid = some g ∧ sg ∈ g.sgs ∧ sg.subgroupId = sid := by
  rw [listAt, Option.bind_eq_some_iff]
  refine exists_congr fun g => and_congr_right fun hg => ?_
  have hmem := ((groupFind_eq_some_iff hw.sorted).mp hg).1
  exact Group.listOf_map_eq_some_iff (hw.group g hmem).toLists

theorem listAt_eq_none_iff (hw : log.Wf) : log.listAt gid sid = none ↔
    ∀ g, log.groupFind gid = some g → ∀ sg ∈ g.sgs, sg.subgroupId ≠ sid := by
  rw [Option.eq_none_iff_forall_ne_some]
  refine ⟨fun h g hg sg hsg hid => h sg ((listAt_eq_some_iff hw).mpr ⟨g, hg, hsg, hid⟩),
    fun h sg hsg => ?_⟩
  obtain ⟨g, hg, hm, hid⟩ := (listAt_eq_some_iff hw).mp hsg
  exact h g hg sg hm hid

/-- The group `gid` was evicted, or will never be admitted. -/
def Gone (log : Log) (gid : ℕ) : Prop := log.groupFind gid = none ∧ log.belowHorizon gid

theorem Later.goneKept (h : Later log log') (hg : log.Gone gid) : log'.Gone gid :=
  ⟨h.gone gid hg.1 hg.2, h.horizon gid hg.2⟩

/-! ## What a call does to a list -/

theorem SameLists.trans {g'' : Group} (h : SameLists g g') (h' : SameLists g' g'') :
    SameLists g g'' := by
  refine ⟨h'.1.trans h.1, fun i sg sg'' hi hi'' => ?_⟩
  have hlt : i < g'.sgs.length := by
    rw [← h'.1]
    exact (List.getElem?_eq_some_iff.mp hi'').1
  have hi' := getElem?_eq_getElem hlt
  exact (h.2 i sg _ hi hi').trans (h'.2 i _ sg'' hi' hi'')

theorem SameLists.exists_mem (h : SameLists g g') (hsg : sg ∈ g.sgs) :
    ∃ sg' ∈ g'.sgs, sg.Touched sg' := by
  obtain ⟨j, hj⟩ := mem_iff_getElem?.mp hsg
  have hlt : j < g'.sgs.length := h.1 ▸ (List.getElem?_eq_some_iff.mp hj).1
  have hj' := getElem?_eq_getElem hlt
  exact ⟨_, mem_of_getElem? hj', h.2 j sg _ hj hj'⟩

theorem Touches.trans (h : Touches log log') (h' : Touches log' log'') (hl : Later log log')
    (hl' : Later log' log'') : Touches log log'' := by
  refine ⟨fun gid g'' hg'' => ?_, h'.holes.trans h.holes, h'.next.trans h.next⟩
  rcases h'.group gid g'' hg'' with ⟨g', hg', hm'⟩ | ⟨hnone', hnil⟩
  · rcases h.group gid g' hg' with ⟨g, hg, hm⟩ | ⟨hnone, hnil⟩
    · exact .inl ⟨g, hg, hm.trans hm'⟩
    · refine .inr ⟨hnone, length_eq_zero_iff.mp ?_⟩
      rw [hm'.1, hnil, length_nil]
  · -- A group cannot have left and come back.
    refine .inr ⟨Option.eq_none_iff_forall_ne_some.mpr fun g hg => ?_, hnil⟩
    have := hl'.gone gid hnone' (hl.evicted gid (by simp [hg]) hnone')
    simp [this] at hg''

theorem Rooms.later (hr : Rooms gid log log') (hw : log.Wf) : Later log log' :=
  Atoms.later hr.quiets.atoms hw

theorem Tendeds.touches (h : Tendeds log log') (hw : log.Wf) : Touches log log' := by
  induction h with
  | refl => exact .refl log
  | tail hprev hstep ih =>
    have hq := Tendeds.quiets hprev
    have hwm := hq.wf hw
    exact ih.trans (hstep.touches hwm) (Atoms.later hq.atoms hw) (hstep.quiet.later hwm)

theorem Rooms.touches (hr : Rooms gid log log') (hw : log.Wf) : Touches log log' :=
  hr.tended.touches hw

theorem appendChunk_touches (hw : log.Wf) (gid sid oid : ℕ) (chunk : Option Rcbuf) :
    Touches log (log.appendChunk gid sid oid chunk).2 := by
  have hspec := appendChunk_spec hw gid sid oid chunk
  generalize log.appendChunk gid sid oid chunk = out at hspec
  cases hspec with
  | refused _ hr => exact hr.touches hw
  | empty _ => exact .refl log
  | linked hr _ hres hlen hbytes hc =>
    have hw' := hr.wf hw
    refine (hr.touches hw).trans ?_ (hr.later hw) ((Atom.chunk hres hlen hc).later hw')
    obtain ⟨node, pool, -, rfl⟩ := commitChunk_eq hc
    exact touches_modifyGroup hw' (resolveOpenRec_eq_ok hres).1 rfl (.modifyTail rfl) _ _

/-- Whether a call can write to the hole table: the notes, and the appends that create a list. -/
def usesHoles : LogOp → Bool
  | .append _ _ | .openRecord _ _ | .noteGap _ _ => true
  | _ => false

variable {op : LogOp}

theorem step_touches (hw : log.Wf) (hop : usesHoles op = false) : Touches log (log.step op) := by
  cases hc : op.isCursor with
  | true =>
    obtain ⟨cursors, count, h⟩ := step_cursor hw hc
    rw [h]
    exact { Touches.refl log with }
  | false =>
    cases ha : op.admits with
    | false =>
      rcases step_tended log hc ha with h | ⟨gid, sid, rfl⟩
      · exact h.touches hw
      · simp [usesHoles] at hop
    | true =>
      cases op <;>
        simp only [LogOp.admits, usesHoles, Bool.false_eq_true, Bool.true_eq_false] at ha hop
      case appendChunk => exact appendChunk_touches hw ..

/-! ## The lists after a commit -/

variable {α : Type*} {l : List α} {sg' : Subgroup}

theorem listAt_of_listOf (hf : log.groupFind gid = some g) (hl : g.listOf sid = some (i, sg)) :
    log.listAt gid sid = some sg := by
  rw [listAt, hf, Option.bind_some, hl]
  rfl

/-- Writing an entry leaves the membership of every other value alone. -/
theorem mem_set_of_ne {a b x : α} (hi : l[i]? = some a) (ha : x ≠ a)
    (hb : x ≠ b) : x ∈ l.set i b ↔ x ∈ l := by
  refine ⟨fun h => (mem_or_eq_of_mem_set h).resolve_right hb, fun h => ?_⟩
  obtain ⟨j, hj⟩ := mem_iff_getElem?.mp h
  have hij : i ≠ j := by
    rintro rfl
    exact ha (Option.some.inj (hj.symm.trans hi))
  exact mem_iff_getElem?.mpr ⟨j, by rw [getElem?_set_ne hij, hj]⟩

/-- One list of one group was written. -/
theorem listAt_of_write (hw : log.Wf) (hw' : log'.Wf) (hfind : log.groupFind gid = some g)
    (hfind' : ∀ k, log'.groupFind k = if k = gid then some g' else log.groupFind k)
    (hnew : sg' ∈ g'.sgs) (hid : sg'.subgroupId = sid)
    (hothers : ∀ x : Subgroup, x.subgroupId ≠ sid → (x ∈ g'.sgs ↔ x ∈ g.sgs)) (k s : ℕ) :
    log'.listAt k s = if k = gid ∧ s = sid then some sg' else log.listAt k s := by
  split_ifs with hne
  · obtain ⟨rfl, rfl⟩ := hne
    exact (listAt_eq_some_iff hw').mpr ⟨g', by simp [hfind'], hnew, hid⟩
  refine Option.ext fun x => ?_
  rw [listAt_eq_some_iff hw', listAt_eq_some_iff hw, hfind']
  by_cases hk : k = gid
  · subst hk
    simp only [if_true, Option.some.injEq, exists_eq_left', hfind]
    refine and_congr_left fun hx => hothers x ?_
    rw [hx]
    exact fun hs => hne ⟨rfl, hs⟩
  · simp only [if_neg hk]

/-- An existing list was written. -/
theorem listAt_of_set (hw : log.Wf) (hw' : log'.Wf) (hfind : log.groupFind gid = some g)
    (hl : g.listOf sid = some (i, sg))
    (hfind' : ∀ k, log'.groupFind k = if k = gid then some g' else log.groupFind k)
    (hsgs : g'.sgs = g.sgs.set i sg') (hid : sg'.subgroupId = sg.subgroupId) (k s : ℕ) :
    log'.listAt k s = if k = gid ∧ s = sid then some sg' else log.listAt k s := by
  obtain ⟨hi, rfl⟩ := Group.listOf_eq_some hl
  refine listAt_of_write hw hw' hfind hfind' ?_ hid (fun x hx => ?_) k s
  · rw [hsgs]
    exact mem_set (List.getElem?_eq_some_iff.mp hi).1 _
  · rw [hsgs]
    exact mem_set_of_ne hi (fun he => hx (he ▸ rfl)) fun he => hx (he ▸ hid)

/-- What a commit of `d` did to the lists: a datagram none, any other object one record more in its
list, or in a new one that takes over the mark of the hole table. -/
inductive Listed (log log' : Log) (d : AppendDesc) : Prop
  | datagram (h : ∀ k s, log'.listAt k s = log.listAt k s) (holes : log'.holes = log.holes)
  | pushed {sg : Subgroup} {v : RecVec} (hd : d.datagramPref = false)
      (hold : log.listAt d.groupId d.subgroupId = some sg ∧ log'.holes = log.holes ∨
        log.listAt d.groupId d.subgroupId = none ∧
          sg = .prepared d.subgroupId (log.holeHas d.groupId d.subgroupId) ∧
          log'.holes = log.holeClear d.groupId d.subgroupId)
      (h : ∀ k s, log'.listAt k s = if k = d.groupId ∧ s = d.subgroupId then some (sg.pushed d v)
        else log.listAt k s)

theorem commit_listed (hw : log.Wf) (hready : log.Ready g d) (hc : log.commit g d mem = some log') :
    Listed log log' d ∧ log'.holesNext = log.holesNext := by
  have hw' : log'.Wf := (Atom.commit hready hc).wf hw
  unfold commit at hc
  split at hc
  · split at hc
    · cases hc
    · cases hc
      refine ⟨.datagram (fun k s => Option.ext fun x => ?_) rfl, rfl⟩
      rw [listAt_eq_some_iff hw', listAt_eq_some_iff hw]
      change (∃ y, (log.modifyGroup d.groupId _).groupFind k = some y ∧ _) ↔ _
      rw [groupFind_modifyGroup hw.sorted hready.find rfl]
      split
      · rename_i hk
        subst hk
        simp [hready.find, Group.account]
      · rfl
  · rename_i hd
    cases hl : g.listOf d.subgroupId with
    | none =>
      have hdest : log.destSubgroup g d = (g.sgs.length,
          .prepared d.subgroupId (log.holeHas d.groupId d.subgroupId)) := by
        simp [destSubgroup, hl]
      rw [hdest] at hc
      dsimp only at hc
      split at hc
      · cases hc
      · rename_i v hv
        cases hc
        rw [if_pos rfl] at hw' ⊢
        have hin :
            (Subgroup.prepared d.subgroupId (log.holeHas d.groupId d.subgroupId)).pushed d v ∈
            ((g.pushSubgroup g.sgs.length ((Subgroup.prepared d.subgroupId
              (log.holeHas d.groupId d.subgroupId)).pushed d v)).account
                log.lim.idSetCap d).sgs := by
          simp [Group.account, Group.pushSubgroup]
        refine ⟨.pushed (Bool.eq_false_iff.mpr hd) (.inr ⟨?_, rfl, rfl⟩) (listAt_of_write hw hw'
          hready.find (groupFind_modifyGroup hw.sorted hready.find rfl) hin rfl
            fun x hx => ?_), rfl⟩
        · rw [listAt, hready.find, Option.bind_some, hl]
          rfl
        · simp only [Group.account, Group.pushSubgroup, if_true, mem_append, mem_singleton,
            or_iff_left_iff_imp]
          rintro rfl
          exact absurd rfl hx
    | some p =>
      obtain ⟨i, sg⟩ := p
      have hlt := (List.getElem?_eq_some_iff.mp (Group.listOf_eq_some hl).1).1
      have hdest : log.destSubgroup g d = (i, sg) := by simp [destSubgroup, hl]
      rw [hdest] at hc
      dsimp only at hc
      split at hc
      · cases hc
      · rename_i v hv
        cases hc
        rw [if_neg hlt.ne] at hw' ⊢
        exact ⟨.pushed (Bool.eq_false_iff.mpr hd) (.inl ⟨listAt_of_listOf hready.find hl, rfl⟩)
          (listAt_of_set hw hw' hready.find hl (groupFind_modifyGroup hw.sorted hready.find rfl)
            (if_neg hlt.ne : _ = g.sgs.set i (sg.pushed d v)) rfl), rfl⟩

/-! ## What is owed -/

/-- The list of the noted subgroup is open and marked, or its group is gone. -/
def Settled (log : Log) (gid sid : ℕ) : Prop :=
  (∃ sg, log.listAt gid sid = some sg ∧ sg.incomplete ∧ sg.sealed = false) ∨ log.Gone gid

/-- A pair that entered the hole table has its entry, or its list, or its group is gone. -/
def Answered (log : Log) (x : ℕ × ℕ) (h : Hole) : Prop :=
  h.groupId = x.1 ∧ h.subgroupId = x.2 ∧
    (h.used ∨ (log.listAt x.1 x.2).isSome ∨ log.Gone x.1)

/-- The noted subgroup waits in slot `p` of the hole table, and the pairs `added` entered the table
behind it, each once. -/
structure Pending (gid sid : ℕ) (added : List (ℕ × ℕ)) (log : Log) : Prop where
  unlisted : log.listAt gid sid = none
  nodup : added.Nodup
  slot : ∃ p, log.holesNext = p + 1 + added.length ∧ log.holes (p % logHoles) = ⟨true, gid, sid⟩ ∧
    ∀ j x, added[j]? = some x → Answered log x (log.holes ((p + 1 + j) % logHoles))

/-- Whether a call ends the list: it was open, and is sealed. -/
def terminates (log : Log) (gid sid : ℕ) (op : LogOp) : Bool :=
  ((log.listAt gid sid).any fun sg => !sg.sealed) &&
    ((log.step op).listAt gid sid).any fun sg => sg.sealed

/-- A list is touched, or its group is gone. -/
theorem Touches.listAt (h : Touches log log') (hw : log.Wf) (hw' : log'.Wf) (hl : Later log log')
    (hs : log.listAt gid sid = some sg) :
    (∃ sg', log'.listAt gid sid = some sg' ∧ sg.Touched sg') ∨ log'.Gone gid := by
  obtain ⟨g, hg, hm, hid⟩ := (listAt_eq_some_iff hw).mp hs
  cases hg' : log'.groupFind gid with
  | none => exact .inr ⟨hg', hl.evicted gid (by simp [hg]) hg'⟩
  | some g' =>
    rcases h.group gid g' hg' with ⟨x, hx, hlists⟩ | ⟨hnone, -⟩
    · cases hg.symm.trans hx
      obtain ⟨sg', hm', ht⟩ := hlists.exists_mem hm
      exact .inl ⟨sg', (listAt_eq_some_iff hw').mpr ⟨g', hg', hm', ht.subgroupId.trans hid⟩, ht⟩
    · simp [hg] at hnone

/-- A list does not appear. -/
theorem Touches.listAt_eq_none (h : Touches log log') (hw : log.Wf) (hw' : log'.Wf)
    (hs : log.listAt gid sid = none) : log'.listAt gid sid = none := by
  rw [listAt_eq_none_iff hw] at hs
  rw [listAt_eq_none_iff hw']
  intro g' hg' sg' hm'
  rcases h.group gid g' hg' with ⟨g, hg, hlists⟩ | ⟨-, hnil⟩
  · obtain ⟨j, hj'⟩ := mem_iff_getElem?.mp hm'
    have hj := getElem?_eq_getElem (hlists.1 ▸ (List.getElem?_eq_some_iff.mp hj').1)
    rw [(hlists.2 j _ sg' hj hj').subgroupId]
    exact hs g hg _ (mem_of_getElem? hj)
  · simp [hnil] at hm'

/-- What a note did: it marked the list, entered the pair into the table, or found the group
gone. -/
inductive Noted (log : Log) (gid sid : ℕ) : Result × Log → Prop
  | marked {log' : Log} {sg : Subgroup} (hold : log.listAt gid sid = some sg)
      (h : ∀ k s, log'.listAt k s = if k = gid ∧ s = sid
        then some { sg with gapPending := true, incomplete := true } else log.listAt k s)
      (holes : log'.holes = log.holes) (next : log'.holesNext = log.holesNext) :
      Noted log gid sid (.ok, log')
  | entered (hold : log.listAt gid sid = none) (hgone : ¬ log.Gone gid) :
      Noted log gid sid (.ok, log.addHole gid sid)
  | gone (h : log.Gone gid) : Noted log gid sid (.done, log)

theorem noteGap_noted (hw : log.Wf) (gid sid : ℕ) : Noted log gid sid (log.noteGap gid sid) := by
  have hw' := (noteGap_quiets log gid sid).wf hw
  unfold noteGap at hw' ⊢
  cases hf : log.groupFind gid with
  | none =>
    have hnone : log.listAt gid sid = none := by rw [listAt, hf]; rfl
    dsimp only
    split
    · exact .gone ⟨hf, ‹_›⟩
    · exact .entered hnone fun hgone => ‹¬ _› hgone.2
  | some g =>
    rw [hf] at hw'
    dsimp only at hw' ⊢
    cases hl : g.listOf sid with
    | none =>
      exact .entered (by rw [listAt, hf, Option.bind_some, hl]; rfl) fun hgone => by
        simp [hgone.1] at hf
    | some p =>
      obtain ⟨i, sg⟩ := p
      rw [hl] at hw'
      have hsgs : (g.modifySg i fun sg => { sg with gapPending := true, incomplete := true }).sgs
          = g.sgs.set i { sg with gapPending := true, incomplete := true } := by
        rw [Group.modifySg, modify_eq_set_getElem?, (Group.listOf_eq_some hl).1]
        rfl
      exact .marked (listAt_of_listOf hf hl) (listAt_of_set hw hw' hf hl
        (groupFind_modifyGroup hw.sorted hf rfl) hsgs rfl) rfl rfl

/-! ## A settled mark stays -/

/-- Making room keeps a list as it is, or its group is gone. -/
theorem Rooms.listAt (hr : Rooms i log log') (hw : log.Wf) (h : log.listAt gid sid = some sg) :
    log'.listAt gid sid = some sg ∨ log'.Gone gid := by
  obtain ⟨g, hg, hl⟩ := Option.bind_eq_some_iff.mp h
  cases hg' : log'.groupFind gid with
  | none => exact .inr ⟨hg', (Rooms.later hr hw).evicted gid (by simp [hg]) hg'⟩
  | some g' =>
    refine .inl ?_
    obtain rfl : g = g' := by
      induction hr generalizing g' with
      | refl => exact Option.some.inj (hg.symm.trans hg')
      | tail hprev hstep ih =>
        have hwm := Rooms.wf hprev hw
        rcases hstep.groupFind_cases hwm hg' with hmid | ⟨hnone, -⟩
        · exact ih g' hmid
        · -- A group cannot have left and come back.
          have hgone := (hstep.later hwm).gone gid hnone
            ((Rooms.later hprev hw).evicted gid (by simp [hg]) hnone)
          simp [hgone] at hg'
    rw [Log.listAt, hg', Option.bind_some, hl]

/-- The mark of an open list is kept. -/
def Holds (sg sg' : Subgroup) : Prop := sg.incomplete → sg.sealed = false → sg'.incomplete

variable {grows : Prop} {k s : ℕ} {out : Result × Log}

theorem Change.holds (h : sg.Change grows sg') : Holds sg sg' := by
  intro hi hopen
  cases h with
  | touched h => exact (h.keeps fun _ _ => Subgroup.Touch.incomplete).trans hi
  | marked => rfl
  | pushed _ d v =>
    -- The stream is open, so the append does not reopen the list.
    simpa [Subgroup.pushed, Subgroup.reopens, hopen] using hi

/-- Whether a call adds an object to the list of the subgroup. -/
def addsTo (log : Log) (gid sid : ℕ) : LogOp → Bool
  | .append d mem => (log.append d mem).1 = .ok && d.isOf gid sid
  | .openRecord d mem => (log.openRecord d mem).1 = .ok && d.isOf gid sid
  | _ => false

theorem Listed.listAt (h : Listed log log' d) (hs : log.listAt gid sid = some sg) :
    ∃ sg', log'.listAt gid sid = some sg' ∧ sg.Change (d.isOf gid sid) sg' := by
  cases h with
  | datagram h _ => exact ⟨sg, (h gid sid).trans hs, .refl _ sg⟩
  | @pushed x v hd hold h =>
    by_cases hk : gid = d.groupId ∧ sid = d.subgroupId
    · refine ⟨_, (h gid sid).trans (if_pos hk), ?_⟩
      obtain ⟨rfl, rfl⟩ := hk
      rcases hold with ⟨hold, -⟩ | ⟨hold, -⟩
      · cases hold.symm.trans hs
        exact .pushed (by simp [AppendDesc.isOf, hd]) d v
      · simp [hold] at hs
    · exact ⟨sg, (h gid sid).trans ((if_neg hk).trans hs), .refl _ sg⟩

theorem Noted.listAt (h : Noted log k s out) (hs : log.listAt gid sid = some sg) :
    ∃ sg', out.2.listAt gid sid = some sg' ∧ sg.Change grows sg' := by
  cases h with
  | marked hold h _ _ =>
    by_cases hk : gid = k ∧ sid = s
    · refine ⟨_, (h gid sid).trans (if_pos hk), ?_⟩
      obtain ⟨rfl, rfl⟩ := hk
      cases hold.symm.trans hs
      exact .marked
    · exact ⟨sg, (h gid sid).trans ((if_neg hk).trans hs), .refl _ sg⟩
  | entered _ _ =>
    refine ⟨sg, ?_, .refl _ sg⟩
    unfold addHole
    split <;> exact hs
  | gone _ => exact ⟨sg, hs, .refl _ sg⟩

theorem Appended.listAt (h : Appended log d mem out) (hw : log.Wf)
    (hs : log.listAt gid sid = some sg) :
    (∃ sg', out.2.listAt gid sid = some sg' ∧
      sg.Change ((out.1 = .ok && d.isOf gid sid)) sg') ∨ out.2.Gone gid := by
  cases h with
  | refused _ ht _ => exact (ht.rooms.listAt hw hs).imp_left fun h' => ⟨sg, h', .refl _ sg⟩
  | committed ht₀ _ ht₁ hready hc =>
    have hr := Trims.rooms (ht₀.trans ht₁)
    have hwm := hr.wf hw
    rcases hr.listAt hw hs with hmid | hgone
    · simpa using Or.inl ((commit_listed hwm hready hc).1.listAt hmid)
    · exact .inr (((Atom.commit hready hc).later hwm).goneKept hgone)

/-- **What a call does to a list**: it is touched, marked or grows, or its group is gone. -/
theorem step_change (hw : log.Wf) (op : LogOp) (h : log.listAt gid sid = some sg) :
    (∃ sg', (log.step op).listAt gid sid = some sg' ∧
      sg.Change (log.addsTo gid sid op) sg') ∨ (log.step op).Gone gid := by
  cases hop : usesHoles op with
  | false =>
    refine ((step_touches hw hop).listAt hw (step_wf hw op) (step_later hw op) h).imp_left ?_
    rintro ⟨sg', h', ht⟩
    exact ⟨sg', h', .touched ht⟩
  | true =>
    cases op <;> simp only [usesHoles, Bool.false_eq_true] at hop
    case append d mem => exact (append_spec hw d mem).listAt hw h
    case openRecord d mem => exact (openRecord_spec hw d mem).listAt hw h
    case noteGap k s => exact .inl ((noteGap_noted hw k s).listAt h)

/-- **A list whose stream is open keeps its mark, whatever the call.** -/
theorem step_listAt (hw : log.Wf) (op : LogOp) (h : log.listAt gid sid = some sg) :
    (∃ sg', (log.step op).listAt gid sid = some sg' ∧ Holds sg sg') ∨ (log.step op).Gone gid :=
  (step_change hw op h).imp_left fun ⟨sg', h', hc⟩ => ⟨sg', h', Change.holds hc⟩

theorem step_settled (hw : log.Wf) (h : log.Settled gid sid)
    (ht : log.terminates gid sid op = false) : (log.step op).Settled gid sid := by
  rcases h with ⟨sg, hs, hinc, hopen⟩ | hgone
  · rcases step_listAt hw op hs with ⟨sg', hs', hk⟩ | hgone
    · refine .inl ⟨sg', hs', hk hinc hopen, ?_⟩
      simpa [terminates, hs, hs', hopen] using ht
    · exact .inr hgone
  · exact .inr ((step_later hw op).goneKept hgone)

theorem run_settled (ops : List LogOp) : ∀ log : Log, log.Wf → log.Settled gid sid →
    RunAll (fun log op => log.terminates gid sid op = false) log ops →
    (log.run ops).Settled gid sid := by
  induction ops with
  | nil => exact fun _ _ h _ => h
  | cons op ops ih =>
    exact fun log hw h hall => ih _ (step_wf hw op) (step_settled hw h hall.1) hall.2

/-! ## A mark in the table reaches its list -/

variable {x : ℕ × ℕ} {added : List (ℕ × ℕ)} {p : ℕ}

theorem Answered.step {h : Hole} (ha : Answered log x h) (hw : log.Wf) (op : LogOp) :
    Answered (log.step op) x h := by
  obtain ⟨h1, h2, hu | hl | hg⟩ := ha
  · exact ⟨h1, h2, .inl hu⟩
  · obtain ⟨sg, hs⟩ := Option.isSome_iff_exists.mp hl
    rcases step_listAt hw op hs with ⟨sg', hs', -⟩ | hgone
    · exact ⟨h1, h2, .inr (.inl (by simp [hs']))⟩
    · exact ⟨h1, h2, .inr (.inr hgone)⟩
  · exact ⟨h1, h2, .inr (.inr ((step_later hw op).goneKept hg))⟩

/-- The pair waits on when the table is untouched and its list does not appear. -/
theorem Pending.step (hp : Pending gid sid added log) (hw : log.Wf)
    (op : LogOp) (hun : (log.step op).listAt gid sid = none)
    (hholes : (log.step op).holes = log.holes) (hnext : (log.step op).holesNext = log.holesNext) :
    Pending gid sid added (log.step op) := by
  obtain ⟨p, hpn, hslot, hans⟩ := hp.slot
  refine ⟨hun, hp.nodup, p, hnext.trans hpn, by rw [hholes, hslot], fun j x hj => ?_⟩
  rw [hholes]
  exact (hans j x hj).step hw op

theorem holeHas_of_slot (hu : (log.holes (p % logHoles)).used)
    (hg : (log.holes (p % logHoles)).groupId = gid)
    (hs : (log.holes (p % logHoles)).subgroupId = sid) : log.holeHas gid sid := by
  refine any_eq_true.mpr ⟨p % logHoles, mem_range.mpr (Nat.mod_lt _ (by decide)), ?_⟩
  simp [hu, hg, hs]

/-- The table after a list was created: its entry is cleared, and every other one stays. -/
theorem Answered.clear {n : ℕ} (hx : Answered log' x (log.holes n))
    (hlist : (log'.listAt k s).isSome) : Answered log' x (log.holeClear k s n) := by
  unfold holeClear
  dsimp only
  split
  · rename_i hm
    refine ⟨hx.1, hx.2.1, .inr (.inl ?_)⟩
    rwa [← hx.1, ← hx.2.1, hm.2.2.1, hm.2.2.2]
  · exact hx

theorem holeClear_of_ne (h : log.holes p = ⟨true, gid, sid⟩)
    (hne : ¬ (gid = k ∧ sid = s)) : log.holeClear k s p = ⟨true, gid, sid⟩ := by
  unfold holeClear
  rw [h, if_neg]
  rintro ⟨-, -, hk, hs⟩
  exact hne ⟨hk, hs⟩

/-- An append while the pair waits: it waits on, or the append created its list. -/
theorem Pending.append (hp : Pending gid sid added log) (hw : log.Wf)
    (h : Appended log d mem out) (hout : log.step op = out.2) :
    (log.step op).Settled gid sid ∨ Pending gid sid added (log.step op) := by
  have hw' := step_wf hw op
  cases h with
  | refused _ ht _ =>
    have hc := ht.rooms.touches hw
    refine .inr (hp.step hw op ?_ (hout ▸ hc.holes) (hout ▸ hc.next))
    exact (hout ▸ hc : Touches log (log.step op)).listAt_eq_none hw hw' hp.unlisted
  | @committed log₀ log₁ log₂ g ht₀ _ ht₁ hready hcom =>
    obtain rfl : log.step op = log₂ := hout
    have hr := Trims.rooms (ht₀.trans ht₁)
    have hc := hr.touches hw
    have hwm := hr.wf hw
    have hun := hc.listAt_eq_none hw hwm hp.unlisted
    obtain ⟨hlisted, hnext⟩ := commit_listed hwm hready hcom
    have hnext' := hnext.trans hc.next
    cases hlisted with
    | datagram hsame hholes =>
      exact .inr (hp.step hw op ((hsame gid sid).trans hun) (hholes.trans hc.holes) hnext')
    | pushed _ hold hnew =>
      by_cases hk : gid = d.groupId ∧ sid = d.subgroupId
      · have hlist := (hnew gid sid).trans (if_pos hk)
        obtain ⟨rfl, rfl⟩ := hk
        obtain ⟨p, -, hslot, -⟩ := hp.slot
        have hslot' := (congrFun hc.holes _).trans hslot
        have hhas := holeHas_of_slot (by rw [hslot']) (by rw [hslot']) (by rw [hslot'])
        obtain ⟨-, rfl, -⟩ := hold.resolve_left fun h => by simp [hun] at h
        refine .inl (.inl ⟨_, hlist, ?_, ?_⟩)
        · simpa [Subgroup.pushed, Subgroup.reopens, Subgroup.prepared] using hhas
        · simp [Subgroup.pushed, Subgroup.reopens, Subgroup.prepared]
      have hun' := (hnew gid sid).trans ((if_neg hk).trans hun)
      rcases hold with ⟨-, hholes⟩ | ⟨-, -, hholes⟩
      · exact .inr (hp.step hw op hun' (hholes.trans hc.holes) hnext')
      · obtain ⟨p, hpn, hslot, hans⟩ := hp.slot
        refine .inr ⟨hun', hp.nodup, p, hnext'.trans hpn, ?_, fun j x hj => ?_⟩
        · rw [hholes]
          exact holeClear_of_ne (by rw [hc.holes, hslot]) hk
        · have hstep := (hans j x hj).step hw op
          rw [← hc.holes] at hstep
          rw [hholes]
          exact hstep.clear (by rw [hnew, if_pos ⟨rfl, rfl⟩]; rfl)

/-- The pair a call entered into the table, when it is not `(gid, sid)`. -/
def holeNotedBy (log : Log) (gid sid : ℕ) : LogOp → List (ℕ × ℕ)
  | .noteGap k s =>
    if (log.noteGap k s).1 = .ok ∧ log.listAt k s = none ∧ (k, s) ≠ (gid, sid) then [(k, s)] else []
  | _ => []

/-- The other holes noted in a run. -/
def holesNoted (gid sid : ℕ) : Log → List LogOp → List (ℕ × ℕ)
  | _, [] => []
  | log, op :: ops => log.holeNotedBy gid sid op ++ holesNoted gid sid (log.step op) ops

/-- A note while the pair waits. -/
theorem Pending.noteGap (hp : Pending gid sid added log) (hw : log.Wf) (k s : ℕ)
    (hroom : (k, s) ∈ log.holeNotedBy gid sid (.noteGap k s) → (k, s) ∉ added →
      added.length + 1 < logHoles) :
    Pending gid sid added (log.step (.noteGap k s)) ∨
      (k, s) ∈ log.holeNotedBy gid sid (.noteGap k s) ∧
        Pending gid sid (added ++ [(k, s)]) (log.step (.noteGap k s)) := by
  have hspec := noteGap_noted hw k s
  generalize ho : log.noteGap k s = out at hspec
  have hout : log.step (.noteGap k s) = out.2 := by rw [← ho]; rfl
  cases hspec with
  | marked hold h holes next =>
    refine .inl (hp.step hw _ ?_ (by rw [hout, holes]) (by rw [hout, next]))
    rw [hout, h, if_neg, hp.unlisted]
    rintro ⟨rfl, rfl⟩
    simp [hp.unlisted] at hold
  | gone _ => exact .inl (hp.step hw _ (by rw [hout, hp.unlisted]) (by rw [hout]) (by rw [hout]))
  | entered hold hgone =>
    obtain ⟨p, hpn, hslot, hans⟩ := hp.slot
    by_cases hhas : log.holeHas k s
    · have hsame : log.step (.noteGap k s) = log := by rw [hout]; exact if_pos hhas
      exact .inl (hp.step hw _ (by rw [hsame, hp.unlisted]) (by rw [hsame]) (by rw [hsame]))
    have hne : (k, s) ≠ (gid, sid) := by
      rintro ⟨⟩
      exact hhas (holeHas_of_slot (by rw [hslot]) (by rw [hslot]) (by rw [hslot]))
    have hin : (k, s) ∈ log.holeNotedBy gid sid (.noteGap k s) := by
      simp [holeNotedBy, ho, hold, hne]
    -- A pair behind ours is in the table, or has a list, or cannot have one: it is not entered
    -- again.
    have hfresh : (k, s) ∉ added := fun hmem => by
      obtain ⟨j, hj⟩ := mem_iff_getElem?.mp hmem
      obtain ⟨h1, h2, hu | hl | hg⟩ := hans j _ hj
      · exact hhas (holeHas_of_slot hu h1 h2)
      · simp [hold] at hl
      · exact hgone hg
    have hlt : added.length + 1 < 8 := hroom hin hfresh
    have hadd : log.step (.noteGap k s) = { log with
        holes := update log.holes (log.holesNext % logHoles) ⟨true, k, s⟩
        holesNext := log.holesNext + 1 } := by
      rw [hout]
      exact if_neg hhas
    have hslots : ∀ n, n % 8 ≠ log.holesNext % 8 →
        (log.step (.noteGap k s)).holes (n % logHoles) = log.holes (n % logHoles) := fun n hn => by
      rw [hadd]
      exact update_of_ne hn _ _
    refine .inr ⟨hin, ?_, ?_, p, ?_, ?_, fun j x hj => ?_⟩
    · rw [hadd]
      exact hp.unlisted
    · exact hp.nodup.append (nodup_singleton _) (by simpa using hfresh)
    · rw [hadd, length_append]
      simp only [length_singleton]
      omega
    · rw [hslots p (by omega), hslot]
    · rcases lt_or_ge j added.length with hj' | hj'
      · rw [getElem?_append_left hj'] at hj
        rw [hslots _ (by omega)]
        exact (hans j x hj).step hw _
      · obtain ⟨hjl, -⟩ := List.getElem?_eq_some_iff.mp hj
        simp only [length_append, length_singleton] at hjl
        obtain rfl : j = added.length := by omega
        obtain rfl : (k, s) = x := by simpa using hj
        have hnew : (log.step (.noteGap k s)).holes ((p + 1 + added.length) % logHoles)
            = ⟨true, k, s⟩ := by
          rw [hadd, ← hpn]
          exact update_self _ _ _
        rw [hnew]
        exact ⟨rfl, rfl, .inl rfl⟩

theorem step_pending (hp : Pending gid sid added log) (hw : log.Wf) (op : LogOp)
    (hroom : ∀ x ∈ log.holeNotedBy gid sid op, x ∉ added → added.length + 1 < logHoles) :
    (log.step op).Settled gid sid ∨ Pending gid sid added (log.step op) ∨
      ∃ x ∈ log.holeNotedBy gid sid op, Pending gid sid (added ++ [x]) (log.step op) := by
  cases hop : usesHoles op with
  | false =>
    have hc := step_touches hw hop
    exact .inr (.inl (hp.step hw op (hc.listAt_eq_none hw (step_wf hw op) hp.unlisted) hc.holes
      hc.next))
  | true =>
    cases op <;> simp only [usesHoles, Bool.false_eq_true] at hop
    case append d mem => exact (hp.append hw (append_spec hw d mem) rfl).imp_right .inl
    case openRecord d mem => exact (hp.append hw (openRecord_spec hw d mem) rfl).imp_right .inl
    case noteGap k s =>
      refine .inr ((hp.noteGap hw k s (hroom (k, s))).imp_right ?_)
      rintro ⟨hin, hp'⟩
      exact ⟨(k, s), hin, hp'⟩

/-! ## Runs -/

/-- While fewer distinct holes than the table has entries were noted behind the pair, it waits or is
settled. -/
theorem run_pending (ops : List LogOp) : ∀ (log : Log) (added noted : List (ℕ × ℕ)), log.Wf →
    Pending gid sid added log → added ⊆ noted →
    RunAll (fun log op => log.terminates gid sid op = false) log ops →
    (noted ++ holesNoted gid sid log ops).dedup.length < logHoles →
    (log.run ops).Settled gid sid ∨ (log.run ops).listAt gid sid = none := by
  induction ops with
  | nil => exact fun log added noted _ hp _ _ _ => .inr hp.unlisted
  | cons op ops ih =>
    intro log added noted hw hp hsub hall hcount
    have hw' := step_wf hw op
    have hroom : ∀ x ∈ log.holeNotedBy gid sid op, x ∉ added → added.length + 1 < logHoles := by
      intro x hx hnot
      have hnd : (x :: added).Nodup := nodup_cons.mpr ⟨hnot, hp.nodup⟩
      refine (hnd.subperm fun y hy => mem_dedup.mpr ?_).length_le.trans_lt hcount
      revert y
      refine cons_subset.mpr ⟨?_, fun y hy => mem_append_left _ (hsub hy)⟩
      exact mem_append_right _ (mem_append_left _ hx)
    have hcount' : ((noted ++ log.holeNotedBy gid sid op) ++
        holesNoted gid sid (log.step op) ops).dedup.length < logHoles := by
      rwa [append_assoc]
    rcases step_pending hp hw op hroom with hset | hp' | ⟨x, hx, hp'⟩
    · exact .inl (run_settled ops _ hw' hset hall.2)
    · exact ih _ added _ hw' hp' (fun y hy => mem_append_left _ (hsub hy)) hall.2 hcount'
    · refine ih _ (added ++ [x]) _ hw' hp' (fun y hy => ?_) hall.2 hcount'
      rcases mem_append.mp hy with hy | hy
      · exact mem_append_left _ (hsub hy)
      · exact mem_append_right _ (mem_singleton.mp hy ▸ hx)

/-- A note that takes hold: the stream of the list is open, and the pair enters the table anew when
there is no list. -/
structure TakesHold (log : Log) (gid sid : ℕ) : Prop where
  ok : (log.noteGap gid sid).1 = .ok
  openList : ∀ sg, log.listAt gid sid = some sg → sg.sealed = false
  newHole : log.listAt gid sid = none → log.holeHas gid sid = false

theorem TakesHold.settled_or_pending (h : TakesHold log gid sid) (hw : log.Wf) :
    (log.noteGap gid sid).2.Settled gid sid ∨
      log.listAt gid sid = none ∧ Pending gid sid [] (log.noteGap gid sid).2 := by
  have hspec := noteGap_noted hw gid sid
  have hok := h.ok
  generalize log.noteGap gid sid = out at hspec hok
  cases hspec with
  | marked hold hnew _ _ =>
    have hopen := h.openList _ hold
    exact .inl (.inl ⟨_, (hnew gid sid).trans (if_pos ⟨rfl, rfl⟩), rfl, hopen⟩)
  | gone _ => cases hok
  | entered hold _ =>
    have hadd : log.addHole gid sid = { log with
        holes := update log.holes (log.holesNext % logHoles) ⟨true, gid, sid⟩
        holesNext := log.holesNext + 1 } := if_neg (by simp [h.newHole hold])
    refine .inr ⟨hold, ?_⟩
    rw [hadd]
    exact ⟨hold, nodup_nil, log.holesNext, rfl, update_self .., by simp⟩

/-- A seal records a marked list as reset. -/
theorem sealSubgroup_resets (hw : log.Wf) (h : log.Settled gid sid ∨ log.listAt gid sid = none)
    (hs : (log.sealSubgroup gid sid).2.listAt gid sid = some sg) : sg.sealed ∧ sg.sealedReset := by
  have hw' := (sealSubgroup_tended log gid sid).quiets.wf hw
  rcases h with (⟨x, hx, hinc, hopen⟩ | hgone) | hnone
  · obtain ⟨g, hg, hl⟩ := Option.bind_eq_some_iff.mp hx
    obtain ⟨⟨i, x'⟩, hlist, rfl⟩ := Option.map_eq_some_iff.mp hl
    dsimp only at hinc hopen
    have hseal : (log.sealSubgroup gid sid).2
        = log.modifyGroup gid (·.modifySg i (·.resetWith evictedCause)) := by
      unfold sealSubgroup
      simp only [hg, hlist]
      rw [if_pos hinc]
    rw [hseal] at hs hw'
    have hsgs : (g.modifySg i (·.resetWith evictedCause)).sgs
        = g.sgs.set i (x'.resetWith evictedCause) := by
      rw [Group.modifySg, modify_eq_set_getElem?, (Group.listOf_eq_some hlist).1]
      rfl
    rw [listAt_of_set hw hw' hg hlist (groupFind_modifyGroup hw.sorted hg rfl) hsgs
      ((edit_resetWith evictedCause).subgroupId x'), if_pos ⟨rfl, rfl⟩] at hs
    cases hs
    simp [Subgroup.resetWith, hopen]
  · have : (log.sealSubgroup gid sid).2 = log := by
      unfold sealSubgroup
      rw [hgone.1]
    rw [this, listAt, hgone.1] at hs
    cases hs
  · have := ((sealSubgroup_tended log gid sid).touches hw).listAt_eq_none hw hw' hnone
    simp [this] at hs

/-- **A noted gap ends its list with a reset.**  After a note that takes hold, whatever is called in
between, a seal of the subgroup leaves its list terminated as a reset, unless something else ended
it before; a note made while there was no list allows for fewer other holes than the table has
entries. -/
theorem gap_resets (log : Log) (hreach : log.Reachable) (gid sid : ℕ)
    (hnote : TakesHold log gid sid)
    (ops : List LogOp)
    (hterm : RunAll (fun log op => log.terminates gid sid op = false) (log.noteGap gid sid).2 ops)
    (hholes : log.listAt gid sid = none →
      (holesNoted gid sid (log.noteGap gid sid).2 ops).dedup.length < logHoles) :
    ∀ sg, (((log.noteGap gid sid).2.run ops).sealSubgroup gid sid).2.listAt gid sid = some sg →
      sg.sealed ∧ sg.sealedReset := by
  intro sg hs
  have hw := hreach.wf
  have hw' := (noteGap_quiets log gid sid).wf hw
  refine sealSubgroup_resets (run_wf hw' ops) ?_ hs
  rcases hnote.settled_or_pending hw with hset | ⟨hnone, hp⟩
  · exact .inl (run_settled ops _ hw' hset hterm)
  · exact run_pending ops _ [] [] hw' hp (nil_subset _) hterm (hholes hnone)

/-- An object behind the first of its group. -/
def secondDesc : AppendDesc := { payloadDesc 1 3 with objectId := 1, object_le := by decide }

theorem gap_resets_small : ∃ log : Log, log.Reachable ∧ TakesHold log 1 0 ∧
    ∀ sg, (((log.noteGap 1 0).2.run [.append secondDesc ⟨true, true, true⟩]).sealSubgroup
      1 0).2.listAt 1 0 = some sg → sg.sealed ∧ sg.sealedReset := by
  have hlist : mixedLog.listAt 1 0 ≠ none := by decide +kernel
  have hnote : TakesHold mixedLog 1 0 := ⟨by decide +kernel, fun sg hsg => by
    have hall : (mixedLog.listAt 1 0).all (fun sg => !sg.sealed) := by decide +kernel
    simpa [hsg] using hall, fun h => absurd h hlist⟩
  exact ⟨_, mixedLog_reachable, hnote, gap_resets _ mixedLog_reachable 1 0 hnote _
    ⟨by decide +kernel, trivial⟩ fun h => absurd h hlist⟩

/-- **A note that reports `MOQR_OK` can be lost.**  In the first run the note falls between the end
of the list and the append that reopens it.  In the second it repeats a hole that is already the
oldest of the table, and the next hole takes its place.  Each list is sealed as complete. -/
theorem gap_lost :
    (∃ (log : Log) (ops : List LogOp), log.Reachable ∧ (log.noteGap 1 0).1 = .ok ∧
      RunAll (fun log op => log.terminates 1 0 op = false) (log.noteGap 1 0).2 ops ∧
      ((((log.noteGap 1 0).2.run ops).sealSubgroup 1 0).2.listAt 1 0).any
        (fun sg => sg.sealed && !sg.sealedReset)) ∧
    ∃ (log : Log) (ops : List LogOp), log.Reachable ∧ (log.noteGap 1 0).1 = .ok ∧
      log.listAt 1 0 = none ∧
      (holesNoted 1 0 (log.noteGap 1 0).2 ops).dedup.length < logHoles ∧
      RunAll (fun log op => log.terminates 1 0 op = false) (log.noteGap 1 0).2 ops ∧
      ((((log.noteGap 1 0).2.run ops).sealSubgroup 1 0).2.listAt 1 0).any
        (fun sg => sg.sealed && !sg.sealedReset) := by
  refine ⟨⟨smallLog.run [.append (payloadDesc 1 3) ⟨true, true, true⟩, .sealSubgroup 1 0],
      [.append secondDesc ⟨true, true, true⟩], smallLog_reachable _, ?_, ⟨?_, trivial⟩, ?_⟩,
    smallLog.run [.noteGap 1 0, .noteGap 2 0, .noteGap 3 0, .noteGap 4 0, .noteGap 5 0,
      .noteGap 6 0,
      .noteGap 7 0, .noteGap 8 0], [.noteGap 9 0, .append (payloadDesc 1 3) ⟨true, true, true⟩],
    smallLog_reachable _, ?_, ?_, ?_, ⟨?_, ?_, trivial⟩, ?_⟩ <;> decide +kernel

end Log

end MoqRelay
