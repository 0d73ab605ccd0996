import MoqRelay.Fetch.Admit
import MoqRelay.Fetch.Walk

/-!
# Fetch/Range — the Locations a fetch is admitted for

On the wire an End Location is one past the last object, and an end object of zero is the whole end
group, so the top of the 64-bit range has two spellings.  Here the Locations a request asks for are
a set in the lexicographic order (`asked`), stated without the encoding, and admission is compared
with it: the admitted range is that set, the announced End decodes to its greatest element, and what
is refused is an empty set or one the log has nothing left of.
-/

namespace MoqRelay

/-! ## What a request asks for -/

/-- The Locations with 64-bit ids. -/
def Loc64 : Set (ℕ ×ₗ ℕ) := {l | (ofLex l).1 ≤ u64Max ∧ (ofLex l).2 ≤ u64Max}

/-- The last Location of a raw-wire End. -/
def wireLast (g o : ℕ) : ℕ ×ₗ ℕ := toLex (g, if o = 0 then u64Max else o - 1)

namespace FetchReq

/-- The first Location asked for; a relative start counts groups back from the one after the Largest
Object's, clamped at group 0. -/
def first (req : FetchReq) (lg lo : ℕ) : ℕ ×ₗ ℕ :=
  if req.startRelative then toLex (lg + 1 - req.relStart, 0)
  else if req.startNextObject then toLex (lg, lo + 1)
  else toLex (req.startGroup, req.startObject)

/-- The Locations up to the End: an end object of zero is the whole end group. -/
def upTo (req : FetchReq) (lg lo : ℕ) : Set (ℕ ×ₗ ℕ) :=
  if req.endAtLargest then Set.Iic (toLex (lg, lo))
  else if req.endObject = 0 then {l | (ofLex l).1 ≤ req.endGroup}
  else Set.Iio (toLex (req.endGroup, req.endObject))

end FetchReq

/-- **The Locations a request asks for**, at or below the track's Largest. -/
def asked (t : Track) (req : FetchReq) : Set (ℕ ×ₗ ℕ) :=
  {l | t.hasLargest ∧ l ∈ Loc64 ∧ req.first t.largestGroup t.largestObject ≤ l ∧
    l ∈ req.upTo t.largestGroup t.largestObject ∧ l ≤ toLex (t.largestGroup, t.largestObject)}

/-! ## The code's Locations -/

variable {req : FetchReq} {lg lo : ℕ}

/-- The resolved start is the first Location asked for, or there is none to start at. -/
theorem resolveStart_eq (req : FetchReq) (lg lo : ℕ) : match req.resolveStart lg lo with
    | none => ∀ l ∈ Loc64, l ≤ toLex (lg, lo) → ¬ req.first lg lo ≤ l
    | some p => req.first lg lo = toLex p := by
  unfold FetchReq.resolveStart FetchReq.first
  by_cases hrel : req.startRelative
  · rw [if_pos hrel, if_pos hrel]
    by_cases hzero : req.relStart = 0
    · rw [hzero]
      by_cases hmax : lg = u64Max
      · rw [if_pos hmax]
        intro l hl _ hle
        simp only [Prod.Lex.le_iff, ofLex_toLex] at hle
        have := hl.1
        omega
      · rw [if_neg hmax]
        rfl
    · rw [if_neg hzero]
      congr 2
      split <;> omega
  · rw [if_neg hrel, if_neg hrel]
    by_cases hnext : req.startNextObject
    · rw [if_pos hnext, if_pos hnext]
      by_cases hmax : lo = u64Max
      · rw [if_pos hmax]
        intro l hl hle hge
        simp only [Prod.Lex.le_iff, ofLex_toLex] at hle hge
        omega
      · rw [if_neg hmax]
    · rw [if_neg hnext, if_neg hnext]

/-- The inclusive last Location of an effective end. -/
def FetchEnd.last (e : FetchEnd) : ℕ ×ₗ ℕ := toLex (e.group, if e.whole then u64Max else e.object)

/-- **The effective end** bounds what is asked for and at or below the Largest. -/
theorem le_effectiveEnd_iff (req : FetchReq) {l : ℕ ×ₗ ℕ} (hl : l ∈ Loc64) :
    l ≤ (effectiveEnd (req.resolveEnd lg lo) lg lo).last ↔
      l ∈ req.upTo lg lo ∧ l ≤ toLex (lg, lo) := by
  obtain ⟨hg, ho⟩ := hl
  unfold effectiveEnd FetchReq.resolveEnd FetchReq.upTo FetchEnd.last
  by_cases hend : req.endAtLargest
  · rw [if_pos hend, if_pos hend]
    by_cases hmax : lo = u64Max
    iterate 2 simp [hmax, Set.mem_Iic]
  · rw [if_neg hend, if_neg hend]
    by_cases hwhole : req.endObject = 0
    · simp only [hwhole, decide_true, if_true, Set.mem_ofPred_eq]
      by_cases hgr : req.endGroup < lg
      · rw [if_pos (by simp [hgr, hgr.ne]), if_pos rfl]
        simp only [Prod.Lex.le_iff, ofLex_toLex]
        omega
      · rw [if_neg (by simp [hgr]), if_neg Bool.false_ne_true]
        simp only [Prod.Lex.le_iff, ofLex_toLex]
        omega
    · simp only [hwhole, decide_false, if_false, Bool.false_eq_true, Set.mem_Iio]
      by_cases hbelow : req.endGroup < lg ∨ req.endGroup = lg ∧ req.endObject - 1 ≤ lo
      · rw [if_pos (by split <;> simp <;> omega), if_neg Bool.false_ne_true]
        simp only [Prod.Lex.le_iff, Prod.Lex.lt_iff, ofLex_toLex]
        omega
      · rw [if_neg (by split <;> simp <;> omega), if_neg Bool.false_ne_true]
        simp only [Prod.Lex.le_iff, Prod.Lex.lt_iff, ofLex_toLex]
        omega

variable {e : FetchEnd}

theorem FetchEnd.before_iff {g o : ℕ} (ho : o ≤ u64Max) : e.before g o ↔ e.last < toLex (g, o) := by
  unfold FetchEnd.before FetchEnd.last
  simp only [Prod.Lex.lt_iff, ofLex_toLex]
  cases e.whole with
  | true =>
    by_cases hg : e.group = g
    · simp [hg, ho]
    · simp [hg]
  | false =>
    by_cases hg : e.group = g
    · simp [hg]
    · simp [hg]

theorem FetchEnd.last_mem (hg : e.group ≤ u64Max) (ho : e.object ≤ u64Max) : e.last ∈ Loc64 := by
  refine ⟨hg, ?_⟩
  change (if e.whole then u64Max else e.object) ≤ u64Max
  split
  · exact le_rfl
  · exact ho

/-- The announced End decodes to the effective one: past the last object id the wire form is zero,
the whole group, which ends at the same Location. -/
theorem wireLast_encode (ho : e.object ≤ u64Max) :
    wireLast e.group (if e.whole then 0 else (e.object + 1) % 2 ^ 64) = e.last := by
  unfold wireLast FetchEnd.last
  cases e.whole with
  | true => rfl
  | false =>
    simp only [Bool.false_eq_true, if_false]
    by_cases hmax : e.object = u64Max
    · rw [hmax]
      rfl
    · have hlt : e.object + 1 < 2 ^ 64 := by
        unfold u64Max at ho hmax
        omega
      rw [Nat.mod_eq_of_lt hlt, if_neg (Nat.succ_ne_zero _), Nat.add_sub_cancel]

/-! ## Admission -/

/-- The asked Locations run from the resolved start to the effective end. -/
theorem asked_eq {t : Track} {sg so : ℕ} (hl : t.hasLargest)
    (hs : req.resolveStart t.largestGroup t.largestObject = some (sg, so)) :
    asked t req = Loc64 ∩ Set.Icc (toLex (sg, so)) (effectiveEnd
      (req.resolveEnd t.largestGroup t.largestObject) t.largestGroup t.largestObject).last := by
  have hfirst := resolveStart_eq req t.largestGroup t.largestObject
  rw [hs] at hfirst
  ext l
  constructor
  · rintro ⟨-, h64, hge, hup, hle⟩
    exact ⟨h64, hfirst ▸ hge, (le_effectiveEnd_iff req h64).mpr ⟨hup, hle⟩⟩
  · rintro ⟨h64, hge, hle⟩
    exact ⟨hl, h64, hfirst.le.trans hge, (le_effectiveEnd_iff req h64).mp hle⟩

/-- Nothing the log could serve is asked for. -/
def Unserved (t : Track) (req : FetchReq) (retrieval : Bool) : Prop :=
  retrieval = false ∧
    ∀ l ∈ asked t req, t.log.groups = [] ∨ (ofLex l).1 < t.log.oldestGroupId

/-- **The range of a fetch.**  A request is refused exactly when it asks for no Location at or below
the Largest, or for none in or after the oldest group the log holds (a retrieval is not).  An
accepted one gets a range of exactly the asked Locations, and the announced End is the greatest of
them. -/
theorem fetch_range_exact (t : Track) (hlg : t.largestGroup ≤ u64Max)
    (hlo : t.largestObject ≤ u64Max) (req : FetchReq) (retrieval : Bool) (f₀ : Fetch) :
    match fetchAdmit t req retrieval f₀ with
    | .error code => code = errInvalidRange ∧ (asked t req = ∅ ∨ Unserved t req retrieval)
    | .ok (plan, f) => (asked t req).Nonempty ∧ ¬ Unserved t req retrieval ∧
        asked t req = Loc64 ∩ Set.Icc (toLex (f.startGroup, f.startObject)) (toLex f.rangeEnd) ∧
        IsGreatest (asked t req) (wireLast plan.endGroup plan.endObject) := by
  unfold fetchAdmit
  by_cases hl : t.hasLargest
  swap
  · rw [if_pos (by simpa using hl)]
    exact ⟨rfl, .inl (Set.eq_empty_of_forall_notMem fun l h => hl h.1)⟩
  rw [if_neg (by simpa using hl)]
  have hfirst := resolveStart_eq req t.largestGroup t.largestObject
  cases hs : req.resolveStart t.largestGroup t.largestObject with
  | none =>
    rw [hs] at hfirst
    exact ⟨rfl, .inl (Set.eq_empty_of_forall_notMem fun l h => hfirst l h.2.1 h.2.2.2.2 h.2.2.1)⟩
  | some p =>
    obtain ⟨sg, so⟩ := p
    have hso : so ≤ u64Max := resolveStart_le hlo hs
    have hasked := asked_eq hl hs
    have hend := effectiveEnd_le (@resolveEnd_le req t.largestGroup _ hlo) hlg hlo
    have hlast := FetchEnd.last_mem hend.1 hend.2
    have hlargest := ((le_effectiveEnd_iff req hlast).mp le_rfl).2
    generalize effectiveEnd (req.resolveEnd t.largestGroup t.largestObject) t.largestGroup
      t.largestObject = e at hasked hend hlast hlargest ⊢
    have hnone : e.last < toLex (sg, so) → asked t req = ∅ := fun hlt => by
      rw [hasked, Set.Icc_eq_empty_of_lt hlt, Set.inter_empty]
    dsimp only
    by_cases hpast : t.largestGroup < sg ∨ sg = t.largestGroup ∧ t.largestObject < so
    · rw [if_pos hpast]
      refine ⟨rfl, .inl (hnone (hlargest.trans_lt ?_))⟩
      rw [Prod.Lex.toLex_lt_toLex]
      exact hpast.imp_right fun h => ⟨h.1.symm, h.2⟩
    rw [if_neg hpast]
    by_cases hempty : t.log.groups.length = 0 ∧ (!retrieval)
    · rw [if_pos hempty]
      exact ⟨rfl, .inr ⟨by simpa using hempty.2, fun _ _ =>
        .inl (List.length_eq_zero_iff.mp hempty.1)⟩⟩
    rw [if_neg hempty]
    by_cases hbefore : e.before sg so
    · rw [if_pos hbefore]
      exact ⟨rfl, .inl (hnone ((FetchEnd.before_iff hso).mp hbefore))⟩
    rw [if_neg hbefore]
    have hle : toLex (sg, so) ≤ e.last := not_lt.mp (mt (FetchEnd.before_iff hso).mpr hbefore)
    have hgroup : ∀ l ∈ asked t req, (ofLex l).1 ≤ e.group := fun l hl' => by
      rw [hasked] at hl'
      have := hl'.2.2
      rw [Prod.Lex.le_iff] at this
      exact this.elim le_of_lt fun h => h.1.le
    by_cases hevict : evictedPrefix t retrieval sg ∧ e.group < t.log.oldestGroupId
    · rw [if_pos hevict]
      refine ⟨rfl, .inr ⟨?_, fun l hl' => .inr ((hgroup l hl').trans_lt hevict.2)⟩⟩
      have := hevict.1
      simp only [evictedPrefix, Bool.and_eq_true, Bool.not_eq_true'] at this
      exact this.1
    rw [if_neg hevict]
    have hmem : e.last ∈ asked t req := by
      rw [hasked]
      exact ⟨hlast, hle, le_rfl⟩
    refine ⟨⟨_, hmem⟩, fun ⟨hret, hall⟩ => ?_, hasked, ?_⟩
    · rcases hall _ hmem with hnil | hlt
      · exact hempty ⟨by rw [hnil]; rfl, by rw [hret]; rfl⟩
      · refine hevict ⟨?_, hlt⟩
        have hsg : sg ≤ e.group := by
          rw [Prod.Lex.le_iff] at hle
          exact hle.elim le_of_lt fun h => h.1.le
        simp only [evictedPrefix, hret, Bool.not_false, Bool.true_and, decide_eq_true_eq]
        exact hsg.trans_lt hlt
    · rw [wireLast_encode hend.2]
      refine ⟨hmem, fun l hl' => ?_⟩
      rw [hasked] at hl'
      exact hl'.2.2

theorem byte_le_u64Max (b : UInt8) : b.toNat ≤ u64Max := b.toNat_lt.le.trans (by decide)

/-- The groups from `first` to `last`, whole, without reports. -/
def groupsReq (first last : UInt8) : FetchReq where
  structSize := 112
  name := ⟨[], []⟩
  startGroup := first.toNat
  startObject := 0
  endGroup := last.toNat
  endObject := 0
  groupOrder := .ascending
  subscriberPriority := 0
  cookie := 0
  reportGaps := false
  reportUnknown := false
  relativeStart := 0
  rangeForm := 0
  reportPending := false
  startGroup_le := byte_le_u64Max first
  startObject_le := Nat.zero_le _
  endGroup_le := byte_le_u64Max last
  endObject_le := Nat.zero_le _

/-- Group 1 is retained, and the Largest is the last Location there is. -/
def topTrack : Track :=
  { Track.cleared (Log.smallLog.run [.append (Log.payloadDesc 1 3) ⟨true, true, true⟩]) with
    gen := 1
    hasLargest := true
    largestGroup := u64Max
    largestObject := u64Max }

/-- From group 1 to the Largest, in the form of a joining fetch: the announced End is the whole last
group. -/
theorem fetch_range_top : ∃ plan f,
    fetchAdmit topTrack { groupsReq 1 1 with rangeForm := 4 } false Fetch.cleared = .ok (plan, f) ∧
      (plan.endGroup, plan.endObject) = (u64Max, 0) ∧
      IsGreatest (asked topTrack { groupsReq 1 1 with rangeForm := 4 })
        (toLex (u64Max, u64Max)) := by
  have h := fetch_range_exact topTrack le_rfl le_rfl { groupsReq 1 1 with rangeForm := 4 } false
    Fetch.cleared
  exact ⟨_, _, rfl, rfl, h.2.2.2⟩

/-- Group 1 was evicted, and group 3 is retained. -/
def evictedTrack : Track :=
  { Track.cleared (Log.smallLog.run [.append (Log.payloadDesc 1 3) ⟨true, true, true⟩,
      .append (Log.payloadDesc 3 3) ⟨true, true, true⟩, .evictGroups 1]) with
    gen := 1
    hasLargest := true
    largestGroup := 3 }

/-- **A range that was evicted is refused as invalid**, although it asks for Locations below the
Largest. -/
theorem evicted_range_refused :
    fetchAdmit evictedTrack (groupsReq 1 1) false Fetch.cleared = .error errInvalidRange ∧
      toLex (1, 0) ∈ asked evictedTrack (groupsReq 1 1) := by
  refine ⟨rfl, rfl, ⟨by decide, by decide⟩, le_rfl, ?_, ?_⟩
  · exact Nat.le_refl 1
  · exact Prod.Lex.toLex_le_toLex.mpr (.inl (by decide))

end MoqRelay
