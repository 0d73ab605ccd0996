import MoqRelay.Fetch.Range
import MoqRelay.Log.Later

/-!
# Fetch/Lost — a group of the range is evicted under a fetch

Groups leave a log from the oldest end, and an id at or below the horizon never comes back.  So once
a group is gone, every group the log still holds is past it (`Log.Lost`), whatever else was called.

A peek sees the loss by comparing its cursor with the oldest group.  That needs an oldest group: a
log that has become empty lets the cursor run to the end of the range.
-/

namespace MoqRelay

namespace Fetch

variable {t : Track} {f : Fetch} {gid : ℕ} {pinCap : UInt64} {env : PeekEnv}

/-! ## The calls and the log -/

/-- What happens around a fetch: a call on the track's log, and the two calls on the fetch. -/
inductive Event
  | mutate (op : LogOp)
  | peek (pinCap : UInt64) (env : PeekEnv)
  | commit

/-- The track and the fetch after an event. -/
def Event.apply : Track × Fetch → Event → Track × Fetch
  | (t, f), .mutate op => ({ t with log := t.log.step op }, f)
  | (t, f), .peek pinCap env => (t, (f.peek t pinCap env).2.2)
  | (t, f), .commit => (t, f.commit.2)

/-- What no call on a fetch changes. -/
def fixed (f : Fetch) : Bool × Bool × ℕ × ℕ :=
  (f.reportGaps, f.retrievalOwner, f.trackGenSlot, f.endGroup)

theorem peekNext_fixed (f : Fetch) (log : Log) (t : Track) (pinCap : UInt64) (env : PeekEnv) :
    (f.peekNext log t pinCap env).2.2.fixed = f.fixed := by
  unfold peekNext
  dsimp only
  split
  · rfl
  · rfl
  · split
    · split <;> rfl
    · split
      · rfl
      · unfold serve
        split_ifs
        · rfl
        · rfl
        · split <;> rfl

theorem peek_fixed (f : Fetch) (t : Track) (pinCap : UInt64) (env : PeekEnv) :
    (f.peek t pinCap env).2.2.fixed = f.fixed := by
  unfold peek
  dsimp only
  split_ifs
  iterate 5 rfl
  · exact peekNext_fixed _ _ _ _ _

theorem advance_fixed (f : Fetch) (g o : ℕ) : (f.advance g o).fixed = f.fixed := by
  unfold advance
  split_ifs <;> rfl

theorem commit_fixed (f : Fetch) : f.commit.2.fixed = f.fixed := by
  have hunpin : ∀ x : Fetch, x.unpin.fixed = x.fixed := fun x => by
    unfold unpin
    split <;> rfl
  unfold commit
  split_ifs
  · rfl
  · exact advance_fixed _ _ _
  · rfl
  · exact (hunpin _).trans (advance_fixed _ _ _)

/-- **A run around a fetch**: the log ran, and nothing fixed changed. -/
theorem events_spec (es : List Event) (t : Track) (f : Fetch) :
    ∃ ops, (es.foldl Event.apply (t, f)).1 = { t with log := t.log.run ops } ∧
      (es.foldl Event.apply (t, f)).2.fixed = f.fixed := by
  induction es generalizing t f with
  | nil => exact ⟨[], rfl, rfl⟩
  | cons e es ih =>
    cases e with
    | mutate op =>
      obtain ⟨ops, ht, hf⟩ := ih { t with log := t.log.step op } f
      exact ⟨op :: ops, ht, hf⟩
    | peek pinCap env =>
      obtain ⟨ops, ht, hf⟩ := ih t (f.peek t pinCap env).2.2
      exact ⟨ops, ht, hf.trans (peek_fixed f t pinCap env)⟩
    | commit =>
      obtain ⟨ops, ht, hf⟩ := ih t f.commit.2
      exact ⟨ops, ht, hf.trans (commit_fixed f)⟩

/-! ## The peek after a loss -/

/-- With the cursor at or before a lost group, the oldest group is past the cursor. -/
theorem lt_oldestGroupId (hlost : t.log.Lost gid) (hcur : f.curGroup ≤ gid)
    (hne : t.log.groups ≠ []) :
    f.curGroup < t.log.oldestGroupId := by
  obtain ⟨g, rest, hgs⟩ := List.exists_cons_of_ne_nil hne
  have hold : t.log.oldestGroupId = g.groupId := by simp [Log.oldestGroupId, hgs]
  rw [hold]
  exact hcur.trans_lt (hlost.past g (by simp [hgs]))

/-- An empty log has nothing left to serve. -/
theorem peekNext_of_empty (hgaps : f.reportGaps = false) (hnil : t.log.groups = []) :
    f.peekNext t.log t pinCap env = (.ok, some .finish, f) := by
  have hscan : ∀ p, f.scan t.log p = none := fun p => by simp [scan, hnil]
  simp [peekNext, scanNext, scanPending, hscan, hgaps]

theorem peek_of_lost (hlost : t.log.Lost gid) (hcur : f.curGroup ≤ gid) (hex : f.exhausted = false)
    (hlive : ¬ (t.gen % 2 = 0 ∨ t.gen ≠ f.trackGenSlot)) (howner : f.retrievalOwner = false)
    (hgaps : f.reportGaps = false) (pinCap : UInt64) (env : PeekEnv) :
    ((f.peek t pinCap env).1 = .tooOld ↔ f.outActive = false ∧ t.log.groups ≠ []) ∧
      ((f.peek t pinCap env).2.1 = some .finish ↔
        f.outActive = false ∧ t.log.groups = [] ∧ f.leadMarker = false) := by
  unfold peek
  rw [if_neg (Bool.eq_false_iff.mp hex)]
  by_cases hout : f.outActive
  · simp [hout]
  rw [if_neg hout, if_neg hlive]
  by_cases hnil : t.log.groups = []
  · by_cases hmark : f.leadMarker
    · simp [hmark, hnil]
    · have hend : ({ f with gapActive := false } : Fetch).peekNext t.log t pinCap env
          = (.ok, some .finish, { f with gapActive := false }) := peekNext_of_empty hgaps hnil
      rw [hend]
      simp [hmark, hnil, hout]
  · have hlen : t.log.groups.length ≠ 0 := fun h => hnil (List.length_eq_zero_iff.mp h)
    rw [if_pos ⟨by rw [howner]; rfl, hlen, lt_oldestGroupId hlost hcur hnil⟩]
    simp [hnil, hout]

/-- **A peek after a group of the rest of the range was lost.**  A fetch that reports no gaps was
admitted, and its calls and calls on the log came in any order.  The peek is refused as too old
exactly when the fetch holds no object and the log is not empty; with an empty log it reports the
end, once the marker is out. -/
theorem lost_group_peek_iff (t₀ : Track) (hlog : t₀.log.Reachable) (hlive : t₀.gen % 2 = 1)
    (req : FetchReq) (retrieval : Bool) (f₀ f₁ : Fetch) (plan : FetchPlan)
    (hadm : fetchAdmit t₀ req retrieval f₀ = .ok (plan, f₁)) (hgaps : f₁.reportGaps = false)
    (es : List Event) (t : Track) (f : Fetch) (hrun : es.foldl Event.apply (t₀, f₁) = (t, f))
    (gid : ℕ) (hheld : (t₀.log.groupFind gid).isSome) (hgone : t.log.groupFind gid = none)
    (hrest : f.exhausted = false ∧ f.curGroup ≤ gid ∧ gid ≤ f.endGroup) (pinCap : UInt64)
    (env : PeekEnv) :
    ((f.peek t pinCap env).1 = .tooOld ↔ f.outActive = false ∧ t.log.groups ≠ []) ∧
      ((f.peek t pinCap env).2.1 = some .finish ↔
        f.outActive = false ∧ t.log.groups = [] ∧ f.leadMarker = false) := by
  obtain ⟨ops, ht, hf⟩ := events_spec es t₀ f₁
  rw [hrun] at ht hf
  dsimp only at ht
  have hret : f₁.retrievalOwner = false ∧ f₁.trackGenSlot = t₀.gen := by
    obtain ⟨sg, so, e, -, -, -, -, -, rfl⟩ := fetchAdmit_eq_ok hadm
    have hor : (req.gaps || retrieval) = false := hgaps
    exact ⟨(Bool.or_eq_false_iff.mp hor).2, rfl⟩
  simp only [fixed, Prod.mk.injEq, hgaps, hret.1, hret.2] at hf
  obtain ⟨hgaps', howner, hslot, -⟩ := hf
  have hgen : t.gen = t₀.gen := by rw [ht]
  have hlost : t.log.Lost gid := by
    have hlog' : t.log = t₀.log.run ops := by rw [ht]
    rw [hlog'] at hgone ⊢
    refine (Log.run_lost hlog.wf ops hheld).resolve_left fun h => ?_
    rw [hgone] at h
    cases h
  obtain ⟨hex, hcur, -⟩ := hrest
  exact peek_of_lost hlost hcur hex (by omega) howner hgaps' pinCap env

/-- A log of one group. -/
def oneCfg : LogCfg := ⟨56, true, 1, 1024, 0, 4, 8, 2, 4⟩

/-- A track whose log is one group, group 1, which is all there is to fetch. -/
def oneTrack : Track :=
  { Track.cleared ((Log.fresh ⟨1, 1024, 0, 4, 8, 4096, 2, 4, 16⟩).run
      [.append (Log.payloadDesc 1 3) ⟨true, true, true⟩]) with
    gen := 1
    hasLargest := true
    largestGroup := 1 }

/-- An object of group 2 takes the place of group 1, and the peek is refused. -/
theorem lost_group_peek_small : ∃ plan f t,
    fetchAdmit oneTrack (groupsReq 1 1) false Fetch.cleared = .ok (plan, f) ∧
      [Event.mutate (.append (Log.payloadDesc 2 3) ⟨true, true, true⟩)].foldl Event.apply
        (oneTrack, f)
        = (t, f) ∧
      (f.peek t 0 ⟨0, 0, true, true⟩).1 = .tooOld := by
  refine ⟨_, _, _, rfl, rfl, ?_⟩
  refine (lost_group_peek_iff oneTrack ⟨oneCfg, true, _, _, rfl, rfl⟩ rfl (groupsReq 1 1) false
    Fetch.cleared _ _ rfl rfl [.mutate (.append (Log.payloadDesc 2 3) ⟨true, true, true⟩)] _ _ rfl 1
    rfl rfl ⟨rfl, by decide, by decide⟩ 0 ⟨0, 0, true, true⟩).1.mpr ⟨rfl, ?_⟩
  exact List.cons_ne_nil _ _

/-- **A log that has become empty ends the fetch.**  The one group makes room for a new one, whose
arrays cannot be allocated, and the peek reports the end without having served the object. -/
theorem lost_group_ends_fetch : ∃ plan f t f',
    fetchAdmit oneTrack (groupsReq 1 1) false Fetch.cleared = .ok (plan, f) ∧
      (oneTrack.log.groupFind 1).isSome ∧
      [Event.mutate (.append (Log.payloadDesc 2 3) ⟨false, true, true⟩)].foldl Event.apply
        (oneTrack, f)
        = (t, f) ∧
      t.log.groupFind 1 = none ∧ f.curGroup = 1 ∧
      f.peek t 0 ⟨0, 0, true, true⟩ = (.ok, some .finish, f') :=
  ⟨_, _, _, _, rfl, rfl, rfl, rfl, rfl, rfl⟩

end Fetch

end MoqRelay
