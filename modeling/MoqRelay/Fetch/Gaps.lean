import MoqRelay.Fetch.Drive

/-!
# Fetch/Gaps — what a reported gap covers

A gap names the last Location of a run that starts at the cursor.  The walk that finds it steps over
status objects on its way and, inside the hole, looks only at its two ends, so what lies between
them may be a status object or an expired one.  Whatever could be served or is still arriving stops
the run (`gap_before`): those two are all a gap can swallow.

The statements hold for a fetch in any state its calls can bring it to, on logs that change in
between, whichever reports it asked for.
-/

namespace MoqRelay

/-- A record that accounts for its Location: a status object, or an object that arrived whole. -/
def Rec.Settled (r : Rec) : Prop := r.status ≠ .normal ∨ r.objState = .complete

theorem Log.Reachable.object_le {log : Log} (h : log.Reachable) :
    ∀ r ∈ log.allRecs, r.objectId ≤ u64Max := fun r hr => by
  obtain ⟨_, _, hst⟩ := h.stored
  exact (hst.stores r hr).object_le

namespace Fetch

variable {f : Fetch} {t : Track} {nowUs : ℕ} {x : Option (ℕ × ℕ)}

/-! ## One peek -/

/-- **The outcomes of `peekNext`**: a run that ends below the bound, an object still arriving, one
served, the end, or a refusal. -/
inductive NextItem (t : Track) (f : Fetch) (env : PeekEnv) : Result × Option FetchItem × Fetch →
    Prop
  | gap {x : Option (ℕ × ℕ)} {g o : ℕ} (hb : Bound t.log f t env.nowUs x) (ho : o ≤ u64Max)
      (hlt : locNum (g, o) < f.limit x) : NextItem t f env (.ok, some (.gap g o), f.report g o)
  | unknown {g o : ℕ} (ho : o ≤ u64Max) :
      NextItem t f env (.ok, some (.unknown g o), f.report g o)
  | pending {r : Rec} (hr : r ∈ t.log.allRecs) : NextItem t f env
      (.ok, some (.pending r.groupId r.objectId), f.report r.groupId r.objectId)
  | object {r : Rec} (hr : r ∈ t.log.allRecs) (v : FetchObject) (payload : Option Bytes)
      (bytes : UInt64) : NextItem t f env (.ok, some (.object v), f.hold r payload bytes)
  | finish : NextItem t f env (.ok, some .finish, f)
  | refused (rc : Result) : NextItem t f env (rc, none, f)

/-- **The kinds of item a peek finds.** -/
theorem peekNext_item (hw : t.log.Wf) (h64 : ∀ r ∈ t.log.allRecs, r.objectId ≤ u64Max)
    (hf : f.Placed) (pinCap : UInt64) (env : PeekEnv) :
    NextItem t f env (f.peekNext t.log t pinCap env) := by
  have hb := bound_of_scans hw h64 hf env.nowUs
  have hnext : FirstOf t.log.allRecs f _ (f.scanNext t.log t env.nowUs) := scan_spec hw h64 hf _
  have hpend : FirstOf t.log.allRecs f _ (f.scanPending t.log) := scan_spec hw h64 hf _
  have hends := runBefore_spec hw h64 hf hb
  unfold peekNext
  dsimp only
  split
  · rename_i hrun
    obtain ⟨-, hrun⟩ := ite_eq_iff.mp hrun |>.resolve_right (by simp)
    rw [hrun] at hends
    exact .gap hb hends.1 hends.2.2.1
  · rename_i hrun
    obtain ⟨-, hrun⟩ := ite_eq_iff.mp hrun |>.resolve_right (by simp)
    rw [hrun] at hends
    exact .unknown hends.1
  · split
    · rename_i p hp
      rw [(Option.filter_eq_some_iff.mp hp).1] at hpend
      split
      · exact .pending hpend.1.1
      · exact .refused _
    · split
      · exact .finish
      · rename_i v hv
        rw [hv] at hnext
        unfold serve
        split_ifs
        iterate 2 exact .refused _
        · split
          · exact .refused _
          · exact .object hnext.1.1 _ _ _

/-! ## The calls on a fetch -/

/-- `moqr_core_internal_retrieve_view` on a resolved owner and its track: a retrieval looks at a
part of its range anew. -/
def retrieveView (f : Fetch) (t : Track) (start last : UInt64 × UInt64) : Result × Fetch :=
  let s := (start.1.toNat, start.2.toNat)
  let e := (last.1.toNat, last.2.toNat)
  if !f.retrievalOwner then (.staleHandle, f)
  else if t.gen % 2 = 0 ∨ t.gen ≠ f.trackGenSlot ∨ t.trackGen ≠ f.retrievalTrackGen then
    (.staleHandle, f)
  else if locLt e s ∨ locLt s (f.startGroup, f.startObject) ∨
      locLt (f.admEndGroup, f.admEndObject) e then (.inval, f)
  else (.ok, { f.unpin with
    curGroup := s.1
    curObject := s.2
    endGroup := e.1
    endWhole := e.2 = u64Max
    endObject := if e.2 = u64Max then 0 else e.2
    leadMarker := false
    gapActive := false
    exhausted := false })

/-- The calls a binding makes on a fetch.  The track is what the core holds at that moment. -/
inductive FetchCall
  | peek (t : Track) (hlog : t.log.Reachable) (pinCap : UInt64) (env : PeekEnv)
  | commit
  | retrieveView (t : Track) (start last : UInt64 × UInt64)

/-- The fetch after a call. -/
def after (f : Fetch) : FetchCall → Fetch
  | .peek t _ pinCap env => (f.peek t pinCap env).2.2
  | .commit => f.commit.2
  | .retrieveView t start last => (f.retrieveView t start last).2

/-- **The state of a fetch between calls**: its cursor inside its range, and 64-bit Locations where
it remembers one. -/
structure Sound (f : Fetch) : Prop where
  placed : f.Placed
  gap_le : f.gapActive → f.gapObject ≤ u64Max
  out_le : f.outActive → f.outObject ≤ u64Max

/-- The cursor stays in the range. -/
theorem Placed.advance (hf : f.Placed) {g o : ℕ} (ho : o ≤ u64Max) : (f.advance g o).Placed := by
  have hlt := locLt_iff (a := (g, o)) ho hf.rangeEnd_le
  unfold Fetch.advance
  cases hc : locLt (g, o) f.rangeEnd with
  | false => exact { hf with }
  | true =>
    have hlt : locNum (g, o) < locNum f.rangeEnd := hlt.mp hc
    rw [if_neg (by simp)]
    split
    · rename_i homax
      refine ⟨Nat.zero_le _, hf.endGroup_le, hf.endObject_le, ?_⟩
      have hnext := locNum_carry (g := g) homax
      change locNum (g + 1, 0) ≤ locNum f.rangeEnd
      omega
    · rename_i homax
      refine ⟨Nat.lt_of_le_of_ne ho homax, hf.endGroup_le, hf.endObject_le, ?_⟩
      change locNum (g, o + 1) ≤ locNum f.rangeEnd
      rw [locNum_succ]
      omega

/-- A peek is sound. -/
theorem Sound.peek (hf : f.Sound) (hlog : t.log.Reachable) (pinCap : UInt64) (env : PeekEnv) :
    (f.peek t pinCap env).2.2.Sound := by
  have hplaced : ({ f with gapActive := false } : Fetch).Placed := { hf.placed with }
  have hquiet : ({ f with gapActive := false } : Fetch).Sound := ⟨hplaced, nofun, hf.out_le⟩
  have h64 := hlog.object_le
  unfold Fetch.peek
  dsimp only
  split_ifs
  iterate 5 exact hquiet
  · have hitem := peekNext_item hlog.wf h64 hplaced pinCap env
    generalize { f with gapActive := false }.peekNext t.log t pinCap env = out at hitem
    cases hitem with
    | gap hb ho hlt | unknown ho => exact ⟨{ hplaced with }, fun _ => ho, hf.out_le⟩
    | pending hr => exact ⟨{ hplaced with }, fun _ => h64 _ hr, hf.out_le⟩
    | object hr v payload bytes => exact ⟨{ hplaced with }, nofun, fun _ => h64 _ hr⟩
    | finish | refused rc => exact hquiet

theorem Placed.unpin (hf : f.Placed) : f.unpin.Placed := by
  unfold Fetch.unpin
  split
  · exact { hf with }
  · exact hf

theorem unpin_outActive (f : Fetch) : f.unpin.outActive = false := by
  unfold unpin
  split
  · rfl
  · rename_i h
    exact Bool.not_eq_true _ ▸ h

/-- Moving the cursor changes nothing a fetch remembers. -/
theorem advance_memory (f : Fetch) (g o : ℕ) : (f.advance g o).gapActive = f.gapActive ∧
    (f.advance g o).gapObject = f.gapObject ∧ (f.advance g o).outActive = f.outActive ∧
    (f.advance g o).outObject = f.outObject := by
  unfold Fetch.advance
  split_ifs <;> exact ⟨rfl, rfl, rfl, rfl⟩

theorem Sound.commit (hf : f.Sound) : f.commit.2.Sound := by
  unfold Fetch.commit
  split_ifs with hm hg ho
  · exact ⟨{ hf.placed with }, hf.gap_le, hf.out_le⟩
  · obtain ⟨h1, -, h2, h3⟩ :=
      advance_memory ({ f with gapActive := false } : Fetch) f.gapGroup f.gapObject
    have hquiet : ({ f with gapActive := false } : Fetch).Placed := { hf.placed with }
    refine ⟨hquiet.advance (hf.gap_le hg), fun h => ?_, fun h => ?_⟩
    · exact absurd (h1.symm.trans h) Bool.false_ne_true
    · exact h3.le.trans (hf.out_le (h2.symm.trans h))
  · exact hf
  · have ho : f.outActive := by simpa using ho
    obtain ⟨h1, h2, -⟩ := advance_memory f f.outGroup f.outObject
    have hunpin : ∀ f₁ : Fetch, f₁.unpin.gapActive = f₁.gapActive := fun f₁ => by
      unfold unpin
      split <;> rfl
    refine ⟨(hf.placed.advance (hf.out_le ho)).unpin, fun h => ?_, fun h => ?_⟩
    · exact absurd ((hunpin _).symm.trans h |>.symm.trans h1) (by simp [hg])
    · exact absurd ((unpin_outActive _).symm.trans h) Bool.false_ne_true

theorem Sound.retrieveView (hf : f.Sound) (start last : UInt64 × UInt64) :
    (f.retrieveView t start last).2.Sound := by
  have hle : ∀ n : UInt64, n.toNat ≤ u64Max := fun n => Nat.le_of_lt_succ n.toNat_lt
  unfold Fetch.retrieveView
  dsimp only
  split
  · exact hf
  split
  · exact hf
  split
  · exact hf
  · rename_i hin
    have hord : ¬ locLt (last.1.toNat, last.2.toNat) (start.1.toNat, start.2.toNat) :=
      fun h => hin (.inl h)
    rw [locLt_iff (hle _) (hle _), Nat.not_lt] at hord
    refine ⟨⟨hle _, hle _, ?_, ?_⟩, nofun, fun h => ?_⟩
    · split
      · exact Nat.zero_le _
      · exact hle _
    · -- the whole group stands for its last id
      have hend : (if (decide (last.2.toNat = u64Max)) then u64Max
          else if last.2.toNat = u64Max then 0 else last.2.toNat) = last.2.toNat := by
        by_cases h : last.2.toNat = u64Max <;> simp [h]
      rwa [rangeEnd, hend]
    · exact absurd ((unpin_outActive f).symm.trans h) Bool.false_ne_true

/-- **Every call keeps a fetch sound.** -/
theorem Sound.after (hf : f.Sound) (call : FetchCall) : (f.after call).Sound := by
  cases call with
  | peek t hlog pinCap env => exact hf.peek hlog pinCap env
  | commit => exact hf.commit
  | retrieveView t start last => exact hf.retrieveView start last

/-- Any calls. -/
theorem Sound.run (hf : f.Sound) (calls : List FetchCall) : (calls.foldl Fetch.after f).Sound := by
  induction calls generalizing f with
  | nil => exact hf
  | cons call calls ih => exact ih (hf.after call)

end Fetch

end MoqRelay
