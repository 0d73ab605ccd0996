import MoqRelay.Core.Window
import MoqRelay.Wire.D22ParamTrip

/-!
# Session/FilterWindow — the Locations a subscription filter asks for, at both ends of a session

A subscription filter has a form in the core, a public form and a form on the wire, and is resolved
against the Largest Object in four places: the window of `session_track_hist.c`, the range of
`fill_range.c`, the helper of `control_d22.c`, and the relay's delivery.  They spell open ends and a
missing Largest Object differently, so they are compared by the Locations they admit.
-/

namespace MoqRelay

/-- `moq_subscribe_filter_t`, with the two internal forms. -/
inductive SubscribeFilter
  | none | nextGroup | largestObject | absoluteStart | absoluteRange | relativeGroupInternal
  | objectEndInternal | other (code : ℕ)
  deriving DecidableEq

/-- `moq_core_filter_t`. -/
structure CoreFilter where
  type : SubscribeFilter := .none
  startGroup : UInt64 := 0
  startObject : UInt64 := 0
  endGroup : UInt64 := 0
  endObject : UInt64 := 0
  deriving DecidableEq

/-! ## The window -/

/-- `moq_resolved_window_t`. -/
structure ResolvedWindow where
  hasWindow : Bool := false
  unsatisfiable : Bool := false
  hasEnd : Bool := false
  hasEndObject : Bool := false
  filter : SubscribeFilter := .none
  startGroup : UInt64 := 0
  startObject : UInt64 := 0
  endGroup : UInt64 := 0
  endObject : UInt64 := 0

/-- `moq_loc_successor`; `none` when no Location follows. -/
def locSuccessor (group object ceiling : UInt64) : Option D22Location :=
  if object < ceiling then some ⟨group, object + 1⟩
  else if group < ceiling then some ⟨group + 1, 0⟩
  else none

/-- A window from the successor of a Location, unsatisfiable where there is none. -/
def ResolvedWindow.from (w : ResolvedWindow) : Option D22Location → ResolvedWindow
  | some l => { w with startGroup := l.group, startObject := l.object }
  | none => { w with unsatisfiable := true }

/-- `moq_resolve_filter_window`, the snapshot being the Largest Object if there is one. -/
def CoreFilter.window (f : CoreFilter) (snap : Option D22Location) (ceiling : UInt64) :
    ResolvedWindow :=
  let out : ResolvedWindow := { hasWindow := true, filter := f.type }
  match f.type, snap with
  | .nextGroup, some l => out.from (locSuccessor l.group ceiling ceiling)
  | .largestObject, some l => out.from (locSuccessor l.group l.object ceiling)
  | .absoluteStart, _ => { out with startGroup := f.startGroup, startObject := f.startObject }
  | .absoluteRange, _ =>
    { out with
      startGroup := f.startGroup
      startObject := f.startObject
      hasEnd := true
      endGroup := f.endGroup }
  | .objectEndInternal, _ =>
    { out with
      startGroup := f.startGroup
      startObject := f.startObject
      hasEnd := true
      endGroup := f.endGroup
      hasEndObject := true
      endObject := f.endObject }
  | .relativeGroupInternal, some l =>
    if f.startGroup = 0 then
      { out with startGroup := if l.group = uint64Max then uint64Max else l.group + 1 }
    else
      let back := f.startGroup - 1
      { out with startGroup := if back > l.group then 0 else l.group - back }
  | _, _ => out

/-- `window_admits`. -/
def ResolvedWindow.admits (w : ResolvedWindow) (x : D22Location) : Bool :=
  if !w.hasWindow then true
  else if w.unsatisfiable then false
  else if x.group < w.startGroup || (x.group = w.startGroup && x.object < w.startObject) then false
  else if w.hasEnd && x.group > w.endGroup then false
  else !(w.hasEndObject && x.group = w.endGroup && x.object > w.endObject)

/-! ## The fill range -/

/-- `after`. -/
def after (x y : D22Location) : Bool :=
  x.group > y.group || (x.group = y.group && x.object > y.object)

/-- `relative_start_group`. -/
def relativeStartGroup (largest offset : UInt64) : UInt64 :=
  if offset = 0 then if largest = uint64Max then uint64Max else largest + 1
  else
    let delta := offset - 1
    if delta > largest then 0 else largest - delta

/-- `moq_fill_range_outcome_t`. -/
inductive FillRangeOutcome
  | stream | noStreamPaused | noStreamNoLargest | noStreamEmpty | noStreamAfterLargest
  deriving DecidableEq

/-- `moq_fill_range_t`. -/
structure FillRange where
  outcome : FillRangeOutcome
  start : D22Location := {}
  stop : D22Location := {}

/-- Where a fill range starts, before the Largest Object cuts it. -/
def CoreFilter.fillStart (f : CoreFilter) (largest : UInt64) : D22Location :=
  match f.type with
  | .nextGroup => ⟨relativeStartGroup largest 0, 0⟩
  | .relativeGroupInternal => ⟨relativeStartGroup largest f.startGroup, 0⟩
  | .absoluteStart | .absoluteRange | .objectEndInternal => ⟨f.startGroup, f.startObject⟩
  | _ => {}

/-- Where a bounded form ends: with its last group whole, or at an object. -/
def CoreFilter.fillEnd (f : CoreFilter) : Option D22Location :=
  match f.type with
  | .absoluteRange => some ⟨f.endGroup, uint64Max⟩
  | .objectEndInternal => some ⟨f.endGroup, f.endObject⟩
  | _ => none

/-- `moq_fill_range_resolve`. -/
def CoreFilter.fillRange (f : CoreFilter) (largest : Option D22Location) (paused : Bool) :
    Except D22Error FillRange :=
  match f.type with
  | .other _ => .error .proto
  | type =>
    if f.fillEnd.isSome && f.endGroup < f.startGroup then .error .proto
    else if paused then .ok { outcome := .noStreamPaused }
    else
      match largest with
      | none => .ok { outcome := .noStreamNoLargest }
      | some l =>
        let start := f.fillStart l.group
        let stop := f.fillEnd.getD l
        if type = .largestObject then .ok { outcome := .noStreamAfterLargest }
        else if f.fillEnd.isSome && after start stop then .ok { outcome := .noStreamEmpty }
        else if after start l then .ok { outcome := .noStreamAfterLargest }
        else .ok { outcome := .stream, start, stop := if after stop l then l else stop }

/-- The Locations of a fill range. -/
def FillRange.covers (r : FillRange) (x : D22Location) : Bool :=
  r.outcome = .stream && !after r.start x && !after x r.stop

/-- `moq_d22_relative_start_group`. -/
def d22RelativeStartGroup (group offset : UInt64) : UInt64 :=
  if offset = 0 then if group = uint64Max then uint64Max else group + 1
  else if offset - 1 > group then 0 else group - (offset - 1)

/-! ## The forms of a filter -/

/-- `d22_filter_record`. -/
def D22LocationFilter.record (f : D22LocationFilter) : CoreFilter :=
  match f.type with
  | .none => {}
  | .nextObject => { type := .largestObject }
  | .relative => { type := .relativeGroupInternal, startGroup := f.startGroup }
  | .absolute =>
    { type := .absoluteStart, startGroup := f.startGroup, startObject := f.startObject }
  | .groupEnd =>
    { type := .absoluteRange
      startGroup := f.startGroup
      startObject := f.startObject
      endGroup := f.startGroup + f.endGroupDelta }
  | .range =>
    { type := .objectEndInternal
      startGroup := f.startGroup
      startObject := f.startObject
      endGroup := f.startGroup + f.endGroupDelta
      endObject := f.endObject }

/-- `moq_d22_from_subscription_filter`. -/
def CoreFilter.toWire (f : CoreFilter) : Except D22Error D22LocationFilter :=
  match f.type with
  | .none => .ok {}
  | .nextGroup => .ok { type := .relative }
  | .relativeGroupInternal => .ok { type := .relative, startGroup := f.startGroup }
  | .objectEndInternal =>
    if f.endGroup < f.startGroup then .error .inval
    else .ok
      { type := .range
        startGroup := f.startGroup
        startObject := f.startObject
        endGroupDelta := f.endGroup - f.startGroup
        endObject := f.endObject }
  | .largestObject => .ok { type := .nextObject }
  | .absoluteStart =>
    .ok { type := .absolute, startGroup := f.startGroup, startObject := f.startObject }
  | .absoluteRange =>
    if f.endGroup < f.startGroup then .error .inval
    else .ok
      { type := .groupEnd
        startGroup := f.startGroup
        startObject := f.startObject
        endGroupDelta := f.endGroup - f.startGroup }
  | .other _ => .error .inval

/-- `moq_local_filter_normalize`, for a profile whose relative starts clamp or not. -/
def CoreFilter.normalize (f : CoreFilter) (clamps : Bool) : CoreFilter :=
  if f.type = .nextGroup && clamps then { f with type := .relativeGroupInternal, startGroup := 0 }
  else f

/-- `moq_location_filter_from_core`. -/
def CoreFilter.toCfg (f : CoreFilter) : LocationCfg :=
  let v : LocationCfg := ⟨.none, 0, 0, 0, 0, 0⟩
  let start := { v with startGroup := f.startGroup.toNat, startObject := f.startObject.toNat }
  match f.type with
  | .nextGroup => { v with kind := .relativeGroup }
  | .relativeGroupInternal =>
    { v with kind := .relativeGroup, relativeGroupOffset := f.startGroup.toNat }
  | .largestObject => { v with kind := .nextObject }
  | .absoluteStart => { start with kind := .absoluteStart }
  | .absoluteRange => { start with kind := .groupEnd, endGroup := f.endGroup.toNat }
  | .objectEndInternal =>
    { start with
      kind := .objectEnd
      endGroup := f.endGroup.toNat
      endObject := f.endObject.toNat }
  | .none | .other _ => v

/-- `moq_location_filter_to_core`. -/
def LocationCfg.toCore (cfg : LocationCfg) : Except D22Error CoreFilter :=
  let start : CoreFilter :=
    { startGroup := .ofNat cfg.startGroup, startObject := .ofNat cfg.startObject }
  match cfg.kind with
  | .none => .ok {}
  | .relativeGroup =>
    if cfg.relativeGroupOffset = 0 then .ok { type := .nextGroup }
    else .ok { type := .relativeGroupInternal, startGroup := .ofNat cfg.relativeGroupOffset }
  | .nextObject => .ok { type := .largestObject }
  | .absoluteStart => .ok { start with type := .absoluteStart }
  | .groupEnd =>
    if cfg.endGroup < cfg.startGroup then .error .inval
    else .ok { start with type := .absoluteRange, endGroup := .ofNat cfg.endGroup }
  | .objectEnd =>
    if cfg.endGroup < cfg.startGroup then .error .inval
    else .ok
      { start with
        type := .objectEndInternal
        endGroup := .ofNat cfg.endGroup
        endObject := .ofNat cfg.endObject }
  | .other _ => .error .inval

/-! ## One rule for a relative start

Every copy computes `largest + 1 - offset`, clamped to the ids there are. -/

theorem relativeStartGroup_toNat (lg n : UInt64) :
    (relativeStartGroup lg n).toNat = min (lg.toNat + 1 - n.toNat) u64Max := by
  have hlg := lg.toNat_lt
  rw [relativeStartGroup]
  by_cases h0 : n = 0
  · subst h0
    by_cases hm : lg = uint64Max
    · simp [hm, uint64Max, u64Max]
    · have hlt : lg.toNat ≠ u64Max := fun h => hm (UInt64.toNat_inj.mp h)
      simp only [if_pos, if_neg hm, UInt64.toNat_add]
      simp only [u64Max] at hlt ⊢
      simp
      omega
  · have h1 : 1 ≤ n.toNat := Nat.pos_of_ne_zero fun h => h0 (UInt64.toNat_inj.mp h)
    have hn : (n - 1).toNat = n.toNat - 1 :=
      UInt64.toNat_sub_of_le _ _ (UInt64.le_iff_toNat_le.mpr h1)
    simp only [if_neg h0, gt_iff_lt, UInt64.lt_iff_toNat_lt, hn]
    split_ifs with h
    · simp
      omega
    · rw [UInt64.toNat_sub_of_le _ _ (UInt64.le_iff_toNat_le.mpr (by omega))]
      simp only [u64Max]
      omega

theorem window_relative (f : CoreFilter) (hf : f.type = .relativeGroupInternal) (l : D22Location)
    (ceiling : UInt64) : f.window (some l) ceiling =
      { hasWindow := true, filter := f.type,
        startGroup := relativeStartGroup l.group f.startGroup } := by
  simp only [CoreFilter.window, hf, relativeStartGroup]
  split <;> rfl

/-- The relay's two requests with a relative start. -/
theorem relay_relative_starts (sub : Sub) (req : Filter) (cfg : LocationCfg) (n : UInt64)
    (l : D22Location) :
    (sub.resolveFilter { req with type := .relativeStart, startGroup := n.toNat } true l.group.toNat
        l.object.toNat).startGroup = (relativeStartGroup l.group n).toNat ∧
      ({ sub with
          location := { cfg with kind := .relativeGroup, relativeGroupOffset := n.toNat }
        }.resolveLocation true l.group.toNat l.object.toNat).startGroup =
        (relativeStartGroup l.group n).toNat := by
  have hmax : l.group.toNat ≤ u64Max := Nat.le_of_lt_succ l.group.toNat_lt
  rw [relativeStartGroup_toNat]
  constructor
  · simp only [Sub.resolveFilter, Bool.not_true, Bool.false_eq_true, if_false]
    split_ifs <;> simp only [Sub.setStart] <;> omega
  · simp only [Sub.resolveLocation, if_true]
    split_ifs <;> simp only [Sub.setStart] <;> omega

/-! ## Fill ranges against windows -/

variable {f : CoreFilter} {l : D22Location} {r : FillRange}

/-- **A window by its ends**: the Locations from the start on, up to the end if there is one. -/
theorem window_admits_iff (hn : f.type ≠ .nextGroup)
    (hl : f.type ≠ .largestObject) (l x : D22Location) :
    (f.window (some l) uint64Max).admits x ↔
      after (f.fillStart l.group) x = false ∧ ∀ e ∈ f.fillEnd, after x e = false := by
  have hmax : x.object ≤ uint64Max :=
    UInt64.le_iff_toNat_le.mpr (Nat.le_of_lt_succ x.object.toNat_lt)
  obtain ⟨type, sg, so, eg, eo⟩ := f
  cases type with
  | nextGroup => exact absurd rfl hn
  | largestObject => exact absurd rfl hl
  | relativeGroupInternal =>
    rw [window_relative _ rfl]
    simp [ResolvedWindow.admits, CoreFilter.fillStart, CoreFilter.fillEnd, after]
  | _ =>
    simp [CoreFilter.window, ResolvedWindow.admits, CoreFilter.fillStart, CoreFilter.fillEnd, after]
    try grind

/-- The window that starts behind the Largest Object. -/
theorem window_nextObject (hf : f.type = .largestObject) {x : D22Location}
    (h : (f.window (some l) uint64Max).admits x) : after x l := by
  simp only [CoreFilter.window, hf, locSuccessor] at h
  split_ifs at h <;> simp [ResolvedWindow.from, ResolvedWindow.admits, after] at h ⊢ <;> grind

theorem fillRange_ok (hf : ∀ code, f.type ≠ .other code)
    (hend : f.fillEnd.isSome → f.startGroup ≤ f.endGroup) (largest : Option D22Location)
    (paused : Bool) : ∃ r, f.fillRange largest paused = .ok r ∧
      (r.outcome = .noStreamPaused ↔ paused) := by
  have hin : (f.fillEnd.isSome && f.endGroup < f.startGroup) = false := by grind
  rw [CoreFilter.fillRange]
  split
  · rename_i code htype
    exact absurd htype (hf code)
  · simp only [hin, Bool.false_eq_true, if_false]
    cases paused with
    | true => exact ⟨_, rfl, by simp⟩
    | false =>
      cases largest with
      | none => exact ⟨_, rfl, by simp⟩
      | some l =>
        simp only [Bool.false_eq_true, if_false]
        split_ifs <;> exact ⟨_, rfl, by simp⟩

/-- The outcomes of a form that does not start behind the Largest Object anyway. -/
theorem fillRange_cases (hl : f.type ≠ .largestObject) (h : f.fillRange (some l) false = .ok r) :
    (r.outcome ≠ .stream ∧ (after (f.fillStart l.group) l ∨
      ∃ e ∈ f.fillEnd, after (f.fillStart l.group) e)) ∨
    (after (f.fillStart l.group) l = false ∧
      (∀ e ∈ f.fillEnd, after (f.fillStart l.group) e = false) ∧
      r = { outcome := .stream
            start := f.fillStart l.group
            stop := if after (f.fillEnd.getD l) l then l else f.fillEnd.getD l }) := by
  rw [CoreFilter.fillRange] at h
  cases hend : f.fillEnd <;> simp only [hend] at h ⊢ <;> grind

/-- **A fill range by its ends**, and the outcome that says there is one. -/
theorem fillRange_covers (hl : f.type ≠ .largestObject) (h : f.fillRange (some l) false = .ok r) :
    (∀ x, r.covers x ↔ (after (f.fillStart l.group) x = false ∧
      ∀ e ∈ f.fillEnd, after x e = false) ∧ after x l = false) ∧
    (r.outcome = .stream ↔ ∃ x, r.covers x) := by
  obtain ⟨hr, hafter⟩ | ⟨hsl, hse, rfl⟩ := fillRange_cases hl h
  · have hempty : ∀ x, r.covers x = false := fun x => by simp [FillRange.covers, hr]
    grind [after]
  · refine ⟨fun x => ?_, fun _ => ⟨f.fillStart l.group, ?_⟩, fun _ => rfl⟩ <;>
      cases hend : f.fillEnd <;> simp only [FillRange.covers, hend] at hse ⊢ <;> grind [after]

/-- A location filter whose end group is an id, as the encoder and the decoder check. -/
def D22LocationFilter.Fits (f : D22LocationFilter) : Prop :=
  f.type = .groupEnd ∨ f.type = .range → f.endGroupDelta ≤ uint64Max - f.startGroup

theorem record_fits {f : D22LocationFilter} (hf : f.Fits) :
    (∀ code, f.record.type ≠ .other code) ∧ f.record.type ≠ .nextGroup ∧
      (f.record.fillEnd.isSome → f.record.startGroup ≤ f.record.endGroup) := by
  obtain ⟨type, sg, so, d, eo⟩ := f
  have hsum : d ≤ uint64Max - sg → sg ≤ sg + d := by
    simp only [uint64Max]
    grind
  cases type <;> simp_all [D22LocationFilter.Fits, D22LocationFilter.record, CoreFilter.fillEnd]

/-- **The fill range of a draft-22 filter is the part of its window up to the Largest Object**, and
no stream is announced exactly when that part is empty; and a relative start is the same group in
all four places. -/
theorem fill_range_within_window (f : D22LocationFilter) (hf : f.Fits)
    (largest : Option D22Location) (paused : Bool) :
    (∃ r, f.record.fillRange largest paused = .ok r ∧
      (r.outcome = .noStreamPaused ↔ paused) ∧
      (paused = false →
        (∀ x, r.covers x ↔ (f.record.window largest uint64Max).admits x ∧
          ∃ l ∈ largest, after x l = false) ∧
        (r.outcome ≠ .stream ↔ ¬∃ x, (f.record.window largest uint64Max).admits x ∧
          ∃ l ∈ largest, after x l = false))) ∧
    ∀ (n : UInt64) (l : D22Location) (sub : Sub) (req : Filter) (cfg : LocationCfg),
      d22RelativeStartGroup l.group n = relativeStartGroup l.group n ∧
      (({ type := .relativeGroupInternal, startGroup := n } : CoreFilter).window (some l)
        uint64Max).startGroup = relativeStartGroup l.group n ∧
      (sub.resolveFilter { req with type := .relativeStart, startGroup := n.toNat } true
        l.group.toNat l.object.toNat).startGroup = (relativeStartGroup l.group n).toNat ∧
      ({ sub with
          location := { cfg with kind := .relativeGroup, relativeGroupOffset := n.toNat }
        }.resolveLocation true l.group.toNat l.object.toNat).startGroup =
        (relativeStartGroup l.group n).toNat := by
  refine ⟨?_, fun n l sub req cfg =>
    ⟨rfl, by rw [window_relative _ rfl], relay_relative_starts sub req cfg n l⟩⟩
  obtain ⟨hother, hnext, hend⟩ := record_fits hf
  obtain ⟨r, hr, hpaused⟩ := fillRange_ok hother hend largest paused
  refine ⟨r, hr, hpaused, fun hp => ?_⟩
  subst hp
  suffices hset : (∀ x, r.covers x ↔ (f.record.window largest uint64Max).admits x ∧
      ∃ l ∈ largest, after x l = false) ∧ (r.outcome = .stream ↔ ∃ x, r.covers x) from
    ⟨hset.1, not_congr (hset.2.trans (exists_congr hset.1))⟩
  cases largest with
  | none =>
    have hno : r.outcome ≠ .stream := by
      rw [CoreFilter.fillRange] at hr
      grind
    simp [FillRange.covers, hno]
  | some l =>
    simp only [Option.mem_def, Option.some.injEq, exists_eq_left']
    by_cases hl : f.record.type = .largestObject
    · have hno : r.outcome ≠ .stream := by
        rw [CoreFilter.fillRange] at hr
        grind
      refine ⟨fun x => ⟨fun h => ?_, fun h => ?_⟩, by simp [FillRange.covers, hno]⟩
      · simp [FillRange.covers, hno] at h
      · exact absurd (window_nextObject hl h.1) (by simp [h.2])
    · obtain ⟨hcovers, houtcome⟩ := fillRange_covers hl hr
      exact ⟨fun x => (hcovers x).trans (and_congr_left' (window_admits_iff hnext hl l x).symm),
        houtcome⟩

theorem fill_range_within_window_bounded :
    ∃ f : D22LocationFilter, f.type = .range ∧ f.Fits ∧
      ∃ r, f.record.fillRange (some ⟨7, 2⟩) false = .ok r ∧ r.covers ⟨5, 1⟩ := by
  have hfits : (⟨.range, 5, 0, 1, 3⟩ : D22LocationFilter).Fits := fun _ => by decide
  refine ⟨⟨.range, 5, 0, 1, 3⟩, rfl, hfits, ?_⟩
  obtain ⟨r, hr, -, hset⟩ := (fill_range_within_window ⟨.range, 5, 0, 1, 3⟩ hfits
    (some ⟨7, 2⟩) false).1
  exact ⟨r, hr, ((hset rfl).1 _).mpr ⟨by decide, _, rfl, by decide⟩⟩

/-! ## Both ends of a session -/

variable {v : D22LocationFilter}

/-- An accepted local filter is written as a record with the same window. -/
theorem toWire_window (h : f.toWire = .ok v) (hf : f.type ≠ .nextGroup)
    (snap : Option D22Location) :
    v.active.record.window snap uint64Max = f.window snap uint64Max := by
  obtain ⟨type, sg, so, eg, eo⟩ := f
  have hsub : sg + (eg - sg) = eg := by grind
  cases type with
  | nextGroup => exact absurd rfl hf
  | other code => cases h
  | absoluteRange | objectEndInternal =>
    simp only [CoreFilter.toWire] at h
    split_ifs at h with hlt
    cases h
    simp [D22LocationFilter.active, D22LocationFilter.record, D22FilterType.code,
      CoreFilter.window, hsub]
  | _ =>
    cases h
    cases snap <;> rfl

/-- The public form and back: the same window once normalised, and before that too, unless the
filter is the offset that the public form reads as the next group. -/
theorem toCfg_toCore (h : f.toWire = .ok v) :
    ∃ f', f.toCfg.toCore = .ok f' ∧
      (∀ snap, (f'.normalize true).window snap uint64Max =
        (f.normalize true).window snap uint64Max) ∧
      if f.type = .relativeGroupInternal ∧ f.startGroup = 0 then f' = { type := .nextGroup }
      else ∀ snap, f'.window snap uint64Max = f.window snap uint64Max := by
  obtain ⟨type, sg, so, eg, eo⟩ := f
  cases type with
  | other code => cases h
  | absoluteRange | objectEndInternal =>
    simp only [CoreFilter.toWire] at h
    split_ifs at h with hlt
    have hle : ¬eg.toNat < sg.toNat := fun hn => hlt (UInt64.lt_iff_toNat_lt.mpr hn)
    simp only [CoreFilter.toCfg, LocationCfg.toCore, if_neg hle, UInt64.ofNat_toNat]
    exact ⟨_, rfl, fun snap => by cases snap <;> rfl, fun snap => by cases snap <;> rfl⟩
  | relativeGroupInternal =>
    by_cases h0 : sg = 0
    · subst h0
      exact ⟨_, rfl, fun snap => by cases snap <;> rfl, rfl⟩
    · have h1 : sg.toNat ≠ 0 := fun hn => h0 (UInt64.toNat_inj.mp hn)
      simp only [CoreFilter.toCfg, LocationCfg.toCore, if_neg h1, UInt64.ofNat_toNat, h0,
        and_false, if_false]
      exact ⟨_, rfl, fun snap => by cases snap <;> rfl, fun snap => by cases snap <;> rfl⟩
  | _ =>
    simp only [CoreFilter.toCfg, LocationCfg.toCore, UInt64.ofNat_toNat]
    exact ⟨_, rfl, fun snap => by cases snap <;> rfl, fun snap => by cases snap <;> rfl⟩

/-- The next group and the clamped offset zero differ just behind the last group. -/
theorem nextGroup_window (snap : Option D22Location) :
    (∀ x, (({ type := .nextGroup } : CoreFilter).window snap uint64Max).admits x =
      (({ type := .relativeGroupInternal } : CoreFilter).window snap uint64Max).admits x) ↔
      ¬∃ l ∈ snap, l.group = uint64Max := by
  cases snap with
  | none => simp [CoreFilter.window, ResolvedWindow.admits]
  | some l =>
    by_cases hl : l.group = uint64Max
    · refine iff_of_false (fun h => ?_) (by simp [hl])
      have hx := h ⟨uint64Max, 0⟩
      simp [CoreFilter.window, ResolvedWindow.admits, ResolvedWindow.from, locSuccessor, hl] at hx
    · have hlt : l.group < uint64Max := by
        simp only [uint64Max] at hl ⊢
        grind
      simp [CoreFilter.window, ResolvedWindow.admits, ResolvedWindow.from, locSuccessor, hl, hlt]

/-- **Both ends of a draft-22 session resolve a filter to the same Locations**: the sender's
normalised filter, and the record the receiver makes of its octets; and so does the public form of
the filter, once normalised.  Before that it differs in one case: the clamped offset zero reads back
as the next group, which asks for nothing when the Largest Object is in the last group there is. -/
theorem filter_ends_agree (f : CoreFilter) (v : D22LocationFilter)
    (hv : (f.normalize true).toWire = .ok v) (w w' : BufWriter)
    (hw : encodeLocationFilter w v = .ok w') (rest : Bytes) :
    (∃ octets v', Wrote w w' octets ∧ decodeLocationFilter (octets ++ rest) = .ok (v', rest) ∧
      ∀ snap x, (v'.record.window snap uint64Max).admits x =
        ((f.normalize true).window snap uint64Max).admits x) ∧
    ∃ f', f.toCfg.toCore = .ok f' ∧
      (∀ snap x, ((f'.normalize true).window snap uint64Max).admits x =
        ((f.normalize true).window snap uint64Max).admits x) ∧
      ∀ snap, (∀ x, (f'.window snap uint64Max).admits x = (f.window snap uint64Max).admits x) ↔
        ¬(f.type = .relativeGroupInternal ∧ f.startGroup = 0 ∧
          ∃ l ∈ snap, l.group = uint64Max) := by
  have hnext : (f.normalize true).type ≠ .nextGroup := by
    rw [CoreFilter.normalize]
    split_ifs with h
    · exact nofun
    · simpa using h
  have hraw : ∃ v₀, f.toWire = .ok v₀ := by
    rw [CoreFilter.normalize] at hv
    split_ifs at hv with h
    · exact ⟨{ type := .relative }, by simp_all [CoreFilter.toWire]⟩
    · exact ⟨v, hv⟩
  obtain ⟨octets, hwrote, hread⟩ := encodeLocationFilter_writes v w w' hw
  refine ⟨⟨octets, v.active, hwrote, hread rest, fun snap x => by rw [toWire_window hv hnext]⟩, ?_⟩
  obtain ⟨v₀, hv₀⟩ := hraw
  obtain ⟨f', hf', hnorm, hrest⟩ := toCfg_toCore hv₀
  refine ⟨f', hf', fun snap x => by rw [hnorm], fun snap => ?_⟩
  split_ifs at hrest with h
  · have hrel : f.window snap uint64Max =
        ({ type := .relativeGroupInternal } : CoreFilter).window snap uint64Max := by
      cases snap <;> simp [CoreFilter.window, h]
    simp [hrest, hrel, nextGroup_window, h]
  · exact iff_of_true (fun x => by rw [hrest]) fun hno => h ⟨hno.1, hno.2.1⟩

/-- The next group behind the last id, written and read. -/
theorem filter_ends_agree_last :
    ∃ w' octets v', encodeLocationFilter ⟨[], 16⟩ { type := .relative } = .ok w' ∧
      Wrote ⟨[], 16⟩ w' octets ∧ decodeLocationFilter (octets ++ [7]) = .ok (v', [7]) ∧
      (v'.record.window (some ⟨uint64Max, 3⟩) uint64Max).admits ⟨uint64Max, 0⟩ := by
  have hw : encodeLocationFilter ⟨[], 16⟩ { type := .relative } = .ok ⟨[1, 0], 16⟩ := by decide
  obtain ⟨⟨octets, v', hwrote, hread, hwin⟩, -⟩ :=
    filter_ends_agree { type := .nextGroup } { type := .relative } rfl _ _ hw [7]
  exact ⟨_, octets, v', hw, hwrote, hread, (hwin _ _).trans (by decide)⟩

/-- The filter a session keeps for the next group, through its public form. -/
theorem relative_zero_reads_back_next_group :
    ∃ (f f' : CoreFilter) (snap : Option D22Location) (x : D22Location),
      f.toCfg.toCore = .ok f' ∧ (f.window snap uint64Max).admits x ∧
        (f'.window snap uint64Max).admits x = false :=
  ⟨{ type := .relativeGroupInternal }, { type := .nextGroup }, some ⟨uint64Max, 0⟩, ⟨uint64Max, 0⟩,
    rfl, by decide, by decide⟩

end MoqRelay
