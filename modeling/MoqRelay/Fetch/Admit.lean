import MoqRelay.Core.State

/-!
# Fetch/Admit — the range a fetch is admitted with

The part of `core_fetch_admit` that runs on the track it found: the request's optional fields, the
parts of the range stated relative to the Largest Object, the End Location decoded and capped to the
Largest, the evicted prefix.  Identifiers are 64-bit, and the bounds travel with the request and the
track view.
-/

namespace MoqRelay

/-- `R_ERR_INVALID_RANGE`. -/
def errInvalidRange : ℕ := 0x11

/-- `moqr_fetch_req_t`; its Locations are raw wire: `endObject` is one past the last, `0` the whole
group. -/
structure FetchReq where
  structSize : ℕ
  name : TrackName
  (startGroup startObject endGroup endObject : ℕ)
  groupOrder : GroupOrder
  (subscriberPriority cookie : ℕ)
  (reportGaps reportUnknown : Bool)
  (relativeStart rangeForm : ℕ)
  reportPending : Bool
  startGroup_le : startGroup ≤ u64Max
  startObject_le : startObject ≤ u64Max
  endGroup_le : endGroup ≤ u64Max
  endObject_le : endObject ≤ u64Max
  deriving Repr

namespace FetchReq

variable (req : FetchReq)

/-- The field that ends at byte `extent` of the 64-bit layout lies inside the declared size. -/
def has (extent : ℕ) : Bool := extent ≤ req.structSize

/-- The appended fields, absent ones as zero; `report_unknown` is read only with `report_gaps`. -/
def gaps : Bool := req.has 89 && req.reportGaps
def unknown : Bool := req.gaps && req.has 90 && req.reportUnknown
def relStart : ℕ := if req.has 104 then req.relativeStart else 0
def form : ℕ := if req.has 108 then req.rangeForm else 0
def pending : Bool := req.has 109 && req.reportPending

/-- `MOQR_FETCH_START_RELATIVE`, `MOQR_FETCH_START_NEXT_OBJECT`, `MOQR_FETCH_END_AT_LARGEST`. -/
def startRelative : Bool := req.form.testBit 0
def startNextObject : Bool := req.form.testBit 1
def endAtLargest : Bool := req.form.testBit 2

/-- The start, resolved against the Largest Object; `none` is one past every Location. -/
def resolveStart (lg lo : ℕ) : Option (ℕ × ℕ) :=
  if req.startRelative then
    if req.relStart = 0 then if lg = u64Max then none else some (lg + 1, 0)
    else some (if lg < req.relStart - 1 then 0 else lg - (req.relStart - 1), 0)
  else if req.startNextObject then if lo = u64Max then none else some (lg, lo + 1)
  else some (req.startGroup, req.startObject)

/-- The raw-wire End Location, resolved against the Largest Object. -/
def resolveEnd (lg lo : ℕ) : ℕ × ℕ :=
  if req.endAtLargest then (lg, if lo = u64Max then 0 else lo + 1)
  else (req.endGroup, req.endObject)

end FetchReq

/-- `moqr_fetch_plan_t` of an accepted fetch. -/
structure FetchPlan where
  (endGroup endObject : ℕ)
  endOfTrack : Bool
  deriving DecidableEq, Repr

/-- The effective end of a range: the last group, the last object in it, or the whole group. -/
structure FetchEnd where
  (group object : ℕ)
  whole : Bool
  deriving DecidableEq, Repr

/-- The decoded End Location, capped to the Largest Object. -/
def effectiveEnd (reqEnd : ℕ × ℕ) (lg lo : ℕ) : FetchEnd :=
  let whole : Bool := reqEnd.2 = 0
  let g := reqEnd.1
  let o := if whole then 0 else reqEnd.2 - 1
  let below : Bool := if g ≠ lg then g < lg else if whole then false else o ≤ lo
  if below then ⟨g, o, whole⟩ else ⟨lg, lo, false⟩

/-- The end lies before a Location. -/
def FetchEnd.before (e : FetchEnd) (g o : ℕ) : Bool :=
  if e.group ≠ g then e.group < g else if e.whole then false else e.object < o

/-- The start lies before what the log still holds: the range opens with a marker. -/
def evictedPrefix (t : Track) (retrieval : Bool) (sg : ℕ) : Bool :=
  !retrieval && sg < t.log.oldestGroupId

/-- The range fields of an admitted fetch, written into a slot whose owner fields the caller set. -/
def Fetch.admitted (t : Track) (req : FetchReq) (retrieval : Bool) (sg so : ℕ) (e : FetchEnd)
    (f : Fetch) : Fetch :=
  let evicted := evictedPrefix t retrieval sg
  { f with
    trackGenSlot := t.gen
    cookie := req.cookie
    startGroup := sg
    startObject := so
    endGroup := e.group
    endObject := e.object
    endWhole := e.whole
    groupOrder := req.groupOrder
    subscriberPriority := req.subscriberPriority
    reportGaps := req.gaps || retrieval
    reportUnknown := req.unknown || retrieval
    reportPending := req.pending || retrieval
    retrievalOwner := retrieval
    admEndGroup := if retrieval then e.group else 0
    admEndObject := if retrieval then if e.whole then u64Max else e.object else 0
    retrievalTrackGen := if retrieval then t.trackGen else 0
    leadMarker := evicted
    leadMarkerGroup := if evicted then t.log.oldestGroupId else 0
    curGroup := if evicted then t.log.oldestGroupId else sg
    curObject := if evicted then 0 else so
    gapActive := false
    gapGroup := 0
    gapObject := 0
    exhausted := false
    outActive := false
    outGroup := 0
    outSubgroup := 0
    outObject := 0
    outPriority := 0
    outDatagram := false
    pinPayload := none
    pinProperties := none
    pinBytes := 0 }

/-- `core_fetch_admit` from the track on: the reject code, or the plan and the slot. -/
def fetchAdmit (t : Track) (req : FetchReq) (retrieval : Bool) (f : Fetch) :
    Except ℕ (FetchPlan × Fetch) :=
  if !t.hasLargest then .error errInvalidRange
  else match req.resolveStart t.largestGroup t.largestObject with
    | none => .error errInvalidRange
    | some (sg, so) =>
      if t.largestGroup < sg ∨ (sg = t.largestGroup ∧ t.largestObject < so) then
        .error errInvalidRange
      else if t.log.groups.length = 0 ∧ !retrieval then .error errInvalidRange
      else
        let e := effectiveEnd (req.resolveEnd t.largestGroup t.largestObject) t.largestGroup
          t.largestObject
        if e.before sg so then .error errInvalidRange
        else if evictedPrefix t retrieval sg ∧ e.group < t.log.oldestGroupId then
          .error errInvalidRange
        else .ok
          (⟨e.group, if e.whole then 0 else (e.object + 1) % 2 ^ 64,
              t.log.endOfTrack && e.group = t.largestGroup &&
                (e.whole || e.object = t.largestObject)⟩, f.admitted t req retrieval sg so e)

/-! ## 64-bit ids stay 64-bit -/

variable {req : FetchReq} {lg lo : ℕ}

theorem resolveStart_le (hlo : lo ≤ u64Max) {l : ℕ × ℕ}
    (h : req.resolveStart lg lo = some l) : l.2 ≤ u64Max := by
  unfold FetchReq.resolveStart at h
  split_ifs at h with h1 h2 h3 h4 h5 h6 <;> cases h
  iterate 3 exact Nat.zero_le _
  · exact Nat.lt_of_le_of_ne hlo h6
  · exact req.startObject_le

theorem resolveEnd_le (hlo : lo ≤ u64Max) : (req.resolveEnd lg lo).2 ≤ u64Max := by
  unfold FetchReq.resolveEnd
  split_ifs with h1 h2
  · exact Nat.zero_le _
  · exact Nat.lt_of_le_of_ne hlo h2
  · exact req.endObject_le

theorem effectiveEnd_le {e : ℕ × ℕ} (he : e.2 ≤ u64Max) (hlg : lg ≤ u64Max) (hlo : lo ≤ u64Max) :
    (effectiveEnd e lg lo).group ≤ u64Max ∧ (effectiveEnd e lg lo).object ≤ u64Max := by
  unfold effectiveEnd
  dsimp only
  split_ifs <;> grind

/-! ## Acceptance -/

/-- What an accepted fetch passed, and the slot it got. -/
theorem fetchAdmit_eq_ok {t : Track} {retrieval : Bool} {f₀ f : Fetch}
    {plan : FetchPlan} (h : fetchAdmit t req retrieval f₀ = .ok (plan, f)) :
    ∃ sg so e, req.resolveStart t.largestGroup t.largestObject = some (sg, so) ∧
      effectiveEnd (req.resolveEnd t.largestGroup t.largestObject) t.largestGroup
        t.largestObject = e ∧
      (t.log.groups = [] → retrieval) ∧ e.before sg so = false ∧
      (evictedPrefix t retrieval sg → t.log.oldestGroupId ≤ e.group) ∧
      f₀.admitted t req retrieval sg so e = f := by
  unfold fetchAdmit at h
  split at h
  · cases h
  split at h
  · cases h
  rename_i sg so hs
  split at h
  · cases h
  split at h
  · cases h
  rename_i hempty
  dsimp only at h
  split at h
  · cases h
  rename_i hbefore
  split at h
  · cases h
  rename_i hevict
  refine ⟨sg, so, _, hs, rfl, fun he => ?_, by simpa using hbefore, fun he => ?_, ?_⟩
  · exact Bool.not_eq_false _ ▸ fun hr => hempty ⟨by rw [he]; rfl, by rw [hr]; rfl⟩
  · exact Nat.le_of_not_lt fun hlt => hevict ⟨he, hlt⟩
  · exact (Prod.ext_iff.mp (Except.ok.inj h)).2

end MoqRelay
