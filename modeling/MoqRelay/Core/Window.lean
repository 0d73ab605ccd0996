import MoqRelay.Core.Positions

/-!
# Core/Window — which Locations a subscription asks for, and the records its windows excluded

The filter half of `delivery.c`: a request's filter or location filter resolved against the Largest
Object, the window test, and the exclusion bits.  A subscription with a location filter keeps one
bit per journal slot.  A bit is written when a record arrives, and set for every retained record the
window rejects, before and after each replacement of the window.
-/

namespace MoqRelay

namespace Sub

/-! ## Resolving a request -/

variable (s : Sub)

def setStart (g o : ℕ) : Sub := { s with startGroup := g, startObject := o }

/-- `sub_resolve_filter`. -/
def resolveFilter (f : Filter) (hasLargest : Bool) (lg lo : ℕ) : Sub :=
  let s := { s with
    filterType := f.type
    hasEnd := false
    endObject := u64Max
    locationEmpty := false }
  match f.type with
  | .largestObject =>
    if hasLargest then
      if lo < u64Max then s.setStart lg (lo + 1)
      else if lg < u64Max then s.setStart (lg + 1) 0
      else { s.setStart lg lo with locationEmpty := true }
    else s.setStart 0 0
  | .nextGroupStart =>
    if hasLargest then
      if lg < u64Max then s.setStart (lg + 1) 0
      else { s.setStart lg 0 with locationEmpty := true }
    else s.setStart 0 0
  | .currentGroupStart => if hasLargest then s.setStart lg 0 else s.setStart 0 0
  | .relativeStart =>
    if !hasLargest then s.setStart 0 0
    else if f.startGroup = 0 then s.setStart (if lg = u64Max then u64Max else lg + 1) 0
    else s.setStart (if lg < f.startGroup - 1 then 0 else lg - (f.startGroup - 1)) 0
  | .absoluteRange =>
    { s.setStart f.startGroup f.startObject with
      hasEnd := true
      endGroup := (f.startGroup + f.endGroupDelta) % 2 ^ 64 }
  | .absoluteStart | .other _ => s.setStart f.startGroup f.startObject

/-- `sub_resolve_location`. -/
def resolveLocation (hasLargest : Bool) (lg lo : ℕ) : Sub :=
  let loc := s.location
  let s := { s.setStart 0 0 with
    endGroup := u64Max
    endObject := u64Max
    hasEnd := false
    locationEmpty := false }
  match loc.kind with
  | .none => s
  | .nextObject =>
    if hasLargest then
      if lo < u64Max then s.setStart lg (lo + 1)
      else if lg < u64Max then s.setStart (lg + 1) 0
      else { s.setStart lg 0 with locationEmpty := true }
    else s
  | .relativeGroup =>
    if hasLargest then
      let n := loc.relativeGroupOffset
      s.setStart (if n = 0 then if lg = u64Max then lg else lg + 1
        else if lg < n - 1 then 0 else lg - (n - 1)) 0
    else s
  | .groupEnd =>
    { s.setStart loc.startGroup loc.startObject with hasEnd := true, endGroup := loc.endGroup }
  | .objectEnd =>
    { s.setStart loc.startGroup loc.startObject with
      hasEnd := true
      endGroup := loc.endGroup
      endObject := loc.endObject
      locationEmpty := loc.startGroup = loc.endGroup && loc.endObject < loc.startObject }
  | .absoluteStart | .other _ => s.setStart loc.startGroup loc.startObject

/-- `sub_location_passes`. -/
def locationPasses (g o : ℕ) : Bool :=
  !s.locationEmpty && (s.startGroup < g || (g = s.startGroup && s.startObject ≤ o)) &&
    (!s.hasEnd || g < s.endGroup || (g = s.endGroup && o ≤ s.endObject))

/-! ## Exclusion bits -/

/-- `sub_exclude`. -/
def exclude (seq : ℕ) (on : Bool) : Sub :=
  { s with excluded := s.excluded.map fun bits => Function.update bits (seq % s.excludedCap) on }

/-- `sub_excluded`. -/
def isExcluded (seq : ℕ) : Bool :=
  match s.excluded with
  | none => false
  | some bits => bits (seq % s.excludedCap)

/-- The bit of a record the window rejects is set. -/
def excludeRec (r : Rec) : Sub :=
  if s.locationPasses r.groupId r.objectId then s else s.exclude r.arrivalSeq true

/-- `sub_exclude_retained`. -/
def excludeRetained (log : Log) : Sub :=
  if s.excluded.isNone then s else log.allRecs.foldl excludeRec s

/-- The record at the head of a list that is not to be started downstream, unless it was already. -/
def barred (v : Rec) : Bool :=
  if s.excluded.isSome then
    s.isExcluded v.arrivalSeq || !s.locationPasses v.groupId v.objectId
  else
    s.locationEmpty || v.groupId < s.startGroup ||
      (v.groupId = s.startGroup && v.objectId < s.startObject)

end Sub

end MoqRelay
