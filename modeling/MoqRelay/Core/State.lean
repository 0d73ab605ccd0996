import MoqRelay.Log.Query

/-!
# Core/State — the tables of the relay core

The records of `relay_internal.h`.  A pool is a function of the slot with the pool size beside it,
and a slot is live when its generation is odd.  A track's subscriber index and a binding's
subscription list are the lists of their slots; the sentinels `UINT32_MAX` of slot and node indices
are `none`.
-/

namespace MoqRelay

/-- The canonical key of a track: its namespace parts and its name. -/
structure TrackName where
  ns : List Bytes
  name : Bytes
  deriving DecidableEq, Repr, Inhabited

/-- `moqr_group_order_t`. -/
inductive GroupOrder
  | default | ascending | descending | other (code : ℕ)
  deriving DecidableEq, Repr, Inhabited

/-- `r_track_state_t`. -/
inductive TrackState
  | pending | active | warm | rendezvous
  deriving DecidableEq, Repr, Inhabited

/-- `r_track_source_t`. -/
inductive TrackSource
  | none | pull | push
  deriving DecidableEq, Repr, Inhabited

/-- `moqr_cluster_advertisement_id_t`; the invalid one has no source handle. -/
structure AdvertisementId where
  source : Option Handle
  serial : ℕ
  deriving DecidableEq, Inhabited

/-- `r_track_t`.  The hash of the key is a function of the key, and is left out. -/
structure Track where
  gen : ℕ
  subs : List ℕ
  key : TrackName
  log : Log
  state : TrackState
  trackGen : ℕ
  sourceKind : TrackSource
  hasLargest : Bool
  (largestGroup largestObject lingerDeadlineUs interestSeq idleSinceUs : ℕ)
  hasMaxCache : Bool
  maxCacheUs : ℕ

/-- A cleared slot around a log. -/
def Track.cleared (log : Log) : Track where
  gen := 0
  subs := []
  key := ⟨[], []⟩
  log := log
  state := .pending
  trackGen := 0
  sourceKind := .none
  hasLargest := false
  largestGroup := 0
  largestObject := 0
  lingerDeadlineUs := 0
  interestSeq := 0
  idleSinceUs := 0
  hasMaxCache := false
  maxCacheUs := 0

/-- `r_fetch_t`. -/
structure Fetch where
  (gen binding bindingGen track trackGenSlot cookie startGroup startObject endGroup endObject : ℕ)
  endWhole : Bool
  groupOrder : GroupOrder
  subscriberPriority : ℕ
  leadMarker : Bool
  (leadMarkerGroup curGroup curObject : ℕ)
  (reportGaps reportUnknown reportPending gapActive : Bool)
  (gapGroup gapObject : ℕ)
  (exhausted outActive : Bool)
  (outGroup outSubgroup outObject outPriority : ℕ)
  outDatagram : Bool
  (pinPayload pinProperties : Option Bytes)
  pinBytes : UInt64
  retrievalOwner : Bool
  (admEndGroup admEndObject retrievalTrackGen : ℕ)
  deriving DecidableEq, Repr

/-- A cleared slot. -/
def Fetch.cleared : Fetch where
  gen := 0
  binding := 0
  bindingGen := 0
  track := 0
  trackGenSlot := 0
  cookie := 0
  startGroup := 0
  startObject := 0
  endGroup := 0
  endObject := 0
  endWhole := false
  groupOrder := .default
  subscriberPriority := 0
  leadMarker := false
  leadMarkerGroup := 0
  curGroup := 0
  curObject := 0
  reportGaps := false
  reportUnknown := false
  reportPending := false
  gapActive := false
  gapGroup := 0
  gapObject := 0
  exhausted := false
  outActive := false
  outGroup := 0
  outSubgroup := 0
  outObject := 0
  outPriority := 0
  outDatagram := false
  pinPayload := none
  pinProperties := none
  pinBytes := 0
  retrievalOwner := false
  admEndGroup := 0
  admEndObject := 0
  retrievalTrackGen := 0

end MoqRelay
