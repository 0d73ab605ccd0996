import MoqRelay.Fetch.Walk
import MoqRelay.Lib.Pool

/-!
# Core/Relay — subscriptions, bindings, intents, and the core that holds them

The rest of `relay_internal.h`.  A subscription's positions block and its group index are allocated
and freed together (`gpos_alloc`, `gpos_free`), so they are one optional table; the per-list words
of an entry are functions of the list.  The intent ring is the list of its occupants, oldest first.

Left out, since no modelled function reads them: the trace and statistics counters, the epochs, and
the tables of the authorization and track-discovery surfaces.
-/

namespace MoqRelay

/-! ## Positions -/

/-- `GPOS_BEGUN_BIT`, `GPOS_EMIT_MASK`. -/
def gposBegunBit : ℕ := 0x80000000
def gposEmitMask : ℕ := 0x7fffffff

/-- `r_gpos_t`: one subscription's positions in one group, by list. -/
structure Gpos where
  occupied : Bool
  groupId : ℕ
  idx : ℕ → ℕ
  emitted : ℕ → ℕ
  acked : ℕ → Bool
  gap : ℕ → Bool
  renew : ℕ → Bool
  owed : ℕ → ℕ

/-- `gpos_body_clear`. -/
def Gpos.bodyClear (e : Gpos) : Gpos :=
  { e with
    idx := fun _ => 0
    emitted := fun _ => 0
    acked := fun _ => false
    gap := fun _ => false
    renew := fun _ => false
    owed := fun _ => 0 }

/-- The positions block of a subscription and its index: `gpos`, `gpos_groups`, `gpos_lists`,
`gpos_hash`, `gpos_hash_cap`, `gpos_gc_evicted`. -/
structure GposTable where
  (groups lists hashCap : ℕ)
  entries : ℕ → Gpos
  hash : ℕ → Option ℕ
  gcEvicted : ℕ

/-! ## Filters -/

/-- `moqr_filter_type_t`; any other code resolves as an absolute start. -/
inductive FilterType
  | nextGroupStart | largestObject | absoluteStart | absoluteRange | currentGroupStart
  | relativeStart | other (code : ℕ)
  deriving DecidableEq, Inhabited

/-- `moqr_filter_t`. -/
structure Filter where
  type : FilterType
  (startGroup startObject endGroupDelta : ℕ)
  deriving DecidableEq, Inhabited

/-- The kinds of a location filter. -/
inductive LocationKind
  | none | nextObject | relativeGroup | absoluteStart | groupEnd | objectEnd | other (code : ℕ)
  deriving DecidableEq, Inhabited

/-- `moq_location_filter_cfg_t`. -/
structure LocationCfg where
  kind : LocationKind
  (relativeGroupOffset startGroup startObject endGroup endObject : ℕ)
  deriving DecidableEq, Inhabited

/-- `moqr_pd_desc_t`. -/
structure PdDesc where
  tag : CodeTag
  value : ℕ
  deriving DecidableEq, Inhabited

/-- `moqr_pd_desc_none`. -/
def pdDescNone : PdDesc := ⟨.none, 0⟩

/-- `MOQR_PD_TRACK_ENDED`, a meaning the core itself states. -/
def pdTrackEnded : ℕ := 3

/-- `MOQR_PD_SUBSCRIPTION_ENDED`, the other one. -/
def pdSubscriptionEnded : ℕ := 4

/-- `MOQR_PD_MALFORMED_TRACK`, the last of `moqr_pd_status_t`. -/
def pdMalformedTrack : ℕ := 10

/-- The terminal means `TRACK_ENDED`: as this relay's own meaning, or as the number each draft gives
it (`PD_ROWS`).  No extension has a registered number. -/
def PdDesc.trackEnded (pd : PdDesc) : Bool :=
  match pd.tag with
  | .local => pd.value = pdTrackEnded
  | .wireD16 | .wireD18 | .wireD22 => pd.value = 0x2
  | .none | .localPdExtension | .other _ => false

/-- `core_local_done`; `pd_semantic_ok` accepts every meaning but `UNKNOWN`. -/
def coreLocalDone (status : ℕ) : PdDesc :=
  if 1 ≤ status && status ≤ pdMalformedTrack then ⟨.local, status⟩ else pdDescNone

/-! ## Subscriptions -/

/-- `r_sub_state_t`. -/
inductive SubState
  | parked | active
  deriving DecidableEq, Inhabited

/-- `r_sub_t`.  The exclusion bits are one per journal slot; the links of the two subscriber lists
are the lists themselves (`Binding.subs`, `Track.subs`). -/
structure Sub where
  (gen binding bindingGen track trackGenSlot : ℕ)
  gpos : Option GposTable
  begunCount : ℕ
  (pendingSkip forward rangeEndHolds : Bool)
  state : SubState
  (startGroup startObject : ℕ)
  hasEnd : Bool
  (endGroup endObject : ℕ)
  (srcDone srcAbort : Bool)
  srcDonePd : PdDesc
  (hasLocation locationEmpty : Bool)
  location : LocationCfg
  excluded : Option (ℕ → Bool)
  (excludedCap subscriberPriority : ℕ)
  groupOrder : GroupOrder
  filterType : FilterType
  cookie : ℕ

/-- A cleared slot. -/
def Sub.cleared : Sub where
  gen := 0
  binding := 0
  bindingGen := 0
  track := 0
  trackGenSlot := 0
  gpos := none
  begunCount := 0
  pendingSkip := false
  forward := false
  rangeEndHolds := false
  state := .parked
  startGroup := 0
  startObject := 0
  hasEnd := false
  endGroup := 0
  endObject := 0
  srcDone := false
  srcAbort := false
  srcDonePd := pdDescNone
  hasLocation := false
  locationEmpty := false
  location := ⟨.none, 0, 0, 0, 0, 0⟩
  excluded := none
  excludedCap := 0
  subscriberPriority := 0
  groupOrder := .default
  filterType := .other 0
  cookie := 0

/-! ## Deliveries and bindings -/

/-- `MOQR_DELIVERY_NOTICE_*`. -/
inductive Notice
  | none | seal | evictWatermark
  deriving DecidableEq, Inhabited

/-- A record view of zero bytes. -/
def Rec.blank : Rec where
  arrivalSeq := 0
  arrivalUs := 0
  groupId := 0
  subgroupId := 0
  objectId := 0
  bytes := 0
  declaredLen := 0
  payload := none
  properties := none
  chunkHead := none
  chunkTail := none
  chunkCount := 0
  publisherPriority := 0
  status := .normal
  objState := .complete
  reset := resetDescNone
  datagramPref := false
  endOfGroup := false
  firstObject := false
  subgroupProperties := false
  propertiesCodec := propsCodecUnknown
  followsGap := false
  gapReset := resetDescNone
  hasOpener := false
  openerConn := 0
  openerSrc := 0

/-- `moqr_delivery_t`; a record view is the record. -/
structure Delivery where
  sub : Option Handle
  subCookie : ℕ
  record : Rec
  (skipped subgroupEnd : Bool)
  oldestGroup : ℕ
  evictedReset : Bool
  notice : Notice
  sealReset : Bool
  sealResetDesc : ResetDesc
  deriving DecidableEq

/-- A cleared delivery. -/
def Delivery.cleared : Delivery :=
  ⟨none, 0, .blank, false, false, 0, false, .none, false, resetDescNone⟩

/-- `r_binding_t`.  A pin is the buffer it holds. -/
structure Binding where
  gen : ℕ
  subs : List ℕ
  (begunSubs cookie : ℕ)
  (outActive outChunked outAbandoned outEvictReset : Bool)
  outNotice : Notice
  (outSub outGroup outList outChunkBase : ℕ)
  (pinPayload pinProperties : Option Rcbuf)
  pinChunksCap : ℕ
  pinChunks : List (Option Rcbuf × UInt64)
  outView : Delivery
  (outSubgroupProperties outFollowsGap : Bool)
  outGapReset : ResetDesc

/-- A cleared slot. -/
def Binding.cleared : Binding where
  gen := 0
  subs := []
  begunSubs := 0
  cookie := 0
  outActive := false
  outChunked := false
  outAbandoned := false
  outEvictReset := false
  outNotice := .none
  outSub := 0
  outGroup := 0
  outList := 0
  outChunkBase := 0
  pinPayload := none
  pinProperties := none
  pinChunksCap := 0
  pinChunks := []
  outView := .cleared
  outSubgroupProperties := false
  outFollowsGap := false
  outGapReset := resetDescNone

/-! ## Intents -/

/-- `moqr_intent_kind_t`. -/
inductive IntentKind
  | acceptSub | rejectSub | subDone | upstreamSubscribe | upstreamUnsubscribe | acceptPublish
  | rejectPublish | nsFound | nsGone | trackStatusOk | trackStatusError
  deriving DecidableEq, Inhabited

/-- `moqr_intent_t`. -/
structure Intent where
  kind : IntentKind
  errorCode : ℕ := 0
  pd : PdDesc := pdDescNone
  cookie : ℕ := 0
  bindingCookie : ℕ := 0
  sub : Option Handle := none
  track : Option Handle := none
  trackGen : ℕ := 0
  hasLargest : Bool := false
  largestGroup : ℕ := 0
  largestObject : ℕ := 0
  deriving DecidableEq

/-! ## The core -/

/-- The limits a core is created with. -/
structure CoreLimits where
  (shardTag maxBindings maxIntents lingerUs : ℕ)
  deriving DecidableEq

/-- `moqr_core_t`. -/
structure Core where
  lim : CoreLimits
  (interestSeq roomEpoch : ℕ)
  bindings : ℕ → Binding
  ready : ℕ → Bool
  readyCount : ℕ
  tracks : ℕ → Track
  subs : ℕ → Sub
  intentReserved : ℕ
  intents : List Intent

end MoqRelay
