import MoqRelay.Wire.D22Params

/-!
# Wire/D22Messages — draft-22 control messages

`messages_d22.c`: one table says which fields a message type has in a context, one reader and one
writer follow it.  The encoder decodes its own body before it commits.
-/

namespace MoqRelay

/-! ## Message types -/

def d22RequestUpdate : UInt64 := 0x02
def d22Subscribe : UInt64 := 0x03
def d22SubscribeOk : UInt64 := 0x04
def d22RequestError : UInt64 := 0x05
def d22PublishNamespace : UInt64 := 0x06
def d22RequestOk : UInt64 := 0x07
def d22Namespace : UInt64 := 0x08
def d22PublishDone : UInt64 := 0x0b
def d22TrackStatus : UInt64 := 0x0d
def d22NamespaceDone : UInt64 := 0x0e
def d22PublishSkipped : UInt64 := 0x0f
def d22Fetch : UInt64 := 0x16
def d22FetchOk : UInt64 := 0x18
def d22Publish : UInt64 := 0x1d
def d22PublishStateNotify : UInt64 := 0x22
def d22SubscribeNamespace : UInt64 := 0x50
def d22SubscribeTracks : UInt64 := 0x51

/-- `MOQ_D22_ERROR_REDIRECT`. -/
def d22ErrorRedirect : UInt64 := 0x34

/-- `MOQ_D22_MAX_REASON`. -/
def d22MaxReason : ℕ := 1024

/-- `moq_d22_message_context_t`. -/
structure D22Context where
  requestType : UInt64 := 0
  updatedRequestType : UInt64 := 0
  updateFromSubscriber : Bool := false
  maxFilterRanges : UInt64 := 0
  cluster : Bool := false
  deriving DecidableEq, Repr

/-- `moq_d22_message_t`. -/
structure D22Message where
  type : UInt64
  requestId : UInt64 := 0
  ns : D22Namespace := {}
  trackName : Bytes := []
  trackAlias : UInt64 := 0
  params : D22Params := {}
  properties : Bytes := []
  code : UInt64 := 0
  retryInterval : UInt64 := 0
  streamCount : UInt64 := 0
  reason : Bytes := []
  redirectUri : Bytes := []
  endOfTrack : UInt8 := 0
  endLocation : D22Location := {}
  mandatoryTrackProperty : Bool := false
  deriving DecidableEq, Repr

/-- `namespace_request`. -/
def namespaceRequest (type : UInt64) : Bool :=
  type = d22PublishNamespace || type = d22SubscribeNamespace || type = d22SubscribeTracks

/-- The `HAS_…` flags of a message, and the scope of its parameters. -/
structure D22Layout where
  id : Bool := false
  ns : Bool := false
  name : Bool := false
  aliasId : Bool := false
  params : Bool := false
  properties : Bool := false
  scope : D22Scope := .fetchOk
  deriving DecidableEq, Repr

/-- The layout of a request for a track. -/
def trackRequestLayout (scope : D22Scope) : D22Layout :=
  { id := true, ns := true, name := true, params := true, scope }

/-- The layout of a request for a namespace. -/
def nsRequestLayout (scope : D22Scope) : D22Layout :=
  { id := true, ns := true, params := true, scope }

/-- The inner switch of `layout` for a `REQUEST_OK`. -/
def requestOkLayout (requestType : UInt64) : Except D22Error D22Layout :=
  if requestType = d22Publish then .ok { params := true, scope := .publishOk }
  else if requestType = d22RequestUpdate then .ok { params := true, scope := .updateOk }
  else if requestType = d22TrackStatus then
    .ok { params := true, properties := true, scope := .trackStatusOk }
  else if requestType = d22PublishNamespace || requestType = d22SubscribeNamespace then
    .ok { params := true, scope := .namespaceOk }
  else if requestType = d22SubscribeTracks then
    .ok { params := true, properties := true, scope := .namespaceOk }
  else .error .inval

/-- The inner switch of `layout` for a `REQUEST_UPDATE`. -/
def requestUpdateScope (ctx : D22Context) : Except D22Error D22Scope :=
  if ctx.requestType = d22Subscribe || ctx.requestType = d22Publish then
    .ok (if ctx.updateFromSubscriber then .updateSubscriber else .updatePublisher)
  else if ctx.requestType = d22Fetch then .ok .updateFetch
  else if ctx.requestType = d22PublishNamespace then .ok .updatePublishNamespace
  else if ctx.requestType = d22SubscribeNamespace then .ok .updateSubscribeNamespace
  else if ctx.requestType = d22SubscribeTracks then .ok .updateSubscribeTracks
  else .error .inval

/-- `layout`. -/
def layout (type : UInt64) (ctx : D22Context) : Except D22Error D22Layout :=
  if type = d22Subscribe then .ok (trackRequestLayout .subscribe)
  else if type = d22Fetch then .ok (trackRequestLayout .fetch)
  else if type = d22TrackStatus then .ok (trackRequestLayout .trackStatus)
  else if type = d22Publish then
    .ok { trackRequestLayout .publish with aliasId := true, properties := true }
  else if type = d22SubscribeOk then
    .ok { aliasId := true, params := true, properties := true, scope := .subscribeOk }
  else if type = d22FetchOk then .ok { params := true, properties := true }
  else if type = d22PublishNamespace then .ok (nsRequestLayout .publishNamespace)
  else if type = d22SubscribeNamespace then .ok (nsRequestLayout .subscribeNamespace)
  else if type = d22SubscribeTracks then .ok (nsRequestLayout .subscribeTracks)
  else if type = d22PublishStateNotify then .ok { params := true, scope := .notify }
  else if type = d22Namespace then
    .ok (if ctx.cluster then { ns := true, params := true, scope := .ns } else { ns := true })
  else if type = d22NamespaceDone then .ok { ns := true }
  else if type = d22PublishSkipped then .ok { ns := true, name := true }
  else if type = d22PublishDone || type = d22RequestError then .ok {}
  else if type = d22RequestOk then requestOkLayout ctx.requestType
  else if type = d22RequestUpdate then
    (requestUpdateScope ctx).map fun scope => { id := true, params := true, scope }
  else .error .proto

/-! ## Track properties -/

/-- `moq_d22_kvp_t`. -/
structure D22Kvp where
  type : UInt64
  integer : UInt64 := 0
  bytes : Bytes := []
  deriving DecidableEq, Repr

/-- `moq_d22_decode_kvp`. -/
def decodeKvp (previousType : UInt64) : Read D22Kvp := do
  let delta ← readVi64
  failWhen (delta > uint64Max - previousType) .proto
  let type := previousType + delta
  let bytes ← readWhen (type &&& 1 ≠ 0) (readSpan uint16Max) []
  let integer ← readWhen (type &&& 1 = 0) readVi64 0
  return { type, integer, bytes }

/-- The loop of `validate_property_ranges`: whether a mandatory property is there.  `inner` is the
call on an immutable container. -/
def propertyRanges (inner : Bytes → Except D22Error Bool) :
    ℕ → UInt64 → Bytes → Except D22Error Bool
  | 0, _, _ => .ok false
  | n + 1, previous, d =>
    if d = [] then .ok false
    else
      match decodeKvp previous d with
      | .error e => .error (truncated e)
      | .ok (kvp, d) => do
        let mandatory : Bool := 0x4000 ≤ kvp.type && kvp.type ≤ 0x7fff
        refuse (kvp.type = 0x22 && (kvp.integer < 1 || kvp.integer > 2)) .proto
        refuse (kvp.type = 0x30 && kvp.integer > 1) .proto
        let nested ← if kvp.type = 0x0b then inner kvp.bytes else pure false
        let rest ← propertyRanges inner n kvp.type d
        return mandatory || nested || rest

/-- `validate_property_ranges`: no container stands in a container. -/
def validatePropertyRanges (d : Bytes) : Except D22Error Bool :=
  propertyRanges (fun d => propertyRanges (fun _ => .error .proto) d.length 0 d) d.length 0 d

/-- The loop of `d18_scan_track_defaults_inner`, called for the priority alone: it takes the same
pairs as `moq_d22_decode_kvp`, and every failure is a protocol error. -/
def scanTrackDefaults (inner : Bytes → Except D22Error Unit) :
    ℕ → UInt64 → Bytes → Except D22Error Unit
  | 0, _, _ => .ok ()
  | n + 1, previous, d =>
    if d = [] then .ok ()
    else
      match decodeKvp previous d with
      | .error _ => .error .proto
      | .ok (kvp, d) => do
        if kvp.type = 0x0b then inner kvp.bytes
        refuse (kvp.type = 0x0e && kvp.integer > 255) .proto
        scanTrackDefaults inner n kvp.type d

/-- `moq_d18_scan_default_publisher_priority`, without the priority, which no caller here reads. -/
def scanDefaultPublisherPriority (d : Bytes) : Except D22Error Unit :=
  scanTrackDefaults (fun d => scanTrackDefaults (fun _ => .error .proto) d.length 0 d) d.length 0 d

/-- `scan_track_properties`. -/
def scanTrackProperties (d : Bytes) : Except D22Error Bool := do
  refuse (d.length > uint16Max) .inval
  let mandatory ← validatePropertyRanges d
  scanDefaultPublisherPriority d
  return mandatory

/-! ## Reading a message -/

/-- The target of a redirect. -/
structure D22Redirect where
  uri : Bytes
  ns : D22Namespace
  trackName : Bytes
  deriving DecidableEq, Repr

/-- What `PUBLISH_DONE` and `REQUEST_ERROR` have. -/
structure D22Status where
  code : UInt64 := 0
  streamCount : UInt64 := 0
  retryInterval : UInt64 := 0
  reason : Bytes := []
  redirect : Option D22Redirect := none
  deriving DecidableEq, Repr

/-- The request that a redirect is for. -/
def redirectTarget (ctx : D22Context) : UInt64 :=
  if ctx.requestType = d22RequestUpdate then ctx.updatedRequestType else ctx.requestType

/-- The end of a `FETCH_OK`. -/
def readFetchEnd : Read (UInt8 × D22Location) := do
  let endOfTrack ← readByte
  failWhen (endOfTrack > 1) .proto
  let group ← readVi64
  let object ← readVi64
  return (endOfTrack, { group, object })

/-- The redirect of a `REQUEST_ERROR`. -/
def readRedirect (ctx : D22Context) : Read (Option D22Redirect) := do
  let uri ← readSpan uint16Max
  let ns ← decodeNamespace
  let trackName ← readSpan (4096 - ns.valueBytes)
  failWhen (namespaceRequest (redirectTarget ctx) && trackName.length ≠ 0) .proto
  return some { uri, ns, trackName }

/-- The status of a `PUBLISH_DONE` or `REQUEST_ERROR`. -/
def readStatus (ctx : D22Context) (type : UInt64) : Read D22Status := do
  let code ← readVi64
  let streamCount ← readWhen (type = d22PublishDone) readVi64 0
  let retryInterval ← readWhen (type ≠ d22PublishDone) readVi64 0
  let reason ← readSpan d22MaxReason
  let redirect ← readWhen (type = d22RequestError && code = d22ErrorRedirect)
    (readRedirect ctx) none
  return { code, streamCount, retryInterval, reason, redirect }

/-- A block of parameters with its count. -/
def readParams (scope : D22Scope) (max : UInt64) : Read (D22Params × Bool) := do
  let count ← readVi64
  scanParams count.toNat scope max

/-- Whether a type has a status. -/
def hasStatus (type : UInt64) : Bool := type = d22PublishDone || type = d22RequestError

/-- `decode_body` up to the track properties: the message, and whether it has an invalid filter. -/
def readFields (l : D22Layout) (ctx : D22Context) (type : UInt64) : Read (D22Message × Bool) := do
  let requestId ← readWhen l.id readVi64 0
  let ns ← readWhen l.ns decodeNamespace {}
  let trackName ← readWhen l.name (readSpan (4096 - ns.valueBytes)) []
  let trackAlias ← readWhen l.aliasId readVi64 0
  let fetchEnd ← readWhen (type = d22FetchOk) readFetchEnd (0, {})
  let status ← readWhen (hasStatus type) (readStatus ctx type) {}
  let params ← readWhen l.params (readParams l.scope ctx.maxFilterRanges) ({}, false)
  return ({ type, requestId, trackAlias
            ns := (status.redirect.map D22Redirect.ns).getD ns
            trackName := (status.redirect.map D22Redirect.trackName).getD trackName
            params := params.1
            code := status.code
            retryInterval := status.retryInterval
            streamCount := status.streamCount
            reason := status.reason
            redirectUri := (status.redirect.map D22Redirect.uri).getD []
            endOfTrack := fetchEnd.1
            endLocation := fetchEnd.2 }, params.2)

/-- The track properties, which are all that remains. -/
def readProperties : Read (Bytes × Bool) := do
  let properties ← readRest
  let mandatory ← Parser.ofExcept (scanTrackProperties properties)
  return (properties, mandatory)

/-- `decode_body`. -/
def decodeBody (l : D22Layout) (ctx : D22Context) (type : UInt64) : Read (D22Message × Bool) := do
  let v ← readFields l ctx type
  let props ← readWhen l.properties readProperties ([], false)
  readEnd .proto
  return ({ v.1 with properties := props.1, mandatoryTrackProperty := props.2 }, v.2)

/-- `moq_d22_scan_message`: the message, and whether the answer is an invalid filter. -/
def scanMessage (type : UInt64) (body : Bytes) (ctx : D22Context) :
    Except D22Error (D22Message × Bool) := do
  refuse (body.length > uint16Max) .proto
  let l ← layout type ctx
  match decodeBody l ctx type body with
  | .error e => throw (truncated e)
  | .ok (v, _) => return v

/-- `moq_d22_decode_message`. -/
def decodeMessage (type : UInt64) (body : Bytes) (ctx : D22Context) :
    Except D22Error D22Message := do
  let v ← scanMessage type body ctx
  refuse v.2 .invalidFilter
  return v.1

/-! ## Writing a message -/

/-- The end of a `FETCH_OK`. -/
def writeFetchEnd (m : D22Message) (w : BufWriter) : Except D22Error BufWriter := do
  refuse (m.endOfTrack > 1) .inval
  let w ← writeRaw w [m.endOfTrack]
  let w ← writeVi64 w m.endLocation.group
  writeVi64 w m.endLocation.object

/-- The redirect of a `REQUEST_ERROR`. -/
def writeRedirect (m : D22Message) (w : BufWriter) : Except D22Error BufWriter := do
  let w ← writeSpan w m.redirectUri uint16Max
  let w ← writeNamespace w m.ns
  writeSpan w m.trackName 4096

/-- The status of a `PUBLISH_DONE` or `REQUEST_ERROR`. -/
def writeStatus (m : D22Message) (w : BufWriter) : Except D22Error BufWriter := do
  let w ← writeVi64 w m.code
  let w ← writeVi64 w (if m.type = d22PublishDone then m.streamCount else m.retryInterval)
  let w ← writeSpan w m.reason d22MaxReason
  writeWhen (m.type = d22RequestError && m.code = d22ErrorRedirect) (writeRedirect m) w

/-- The parameters of a message, if its layout has them. -/
def writeParams (l : D22Layout) (ctx : D22Context) (ps : List D22Param) (w : BufWriter) :
    Except D22Error BufWriter :=
  if l.params then do
    let w ← writeVi64 w (UInt64.ofNat ps.length)
    encodeParams w ps l.scope ctx.maxFilterRanges
  else if ps.length ≠ 0 then .error .inval
  else .ok w

/-- The track properties of a message, if its layout has them. -/
def writeProperties (l : D22Layout) (m : D22Message) (w : BufWriter) : Except D22Error BufWriter :=
  if l.properties then
    match scanTrackProperties m.properties with
    | .error _ => .error .inval
    | .ok _ => writeRaw w m.properties
  else if m.properties.length ≠ 0 then .error .inval
  else .ok w

/-- `encode_body`. -/
def encodeBody (l : D22Layout) (ctx : D22Context) (m : D22Message) (ps : List D22Param)
    (w : BufWriter) : Except D22Error BufWriter := do
  let w ← writeWhen l.id (writeVi64 · m.requestId) w
  let w ← writeWhen l.ns (writeNamespace · m.ns) w
  let w ← writeWhen l.name (writeSpan · m.trackName 4096) w
  let w ← writeWhen l.aliasId (writeVi64 · m.trackAlias) w
  let w ← writeWhen (m.type = d22FetchOk) (writeFetchEnd m) w
  let w ← writeWhen (hasStatus m.type) (writeStatus m) w
  let w ← writeParams l ctx ps w
  writeProperties l m w

/-- `moq_d22_encode_message` on its own cursor. -/
def encodeOnCursor (w : BufWriter) (m : D22Message) (ps : List D22Param) (ctx : D22Context) :
    Except D22Error BufWriter := do
  refuse (w.written.length > w.cap || ps.length > uint16Max / 2) .inval
  match layout m.type ctx with
  | .error _ => throw .inval
  | .ok l =>
    let c ← writeVi64 w m.type
    let lengthAt := c.written.length
    let c ← reserveUint16 c
    let bodyAt := c.written.length
    let c ← encodeBody l ctx m ps c
    let body := c.written.drop bodyAt
    refuse (body.length > uint16Max) .inval
    match decodeMessage m.type body ctx with
    | .error _ => throw .inval
    | .ok _ => patchUint16 c lengthAt body.length

/-- `moq_d22_encode_message`: the result, and the writer, which takes the cursor over on success. -/
def encodeMessage (w : BufWriter) (m : D22Message) (ps : List D22Param) (ctx : D22Context) :
    Except D22Error Unit × BufWriter :=
  match encodeOnCursor w m ps ctx with
  | .error e => (.error e, w)
  | .ok c => (.ok (), c)

end MoqRelay
