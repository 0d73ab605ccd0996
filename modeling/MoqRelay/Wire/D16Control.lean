import Mathlib.Data.UInt
import MoqRelay.Wire.D16Buf

/-!
# Wire/D16Control — draft-16 control messages

`control_d16.c` and `kvp.c`: an envelope whose length is patched when the payload is known, and a
payload of fields, delta-coded parameters and, for some messages, an unframed tail.  Each writer is
paired with the reader of its octets, so that a message is settled field by field.  A read that ends
a payload leaves nothing; the tail is all that remains behind the last parameter.
-/

namespace MoqRelay.D16

open MoqRelay.Parser (Reads)

/-! ## Parameters -/

/-- `moq_kvp_entry_t`. -/
structure KvpEntry where
  type : UInt64
  isVarint : Bool
  value : Bytes
  raw : Bytes := []
  deriving DecidableEq, Repr

/-- The parity of a type says how its value is coded. -/
def evenType (type : UInt64) : Bool := type &&& 1 = 0

/-- The absolute type of an entry behind the entry of type `prev`. -/
def absType (prev : Option UInt64) (delta : UInt64) : Except D22Error UInt64 :=
  match prev with
  | none => .ok delta
  | some p => if delta > uint64Max - p then .error .proto else .ok (p + delta)

/-- The value of an entry: a varint by its octets, or a span. -/
def kvpValue (type : UInt64) : Read Bytes :=
  if evenType type then do
    let v ← withSpan readVarint
    return v.2
  else do
    let vlen ← readVarint
    failWhen (vlen > 0xFFFF) .proto
    readRaw vlen.toNat

/-- The fields of an entry. -/
def kvpFields (prev : Option UInt64) : Read (UInt64 × Bytes) := do
  let delta ← readVarint
  let type ← Parser.ofExcept (absType prev delta)
  let value ← kvpValue type
  return (type, value)

/-- `moq_kvp_decode_next`; nothing is `MOQ_DONE`. -/
def kvpDecodeNext (prev : Option UInt64) : Read (Option KvpEntry) := fun d =>
  if d = [] then .ok (none, [])
  else (orProto (withSpan (kvpFields prev)) d).map fun x =>
    (some ⟨x.1.1.1, evenType x.1.1.1, x.1.1.2, x.1.2⟩, x.2)

/-- The loop over a number of entries. -/
def kvpDecodeEntries : ℕ → Option UInt64 → Read (List KvpEntry)
  | 0, _ => pure []
  | n + 1, prev => do
    let next ← kvpDecodeNext prev
    match next with
    | none => throw .proto
    | some e => do
      let entries ← kvpDecodeEntries n (some e.type)
      return e :: entries

/-- A number of parameters, and the parameters. -/
def decodeParams (cap : ℕ) : Read (List KvpEntry) := do
  let count ← orProto readVarint
  failWhen (count.toNat > cap) .buffer
  kvpDecodeEntries count.toNat none

/-- `decode_counted_params`: nothing may follow. -/
def decodeCountedParams (cap : ℕ) : Read (List KvpEntry) := do
  let params ← decodeParams cap
  readEnd .proto
  return params

/-- `kvp_entry_valid_for_encode`. -/
def kvpEntryValidForEncode (e : KvpEntry) : Bool :=
  if e.isVarint ≠ evenType e.type then false
  else if e.isVarint then
    e.value.length ≠ 0 && ((quicVarintDecode e.value).map (·.2)).getD 0 = e.value.length
  else e.value.length ≤ 0xFFFF

/-- `moq_kvp_entry_encoded_len`. -/
def kvpEntryEncodedLen (prevType : UInt64) (e : KvpEntry) : ℕ :=
  if e.type < prevType then 0
  else if !kvpEntryValidForEncode e then 0
  else if quicVarintLen (e.type - prevType).toNat = 0 then 0
  else if e.isVarint then quicVarintLen (e.type - prevType).toNat + e.value.length
  else if quicVarintLen e.value.length = 0 then 0
  else quicVarintLen (e.type - prevType).toNat + quicVarintLen e.value.length + e.value.length

/-- The octets of an entry. -/
def kvpOctets (prevType : UInt64) (e : KvpEntry) : Bytes :=
  quicVarintEncode (e.type - prevType).toNat ++
    ((if e.isVarint then [] else quicVarintEncode e.value.length) ++ e.value)

/-- `moq_kvp_encode_entry` into the room that is left. -/
def kvpEncodeEntry (prevType : UInt64) (e : KvpEntry) : Write Unit := liftWrite fun w =>
  let needed := kvpEntryEncodedLen prevType e
  if needed = 0 || w.cap - w.written.length < needed then .error .buffer
  else .ok { w with written := w.written ++ kvpOctets prevType e }

/-- The loop of `encode_counted_params`. -/
def kvpEncodeEntries (saved : ℕ) : UInt64 → List KvpEntry → Write Unit
  | _, [] => pure ()
  | prev, e :: entries => do
    rewind saved (kvpEncodeEntry prev e)
    kvpEncodeEntries saved e.type entries

/-- `encode_counted_params`. -/
def encodeCountedParams (params : List KvpEntry) (saved : ℕ) : Write Unit := do
  rewind saved (writeVarint params.length)
  kvpEncodeEntries saved 0 params

/-! ## Namespaces -/

/-- `MOQ_FULL_TRACK_NAME_MAX`. -/
def fullTrackNameMax : ℕ := 4096

/-- `namespace_byte_len`. -/
def namespaceByteLen (ns : List Bytes) : ℕ := (ns.map List.length).sum

/-- `ns_validate_fields`. -/
def nsValidateFields : ℕ → List Bytes → Bool
  | _, [] => true
  | total, part :: ns =>
    part.length ≠ 0 && part.length ≤ 4096 - total && nsValidateFields (total + part.length) ns

/-- `ns_read_fields`. -/
def nsReadFields : ℕ → ℕ → Read (List Bytes)
  | 0, _ => pure []
  | n + 1, total => do
    let part ← readSpan16
    failWhen (part.length = 0) .proto
    failWhen (part.length > 4096 - total) .proto
    let ns ← nsReadFields n (total + part.length)
    return part :: ns

/-- `moq_buf_read_namespace`. -/
def readNamespace (maxParts : ℕ) : Read (List Bytes) := do
  let count ← readVarint
  failWhen (count.toNat = 0 || count.toNat > 32) .proto
  failWhen (count.toNat > maxParts) .buffer
  nsReadFields count.toNat 0

/-- The loop of `ns_write_fields`. -/
def nsWriteParts (saved : ℕ) : List Bytes → Write Unit
  | [] => pure ()
  | part :: ns => do
    rewind saved (writeSpan16 part)
    nsWriteParts saved ns

/-- `moq_buf_write_namespace`. -/
def writeNamespace (ns : List Bytes) : Write Unit := do
  refuse16 (ns.length = 0 || ns.length > 32) .inval
  refuse16 (!nsValidateFields 0 ns) .inval
  let saved ← writerPos
  writeVarint ns.length
  nsWriteParts saved ns

/-! ## The envelope -/

/-- `moq_control_write_header`: the offset of the length. -/
def controlWriteHeader (msgType : ℕ) : Write ℕ := do
  let saved ← writerPos
  writeVarint msgType
  let offset ← writerPos
  rewind saved (liftWrite reserveUint16)
  return offset

/-- An encoder between its checks and its result: the header, the payload that `body` writes, and
the length. -/
def encodeEnvelope (msgType : ℕ) (body : ℕ → Write Unit) : Write Unit := do
  let saved ← writerPos
  let lenOffset ← controlWriteHeader msgType
  let payloadStart ← writerPos
  body saved
  let stop ← writerPos
  rewind saved (refuse16 (stop - payloadStart > 0xFFFF) .buffer)
  rewind saved (liftWrite fun w => patchUint16 w lenOffset (stop - payloadStart))

/-! ## Messages -/

/-- `moq_d16_fetch_t`. -/
structure D16Fetch where
  requestId : UInt64
  fetchType : UInt32
  ns : List Bytes := []
  trackName : Bytes := []
  startGroup : UInt64 := 0
  startObject : UInt64 := 0
  endGroup : UInt64 := 0
  endObject : UInt64 := 0
  joiningRequestId : UInt64 := 0
  joiningStart : UInt64 := 0
  params : List KvpEntry
  deriving DecidableEq, Repr

/-- `moq_d16_fetch_ok_t`. -/
structure D16FetchOk where
  requestId : UInt64
  endOfTrack : UInt8
  (endGroup endObject : UInt64)
  params : List KvpEntry
  trackExtensions : Bytes
  deriving DecidableEq, Repr

/-- `moq_d16_publish_t`. -/
structure D16Publish where
  requestId : UInt64
  ns : List Bytes
  trackName : Bytes
  trackAlias : UInt64
  params : List KvpEntry
  trackExtensions : Bytes
  deriving DecidableEq, Repr

/-- The messages, by the arguments of their encoders. -/
inductive D16Message
  | setup (server : Bool) (params : List KvpEntry)
  | subscribe (requestId : UInt64) (ns : List Bytes) (trackName : Bytes)
      (params : List KvpEntry)
  | subscribeOk (requestId trackAlias : UInt64) (params : List KvpEntry)
      (trackExtensions : Bytes)
  | requestOk (requestId : UInt64) (params : List KvpEntry)
  | fetch (f : D16Fetch)
  | fetchOk (ok : D16FetchOk)
  | publish (p : D16Publish)
  | publishOk (requestId : UInt64) (params : List KvpEntry)
  | publishDone (requestId statusCode streamCount : UInt64) (reason : Bytes)
  deriving DecidableEq, Repr

/-- The message type on the wire. -/
def D16Message.type : D16Message → ℕ
  | .setup server _ => if server then 0x21 else 0x20
  | .subscribe .. => 0x03
  | .subscribeOk .. => 0x04
  | .requestOk .. => 0x07
  | .fetch _ => 0x16
  | .fetchOk _ => 0x18
  | .publish _ => 0x1D
  | .publishOk .. => 0x1E
  | .publishDone .. => 0x0B

/-- The check of a full track name in an encoder. -/
def trackNameBad (ns : List Bytes) (trackName : Bytes) : Bool :=
  namespaceByteLen ns > fullTrackNameMax ||
    trackName.length > fullTrackNameMax - namespaceByteLen ns

/-- …and in `moq_d16_encode_fetch`, where the subtraction can wrap. -/
def fetchNameBad (ns : List Bytes) (trackName : Bytes) : Bool :=
  trackName.length > (2 ^ 64 + fullTrackNameMax - namespaceByteLen ns % 2 ^ 64) % 2 ^ 64

/-- A number of parts a namespace may have. -/
def partsBad (ns : List Bytes) : Bool := ns.length = 0 || ns.length > 32

/-- The tail behind the parameters. -/
def writeExtensions (saved : ℕ) (trackExtensions : Bytes) : Write Unit :=
  putWhen (trackExtensions.length > 0) (rewind saved (writeOctets trackExtensions))

/-- `encode_setup`. -/
def encodeSetup (msgType : ℕ) (params : List KvpEntry) : Write Unit :=
  encodeEnvelope msgType fun saved => encodeCountedParams params saved

/-- `moq_d16_encode_client_setup`. -/
def encodeClientSetup (params : List KvpEntry) : Write Unit := encodeSetup 0x20 params

/-- `moq_d16_encode_server_setup`. -/
def encodeServerSetup (params : List KvpEntry) : Write Unit := encodeSetup 0x21 params

/-- `moq_d16_encode_subscribe`. -/
def encodeSubscribe (requestId : UInt64) (ns : List Bytes) (trackName : Bytes)
    (params : List KvpEntry) : Write Unit := do
  refuse16 (partsBad ns) .inval
  refuse16 (trackNameBad ns trackName) .inval
  encodeEnvelope 0x03 fun saved => do
    rewind saved (writeVarint requestId.toNat)
    rewind saved (writeNamespace ns)
    rewind saved (writeSpan16 trackName)
    encodeCountedParams params saved

/-- `moq_d16_encode_subscribe_ok`. -/
def encodeSubscribeOk (requestId trackAlias : UInt64) (params : List KvpEntry)
    (trackExtensions : Bytes) : Write Unit :=
  encodeEnvelope 0x04 fun saved => do
    rewind saved (writeVarint requestId.toNat)
    rewind saved (writeVarint trackAlias.toNat)
    encodeCountedParams params saved
    writeExtensions saved trackExtensions

/-- The body of the two answers that carry a request and parameters only. -/
def encodeOk (msgType : ℕ) (requestId : UInt64) (params : List KvpEntry) : Write Unit :=
  encodeEnvelope msgType fun saved => do
    rewind saved (writeVarint requestId.toNat)
    encodeCountedParams params saved

/-- `moq_d16_encode_request_ok`. -/
def encodeRequestOk (requestId : UInt64) (params : List KvpEntry) : Write Unit :=
  encodeOk 0x07 requestId params

/-- `moq_d16_encode_publish_ok`. -/
def encodePublishOk (requestId : UInt64) (params : List KvpEntry) : Write Unit :=
  encodeOk 0x1E requestId params

/-- The part of a FETCH that its type decides. -/
def writeFetchBody (f : D16Fetch) (saved : ℕ) : Write Unit :=
  if f.fetchType = 1 then do
    rewind saved (writeNamespace f.ns)
    rewind saved (writeSpan16 f.trackName)
    rewind saved (writeVarint f.startGroup.toNat)
    rewind saved (writeVarint f.startObject.toNat)
    rewind saved (writeVarint f.endGroup.toNat)
    rewind saved (writeVarint f.endObject.toNat)
  else do
    rewind saved (writeVarint f.joiningRequestId.toNat)
    rewind saved (writeVarint f.joiningStart.toNat)

/-- `moq_d16_encode_fetch`. -/
def encodeFetch (f : D16Fetch) : Write Unit := do
  refuse16 (f.fetchType < 1 || f.fetchType > 3) .inval
  refuse16 (f.fetchType = 1 && (partsBad f.ns || fetchNameBad f.ns f.trackName)) .inval
  encodeEnvelope 0x16 fun saved => do
    rewind saved (writeVarint f.requestId.toNat)
    rewind saved (writeVarint f.fetchType.toNat)
    writeFetchBody f saved
    encodeCountedParams f.params saved

/-- `moq_d16_encode_fetch_ok`. -/
def encodeFetchOk (ok : D16FetchOk) : Write Unit := do
  refuse16 (ok.endOfTrack > 1) .inval
  encodeEnvelope 0x18 fun saved => do
    rewind saved (writeVarint ok.requestId.toNat)
    rewind saved (writeOctets [ok.endOfTrack])
    rewind saved (writeVarint ok.endGroup.toNat)
    rewind saved (writeVarint ok.endObject.toNat)
    encodeCountedParams ok.params saved
    writeExtensions saved ok.trackExtensions

/-- `moq_d16_encode_publish`. -/
def encodePublish (p : D16Publish) : Write Unit := do
  refuse16 (partsBad p.ns) .inval
  refuse16 (trackNameBad p.ns p.trackName) .inval
  encodeEnvelope 0x1D fun saved => do
    rewind saved (writeVarint p.requestId.toNat)
    rewind saved (writeNamespace p.ns)
    rewind saved (writeSpan16 p.trackName)
    rewind saved (writeVarint p.trackAlias.toNat)
    encodeCountedParams p.params saved
    writeExtensions saved p.trackExtensions

/-- `moq_d16_encode_publish_done`. -/
def encodePublishDone (requestId statusCode streamCount : UInt64) (reason : Bytes) :
    Write Unit := do
  refuse16 (reason.length > 1024) .inval
  encodeEnvelope 0x0B fun saved => do
    rewind saved (writeVarint requestId.toNat)
    rewind saved (writeVarint statusCode.toNat)
    rewind saved (writeVarint streamCount.toNat)
    rewind saved (writeSpan16 reason)

/-- The encoder of a message. -/
def encodeD16 : D16Message → Write Unit
  | .setup false params => encodeClientSetup params
  | .setup true params => encodeServerSetup params
  | .subscribe requestId ns trackName params => encodeSubscribe requestId ns trackName params
  | .subscribeOk requestId trackAlias params ext =>
    encodeSubscribeOk requestId trackAlias params ext
  | .requestOk requestId params => encodeRequestOk requestId params
  | .fetch f => encodeFetch f
  | .fetchOk ok => encodeFetchOk ok
  | .publish p => encodePublish p
  | .publishOk requestId params => encodePublishOk requestId params
  | .publishDone requestId statusCode streamCount reason =>
    encodePublishDone requestId statusCode streamCount reason

/-! ## Decoding -/

/-- `moq_buf_read_uint16`. -/
def readUint16 : Read ℕ := do
  let high ← readByte
  let low ← readByte
  return high.toNat * 256 + low.toNat

/-- `moq_control_decode_envelope`: the type and the payload. -/
def controlDecodeEnvelope : Read (UInt64 × Bytes) := do
  let msgType ← readVarint
  let payloadLen ← readUint16
  let payload ← readRaw payloadLen
  return (msgType, payload)

/-- A namespace and a track name within the limit. -/
def readTrackName (nsCap : ℕ) : Read (List Bytes × Bytes) := do
  let ns ← orProto (readNamespace nsCap)
  let trackName ← orProto readSpan16
  failWhen (namespaceByteLen ns + trackName.length > fullTrackNameMax) .proto
  return (ns, trackName)

/-- `decode_reason`. -/
def decodeReason : Read Bytes := do
  let span ← orProto readSpan16
  failWhen (span.length > 1024) .proto
  return span

/-- `decode_setup`. -/
def decodeSetup (cap : ℕ) (server : Bool) : Read D16Message := do
  let params ← decodeCountedParams cap
  return .setup server params

/-- `moq_d16_decode_client_setup`. -/
def decodeClientSetup (cap : ℕ) : Read D16Message := decodeSetup cap false

/-- `moq_d16_decode_server_setup`. -/
def decodeServerSetup (cap : ℕ) : Read D16Message := decodeSetup cap true

/-- `moq_d16_decode_subscribe`. -/
def decodeSubscribe (nsCap cap : ℕ) : Read D16Message := do
  let requestId ← orProto readVarint
  let name ← readTrackName nsCap
  let params ← decodeCountedParams cap
  return .subscribe requestId name.1 name.2 params

/-- `moq_d16_decode_subscribe_ok`. -/
def decodeSubscribeOk (cap : ℕ) : Read D16Message := do
  let requestId ← orProto readVarint
  let trackAlias ← orProto readVarint
  let params ← decodeParams cap
  let ext ← readRest
  return .subscribeOk requestId trackAlias params ext

/-- The body of the two answers that carry a request and parameters only. -/
def decodeOk (cap : ℕ) : Read (UInt64 × List KvpEntry) := do
  let requestId ← orProto readVarint
  let params ← decodeCountedParams cap
  return (requestId, params)

/-- `moq_d16_decode_request_ok`. -/
def decodeRequestOk (cap : ℕ) : Read D16Message := do
  let ok ← decodeOk cap
  return .requestOk ok.1 ok.2

/-- `moq_d16_decode_publish_ok`. -/
def decodePublishOk (cap : ℕ) : Read D16Message := do
  let ok ← decodeOk cap
  return .publishOk ok.1 ok.2

/-- The part of a FETCH that its type decides; the fields of the other kind stay as they are. -/
def readFetchBody (nsCap : ℕ) (f : D16Fetch) : Read D16Fetch :=
  if f.fetchType = 1 then do
    let name ← readTrackName nsCap
    let startGroup ← orProto readVarint
    let startObject ← orProto readVarint
    let endGroup ← orProto readVarint
    let endObject ← orProto readVarint
    return { f with
      ns := name.1, trackName := name.2, startGroup, startObject, endGroup, endObject }
  else do
    let joiningRequestId ← orProto readVarint
    let joiningStart ← orProto readVarint
    return { f with joiningRequestId, joiningStart }

/-- `moq_d16_decode_fetch`. -/
def decodeFetch (nsCap cap : ℕ) : Read D16Message := do
  let requestId ← orProto readVarint
  let ft ← orProto readVarint
  failWhen (ft < 1 || ft > 3) .proto
  let f ← readFetchBody nsCap { requestId, fetchType := ft.toUInt32, params := [] }
  let params ← decodeCountedParams cap
  return .fetch { f with params }

/-- `moq_d16_decode_fetch_ok`. -/
def decodeFetchOk (cap : ℕ) : Read D16Message := do
  let requestId ← orProto readVarint
  let endOfTrack ← orProto readByte
  failWhen (endOfTrack > 1) .proto
  let endGroup ← orProto readVarint
  let endObject ← orProto readVarint
  let params ← decodeParams cap
  let trackExtensions ← readRest
  return .fetchOk { requestId, endOfTrack, endGroup, endObject, params, trackExtensions }

/-- `moq_d16_decode_publish`. -/
def decodePublish (nsCap cap : ℕ) : Read D16Message := do
  let requestId ← orProto readVarint
  let name ← readTrackName nsCap
  let trackAlias ← orProto readVarint
  let params ← decodeParams cap
  let trackExtensions ← readRest
  return .publish { requestId, ns := name.1, trackName := name.2, trackAlias, params
                    trackExtensions }

/-- `moq_d16_decode_publish_done`. -/
def decodePublishDone : Read D16Message := do
  let requestId ← orProto readVarint
  let statusCode ← orProto readVarint
  let streamCount ← orProto readVarint
  let reason ← decodeReason
  readEnd .proto
  return .publishDone requestId statusCode streamCount reason

/-- The decoder of the messages of a type, into arrays of `nsCap` parts and `cap` parameters. -/
def decodeD16 (type nsCap cap : ℕ) : Read D16Message :=
  if type = 0x20 then decodeClientSetup cap
  else if type = 0x21 then decodeServerSetup cap
  else if type = 0x03 then decodeSubscribe nsCap cap
  else if type = 0x04 then decodeSubscribeOk cap
  else if type = 0x07 then decodeRequestOk cap
  else if type = 0x16 then decodeFetch nsCap cap
  else if type = 0x18 then decodeFetchOk cap
  else if type = 0x1D then decodePublish nsCap cap
  else if type = 0x1E then decodePublishOk cap
  else if type = 0x0B then decodePublishDone
  else throw .inval

end MoqRelay.D16
