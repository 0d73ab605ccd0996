import MoqRelay.Cmaf.Packager

/-!
# Cmaf/ParseInit — the init segment parser

`moq_cmaf_parse_init_sized` of `cmaf.c`, with its box search, its descriptor scan and the protection
boxes of encrypted entries.  A region is the list of its octets; a box that was found is an offset
into its region, and what may be read of it ends with the region.
-/

namespace MoqRelay.Cmaf

/-- `moq_cmaf_codec_kind_t`. -/
inductive CmafCodec
  | unknown | avc | hevc | av1 | aac | opus
  deriving DecidableEq, Repr

/-- `moq_cmaf_init_info_t`. -/
structure InitInfo where
  codecKind : CmafCodec := .unknown
  timescale : ℕ := 0
  width : ℕ := 0
  height : ℕ := 0
  samplerate : ℕ := 0
  channelCount : ℕ := 0
  codecConfig : Bytes := []
  trackId : ℕ := 0
  hasCenc : Bool := false
  scheme : Bytes := []
  defaultIsProtected : UInt8 := 0
  defaultPerSampleIvSize : UInt8 := 0
  defaultKid : Bytes := []
  sampleEntry : ℕ := 0
  deriving DecidableEq, Repr

/-- A box that has to be there: the octets of the region from it on, and its head. -/
def needBox (d : Bytes) (type : ℕ) : Except CmafError (Bytes × BoxHead) :=
  match findBox d type with
  | .at offset =>
    match readBox (d.drop offset) with
    | some b => .ok (d.drop offset, b)
    | none => .error .proto
  | _ => .error .proto

/-- The payload of a box, from the octets that start with it. -/
def BoxHead.payload (b : BoxHead) (d : Bytes) : Bytes := (d.take b.size).drop b.hdr

/-- A box that has to be there, by its payload. -/
def needPayload (d : Bytes) (type : ℕ) : Except CmafError Bytes :=
  (needBox d type).map fun x => x.2.payload x.1

/-- A box in a box by `find_box_nested_rc`, read again as its callers do: up to the end of the outer
region. -/
def nestedPayload (d : Bytes) (outer inner : ℕ) : Except CmafError Bytes :=
  match needBox d outer, findBox d outer with
  | .ok (o, b), .at start =>
    match needBox (b.payload o) inner, findBox (b.payload o) inner with
    | .ok _, .at offset =>
      let i := d.drop (start + b.hdr + offset)
      match readBox i with
      | some head => .ok (head.payload i)
      | none => .error .proto
    | _, _ => .error .proto
  | _, _ => .error .proto

/-- `parse_mdhd_timescale`, of the payload. -/
def parseMdhdTimescale (p : Bytes) : Except CmafError ℕ :=
  if p.length < 4 then .error .proto
  else if p.getD 0 0 > 1 then .error .proto
  else if p.getD 0 0 = 1 then
    if p.length - 4 < 20 then .error .proto else .ok (rd32 (p.drop 20))
  else if p.length - 4 < 12 then .error .proto
  else .ok (rd32 (p.drop 12))

/-- The length of a descriptor: at most `n` more octets of seven bits each. -/
def descrLen : ℕ → ℕ → Bytes → ℕ × Bytes
  | 0, sz, d => (sz, d)
  | _ + 1, sz, [] => (sz, [])
  | n + 1, sz, b :: d =>
    let sz := (sz <<< 7 ||| (b &&& 0x7F).toNat) % 2 ^ 32
    if b &&& 0x80 = 0 then (sz, d) else descrLen n sz d

/-- The descriptor scan of `extract_codec_config`: the payload of the first descriptor with tag 5
that is not empty and fits.  Each round takes an octet at least. -/
def scanEsd : ℕ → Bytes → Except CmafError Bytes
  | 0, _ => .error .proto
  | n + 1, d =>
    if d.length ≤ 2 then .error .proto
    else
      let tag := d.getD 0 0
      let (sz, rest) := descrLen 4 0 (d.drop 1)
      if tag = 0x05 && sz > 0 && sz ≤ rest.length then .ok (rest.take sz)
      else if tag = 0x03 then
        if rest.length < 3 then .error .proto else scanEsd n (rest.drop 3)
      else if tag = 0x04 then
        if rest.length < 13 then .error .proto else scanEsd n (rest.drop 13)
      else scanEsd n (rest.drop sz)

/-- The `esds` branch of `extract_codec_config`. -/
def extractAac (children : Bytes) : Except CmafError Bytes := do
  let esds ← needPayload children (fourccOf "esds")
  if esds.length < 4 then throw .proto
  scanEsd (esds.length - 4) (esds.drop 4)

/-- `extract_codec_config`. -/
def extractCodecConfig (etype : ℕ) (children : Bytes) (info : InitInfo) :
    Except CmafError InitInfo :=
  let report (kind : CmafCodec) (config : Except CmafError Bytes) :=
    config.map fun codecConfig => { info with codecKind := kind, codecConfig }
  if etype = fourccOf "avc1" || etype = fourccOf "avc3" then
    report .avc (needPayload children (fourccOf "avcC"))
  else if etype = fourccOf "hev1" || etype = fourccOf "hvc1" then
    report .hevc (needPayload children (fourccOf "hvcC"))
  else if etype = fourccOf "av01" then report .av1 (needPayload children (fourccOf "av1C"))
  else if etype = fourccOf "mp4a" then report .aac (extractAac children)
  else if etype = fourccOf "Opus" then report .opus (needPayload children (fourccOf "dOps"))
  else .ok { info with codecKind := .unknown }

/-- `parse_cenc_sinf`: the protection, and the original format. -/
def parseCencSinf (children : Bytes) (info : InitInfo) : Except CmafError (InitInfo × ℕ) := do
  let sinf ← needPayload children (fourccOf "sinf")
  let frma ← needPayload sinf (fourccOf "frma")
  if frma.length < 4 then throw .proto
  let schm ← needPayload sinf (fourccOf "schm")
  if schm.length < 12 then throw .proto
  let tenc ← nestedPayload sinf (fourccOf "schi") (fourccOf "tenc")
  if tenc.length < 24 then throw .proto
  return ({ info with
    scheme := (schm.drop 4).take 4
    defaultIsProtected := tenc.getD 6 0
    defaultPerSampleIvSize := tenc.getD 7 0
    defaultKid := (tenc.drop 8).take 16
    hasCenc := true }, rd32 frma)

/-- The visual sample entries. -/
def isVisualEntry (etype : ℕ) : Bool :=
  etype ∈ [fourccOf "avc1", fourccOf "avc3", fourccOf "hev1", fourccOf "hvc1", fourccOf "av01",
    fourccOf "encv"]

/-- The audio sample entries. -/
def isAudioEntry (etype : ℕ) : Bool := etype ∈ [fourccOf "mp4a", fourccOf "Opus", fourccOf "enca"]

/-- The fixed fields of a sample entry, of its payload: what they say, and the child boxes. -/
def entryFields (etype : ℕ) (entry : Bytes) (info : InitInfo) :
    Except CmafError (InitInfo × Bytes) :=
  if isVisualEntry etype then
    if entry.length < 78 then .error .proto
    else .ok ({ info with width := rd16 (entry.drop 24), height := rd16 (entry.drop 26) },
      entry.drop 78)
  else if entry.length < 28 then .error .proto
  else .ok ({ info with samplerate := rd16 (entry.drop 24), channelCount := rd16 (entry.drop 16) },
    entry.drop 28)

/-- The codec of a sample entry from its child boxes; an encrypted entry names its own format. -/
def entryCodec (etype : ℕ) (children : Bytes) (info : InitInfo) : Except CmafError InitInfo :=
  if etype = fourccOf "encv" || etype = fourccOf "enca" then do
    let (info, frma) ← parseCencSinf children info
    extractCodecConfig frma children { info with sampleEntry := frma }
  else extractCodecConfig etype children info

/-- `parse_stsd_entry`, of the payload of the `stsd`. -/
def parseStsdEntry (stsd : Bytes) (info : InitInfo) : Except CmafError InitInfo :=
  if stsd.length < 8 then .error .proto
  else
    let body := stsd.drop 8
    match readBox body with
    | none => .error .proto
    | some entry =>
      let etype := boxType body
      let info := { info with sampleEntry := etype }
      if isVisualEntry etype || isAudioEntry etype then do
        let (info, children) ← entryFields etype (entry.payload body) info
        entryCodec etype children info
      else .ok { info with codecKind := .unknown }

/-- The track id of a `tkhd`, of its payload; zero when it is too short. -/
def tkhdTrackId (p : Bytes) : ℕ :=
  let offset := if p.getD 0 0 = 1 then 20 else 12
  if p.length < 4 then 0 else if p.length < offset + 4 then 0 else rd32 (p.drop offset)

/-- The track id of a `trak`, zero when it has no `tkhd` that can be read. -/
def trakTrackId (trak : Bytes) : ℕ :=
  match needPayload trak (fourccOf "tkhd") with
  | .ok tkhd => tkhdTrackId tkhd
  | .error _ => 0

/-- `parse_init_full`. -/
def parseInitFull (d : Bytes) : Except CmafError InitInfo := do
  let trak ← nestedPayload d (fourccOf "moov") (fourccOf "trak")
  let mdia ← needPayload trak (fourccOf "mdia")
  let mdhd ← needPayload mdia (fourccOf "mdhd")
  let timescale ← parseMdhdTimescale mdhd
  let minf ← needPayload mdia (fourccOf "minf")
  let stbl ← needPayload minf (fourccOf "stbl")
  let stsd ← needPayload stbl (fourccOf "stsd")
  parseStsdEntry stsd { trackId := trakTrackId trak, timescale }

end MoqRelay.Cmaf
