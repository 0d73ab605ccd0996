import Mathlib.Data.UInt
import MoqRelay.Cmaf.Box

/-!
# Cmaf/Packager — the CMAF packager

`cmaf_packager.c`, up to its init segment: a configuration is checked and the segment built.  The
codec records are checked by the code of another component, so the checks are parameters here, and
so is whether an allocation succeeds.  The writing of fragments is left out.
-/

namespace MoqRelay.Cmaf

/-! ## Configuration -/

/-- `moq_cmaf_sample_entry_t`. -/
inductive CmafEntry
  | unset | avc1 | avc3 | hvc1 | hev1 | mp4a | av01 | opus
  deriving DecidableEq, Repr

/-- `moq_cmaf_sample_format_t`. -/
inductive CmafFormat
  | unset | nalAnnexb | nalLengthPrefixed | aacRaw | aacAdts | av1Obu | opusPacket
  deriving DecidableEq, Repr

/-- `moq_cmaf_packager_cfg_t`. -/
structure PackagerCfg where
  sampleEntry : CmafEntry
  codecConfig : Bytes
  sampleFormat : CmafFormat
  (timescale trackId sourceTimebaseNum sourceTimebaseDen : UInt32)
  rebaseTimestamps : Bool
  (width height samplerate channelCount avgBitrate : UInt32)
  deriving DecidableEq, Repr

/-- `codec_asc_info_t`, as far as the packager reads it. -/
structure AscInfo where
  (objectType frequencyIndex frequency : ℕ)
  declaredFrequencyKnown : Bool
  declaredChannels : ℕ
  declaredChannelsKnown : Bool

/-- The checks of codec records: `moq_codec_init_data_build`, `moq_codec_string_format` and
`codec_asc_inspect`. -/
structure CodecChecks where
  record : CmafEntry → Bytes → Except CmafError Unit
  signaling : CmafEntry → Bytes → Except CmafError Unit
  asc : Bytes → Except CmafError AscInfo

/-- `PACKAGER_MAX_CONFIG`. -/
def packagerMaxConfig : ℕ := 1024 * 1024

/-- `RESCALE_MAX`. -/
def rescaleMax : ℕ := 0x7fffffff

/-- `codec_is_video`. -/
def CmafEntry.isVideo (kind : CmafEntry) : Bool := kind = .avc1 || kind = .hvc1 || kind = .av01

/-- `codec_is_nal`. -/
def CmafEntry.isNal (kind : CmafEntry) : Bool := kind = .avc1 || kind = .hvc1

/-- A check of a value. -/
def cmafRefuse (bad : Bool) (e : CmafError) : Except CmafError Unit :=
  if bad then .error e else .ok ()

/-- `config_codec`: the entries the packager writes. -/
def configCodec (kind : CmafEntry) : Except CmafError Unit :=
  match kind with
  | .avc3 | .hev1 => .error .unsupported
  | .unset => .error .inval
  | _ => .ok ()

/-- The sample formats of an entry. -/
def formatOk (kind : CmafEntry) (format : CmafFormat) : Bool :=
  if kind.isNal then format = .nalAnnexb || format = .nalLengthPrefixed
  else if kind = .mp4a then format = .aacRaw || format = .aacAdts
  else if kind = .av01 then format = .av1Obu
  else format = .opusPacket

section

variable (cfg : PackagerCfg)

/-- The part of `validate_cfg` for video. -/
def validateVideo : Except CmafError PackagerCfg := do
  cmafRefuse (cfg.width = 0 || cfg.height = 0 || cfg.width > 0xFFFF || cfg.height > 0xFFFF) .inval
  return cfg

/-- The part of `validate_cfg` for audio. -/
def validateAudio : Except CmafError PackagerCfg := do
  cmafRefuse (cfg.samplerate = 0 || cfg.samplerate > 0xFFFF || cfg.channelCount = 0 ||
    cfg.channelCount > 0xFFFF) .inval
  cmafRefuse (cfg.sampleEntry = .opus && cfg.samplerate ≠ 48000) .inval
  cmafRefuse (cfg.timescale ≠ 0 && cfg.timescale ≠ cfg.samplerate) .inval
  return { cfg with timescale := cfg.samplerate }

/-- The part of `validate_cfg` for the kind of media. -/
def validateMedia : Except CmafError PackagerCfg :=
  if cfg.sampleEntry.isVideo then validateVideo cfg else validateAudio cfg

/-- The last check of `validate_cfg`. -/
def timingBad : Bool :=
  !formatOk cfg.sampleEntry cfg.sampleFormat || cfg.timescale = 0 ||
    cfg.timescale.toNat > rescaleMax || cfg.sourceTimebaseDen.toNat > rescaleMax ||
    (decide (cfg.sourceTimebaseNum = 0) != decide (cfg.sourceTimebaseDen = 0)) ||
    cfg.timescale.toNat * cfg.sourceTimebaseNum.toNat > rescaleMax

/-- `validate_cfg`: the configuration with what it derives filled in. -/
def validateCfg : Except CmafError PackagerCfg := do
  cmafRefuse (cfg.codecConfig.length = 0) .inval
  cmafRefuse (cfg.codecConfig.length > packagerMaxConfig) .unsupported
  cmafRefuse (cfg.trackId = 0xFFFFFFFF) .inval
  let cfg ← validateMedia { cfg with trackId := if cfg.trackId = 0 then 1 else cfg.trackId }
  cmafRefuse (timingBad cfg) .inval
  return cfg

end

/-- The comparison of a codec record with the configured rate and channels. -/
def checkAudioRecord (checks : CodecChecks) (cfg : PackagerCfg) : Except CmafError Unit :=
  if cfg.sampleEntry = .mp4a then do
    let info ← checks.asc cfg.codecConfig
    cmafRefuse (info.declaredFrequencyKnown && info.frequency ≠ cfg.samplerate.toNat ||
      info.declaredChannelsKnown && info.declaredChannels ≠ cfg.channelCount.toNat) .inval
  else if cfg.sampleEntry = .opus then do
    let channels := (cfg.codecConfig.getD 1 0).toNat
    cmafRefuse (channels = 0) .proto
    cmafRefuse (channels ≠ cfg.channelCount.toNat) .inval
  else .ok ()

/-- `adts_config`. -/
def adtsConfig (checks : CodecChecks) (cfg : PackagerCfg) : Except CmafError Unit := do
  let info ← checks.asc cfg.codecConfig
  cmafRefuse (cfg.codecConfig.length ≠ 2 || info.objectType < 1 || info.objectType > 4 ||
    info.frequencyIndex > 12 || !info.declaredFrequencyKnown || !info.declaredChannelsKnown ||
    (cfg.codecConfig.getD 1 0) &&& 7 ≠ 0) .unsupported
  cmafRefuse (info.frequency ≠ cfg.samplerate.toNat ||
    info.declaredChannels ≠ cfg.channelCount.toNat) .inval

/-- The check for ADTS framing, if that is the format. -/
def checkAdts (checks : CodecChecks) (cfg : PackagerCfg) : Except CmafError Unit :=
  if cfg.sampleFormat = .aacAdts then adtsConfig checks cfg else .ok ()

/-- `nal_length_size_from_record`. -/
def nalLengthSizeFromRecord (kind : CmafEntry) (record : Bytes) : Except CmafError ℕ :=
  let offset := if kind = .avc1 then 4 else 21
  let minLen := if kind = .avc1 then 7 else 23
  if record.length < minLen then .error .proto
  else .ok ((record.getD offset 0 &&& 3).toNat + 1)

/-- The width of a length prefix. -/
def nalWidth (cfg : PackagerCfg) : Except CmafError ℕ :=
  if cfg.sampleEntry.isNal then do
    let width ← nalLengthSizeFromRecord cfg.sampleEntry cfg.codecConfig
    cmafRefuse (width = 3) .unsupported
    return width
  else .ok 4

/-- `moq_cmaf_packager_t`. -/
structure Packager where
  codecKind : CmafEntry
  sampleFormat : CmafFormat
  (timescale trackId : UInt32)
  nextDts : ℤ := 0
  avgBitrate : UInt32
  nalLengthSize : ℕ
  (srcNum srcDen : ℤ)
  rebase : Bool
  haveOrigin : Bool := false
  origin : ℤ := 0
  sequenceNumber : UInt32 := 0
  codecConfig : Bytes
  (init frag mdat : GrowBuf)

/-! ## The init segment -/

/-- The octets of a text. -/
def ascii (text : String) : Bytes := text.toList.map fun c => UInt8.ofNat c.toNat

/-- `FOURCC`, of a text. -/
def fourccOf (text : String) : ℕ := fourcc (ascii text)

/-- `sample_entry_type`. -/
def CmafEntry.type : CmafEntry → ℕ
  | .avc1 => fourccOf "avc1"
  | .hvc1 => fourccOf "hvc1"
  | .av01 => fourccOf "av01"
  | .mp4a => fourccOf "mp4a"
  | .opus => fourccOf "Opus"
  | _ => 0

/-- `write_ftyp`. -/
def writeFtyp : Put Unit := box (fourccOf "ftyp") do
  put32 (fourccOf "cmfc")
  put32 0
  put32 (fourccOf "cmfc")
  put32 (fourccOf "iso6")
  put32 (fourccOf "isom")

/-- An error of the buffer. -/
def putFail (e : CmafError) : Put Unit := fun b => ((), { b with err := some e })

/-- `put_descr`. -/
def putDescr (tag payloadLen : ℕ) : Put Unit :=
  if payloadLen > 0x0fffffff then putFail .unsupported
  else do
    put8 tag
    put8 (0x80 ||| (payloadLen >>> 21 &&& 0x7f))
    put8 (0x80 ||| (payloadLen >>> 14 &&& 0x7f))
    put8 (0x80 ||| (payloadLen >>> 7 &&& 0x7f))
    put8 (payloadLen &&& 0x7f)

/-- `DESCR_HDR`. -/
def descrHdr : ℕ := 5

/-- The `esds` of `write_codec_config_box`. -/
def writeEsds (p : Packager) : Put Unit := box (fourccOf "esds") do
  let dsiPayload := p.codecConfig.length
  let dcdPayload := 13 + descrHdr + dsiPayload
  let esdPayload := 3 + descrHdr + dcdPayload + descrHdr + 1
  putFullbox 0 0
  putDescr 0x03 esdPayload
  put16 p.trackId.toNat
  put8 0
  putDescr 0x04 dcdPayload
  put8 0x40
  put8 0x15
  put24 0
  put32 p.avgBitrate.toNat
  put32 p.avgBitrate.toNat
  putDescr 0x05 dsiPayload
  putBytes p.codecConfig
  putDescr 0x06 1
  put8 0x02

/-- `write_codec_config_box`. -/
def writeCodecConfigBox (p : Packager) : Put Unit :=
  match p.codecKind with
  | .avc1 => box (fourccOf "avcC") (putBytes p.codecConfig)
  | .hvc1 => box (fourccOf "hvcC") (putBytes p.codecConfig)
  | .av01 => box (fourccOf "av1C") (putBytes p.codecConfig)
  | .opus => box (fourccOf "dOps") (putBytes p.codecConfig)
  | .mp4a => writeEsds p
  | _ => putFail .unsupported

/-- The video fields of `write_sample_entry`. -/
def writeVisual (cfg : PackagerCfg) : Put Unit := do
  putZero 2
  putZero 2
  putZero 12
  put16 cfg.width.toNat
  put16 cfg.height.toNat
  put32 0x00480000
  put32 0x00480000
  put32 0
  put16 1
  putZero 32
  put16 0x0018
  put16 0xffff

/-- The audio fields of `write_sample_entry`. -/
def writeAudio (p : Packager) (cfg : PackagerCfg) : Put Unit := do
  putZero 8
  put16 cfg.channelCount.toNat
  put16 16
  putZero 2
  putZero 2
  put32 ((if p.codecKind = .opus then 48000 else cfg.samplerate.toNat) <<< 16)

/-- The fields of `write_sample_entry` that depend on the kind of media. -/
def writeMediaFields (p : Packager) (cfg : PackagerCfg) : Put Unit :=
  if p.codecKind.isVideo then writeVisual cfg else writeAudio p cfg

/-- `write_sample_entry`. -/
def writeSampleEntry (p : Packager) (cfg : PackagerCfg) : Put Unit := box p.codecKind.type do
  putZero 6
  put16 1
  writeMediaFields p cfg
  writeCodecConfigBox p

/-- A full box of zero words: the empty sample tables. -/
def writeEmptyTable (type words : ℕ) : Put Unit := box type do
  putFullbox 0 0
  putZero (4 * words)

/-- `write_stbl`. -/
def writeStbl (p : Packager) (cfg : PackagerCfg) : Put Unit := box (fourccOf "stbl") do
  box (fourccOf "stsd") do
    putFullbox 0 0
    put32 1
    writeSampleEntry p cfg
  writeEmptyTable (fourccOf "stts") 1
  writeEmptyTable (fourccOf "stsc") 1
  writeEmptyTable (fourccOf "stsz") 2
  writeEmptyTable (fourccOf "stco") 1

/-- The media header of `write_minf`. -/
def writeMediaHeader (video : Bool) : Put Unit :=
  if video then box (fourccOf "vmhd") do
    putFullbox 0 1
    put16 0
    putZero 6
  else box (fourccOf "smhd") do
    putFullbox 0 0
    put16 0
    put16 0

/-- `write_minf`. -/
def writeMinf (p : Packager) (cfg : PackagerCfg) : Put Unit := box (fourccOf "minf") do
  writeMediaHeader p.codecKind.isVideo
  box (fourccOf "dinf") <| box (fourccOf "dref") do
    putFullbox 0 0
    put32 1
    box (fourccOf "url ") (putFullbox 0 1)
  writeStbl p cfg

/-- The unity matrix. -/
def putMatrix : Put Unit := do
  put32 0x00010000
  put32 0
  put32 0
  put32 0
  put32 0x00010000
  put32 0
  put32 0
  put32 0
  put32 0x40000000

/-- The track header of `write_trak`. -/
def writeTkhd (p : Packager) (cfg : PackagerCfg) : Put Unit := box (fourccOf "tkhd") do
  putFullbox 0 3
  put32 0
  put32 0
  put32 p.trackId.toNat
  put32 0
  put32 0
  putZero 8
  put16 0
  put16 0
  put16 (if p.codecKind.isVideo then 0 else 0x0100)
  put16 0
  putMatrix
  put32 (if p.codecKind.isVideo then cfg.width.toNat <<< 16 else 0)
  put32 (if p.codecKind.isVideo then cfg.height.toNat <<< 16 else 0)

/-- The media header of `write_trak`. -/
def writeMdhd (p : Packager) : Put Unit := box (fourccOf "mdhd") do
  putFullbox 0 0
  put32 0
  put32 0
  put32 p.timescale.toNat
  put32 0
  put16 0x55c4
  put16 0

/-- The handler of `write_trak`. -/
def writeHdlr (video : Bool) : Put Unit := box (fourccOf "hdlr") do
  putFullbox 0 0
  put32 0
  put32 (if video then fourccOf "vide" else fourccOf "soun")
  putZero 12
  putBytes (ascii (if video then "VideoHandler" else "SoundHandler") ++ [0])

/-- `write_trak`. -/
def writeTrak (p : Packager) (cfg : PackagerCfg) : Put Unit := box (fourccOf "trak") do
  writeTkhd p cfg
  box (fourccOf "mdia") do
    writeMdhd p
    writeHdlr p.codecKind.isVideo
    writeMinf p cfg

/-- The movie header of `write_moov`. -/
def writeMvhd (p : Packager) : Put Unit := box (fourccOf "mvhd") do
  putFullbox 0 0
  put32 0
  put32 0
  put32 1000
  put32 0
  put32 0x00010000
  put16 0x0100
  put16 0
  putZero 8
  putMatrix
  putZero 24
  put32 (p.trackId.toNat + 1)

/-- `write_moov`. -/
def writeMoov (p : Packager) (cfg : PackagerCfg) : Put Unit := box (fourccOf "moov") do
  writeMvhd p
  writeTrak p cfg
  box (fourccOf "mvex") <| box (fourccOf "trex") do
    putFullbox 0 0
    put32 p.trackId.toNat
    put32 1
    put32 0
    put32 0
    put32 0

/-- The allocator of a packager: whether it grants the packager, its copy of the configuration, and
each request of the three buffers. -/
structure PackagerAlloc where
  (self config : Bool)
  init : ℕ → Bool
  frag : ℕ → Bool
  mdat : ℕ → Bool

/-- A packager before its init segment is written. -/
def newPackager (alloc : PackagerAlloc) (cfg : PackagerCfg) (width : ℕ) : Packager where
  codecKind := cfg.sampleEntry
  sampleFormat := cfg.sampleFormat
  timescale := cfg.timescale
  trackId := cfg.trackId
  avgBitrate := cfg.avgBitrate
  nalLengthSize := width
  srcNum := cfg.timescale.toNat * cfg.sourceTimebaseNum.toNat
  srcDen := cfg.sourceTimebaseDen.toNat
  rebase := cfg.rebaseTimestamps
  codecConfig := cfg.codecConfig
  init := { grants := alloc.init }
  frag := { grants := alloc.frag }
  mdat := { grants := alloc.mdat }

/-- The init segment written into its buffer. -/
def writeInit (p : Packager) (cfg : PackagerCfg) : GrowBuf :=
  ((do writeFtyp; writeMoov p cfg : Put Unit) p.init).2

/-- `moq_cmaf_packager_create`. -/
def packagerCreate (checks : CodecChecks) (alloc : PackagerAlloc) (cfg : PackagerCfg) :
    Except CmafError Packager := do
  configCodec cfg.sampleEntry
  let c ← validateCfg cfg
  checks.record c.sampleEntry c.codecConfig
  checks.signaling c.sampleEntry c.codecConfig
  checkAudioRecord checks c
  checkAdts checks c
  let width ← nalWidth c
  cmafRefuse (!alloc.self) .nomem
  cmafRefuse (!alloc.config) .nomem
  let p := newPackager alloc c width
  let init := writeInit p c
  match init.err with
  | some e => throw e
  | none => return { p with init }

end MoqRelay.Cmaf
