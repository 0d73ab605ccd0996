import MoqRelay.Cmaf.ParseInit
import MoqRelay.Lib.Parser

/-!
# Cmaf/InitTrip — the init segment, written and parsed

The packager's writers emit nested boxes (`Emits`), and over the octets of boxes the parser's search
takes two steps only: the box it looks for is here, or it skips a sibling.  So what the parser
reports is read off the octets.  The search never enters a codec record: the `esds` scan goes from
descriptor to descriptor by the lengths the packager wrote.
-/

namespace MoqRelay.Cmaf

open List

/-! ## Walking boxes -/

/-- The payload of a box, whatever follows. -/
theorem payload_boxOctets (type : ℕ) (payload r : Bytes) :
    (⟨8 + payload.length, 8⟩ : BoxHead).payload (boxOctets type payload ++ r) = payload := by
  rw [BoxHead.payload, take_left' (length_boxOctets _ _)]
  have := drop_boxOctets type payload []
  rwa [append_nil, append_nil] at this

variable {type other : ℕ} {payload r q : Bytes}

/-- The box in front is found. -/
theorem findBox_here (htype : type < 2 ^ 32) (h : 8 + payload.length < 2 ^ 32) (r : Bytes) :
    findBox (boxOctets type payload ++ r) type = .at 0 := by
  rw [findBox_eq (readBox_boxOctets h r), if_pos (boxType_boxOctets htype payload r)]

/-- Another is passed over by its size. -/
theorem findBox_skip (hother : other < 2 ^ 32)
    (hne : other ≠ type) (h : 8 + payload.length < 2 ^ 32) (r : Bytes) :
    findBox (boxOctets other payload ++ r) type =
      (findBox r type).shift (8 + payload.length) := by
  rw [findBox_eq (readBox_boxOctets h r), boxType_boxOctets hother, if_neg hne]
  rw [drop_left' (length_boxOctets _ _)]

/-- **The box is here.** -/
theorem needPayload_here (htype : type < 2 ^ 32) (h : 8 + payload.length < 2 ^ 32) (r : Bytes) :
    needPayload (boxOctets type payload ++ r) type = .ok payload := by
  rw [needPayload, needBox, findBox_here htype h]
  dsimp only
  rw [drop_zero, readBox_boxOctets h]
  exact congrArg Except.ok (payload_boxOctets type payload r)

/-- **A sibling is skipped.** -/
theorem needPayload_skip (hother : other < 2 ^ 32)
    (hne : other ≠ type) (h : 8 + payload.length < 2 ^ 32) (r : Bytes) :
    needPayload (boxOctets other payload ++ r) type = needPayload r type := by
  rw [needPayload, needPayload, needBox, needBox, findBox_skip hother hne h]
  cases hf : findBox r type with
  | absent => rfl
  | malformed => rfl
  | «at» offset =>
    have hdrop : (boxOctets other payload ++ r).drop (8 + payload.length + offset) =
        r.drop offset := by
      rw [← drop_drop, drop_left' (length_boxOctets _ _)]
    simp only [Found.shift, hdrop]

/-- The second of two boxes. -/
theorem needBox_second {p : Bytes} (hother : other < 2 ^ 32)
    (htype : type < 2 ^ 32) (hne : other ≠ type) (hp : 8 + p.length < 2 ^ 32)
    (hfits : 8 + payload.length < 2 ^ 32) :
    findBox (boxOctets other p ++ (boxOctets type payload ++ r)) type = .at (8 + p.length) ∧
      needBox (boxOctets other p ++ (boxOctets type payload ++ r)) type =
        .ok (boxOctets type payload ++ r, ⟨8 + payload.length, 8⟩) := by
  have hfind : findBox (boxOctets other p ++ (boxOctets type payload ++ r)) type =
      .at (8 + p.length) := by
    rw [findBox_skip hother hne hp, findBox_here htype hfits]
    rfl
  refine ⟨hfind, ?_⟩
  rw [needBox, hfind]
  dsimp only
  rw [drop_left' (length_boxOctets _ _), readBox_boxOctets hfits]

/-- A box in a box, second on both levels. -/
theorem nestedPayload_second {outer inner o i : ℕ} {p rest : Bytes}
    (ho : o < 2 ^ 32) (houter : outer < 2 ^ 32) (hi : i < 2 ^ 32) (hinner : inner < 2 ^ 32)
    (hneo : o ≠ outer) (hnei : i ≠ inner)
    (hfits : (boxOctets o p ++ (boxOctets outer (boxOctets i q ++
      (boxOctets inner payload ++ rest)) ++ r)).length < 2 ^ 32) :
    nestedPayload (boxOctets o p ++ (boxOctets outer (boxOctets i q ++
      (boxOctets inner payload ++ rest)) ++ r)) outer inner = .ok payload := by
  simp only [length_append, length_boxOctets] at hfits
  obtain ⟨hfo, hno⟩ := @needBox_second outer o
    (boxOctets i q ++ (boxOctets inner payload ++ rest)) r p ho houter hneo (by omega)
    (by simp only [length_append, length_boxOctets]; omega)
  obtain ⟨hfi, hni⟩ := @needBox_second inner i payload rest q hi hinner hnei (by omega) (by omega)
  rw [nestedPayload, hno, hfo]
  dsimp only
  rw [payload_boxOctets, hni, hfi]
  dsimp only
  have hdrop : (boxOctets o p ++ (boxOctets outer (boxOctets i q ++
      (boxOctets inner payload ++ rest)) ++ r)).drop (8 + p.length + 8 + (8 + q.length)) =
      boxOctets inner payload ++ (rest ++ r) := by
    rw [Nat.add_assoc (8 + p.length), ← drop_drop, drop_left' (length_boxOctets _ _),
      ← drop_drop, drop_boxOctets, append_assoc, append_assoc, drop_left' (length_boxOctets _ _)]
  rw [hdrop, readBox_boxOctets (by omega)]
  exact congrArg Except.ok (payload_boxOctets inner payload (rest ++ r))

/-! ## Descriptors -/

/-- The octets `put_descr` writes after the tag. -/
def descrOctets (len : ℕ) : Bytes :=
  beBytes 1 (0x80 ||| (len >>> 21 &&& 0x7f)) ++ (beBytes 1 (0x80 ||| (len >>> 14 &&& 0x7f)) ++
    (beBytes 1 (0x80 ||| (len >>> 7 &&& 0x7f)) ++ beBytes 1 (len &&& 0x7f)))

variable {len : ℕ}

theorem length_descrOctets (len : ℕ) : (descrOctets len).length = 4 := by simp [descrOctets]

theorem beBytes_one (v : ℕ) : beBytes 1 v = [UInt8.ofNat v] := by simp [beBytes]

theorem descr_octet : ∀ x < 128, (UInt8.ofNat (0x80 ||| x) &&& 0x7F).toNat = x ∧
    UInt8.ofNat (0x80 ||| x) &&& 0x80 ≠ 0 ∧ (UInt8.ofNat x &&& 0x7F).toNat = x ∧
    UInt8.ofNat x &&& 0x80 = 0 := by decide +kernel

theorem and_seven (n : ℕ) : n &&& 0x7f = n % 128 := Nat.and_two_pow_sub_one_eq_mod n 7

/-- **The length of a descriptor is read back.** -/
theorem descrLen_descrOctets (h : len ≤ 0x0fffffff) (d : Bytes) :
    descrLen 4 0 (descrOctets len ++ d) = (len, d) := by
  have hor : ∀ a b, b < 128 → (a <<< 7 ||| b) = a * 128 + b := fun a b hb => by
    rw [← Nat.shiftLeft_add_eq_or_of_lt hb, Nat.shiftLeft_eq]
  simp only [descrOctets, beBytes_one, and_seven, Nat.shiftRight_eq_div_pow,
    cons_append, nil_append]
  obtain ⟨h₁, n₁, -⟩ := descr_octet (len / 2 ^ 21 % 128) (Nat.mod_lt _ (by decide))
  obtain ⟨h₂, n₂, -⟩ := descr_octet (len / 2 ^ 14 % 128) (Nat.mod_lt _ (by decide))
  obtain ⟨h₃, n₃, -⟩ := descr_octet (len / 2 ^ 7 % 128) (Nat.mod_lt _ (by decide))
  obtain ⟨-, -, h₄, z₄⟩ := descr_octet (len % 128) (Nat.mod_lt _ (by decide))
  rw [descrLen, if_neg n₁, descrLen, if_neg n₂, descrLen, if_neg n₃, descrLen, if_pos z₄,
    h₁, h₂, h₃, h₄, hor _ _ (Nat.mod_lt _ (by decide)), hor _ _ (Nat.mod_lt _ (by decide)),
    hor _ _ (Nat.mod_lt _ (by decide)), hor _ _ (Nat.mod_lt _ (by decide))]
  congr 1
  omega

/-- One round of the descriptor scan. -/
theorem scanEsd_descr (h : len ≤ 0x0fffffff) (tag : UInt8) (body : Bytes) (n : ℕ) :
    scanEsd (n + 1) ([tag] ++ descrOctets len ++ body) =
      if tag = 0x05 && len > 0 && len ≤ body.length then .ok (body.take len)
      else if tag = 0x03 then
        if body.length < 3 then .error .proto else scanEsd n (body.drop 3)
      else if tag = 0x04 then
        if body.length < 13 then .error .proto else scanEsd n (body.drop 13)
      else scanEsd n (body.drop len) := by
  rw [scanEsd]
  have hdrop : ([tag] ++ descrOctets len ++ body).drop 1 = descrOctets len ++ body := by rfl
  simp only [hdrop, descrLen_descrOctets h]
  rfl

/-! ## What the packager emits -/

/-- A writer without a result, by its octets. -/
def Writes (m : Put Unit) (payload : Bytes) : Prop := Emits m payload fun _ => ()

variable {m n : Put Unit}

theorem Writes.seq {p : Bytes} (hm : Writes m p) (hn : Writes n q) :
    Writes (m >>= fun _ => n) (p ++ q) := Emits.seq hm hn

theorem Writes.box {p : Bytes} (hm : Writes m p) (type : ℕ) :
    Writes (box type m) (boxOctets type p) := emits_box type hm

theorem writes_putBytes (bytes : Bytes) : Writes (putBytes bytes) bytes := emits_putBytes bytes

theorem Writes.bytes {b : Bytes} (hn : Writes n q) :
    Writes (putBytes b >>= fun _ => n) (b ++ q) := (writes_putBytes b).seq hn

theorem writes_putFullbox (version flags : ℕ) :
    Writes (putFullbox version flags) (beBytes 1 version ++ beBytes 3 flags) :=
  emits_putFullbox version flags

theorem writes_putDescr (h : len ≤ 0x0fffffff) (tag : ℕ) :
    Writes (putDescr tag len) (beBytes 1 tag ++ descrOctets len) := by
  rw [putDescr, if_neg (by omega)]
  exact .bytes <| .bytes <| .bytes <| .bytes (writes_putBytes _)

theorem writes_putMatrix : ∃ payload, Writes putMatrix payload :=
  ⟨_, .bytes <| .bytes <| .bytes <| .bytes <| .bytes <| .bytes <| .bytes <|
    .bytes (writes_putBytes _)⟩

/-! ## The codec record -/

/-- The payload of the `esds`, by descriptors. -/
def esdsOctets (p : Packager) : Bytes :=
  (beBytes 1 0 ++ beBytes 3 0) ++
    (beBytes 1 3 ++ descrOctets (3 + descrHdr + (13 + descrHdr + p.codecConfig.length) +
        descrHdr + 1) ++
      ((beBytes 2 p.trackId.toNat ++ beBytes 1 0) ++
        (beBytes 1 4 ++ descrOctets (13 + descrHdr + p.codecConfig.length) ++
          ((beBytes 1 0x40 ++ (beBytes 1 0x15 ++ (beBytes 3 0 ++ (beBytes 4 p.avgBitrate.toNat ++
            beBytes 4 p.avgBitrate.toNat)))) ++
            (beBytes 1 5 ++ descrOctets p.codecConfig.length ++ (p.codecConfig ++
              (beBytes 1 6 ++ descrOctets 1 ++ beBytes 1 2)))))))

variable {p : Packager} {fields : Bytes}

/-- The `esds` is written as its descriptors. -/
theorem writes_writeEsds (h : p.codecConfig.length ≤ packagerMaxConfig) :
    Writes (writeEsds p) (boxOctets (fourccOf "esds") (esdsOctets p)) := by
  rw [packagerMaxConfig] at h
  have hwrites : Writes (writeEsds p) _ := Writes.box ((writes_putFullbox _ _).seq <|
    (writes_putDescr (by rw [descrHdr]; omega) _).seq <| .bytes <| .bytes <|
    (writes_putDescr (by rw [descrHdr]; omega) _).seq <| .bytes <| .bytes <| .bytes <|
    .bytes <| .bytes <| (writes_putDescr (by omega) _).seq <| .bytes <|
    (writes_putDescr (by omega) _).seq (writes_putBytes _)) _
  simpa only [esdsOctets, append_assoc] using hwrites

/-- The scan enters the ES descriptor. -/
theorem scanEsd_es (h : len ≤ 0x0fffffff) (hfields : fields.length = 3) (rest : Bytes) (n : ℕ) :
    scanEsd (n + 1) (beBytes 1 3 ++ descrOctets len ++ (fields ++ rest)) = scanEsd n rest := by
  rw [beBytes_one, scanEsd_descr h, drop_left' hfields, length_append, if_neg (by simp),
    if_pos (by decide), if_neg (by omega)]

/-- It enters the decoder configuration. -/
theorem scanEsd_dcd (h : len ≤ 0x0fffffff) (hfields : fields.length = 13) (rest : Bytes) (n : ℕ) :
    scanEsd (n + 1) (beBytes 1 4 ++ descrOctets len ++ (fields ++ rest)) = scanEsd n rest := by
  rw [beBytes_one, scanEsd_descr h, drop_left' hfields, length_append, if_neg (by simp),
    if_neg (by decide), if_pos (by decide), if_neg (by omega)]

/-- It stops at the codec record. -/
theorem scanEsd_dsi {config : Bytes} (hne : config ≠ []) (h : config.length ≤ 0x0fffffff)
    (rest : Bytes) (n : ℕ) :
    scanEsd (n + 1) (beBytes 1 5 ++ descrOctets config.length ++ (config ++ rest)) =
      .ok config := by
  have hpos : 0 < config.length := length_pos_iff.mpr hne
  rw [beBytes_one, scanEsd_descr h, take_left, if_pos (by simp [hpos])]

/-- **The codec record is recovered from the nested descriptors**, whatever octets it has. -/
theorem extractAac_esds (hne : p.codecConfig ≠ [])
    (h : p.codecConfig.length ≤ packagerMaxConfig) (r : Bytes) :
    extractAac (boxOctets (fourccOf "esds") (esdsOctets p) ++ r) = .ok p.codecConfig := by
  rw [packagerMaxConfig] at h
  have hlen : (esdsOctets p).length = 41 + p.codecConfig.length := by
    simp only [esdsOctets, length_append, length_beBytes, length_descrOctets]
    omega
  have hesds : needPayload (boxOctets (fourccOf "esds") (esdsOctets p) ++ r) (fourccOf "esds") =
      .ok (esdsOctets p) := needPayload_here (by decide +kernel) (by omega) r
  have hfuel : (esdsOctets p).length - 4 = 34 + p.codecConfig.length + 1 + 1 + 1 := by omega
  rw [extractAac, hesds]
  have hlong : ¬ (esdsOctets p).length < 4 := by omega
  simp only [bind, Except.bind, hlong, if_false]
  rw [hfuel, esdsOctets, drop_left' (by simp), scanEsd_es (by rw [descrHdr]; omega) (by simp),
    scanEsd_dcd (by rw [descrHdr]; omega) (by simp), scanEsd_dsi hne (by omega)]

/-- The child box of the sample entry. -/
def codecOctets (p : Packager) : Bytes :=
  match p.codecKind with
  | .avc1 => boxOctets (fourccOf "avcC") p.codecConfig
  | .hvc1 => boxOctets (fourccOf "hvcC") p.codecConfig
  | .av01 => boxOctets (fourccOf "av1C") p.codecConfig
  | .opus => boxOctets (fourccOf "dOps") p.codecConfig
  | .mp4a => boxOctets (fourccOf "esds") (esdsOctets p)
  | _ => []

/-- The codec the parser reports for an entry. -/
def CmafEntry.codec : CmafEntry → CmafCodec
  | .avc1 | .avc3 => .avc
  | .hvc1 | .hev1 => .hevc
  | .av01 => .av1
  | .mp4a => .aac
  | .opus => .opus
  | .unset => .unknown

theorem writes_writeCodecConfigBox (hkind : configCodec p.codecKind = .ok ())
    (h : p.codecConfig.length ≤ packagerMaxConfig) :
    Writes (writeCodecConfigBox p) (codecOctets p) := by
  rw [writeCodecConfigBox, codecOctets]
  cases hk : p.codecKind with
  | avc1 | hvc1 | av01 | opus => exact (writes_putBytes _).box _
  | mp4a => exact writes_writeEsds h
  | unset | avc3 | hev1 => rw [hk] at hkind; cases hkind

theorem needPayload_only (htype : type < 2 ^ 32) (h : 8 + payload.length < 2 ^ 32) :
    needPayload (boxOctets type payload) type = .ok payload := by
  have := needPayload_here htype h []
  rwa [append_nil] at this

/-- **The codec record is recovered from the child box.** -/
theorem extractCodecConfig_codecOctets (hkind : configCodec p.codecKind = .ok ())
    (hne : p.codecConfig ≠ []) (h : p.codecConfig.length ≤ packagerMaxConfig) (info : InitInfo) :
    extractCodecConfig p.codecKind.type (codecOctets p) info =
      .ok { info with codecKind := p.codecKind.codec, codecConfig := p.codecConfig } := by
  have hfits : 8 + p.codecConfig.length < 2 ^ 32 := by
    rw [packagerMaxConfig] at h
    omega
  rw [extractCodecConfig, codecOctets]
  cases hk : p.codecKind with
  | avc1 | hvc1 | av01 =>
    rw [needPayload_only (by decide +kernel) hfits]
    rfl
  | mp4a =>
    have haac := extractAac_esds hne h []
    rw [append_nil] at haac
    rw [haac]
    rfl
  | opus =>
    rw [needPayload_only (by decide +kernel) hfits]
    rfl
  | unset | avc3 | hev1 => rw [hk] at hkind; cases hkind

/-! ## The sample entry -/

/-- The payload of a visual entry: width and height from offset 24 on, the child box at 78. -/
def visualOctets (p : Packager) (cfg : PackagerCfg) : Bytes :=
  replicate 6 0 ++ (beBytes 2 1 ++
    ((replicate 2 0 ++ (replicate 2 0 ++ (replicate 12 0 ++
      (beBytes 2 cfg.width.toNat ++ (beBytes 2 cfg.height.toNat ++ (beBytes 4 0x00480000 ++
        (beBytes 4 0x00480000 ++ (beBytes 4 0 ++ (beBytes 2 1 ++ (replicate 32 0 ++
          (beBytes 2 0x0018 ++ beBytes 2 0xffff))))))))))) ++ codecOctets p))

/-- The rate in an audio entry. -/
def entryRate (p : Packager) (cfg : PackagerCfg) : ℕ :=
  if p.codecKind = .opus then 48000 else cfg.samplerate.toNat

variable {cfg : PackagerCfg}

theorem entryRate_eq (h : p.codecKind = .opus → cfg.samplerate = 48000) :
    entryRate p cfg = cfg.samplerate.toNat := by
  rw [entryRate]
  split_ifs with hopus
  · rw [h hopus]
    rfl
  · rfl

/-- The payload of an audio entry: channels at offset 16, the rate at 24, the child box at 28. -/
def audioOctets (p : Packager) (cfg : PackagerCfg) : Bytes :=
  replicate 6 (0 : UInt8) ++ (beBytes 2 1 ++
    ((replicate 8 (0 : UInt8) ++ (beBytes 2 cfg.channelCount.toNat ++ (beBytes 2 16 ++
      (replicate 2 (0 : UInt8) ++ (replicate 2 (0 : UInt8) ++
        beBytes 4 (entryRate p cfg <<< 16)))))) ++
      codecOctets p))

/-- The payload of the sample entry. -/
def entryOctets (p : Packager) (cfg : PackagerCfg) : Bytes :=
  if p.codecKind.isVideo then visualOctets p cfg else audioOctets p cfg

theorem writes_writeSampleEntry
    (hkind : configCodec p.codecKind = .ok ()) (h : p.codecConfig.length ≤ packagerMaxConfig) :
    Writes (writeSampleEntry p cfg) (boxOctets p.codecKind.type (entryOctets p cfg)) := by
  refine Writes.box ?_ _
  have hcodec := writes_writeCodecConfigBox hkind h
  rw [entryOctets, writeMediaFields]
  by_cases hvideo : p.codecKind.isVideo
  · rw [if_pos hvideo, if_pos hvideo]
    refine .bytes <| .bytes <| Writes.seq ?_ hcodec
    exact .bytes <| .bytes <| .bytes <| .bytes <| .bytes <| .bytes <| .bytes <| .bytes <|
      .bytes <| .bytes <| .bytes (writes_putBytes _)
  · rw [if_neg hvideo, if_neg hvideo]
    refine .bytes <| .bytes <| Writes.seq ?_ hcodec
    exact .bytes <| .bytes <| .bytes <| .bytes <| .bytes (writes_putBytes _)

/-- The integer part of a 16.16 number. -/
theorem rd16_fixed {v : ℕ} (h : v < 2 ^ 16) (r : Bytes) : rd16 (beBytes 4 (v <<< 16) ++ r) = v := by
  have hshift : v <<< 16 >>> 8 >>> 8 = v := by rw [← Nat.shiftRight_add, Nat.shiftLeft_shiftRight]
  rw [beBytes_succ 3, beBytes_succ 2, hshift]
  exact rd16_beBytes h _

/-- Width and height are read at their offsets. -/
theorem entryFields_visual (hw : cfg.width.toNat < 2 ^ 16)
    (hh : cfg.height.toNat < 2 ^ 16) (hvideo : isVisualEntry p.codecKind.type) (info : InitInfo) :
    entryFields p.codecKind.type (visualOctets p cfg) info =
      .ok ({ info with width := cfg.width.toNat, height := cfg.height.toNat }, codecOctets p) := by
  have hwidth : rd16 ((visualOctets p cfg).drop 24) = cfg.width.toNat := by
    simp [visualOctets, drop_append, drop_eq_nil_of_le, rd16_beBytes hw]
  have hheight : rd16 ((visualOctets p cfg).drop 26) = cfg.height.toNat := by
    simp [visualOctets, drop_append, drop_eq_nil_of_le, rd16_beBytes hh]
  have hchild : (visualOctets p cfg).drop 78 = codecOctets p := by
    simp [visualOctets, drop_append, drop_eq_nil_of_le]
  have hlong : ¬ (visualOctets p cfg).length < 78 := by
    simp only [visualOctets, length_append, length_beBytes, length_replicate]
    omega
  rw [entryFields, if_pos hvideo, if_neg hlong, hwidth, hheight, hchild]

theorem entryFields_audio (hc : cfg.channelCount.toNat < 2 ^ 16) (hr : entryRate p cfg < 2 ^ 16)
    (haudio : ¬ isVisualEntry p.codecKind.type) (info : InitInfo) :
    entryFields p.codecKind.type (audioOctets p cfg) info =
      .ok ({ info with samplerate := entryRate p cfg, channelCount := cfg.channelCount.toNat },
        codecOctets p) := by
  have hchannels : rd16 ((audioOctets p cfg).drop 16) = cfg.channelCount.toNat := by
    simp [audioOctets, drop_append, drop_eq_nil_of_le, rd16_beBytes hc]
  have hrate : rd16 ((audioOctets p cfg).drop 24) = entryRate p cfg := by
    simp [audioOctets, drop_append, drop_eq_nil_of_le, rd16_fixed hr]
  have hchild : (audioOctets p cfg).drop 28 = codecOctets p := by
    simp [audioOctets, drop_append, drop_eq_nil_of_le]
  have hlong : ¬ (audioOctets p cfg).length < 28 := by
    simp only [audioOctets, length_append, length_beBytes, length_replicate]
    omega
  rw [entryFields, if_neg haudio, if_neg hlong, hchannels, hrate, hchild]

/-- What the parser reports for the entry of a packager. -/
def entryInfo (p : Packager) (cfg : PackagerCfg) (info : InitInfo) : InitInfo :=
  { info with
    sampleEntry := p.codecKind.type
    codecKind := p.codecKind.codec
    codecConfig := p.codecConfig
    width := if p.codecKind.isVideo then cfg.width.toNat else info.width
    height := if p.codecKind.isVideo then cfg.height.toNat else info.height
    samplerate := if p.codecKind.isVideo then info.samplerate else entryRate p cfg
    channelCount := if p.codecKind.isVideo then info.channelCount else cfg.channelCount.toNat }

/-- What the checks of a configuration leave to know about it. -/
structure CheckedCfg (p : Packager) (cfg : PackagerCfg) : Prop where
  kind : configCodec p.codecKind = .ok ()
  nonempty : p.codecConfig ≠ []
  small : p.codecConfig.length ≤ packagerMaxConfig
  video : p.codecKind.isVideo → cfg.width.toNat < 2 ^ 16 ∧ cfg.height.toNat < 2 ^ 16
  audio : p.codecKind.isVideo = false →
    cfg.channelCount.toNat < 2 ^ 16 ∧ entryRate p cfg < 2 ^ 16

/-- The type of an entry tells video from audio, and no entry is encrypted. -/
theorem entry_type {kind : CmafEntry} (h : configCodec kind = .ok ()) :
    kind.type < 2 ^ 32 ∧ isVisualEntry kind.type = kind.isVideo ∧
      (isVisualEntry kind.type || isAudioEntry kind.type) ∧
      (decide (kind.type = fourccOf "encv") || decide (kind.type = fourccOf "enca")) = false := by
  cases kind with
  | avc1 | hvc1 | av01 | mp4a | opus => decide +kernel
  | unset | avc3 | hev1 => cases h

/-- **The sample entry is recovered.** -/
theorem parseStsdEntry_entry (h : CheckedCfg p cfg)
    (hfits : 8 + (entryOctets p cfg).length < 2 ^ 32) (info : InitInfo) :
    parseStsdEntry ((beBytes 1 0 ++ beBytes 3 0) ++ (beBytes 4 1 ++
      boxOctets p.codecKind.type (entryOctets p cfg))) info = .ok (entryInfo p cfg info) := by
  obtain ⟨htype, hvisual, hknown, hclear⟩ := entry_type h.kind
  have hbody : ((beBytes 1 0 ++ beBytes 3 0) ++ (beBytes 4 1 ++
      boxOctets p.codecKind.type (entryOctets p cfg))).drop 8 =
      boxOctets p.codecKind.type (entryOctets p cfg) ++ [] := by
    rw [← append_assoc, drop_left' (by simp), append_nil]
  have hlong : ¬ ((beBytes 1 0 ++ beBytes 3 0) ++ (beBytes 4 1 ++
      boxOctets p.codecKind.type (entryOctets p cfg))).length < 8 := by
    simp only [length_append, length_beBytes]
    omega
  rw [parseStsdEntry, if_neg hlong, hbody]
  dsimp only
  rw [readBox_boxOctets hfits, boxType_boxOctets htype]
  dsimp only
  rw [payload_boxOctets, if_pos hknown]
  have hcodec := extractCodecConfig_codecOctets h.kind h.nonempty h.small
  cases hvideo : p.codecKind.isVideo with
  | true =>
    obtain ⟨hw, hh⟩ := h.video hvideo
    rw [entryOctets, if_pos hvideo, entryFields_visual hw hh (hvisual.trans hvideo)]
    simp [bind, Except.bind, entryCodec, hclear, hcodec, entryInfo, hvideo]
  | false =>
    obtain ⟨hc, hr⟩ := h.audio hvideo
    have haudio : ¬ isVisualEntry p.codecKind.type := by rw [hvisual, hvideo]; decide
    rw [entryOctets, if_neg (by rw [hvideo]; decide), entryFields_audio hc hr haudio]
    simp [bind, Except.bind, entryCodec, hclear, hcodec, entryInfo, hvideo]

/-! ## The tree of boxes

One lemma a level: what is written, and what a search in the payload finds. -/

section Tree

variable {p : Packager} {cfg : PackagerCfg}

theorem writes_writeEmptyTable (type words : ℕ) :
    ∃ payload, Writes (writeEmptyTable type words) payload :=
  ⟨_, ((writes_putFullbox _ _).seq (writes_putBytes _)).box _⟩

theorem writes_writeStbl (h : CheckedCfg p cfg) :
    ∃ payload, Writes (writeStbl p cfg) (boxOctets (fourccOf "stbl") payload) ∧
      (8 + payload.length < 2 ^ 32 → ∃ stsd, needPayload payload (fourccOf "stsd") = .ok stsd ∧
          ∀ info, parseStsdEntry stsd info = .ok (entryInfo p cfg info)) := by
  have hentry := @writes_writeSampleEntry p cfg h.kind h.small
  choose table htable using writes_writeEmptyTable
  have htables := (htable (fourccOf "stts") 1).seq <| (htable (fourccOf "stsc") 1).seq <|
    (htable (fourccOf "stsz") 2).seq (htable (fourccOf "stco") 1)
  have hstsd := ((writes_putFullbox 0 0).seq ((writes_putBytes (beBytes 4 1)).seq hentry)).box
    (fourccOf "stsd")
  refine ⟨_, (hstsd.seq htables).box _, fun hfits => ⟨_, needPayload_here ?_ ?_ _, ?_⟩⟩
  · decide +kernel
  · simp only [length_append, length_boxOctets] at hfits ⊢
    omega
  · refine parseStsdEntry_entry h ?_
    simp only [length_append, length_boxOctets] at hfits
    omega

theorem writes_dinf : ∃ payload, Writes (box (fourccOf "dinf") <| box (fourccOf "dref") do
    putFullbox 0 0
    put32 1
    box (fourccOf "url ") (putFullbox 0 1)) (boxOctets (fourccOf "dinf") payload) :=
  ⟨_, (((writes_putFullbox _ _).seq <| .bytes <| (writes_putFullbox _ _).box _).box _).box _⟩

theorem writes_writeMediaHeader (video : Bool) : ∃ type payload,
    Writes (writeMediaHeader video) (boxOctets type payload) ∧ type < 2 ^ 32 ∧
      type ≠ fourccOf "stbl" := by
  cases video with
  | true | false =>
    exact ⟨_, _, ((writes_putFullbox _ _).seq <| .bytes (writes_putBytes _)).box _,
      by decide +kernel, by decide +kernel⟩

theorem writes_writeMinf (h : CheckedCfg p cfg) :
    ∃ payload, Writes (writeMinf p cfg) (boxOctets (fourccOf "minf") payload) ∧
      (8 + payload.length < 2 ^ 32 → ∃ stbl stsd, needPayload payload (fourccOf "stbl") = .ok stbl ∧
        needPayload stbl (fourccOf "stsd") = .ok stsd ∧
          ∀ info, parseStsdEntry stsd info = .ok (entryInfo p cfg info)) := by
  obtain ⟨type, header, hheader, htype, hne⟩ := writes_writeMediaHeader p.codecKind.isVideo
  obtain ⟨dinf, hdinf⟩ := writes_dinf
  obtain ⟨stbl, hstbl, hread⟩ := writes_writeStbl h
  refine ⟨_, (hheader.seq (hdinf.seq hstbl)).box _, fun hfits => ?_⟩
  simp only [length_append, length_boxOctets] at hfits
  obtain ⟨stsd, hstsd, hparse⟩ := hread (by omega)
  refine ⟨stbl, stsd, ?_, hstsd, hparse⟩
  rw [needPayload_skip htype hne (by omega),
    needPayload_skip (by decide +kernel) (by decide +kernel) (by omega),
    needPayload_only (by decide +kernel) (by omega)]

/-- A header with a version of zero, two times and a word of its own. -/
def headerOctets (flags word : ℕ) (rest : Bytes) : Bytes :=
  (beBytes 1 0 ++ beBytes 3 flags) ++ (beBytes 4 0 ++ (beBytes 4 0 ++ (beBytes 4 word ++ rest)))

theorem headerOctets_version (flags word : ℕ) (rest : Bytes) :
    (headerOctets flags word rest).getD 0 0 = 0 := rfl

variable {word : ℕ}

theorem headerOctets_word (h : word < 2 ^ 32) (flags : ℕ) (rest : Bytes) :
    rd32 ((headerOctets flags word rest).drop 12) = word := by
  have hdrop : (headerOctets flags word rest).drop 12 = beBytes 4 word ++ rest := by
    rw [headerOctets, ← append_assoc (beBytes 4 0), ← append_assoc, drop_left' (by simp)]
  rw [hdrop, rd32_beBytes h]

theorem length_headerOctets (flags word : ℕ) (rest : Bytes) :
    (headerOctets flags word rest).length = 16 + rest.length := by
  simp only [headerOctets, length_append, length_beBytes]
  omega

theorem parseMdhdTimescale_header (h : word < 2 ^ 32) (flags : ℕ) (rest : Bytes) :
    parseMdhdTimescale (headerOctets flags word rest) = .ok word := by
  rw [parseMdhdTimescale, headerOctets_version, headerOctets_word h, length_headerOctets,
    if_neg (by omega), if_neg (by decide), if_neg (by decide), if_neg (by omega)]

theorem tkhdTrackId_header (h : word < 2 ^ 32) (flags : ℕ) (rest : Bytes) :
    tkhdTrackId (headerOctets flags word rest) = word := by
  have hversion : ¬ (0 : UInt8) = 1 := by decide
  rw [tkhdTrackId, headerOctets_version, if_neg hversion, length_headerOctets, if_neg (by omega),
    if_neg (by omega), headerOctets_word h]

theorem writes_writeTkhd : ∃ rest, Writes (writeTkhd p cfg)
    (boxOctets (fourccOf "tkhd") (headerOctets 3 p.trackId.toNat rest)) := by
  obtain ⟨matrix, hmatrix⟩ := writes_putMatrix
  exact ⟨_, ((writes_putFullbox 0 3).seq <| .bytes <| .bytes <| .bytes <| .bytes <| .bytes <|
    .bytes <| .bytes <| .bytes <| .bytes <| .bytes <| hmatrix.seq <|
    .bytes (writes_putBytes _)).box _⟩

theorem writes_writeMdhd : ∃ rest, Writes (writeMdhd p)
    (boxOctets (fourccOf "mdhd") (headerOctets 0 p.timescale.toNat rest)) :=
  ⟨_, ((writes_putFullbox 0 0).seq <| .bytes <| .bytes <| .bytes <| .bytes <|
    .bytes (writes_putBytes _)).box _⟩

theorem writes_writeHdlr (video : Bool) :
    ∃ payload, Writes (writeHdlr video) (boxOctets (fourccOf "hdlr") payload) :=
  ⟨_, ((writes_putFullbox _ _).seq <| .bytes <| .bytes <| .bytes (writes_putBytes _)).box _⟩

/-- What the parser reports for a packager. -/
def initInfo (p : Packager) (cfg : PackagerCfg) : InitInfo :=
  entryInfo p cfg { trackId := p.trackId.toNat, timescale := p.timescale.toNat }

/-- **The octets of a track are parsed back.** -/
theorem writes_writeTrak (h : CheckedCfg p cfg) :
    ∃ payload, Writes (writeTrak p cfg) (boxOctets (fourccOf "trak") payload) ∧
      (8 + payload.length < 2 ^ 32 → ∀ d,
        nestedPayload d (fourccOf "moov") (fourccOf "trak") = .ok payload →
          parseInitFull d = .ok (initInfo p cfg)) := by
  obtain ⟨tkhd, htkhd⟩ := @writes_writeTkhd p cfg
  obtain ⟨mdhd, hmdhd⟩ := @writes_writeMdhd p
  obtain ⟨hdlr, hhdlr⟩ := writes_writeHdlr p.codecKind.isVideo
  obtain ⟨minf, hminf, hread⟩ := writes_writeMinf h
  refine ⟨_, (htkhd.seq ((hmdhd.seq (hhdlr.seq hminf)).box (fourccOf "mdia"))).box _,
    fun hfits d hd => ?_⟩
  simp only [length_append, length_boxOctets, length_headerOctets] at hfits
  obtain ⟨stbl, stsd, hstbl, hstsd, hparse⟩ := hread (by omega)
  rw [parseInitFull, hd]
  simp only [bind, Except.bind]
  rw [trakTrackId, needPayload_here (by decide +kernel) (by rw [length_headerOctets]; omega),
    needPayload_skip (by decide +kernel) (by decide +kernel) (by rw [length_headerOctets]; omega),
    needPayload_only (by decide +kernel)
      (by simp only [length_append, length_boxOctets, length_headerOctets]; omega)]
  dsimp only
  rw [tkhdTrackId_header p.trackId.toNat_lt,
    needPayload_here (by decide +kernel) (by rw [length_headerOctets]; omega)]
  dsimp only
  rw [parseMdhdTimescale_header p.timescale.toNat_lt]
  rw [needPayload_skip (by decide +kernel) (by decide +kernel) (by rw [length_headerOctets]; omega),
    needPayload_skip (by decide +kernel) (by decide +kernel) (by omega),
    needPayload_only (by decide +kernel) (by omega)]
  dsimp only
  rw [hstbl]
  dsimp only
  rw [hstsd]
  exact hparse _

theorem writes_writeMvhd :
    ∃ payload, Writes (writeMvhd p) (boxOctets (fourccOf "mvhd") payload) := by
  obtain ⟨matrix, hmatrix⟩ := writes_putMatrix
  exact ⟨_, ((writes_putFullbox _ _).seq <| .bytes <| .bytes <| .bytes <| .bytes <| .bytes <|
    .bytes <| .bytes <| .bytes <| hmatrix.seq <| .bytes (writes_putBytes _)).box _⟩

theorem writes_mvex : ∃ payload, Writes (box (fourccOf "mvex") <| box (fourccOf "trex") do
    putFullbox 0 0
    put32 p.trackId.toNat
    put32 1
    put32 0
    put32 0
    put32 0) payload :=
  ⟨_, (((writes_putFullbox _ _).seq <| .bytes <| .bytes <| .bytes <|
    .bytes (writes_putBytes _)).box _).box _⟩

theorem writes_writeFtyp : ∃ payload, Writes writeFtyp (boxOctets (fourccOf "ftyp") payload) :=
  ⟨_, Writes.box (.bytes <| .bytes <| .bytes <| .bytes (writes_putBytes _)) _⟩

/-- **An init segment that was written is parsed back.** -/
theorem parseInitFull_writeInit (h : CheckedCfg p cfg) (hempty : p.init.octets = [])
    (herr : (writeInit p cfg).err = none) :
    parseInitFull (writeInit p cfg).octets = .ok (initInfo p cfg) := by
  obtain ⟨ftyp, hftyp⟩ := writes_writeFtyp
  obtain ⟨mvhd, hmvhd⟩ := @writes_writeMvhd p
  obtain ⟨trak, htrak, hread⟩ := writes_writeTrak h
  obtain ⟨mvex, hmvex⟩ := @writes_mvex p
  have hmoov : Writes (writeMoov p cfg) _ := (hmvhd.seq (htrak.seq hmvex)).box (fourccOf "moov")
  have hinit : Writes (do writeFtyp; writeMoov p cfg) _ := hftyp.seq hmoov
  rw [writeInit] at herr ⊢
  have hoctets := hinit.octets p.init herr
  have hbound := hinit.bounded p.init herr (by simp [hempty])
  rw [hempty, nil_append] at hoctets
  rw [hoctets] at hbound
  -- The buffer never exceeds its limit, so every size fits its field.
  have hmax : packagerMaxBuffer < 2 ^ 32 := by decide +kernel
  have hfits := hbound.trans_lt hmax
  have hat := @nestedPayload_second trak [] mvhd (fourccOf "moov") (fourccOf "trak")
    (fourccOf "ftyp") (fourccOf "mvhd") ftyp mvex (by decide +kernel) (by decide +kernel)
    (by decide +kernel) (by decide +kernel) (by decide +kernel) (by decide +kernel)
    (by rwa [append_nil])
  rw [append_nil] at hat
  simp only [length_append, length_boxOctets] at hfits
  rw [hoctets]
  exact hread (by omega) _ hat

end Tree

/-! ## A packager that was created -/

theorem cmafRefuse_eq_ok {bad : Bool} {e : CmafError} {u : Unit} (h : cmafRefuse bad e = .ok u) :
    bad = false := by
  cases bad with
  | false => rfl
  | true => cases h

variable {c : PackagerCfg} {checks : CodecChecks} {alloc : PackagerAlloc}

theorem validateVideo_eq_ok (h : validateVideo cfg = .ok c) :
    c = cfg ∧ cfg.width.toNat < 2 ^ 16 ∧ cfg.height.toNat < 2 ^ 16 := by
  obtain ⟨_, hsize, hret⟩ := except_bind_eq_ok h
  have hbad := cmafRefuse_eq_ok hsize
  simp only [Bool.or_eq_false_iff, decide_eq_false_iff_not, gt_iff_lt, UInt32.lt_iff_toNat_lt,
    not_lt] at hbad
  obtain ⟨⟨-, hw⟩, hh⟩ := hbad
  exact ⟨(Except.ok.inj hret).symm, Nat.lt_succ_of_le hw, Nat.lt_succ_of_le hh⟩

theorem validateAudio_eq_ok (h : validateAudio cfg = .ok c) :
    c = { cfg with timescale := cfg.samplerate } ∧ cfg.samplerate.toNat < 2 ^ 16 ∧
      cfg.channelCount.toNat < 2 ^ 16 ∧ (cfg.sampleEntry = .opus → cfg.samplerate = 48000) ∧
      (cfg.timescale = 0 ∨ cfg.timescale = cfg.samplerate) := by
  obtain ⟨_, hsize, h⟩ := except_bind_eq_ok h
  obtain ⟨_, hopus, h⟩ := except_bind_eq_ok h
  obtain ⟨_, hscale, hret⟩ := except_bind_eq_ok h
  have hbad := cmafRefuse_eq_ok hsize
  simp only [Bool.or_eq_false_iff, decide_eq_false_iff_not, gt_iff_lt, UInt32.lt_iff_toNat_lt,
    not_lt] at hbad
  obtain ⟨⟨⟨-, hr⟩, -⟩, hc⟩ := hbad
  have hopus := cmafRefuse_eq_ok hopus
  have hscale := cmafRefuse_eq_ok hscale
  refine ⟨(Except.ok.inj hret).symm, Nat.lt_succ_of_le hr, Nat.lt_succ_of_le hc, fun hk => ?_, ?_⟩
  · by_contra hne
    simp [hk, hne] at hopus
  · by_contra hne
    rw [not_or] at hne
    simp [hne.1, hne.2] at hscale

/-- What the checks of the media leave to know. -/
theorem validateMedia_eq_ok (h : validateMedia cfg = .ok c) :
    (cfg.sampleEntry.isVideo → c = cfg ∧ cfg.width.toNat < 2 ^ 16 ∧
      cfg.height.toNat < 2 ^ 16) ∧
    (cfg.sampleEntry.isVideo = false → c = { cfg with timescale := cfg.samplerate } ∧
      cfg.samplerate.toNat < 2 ^ 16 ∧ cfg.channelCount.toNat < 2 ^ 16 ∧
      (cfg.sampleEntry = .opus → cfg.samplerate = 48000) ∧
      (cfg.timescale = 0 ∨ cfg.timescale = cfg.samplerate)) := by
  rw [validateMedia] at h
  refine ⟨fun hvideo => ?_, fun haudio => ?_⟩
  · rw [if_pos hvideo] at h
    exact validateVideo_eq_ok h
  · rw [if_neg (by rw [haudio]; decide)] at h
    exact validateAudio_eq_ok h

/-- What a configuration that was accepted is completed to. -/
theorem validateCfg_eq_ok (h : validateCfg cfg = .ok c) :
    c.sampleEntry = cfg.sampleEntry ∧ c.codecConfig = cfg.codecConfig ∧
      cfg.codecConfig ≠ [] ∧ cfg.codecConfig.length ≤ packagerMaxConfig ∧
      c.trackId = (if cfg.trackId = 0 then 1 else cfg.trackId) ∧ c.timescale ≠ 0 ∧
      validateMedia { cfg with trackId := if cfg.trackId = 0 then 1 else cfg.trackId } = .ok c := by
  obtain ⟨_, hempty, h⟩ := except_bind_eq_ok h
  obtain ⟨_, hlarge, h⟩ := except_bind_eq_ok h
  obtain ⟨_, -, h⟩ := except_bind_eq_ok h
  obtain ⟨d, hmedia, h⟩ := except_bind_eq_ok h
  obtain ⟨_, htiming, hret⟩ := except_bind_eq_ok h
  obtain rfl : d = c := Except.ok.inj hret
  have hempty := cmafRefuse_eq_ok hempty
  have hlarge := cmafRefuse_eq_ok hlarge
  have htiming := cmafRefuse_eq_ok htiming
  simp only [decide_eq_false_iff_not, length_eq_zero_iff] at hempty
  simp only [decide_eq_false_iff_not, gt_iff_lt, not_lt] at hlarge
  simp only [timingBad, Bool.or_eq_false_iff, decide_eq_false_iff_not] at htiming
  have hscale := htiming.1.1.1.1.2
  have hcopy : d.sampleEntry = cfg.sampleEntry ∧ d.codecConfig = cfg.codecConfig ∧
      d.trackId = if cfg.trackId = 0 then 1 else cfg.trackId := by
    obtain ⟨hvideo, haudio⟩ := validateMedia_eq_ok hmedia
    cases hv : cfg.sampleEntry.isVideo with
    | true =>
      obtain ⟨rfl, -⟩ := hvideo hv
      exact ⟨rfl, rfl, rfl⟩
    | false =>
      obtain ⟨rfl, -⟩ := haudio hv
      exact ⟨rfl, rfl, rfl⟩
  exact ⟨hcopy.1, hcopy.2.1, hempty, hlarge, hcopy.2.2, hscale, hmedia⟩

/-- What a packager was made of. -/
theorem packagerCreate_eq_ok (h : packagerCreate checks alloc cfg = .ok p) :
    ∃ c width, configCodec cfg.sampleEntry = .ok () ∧ validateCfg cfg = .ok c ∧
      (writeInit (newPackager alloc c width) c).err = none ∧
      p = { newPackager alloc c width with init := writeInit (newPackager alloc c width) c } := by
  obtain ⟨⟨⟩, hkind, h⟩ := except_bind_eq_ok h
  obtain ⟨c, hcfg, h⟩ := except_bind_eq_ok h
  obtain ⟨_, -, h⟩ := except_bind_eq_ok h
  obtain ⟨_, -, h⟩ := except_bind_eq_ok h
  obtain ⟨_, -, h⟩ := except_bind_eq_ok h
  obtain ⟨_, -, h⟩ := except_bind_eq_ok h
  obtain ⟨width, -, h⟩ := except_bind_eq_ok h
  obtain ⟨_, -, h⟩ := except_bind_eq_ok h
  obtain ⟨_, -, h⟩ := except_bind_eq_ok h
  refine ⟨c, width, hkind, hcfg, ?_⟩
  cases herr : (writeInit (newPackager alloc c width) c).err with
  | some e => simp only [herr] at h; cases h
  | none =>
    simp only [herr] at h
    exact ⟨rfl, (Except.ok.inj h).symm⟩

theorem checkedCfg_newPackager {width : ℕ}
    (hkind : configCodec cfg.sampleEntry = .ok ()) (h : validateCfg cfg = .ok c) :
    CheckedCfg (newPackager alloc c width) c := by
  obtain ⟨hentry, hconfig, hne, hsmall, -, -, hmedia⟩ := validateCfg_eq_ok h
  obtain ⟨hvideo, haudio⟩ := validateMedia_eq_ok hmedia
  constructor
  case kind => rwa [newPackager, hentry]
  case nonempty => rwa [newPackager, hconfig]
  case small => rwa [newPackager, hconfig]
  case video =>
    intro hv
    rw [newPackager, hentry] at hv
    obtain ⟨rfl, hw, hh⟩ := hvideo hv
    exact ⟨hw, hh⟩
  case audio =>
    intro hv
    rw [newPackager, hentry] at hv
    obtain ⟨rfl, hr, hc, hopus, -⟩ := haudio hv
    exact ⟨hc, (entryRate_eq hopus).trans_lt hr⟩

/-- **The init segment of every packager describes its configuration**: the parser accepts it and
reports the track id (a zero selects one), the timescale (a zero selects the sample rate), the
sample entry, the octets of the codec record, the dimensions of the media, and no protection. -/
theorem parseInitFull_packagerCreate {checks : CodecChecks} {alloc : PackagerAlloc}
    {cfg : PackagerCfg} {p : Packager} (h : packagerCreate checks alloc cfg = .ok p) :
    ∃ info, parseInitFull p.init.octets = .ok info ∧
      info.trackId = (if cfg.trackId = 0 then 1 else cfg.trackId.toNat) ∧
      info.timescale =
        (if cfg.timescale = 0 then cfg.samplerate.toNat else cfg.timescale.toNat) ∧
      info.sampleEntry = cfg.sampleEntry.type ∧ info.codecConfig = cfg.codecConfig ∧
      info.hasCenc = false ∧
      (cfg.sampleEntry.isVideo →
        info.width = cfg.width.toNat ∧ info.height = cfg.height.toNat) ∧
      (cfg.sampleEntry.isVideo = false →
        info.channelCount = cfg.channelCount.toNat ∧ info.samplerate = cfg.samplerate.toNat) := by
  obtain ⟨c, width, hkind, hcfg, herr, rfl⟩ := packagerCreate_eq_ok h
  have hparse := parseInitFull_writeInit
    (@checkedCfg_newPackager cfg c alloc width hkind hcfg) rfl herr
  obtain ⟨hentry, hconfig, -, -, hid, hscale, hvalid⟩ := validateCfg_eq_ok hcfg
  have hmedia := validateMedia_eq_ok hvalid
  have htrack : c.trackId.toNat = if cfg.trackId = 0 then 1 else cfg.trackId.toNat := by
    rw [hid]
    split_ifs <;> rfl
  refine ⟨_, hparse, htrack, ?_, congrArg CmafEntry.type hentry, hconfig, rfl, fun hvideo => ?_,
    fun haudio => ?_⟩
  · cases hv : cfg.sampleEntry.isVideo with
    | true =>
      obtain ⟨rfl, -⟩ := hmedia.1 hv
      exact (if_neg hscale).symm
    | false =>
      obtain ⟨rfl, -, -, -, hzero | hsame⟩ := hmedia.2 hv
      · exact (if_pos hzero).symm
      · rw [← show cfg.timescale = cfg.samplerate from hsame, ite_self]
        rfl
  · obtain ⟨rfl, -⟩ := hmedia.1 hvideo
    exact ⟨if_pos hvideo, if_pos hvideo⟩
  · obtain ⟨rfl, -, -, hopus, -⟩ := hmedia.2 haudio
    have hnot : ¬ cfg.sampleEntry.isVideo := by rw [haudio]; decide
    exact ⟨if_neg hnot, (if_neg hnot).trans (entryRate_eq hopus)⟩

/-- A stereo Opus track whose codec record was accepted. -/
def opusCfg : PackagerCfg where
  sampleEntry := .opus
  codecConfig := [0, 2, 0x01, 0x38, 0, 0, 0xBB, 0x80, 0, 0, 0]
  sampleFormat := .opusPacket
  timescale := 0
  trackId := 0
  sourceTimebaseNum := 0
  sourceTimebaseDen := 0
  rebaseTimestamps := false
  width := 0
  height := 0
  samplerate := 48000
  channelCount := 2
  avgBitrate := 96000

/-- A stereo AAC track, whose record is in the descriptors of an `esds`. -/
def aacCfg : PackagerCfg :=
  { opusCfg with sampleEntry := .mp4a, codecConfig := [0x11, 0x90], sampleFormat := .aacRaw }

/-- Checks that accept both records. -/
def stereoChecks : CodecChecks :=
  ⟨fun _ _ => .ok (), fun _ _ => .ok (), fun _ => .ok ⟨2, 3, 48000, true, 2, true⟩⟩

/-- Allocations that all succeed. -/
def fullAlloc : PackagerAlloc := ⟨true, true, fun _ => true, fun _ => true, fun _ => true⟩

/-- An Opus and an AAC track, each read back. -/
theorem parseInitFull_packagerCreate_audio : [opusCfg, aacCfg].Forall fun cfg => ∃ p info,
    packagerCreate stereoChecks fullAlloc cfg = .ok p ∧ parseInitFull p.init.octets = .ok info ∧
      info.trackId = 1 ∧ info.timescale = 48000 ∧ info.codecConfig = cfg.codecConfig ∧
      info.channelCount = 2 := by
  have hok : ∀ cfg ∈ [opusCfg, aacCfg], (packagerCreate stereoChecks fullAlloc cfg).toBool ∧
      cfg.trackId = 0 ∧ cfg.timescale = 0 ∧ cfg.samplerate = 48000 ∧ cfg.channelCount = 2 ∧
      cfg.sampleEntry.isVideo = false := by decide +kernel
  refine forall_iff_forall_mem.mpr fun cfg hcfg => ?_
  obtain ⟨hok, hid₀, hscale₀, hrate, hchannels, hvideo⟩ := hok cfg hcfg
  cases hp : packagerCreate stereoChecks fullAlloc cfg with
  | error e =>
    rw [hp] at hok
    cases hok
  | ok p =>
    obtain ⟨info, hparse, hid, hscale, -, hconfig, -, -, haudio⟩ := parseInitFull_packagerCreate hp
    rw [if_pos hid₀] at hid
    rw [if_pos hscale₀, hrate] at hscale
    exact ⟨p, info, rfl, hparse, hid, hscale, hconfig, (haudio hvideo).1.trans (hchannels ▸ rfl)⟩

end MoqRelay.Cmaf
