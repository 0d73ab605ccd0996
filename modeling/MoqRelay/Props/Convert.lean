import MoqRelay.Log.State
import MoqRelay.Wire.Varint

/-!
# Props/Convert — carrying a property block to another integer codec

`props_codec.c`: a property block is a sequence of Key-Value-Pairs whose types are delta-coded; an
even type has an integer value, an odd type a length and that many bytes.  `propsConvert` re-encodes
a block in two passes over the same reads, one that measures and one that writes.  Immutable
Properties are kept byte for byte, and only where they read the same in both codecs.
-/

namespace MoqRelay

namespace Props

/-- `PROPS_IMMUTABLE_TYPE`. -/
def immutableType : ℕ := 0xB

/-- `PROPS_MAX_LENGTH`. -/
def maxLength : ℕ := 0xFFFF

/-- `SIZE_MAX`. -/
def sizeMax : ℕ := u64Max

/-- `codec_valid`. -/
def codecValid (codec : ℕ) : Bool := codec = propsCodecQuicVarint || codec = propsCodecVi64

/-- `int_read`: the value and the bytes consumed. -/
def intRead (codec : ℕ) (p : Bytes) : Option (ℕ × ℕ) :=
  if p = [] then none
  else if codec = propsCodecVi64 then vi64Decode p else quicVarintDecode p

/-- `int_len`: the size of the minimal encoding, 0 when there is none. -/
def intLen (codec v : ℕ) : ℕ :=
  if codec = propsCodecQuicVarint then if quicVarintMax < v then 0 else quicVarintLen v
  else vi64Len v

/-- `int_write`: the bytes written, none when the room is short. -/
def intWrite (codec v cap : ℕ) : Bytes :=
  if codec = propsCodecVi64 then if cap < vi64Len v then [] else vi64Encode v
  else if cap < quicVarintLen v then [] else quicVarintEncode v

/-- `props_kvp_t`; the size of the header alone is left out. -/
structure Kvp where
  (type delta value : ℕ)
  bytes : Bytes
  (length size : ℕ)
  deriving DecidableEq, Repr

/-- What `kvp_read` returns. -/
inductive KvpRead
  | malformed
  | done
  | read (k : Kvp)
  deriving DecidableEq, Repr

/-- `kvp_read`. -/
def kvpRead (codec : ℕ) (p : Bytes) (prev : ℕ) : KvpRead :=
  if p = [] then .done
  else match intRead codec p with
    | none => .malformed
    | some (delta, used) =>
      if u64Max - prev < delta then .malformed
      else if (prev + delta) % 2 = 0 then
        match intRead codec (p.drop used) with
        | none => .malformed
        | some (value, vl) => .read ⟨prev + delta, delta, value, [], 0, used + vl⟩
      else
        match intRead codec (p.drop used) with
        | none => .malformed
        | some (length, ll) =>
          if maxLength < length then .malformed
          else if p.length - (used + ll) < length then .malformed
          else .read ⟨prev + delta, delta, 0, (p.drop (used + ll)).take length, length,
            used + ll + length⟩

/-- The loop of `block_valid` over at most `n` reads. -/
def blockValidFrom (codec : ℕ) : ℕ → ℕ → Bytes → Bool
  | 0, _, _ => false
  | n + 1, prev, p =>
    match kvpRead codec p prev with
    | .malformed => false
    | .done => true
    | .read k =>
      if k.type = immutableType then false else blockValidFrom codec n k.type (p.drop k.size)

/-- `block_valid`. -/
def blockValid (codec : ℕ) (p : Bytes) : Bool := blockValidFrom codec (p.length + 1) 0 p

/-- Whether two entries that were read are the same pair in the same bytes. -/
def kvpAlike (a b : Kvp) : Bool :=
  !(a.type ≠ b.type || a.size ≠ b.size || a.type = immutableType) &&
    (if a.type % 2 = 0 then a.value = b.value else a.length = b.length && a.bytes = b.bytes)

/-- The loop of `block_reads_alike` over at most `n` reads; the two offsets may differ. -/
def blockReadsAlikeFrom : ℕ → ℕ → ℕ → Bytes → Bytes → Bool
  | 0, _, _, _, _ => false
  | n + 1, pa, pb, p, q =>
    match kvpRead propsCodecQuicVarint p pa, kvpRead propsCodecVi64 q pb with
    | .done, .done => true
    | .read a, .read b =>
      kvpAlike a b && blockReadsAlikeFrom n a.type b.type (p.drop a.size) (q.drop b.size)
    | _, _ => false

/-- `block_reads_alike`. -/
def blockReadsAlike (p : Bytes) : Bool := blockReadsAlikeFrom (p.length + 1) 0 0 p p

/-! ## The conversion -/

/-- `moqr_props_conv_t`. -/
inductive Conv
  | same | converted | unsupported | malformed | unknown | inval | buffer
  deriving DecidableEq, Repr

/-- Bytes written into a buffer at an offset. -/
def writeAt (out : Bytes) (w : ℕ) (b : Bytes) : Bytes := out.take w ++ b ++ out.drop (w + b.length)

/-- The integer an entry carries behind its type: the value, or the length. -/
def Kvp.second (k : Kvp) : ℕ := if k.type % 2 = 0 then k.value else k.length

/-- Whether Immutable Properties at the front of `p` read the same at the destination. -/
def immutableAlike (dst : ℕ) (p : Bytes) (prev : ℕ) (k : Kvp) : Bool :=
  (match kvpRead dst p prev with
    | .read d => d.type = k.type && d.size = k.size && d.length = k.length
    | _ => false) && blockReadsAlike k.bytes

/-- One entry written at `w`: the delta, the value or the length, and the bytes. -/
def writeEntry (dst : ℕ) (k : Kvp) (out : Bytes) (w : ℕ) : Bytes :=
  let cap := out.length
  let dl := intLen dst k.delta
  let vl := intLen dst k.second
  let out := writeAt out w (intWrite dst k.delta (cap - w))
  let out := writeAt out (w + dl) (intWrite dst k.second (cap - w - dl))
  if k.type % 2 = 0 then out else writeAt out (w + dl + vl) k.bytes

variable (src dst : ℕ)

/-- One pass over a block, at most `n` reads: whether something was unsupported, the bytes needed,
and the buffer when this is the pass that writes. -/
def passFrom : ℕ → ℕ → Bytes → Bool → ℕ → Option Bytes →
    Except Conv (Bool × ℕ × Option Bytes)
  | 0, _, _, _, _, _ => .error .inval
  | n + 1, prev, p, unsupported, w, out =>
    match kvpRead src p prev with
    | .malformed => .error .malformed
    | .done => .ok (unsupported, w, out)
    | .read k =>
      if k.type = immutableType then
        if !blockValid src k.bytes then .error .malformed
        else
          let out := out.map fun out => writeAt out w (p.take k.size)
          if sizeMax - w < k.size then .error .inval
          else passFrom n k.type (p.drop k.size)
            (unsupported || !immutableAlike dst p prev k) (w + k.size) out
      else
        let dl := intLen dst k.delta
        let vl := intLen dst k.second
        let unsupported := unsupported || dl = 0 || vl = 0
        let out := if unsupported then out else out.map fun out => writeEntry dst k out w
        let entry := dl + vl + if k.type % 2 = 0 then 0 else k.length
        if sizeMax - w < entry then .error .inval
        else passFrom n k.type (p.drop k.size) unsupported (w + entry) out

/-- A whole pass. -/
def pass (p : Bytes) (out : Option Bytes) : Except Conv (Bool × ℕ × Option Bytes) :=
  passFrom src dst (p.length + 1) 0 p false 0 out

/-- The two passes: measure, then write when there is a buffer. -/
def convertPasses (p : Bytes) (out : Option Bytes) : Conv × Option ℕ × Option Bytes :=
  match pass src dst p none with
  | .error e => (e, none, out)
  | .ok (unsupported, need, _) =>
    if unsupported then (.unsupported, none, out)
    else match out with
      | none => (.converted, some need, none)
      | some buf =>
        if buf.length < need then (.buffer, some need, some buf)
        else match pass src dst p (some buf) with
          | .error e => (e, none, some buf)
          | .ok (unsupported, need, out) =>
            if unsupported then (.unsupported, none, out) else (.converted, some need, out)

/-- `moqr_core_internal_props_convert`: the result, `*out_len` where it is set, and the buffer. -/
def propsConvert (p : Bytes) (out : Option Bytes) : Conv × Option ℕ × Option Bytes :=
  if !codecValid dst || (src ≠ propsCodecUnknown && !codecValid src) then (.inval, none, out)
  else if p = [] || src = dst then (.same, some p.length, out)
  else if src = propsCodecUnknown then (.unknown, none, out)
  else convertPasses src dst p out

end Props

end MoqRelay
