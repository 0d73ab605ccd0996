import MoqRelay.Lib.IntCode
import MoqRelay.Lib.Machine

/-!
# Basic — result codes, buffers, terminal descriptors and handles

The vocabulary the log and the relay core share: `moqr_result_t`, reference-counted buffers (only
their bytes matter here, so a buffer *is* its bytes), the tagged terminal descriptors of
`wire_codes.c`, and generation-stamped handles.
-/

namespace MoqRelay

/-- `moqr_result_t`. -/
inductive Result
  | ok | done | nomem | inval | wouldBlock | staleHandle | wrongState | capacity | unsupported
  | tooOld | internal
  deriving DecidableEq, Repr, Inhabited

/-- `moq_result_t`, the codes of the session library underneath. -/
inductive MoqResult
  | ok | done | nomem | inval | proto | closed | wrongState | staleHandle | wrongSession
  | wouldBlock | buffer | requestBlocked | abiMismatch | goaway | interrupted | unsupported
  | inputNotConsumed | limit | capacity | internal
  deriving DecidableEq, Repr, Inhabited

/-- `moq_rcbuf_t`: the bytes it holds and their number, a `size_t`. -/
structure Rcbuf where
  data : Bytes
  len : UInt64
  length_eq : data.length = len.toNat
  deriving DecidableEq, Repr

/-- `moq_rcbuf_len`, with `NULL` as `none`. -/
def rcbufLen : Option Rcbuf → UInt64
  | none => 0
  | some b => b.len

/-! ## Terminal descriptors -/

/-- `moqr_code_tag_t`; `other` is a tag no constructor writes. -/
inductive CodeTag
  | none | wireD16 | wireD18 | local | localPdExtension | wireD22 | other (n : ℕ)
  deriving DecidableEq, Repr, Inhabited

/-- `moqr_reset_desc_t`. -/
structure ResetDesc where
  tag : CodeTag
  value : ℕ
  deriving DecidableEq, Repr, Inhabited

/-- `WIRE_CODE_MAX`. -/
def wireCodeMax : ℕ := 0x3FFFFFFFFFFFFFFF

/-- `moqr_reset_cause_t`, the defined meanings in declaration order from 1. -/
def resetCancelled : ℕ := 2
def resetTooFarBehind : ℕ := 7
def resetMalformedTrack : ℕ := 10

/-- `reset_semantic_ok`: every meaning but `UNKNOWN`. -/
def resetSemanticOk (v : ℕ) : Bool := 1 ≤ v && v ≤ resetMalformedTrack

/-- `moqr_reset_desc_none`. -/
def resetDescNone : ResetDesc := ⟨.none, 0⟩

/-- `moqr_reset_desc_local`. -/
def resetDescLocal (cause : ℕ) : Option ResetDesc :=
  if resetSemanticOk cause then some ⟨.local, cause⟩ else none

/-- `MOQR_RESET_CODE_EVICTED`, `MOQR_RESET_CODE_STOPPED`. -/
def resetCodeEvicted : ℕ := 0x1001
def resetCodeStopped : ℕ := 0x1002

/-- `moqr_reset_desc_internal`. -/
def resetDescInternal (code : ℕ) : Option ResetDesc :=
  if code = resetCodeStopped then resetDescLocal resetCancelled
  else if code = resetCodeEvicted then resetDescLocal resetTooFarBehind
  else none

/-- `moqr_reset_desc_valid`. -/
def resetDescValid (d : ResetDesc) : Bool :=
  match d.tag with
  | .wireD16 | .wireD18 | .wireD22 => d.value ≤ wireCodeMax
  | .local => resetSemanticOk d.value
  | _ => false

/-! ## Handles -/

/-- A packed 64-bit handle, by its four fields. -/
structure Handle where
  (pool tag generation slot : ℕ)
  deriving DecidableEq, Repr, Inhabited

/-- `moq_handle_pack`; `none` is the zero handle. -/
def handlePack (pool tag generation slot : ℕ) : Option Handle :=
  if pool = 0 ∨ 0xF < pool then none
  else if tag = 0 then none
  else if generation % 2 = 0 then none
  else if 0xFFFFFFF < generation then none
  else if 0xFFFF < slot then none
  else some ⟨pool, tag, generation, slot⟩

/-- `MOQR_HANDLE_POOL_CURSOR`. -/
def poolCursor : ℕ := 2

end MoqRelay
