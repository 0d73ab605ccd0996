import MoqRelay.Lib.Parser
import MoqRelay.Wire.Varint

/-!
# Wire/Buf — buffer readers and writers

`moq_buf_reader_t` and `moq_buf_writer_t` as the draft-22 codec uses them.  A reader is the octets
that remain; a span that borrows its input is a list of octets.  A writer is what stands before its
position, and its capacity: what a failed call leaves past the position is not part of it.
-/

namespace MoqRelay

open List

/-- The results of the draft-22 codec other than `MOQ_OK`: `MOQ_ERR_INVAL`, `MOQ_ERR_PROTO`,
`MOQ_ERR_BUFFER` and its private codes. -/
inductive D22Error
  | inval | proto | buffer | kvpFormat | invalidFilter
  deriving DecidableEq, Repr

/-- `UINT64_MAX`. -/
def uint64Max : UInt64 := 0xFFFFFFFFFFFFFFFF

/-- `UINT16_MAX`. -/
def uint16Max : ℕ := 0xFFFF

/-! ## Readers -/

/-- A reader of the codec. -/
abbrev Read (α : Type) := Parser D22Error UInt8 α

/-- `moq_buf_read_vi64`. -/
def readVi64 : Read UInt64 := fun d =>
  match vi64Decode d with
  | none => .error .buffer
  | some (v, n) => .ok (UInt64.ofNat v, d.drop n)

/-- `moq_buf_read_raw`. -/
def readRaw (n : ℕ) : Read Bytes := fun d =>
  if n > d.length then .error .buffer else .ok (d.take n, d.drop n)

/-- `read_byte`. -/
def readByte : Read UInt8 := fun d =>
  match d with
  | [] => .error .buffer
  | b :: d => .ok (b, d)

/-- A read that some values go without. -/
def readWhen {α : Type} (c : Bool) (p : Read α) (a : α) : Read α := if c then p else pure a

/-- A check. -/
def failWhen (bad : Bool) (e : D22Error) : Read Unit := if bad then throw e else pure ()

/-- All that remains. -/
def readRest : Read Bytes := fun d => .ok (d, [])

/-- Nothing may remain. -/
def readEnd (e : D22Error) : Read Unit := fun d => if d = [] then .ok ((), []) else .error e

/-- `read_span`: a length of at most `limit`, and as many octets. -/
def readSpan (limit : ℕ) : Read Bytes := do
  let len ← readVi64
  failWhen (len.toNat > limit) .proto
  readRaw len.toNat

/-- A reader that also gives the octets it reads. -/
def withSpan {α : Type} (p : Read α) : Read (α × Bytes) := fun d =>
  (p d).map fun x => ((x.1, d.take (d.length - x.2.length)), x.2)

/-- A truncated field of a complete value is malformed. -/
def truncated : D22Error → D22Error
  | .buffer => .proto
  | e => e

section Stable

open MoqRelay.Parser

/-- An integer ends by itself. -/
theorem readVi64_stable : Stable readVi64 := by
  intro d a r h
  rw [readVi64] at h
  split at h
  · cases h
  · rename_i v n hv
    cases h
    obtain ⟨hpos, hle⟩ := vi64.read_pos hv
    refine ⟨d.take n, (take_append_drop n d).symm, fun r' => ?_⟩
    have hread : vi64Decode (d.take n ++ r') = some (v, n) := vi64.read_take hv r'
    have hdrop : (d.take n ++ r').drop n = r' := drop_left' (length_take_of_le hle)
    simp only [readVi64, hread, hdrop]

/-- A run of octets ends with their number. -/
theorem readRaw_stable (n : ℕ) : Stable (readRaw n) := by
  intro d a r h
  rw [readRaw] at h
  split_ifs at h with hn
  cases h
  have hlen : (d.take n).length = n := length_take_of_le (by omega)
  refine ⟨d.take n, (take_append_drop n d).symm, fun r' => ?_⟩
  rw [readRaw, if_neg (by rw [length_append]; omega), take_left' hlen, drop_left' hlen]

/-- An octet is read alone. -/
theorem readByte_stable : Stable readByte := by
  intro d a r h
  cases d with
  | nil => cases h
  | cons b d =>
    obtain ⟨rfl, rfl⟩ := Prod.mk.inj (Except.ok.inj h)
    exact ⟨[b], rfl, fun _ => rfl⟩

variable {α : Type} {p : Read α}

/-- A read that may be left out is as stable as the read. -/
theorem readWhen_stable (c : Bool) (hp : Stable p) (a : α) : Stable (readWhen c p a) :=
  hp.ite (.pure a)

/-- A check reads nothing. -/
theorem failWhen_stable (bad : Bool) (e : D22Error) : Stable (failWhen bad e) :=
  (Stable.throw e).ite (.pure ())

/-- A span says where it ends. -/
theorem readSpan_stable (limit : ℕ) : Stable (readSpan limit) :=
  readVi64_stable.bind fun _ => (failWhen_stable _ _).bind fun _ => readRaw_stable _

/-- What is read with its octets is read, and they are the ones before the rest. -/
theorem withSpan_eq_ok {d r s : Bytes} {a : α} (h : withSpan p d = .ok ((a, s), r)) :
    p d = .ok (a, r) ∧ s = d.take (d.length - r.length) := by
  rw [withSpan] at h
  cases hp : p d with
  | error e => rw [hp] at h; cases h
  | ok x =>
    rw [hp] at h
    cases h
    exact ⟨rfl, rfl⟩

/-- Giving the octets too keeps a reader stable. -/
theorem withSpan_stable (hp : Stable p) : Stable (withSpan p) := by
  rintro d ⟨a, s⟩ r h
  obtain ⟨hd, rfl⟩ := withSpan_eq_ok h
  obtain ⟨used, rfl, hall⟩ := hp d a r hd
  refine ⟨used, rfl, fun r' => ?_⟩
  rw [withSpan, hall r']
  simp [Except.map]

end Stable

/-! ## Reading back -/

section Gives

open MoqRelay.Parser

theorem toNat_le_u64Max (v : UInt64) : v.toNat ≤ u64Max := by
  have := v.toNat_lt
  rw [u64Max]
  omega

/-- A length fits a `uint64_t`. -/
theorem toNat_ofNat_of_le {n : ℕ} (hn : n ≤ uint16Max) : (UInt64.ofNat n).toNat = n := by
  rw [uint16Max] at hn
  simp
  omega

/-- **An integer is read back**, in front of anything. -/
theorem readVi64_vi64Encode (v : UInt64) (r : Bytes) :
    readVi64 (vi64Encode v.toNat ++ r) = .ok (v, r) := by
  have hread := vi64Decode_vi64Encode (toNat_le_u64Max v) r
  have hdrop : (vi64Encode v.toNat ++ r).drop (vi64Len v.toNat) = r :=
    drop_left' (length_vi64Encode _)
  simp [readVi64, hread, hdrop]

theorem readVi64_gives (v : UInt64) : Gives readVi64 (vi64Encode v.toNat) (· = v) :=
  .of_eq (readVi64_vi64Encode v)

/-- Octets are read back by their number. -/
theorem readRaw_reads (b : Bytes) : Reads (readRaw b.length) b b := by
  intro r
  rw [readRaw, if_neg (by rw [length_append]; omega), take_left, drop_left]

theorem readByte_reads (b : UInt8) : Reads readByte [b] b := fun _ => rfl

theorem readByte_gives (b : UInt8) : Gives readByte [b] (· = b) := .of_eq (readByte_reads b)

variable {α : Type} {p : Read α} {b : Bytes} {Q : α → Prop}

/-- A stage that some values go without is read back or left out. -/
theorem readWhen_gives {c : Bool} (h : (c → Gives p b Q) ∧ (c = false → b = [])) (a : α) :
    Gives (readWhen c p a) b fun x => (c → Q x) ∧ (c = false → x = a) := by
  cases c with
  | false =>
    rw [h.2 rfl]
    exact .pure ⟨nofun, fun _ => rfl⟩
  | true => exact (h.1 rfl).mono fun x hx => ⟨fun _ => hx, nofun⟩

/-- After a check, its condition is known not to hold. -/
theorem failWhen_gives (bad : Bool) (e : D22Error) :
    Gives (failWhen bad e) [] fun _ => bad = false := by
  cases bad with
  | false => exact .pure rfl
  | true => exact .throw

/-- A check whose condition does not hold is passed. -/
theorem failWhen_reads {bad : Bool} (h : bad = false) (e : D22Error) :
    Reads (failWhen bad e) [] () := by
  rw [h]
  exact .pure ()

/-- A span of octets whose number is a `uint64_t`. -/
theorem readSpan_gives (hb : b.length ≤ uint16Max) (limit : ℕ) :
    Gives (readSpan limit) (vi64Encode b.length ++ b) (· = b) := by
  have hlen := toNat_ofNat_of_le hb
  have hvi := readVi64_gives (UInt64.ofNat b.length)
  rw [hlen] at hvi
  refine hvi.bind fun len hl => ?_
  subst hl
  rw [hlen]
  exact (failWhen_gives _ _).bind fun _ _ => .of_eq (readRaw_reads b)

/-- The octets given are those that were written. -/
theorem withSpan_gives (h : Gives p b Q) : Gives (withSpan p) b fun x => Q x.1 ∧ x.2 = b := by
  rintro r ⟨a, s⟩ r' ha
  obtain ⟨hd, rfl⟩ := withSpan_eq_ok ha
  obtain ⟨rfl, hQ⟩ := h r a r' hd
  exact ⟨rfl, hQ, by rw [length_append, Nat.add_sub_cancel, take_left]⟩

end Gives

/-! ## Writers -/

/-- `moq_buf_writer_t`: what stands before the position, and the capacity. -/
structure BufWriter where
  written : Bytes
  cap : ℕ
  deriving DecidableEq, Repr

/-- `moq_buf_write_raw`. -/
def writeRaw (w : BufWriter) (bytes : Bytes) : Except D22Error BufWriter :=
  if w.written.length > w.cap then .error .inval
  else if bytes.length > w.cap - w.written.length then .error .buffer
  else .ok { w with written := w.written ++ bytes }

/-- `moq_buf_write_vi64`. -/
def writeVi64 (w : BufWriter) (v : UInt64) : Except D22Error BufWriter :=
  if w.written.length > w.cap then .error .inval
  else if w.cap - w.written.length < vi64Len v.toNat then .error .buffer
  else .ok { w with written := w.written ++ vi64Encode v.toNat }

/-- A check of a value to write, or of one already read. -/
def refuse (bad : Bool) (e : D22Error) : Except D22Error Unit :=
  if bad then .error e else .ok ()

/-- A write that some values go without. -/
def writeWhen (c : Bool) (f : BufWriter → Except D22Error BufWriter) (w : BufWriter) :
    Except D22Error BufWriter := if c then f w else .ok w

/-- The two octets of a `uint16_t`. -/
def uint16Octets (v : ℕ) : Bytes := [UInt8.ofNat (v / 256), UInt8.ofNat v]

/-- `moq_buf_reserve_uint16`; the offset it reports is where the writer stood. -/
def reserveUint16 (w : BufWriter) : Except D22Error BufWriter := writeRaw w [0, 0]

/-- `moq_buf_patch_uint16`. -/
def patchUint16 (w : BufWriter) (offset v : ℕ) : Except D22Error BufWriter :=
  if w.written.length > w.cap then .error .inval
  else if offset > w.written.length || w.written.length - offset < 2 then .error .inval
  else .ok { w with
    written := w.written.take offset ++ uint16Octets v ++ w.written.drop (offset + 2) }

/-- **What a successful write does**: the octets go behind what stood there. -/
structure Wrote (w w' : BufWriter) (b : Bytes) : Prop where
  written : w'.written = w.written ++ b
  cap : w'.cap = w.cap

theorem Wrote.refl (w : BufWriter) : Wrote w w [] := ⟨(append_nil _).symm, rfl⟩

variable {w w' : BufWriter} {b : Bytes}

/-- One write behind another. -/
theorem Wrote.trans {w'' : BufWriter} {c : Bytes} (h : Wrote w w' b) (h' : Wrote w' w'' c) :
    Wrote w w'' (b ++ c) :=
  ⟨by rw [h'.written, h.written, append_assoc], h'.cap.trans h.cap⟩

/-- A write goes on only where the check found nothing. -/
theorem refuse_eq_ok {bad : Bool} {e : D22Error} {u : Unit} (h : refuse bad e = .ok u) :
    bad = false := by
  cases bad with
  | false => rfl
  | true => cases h

/-- Raw octets go behind what stood there. -/
theorem writeRaw_wrote (h : writeRaw w b = .ok w') : Wrote w w' b := by
  rw [writeRaw] at h
  split_ifs at h
  cases h
  exact ⟨rfl, rfl⟩

/-- So does an integer, in its shortest code. -/
theorem writeVi64_wrote {v : UInt64} (h : writeVi64 w v = .ok w') :
    Wrote w w' (vi64Encode v.toNat) := by
  rw [writeVi64] at h
  split_ifs at h
  cases h
  exact ⟨rfl, rfl⟩

/-- A write that may be left out adds its octets or none. -/
theorem writeWhen_wrote {c : Bool} {f : BufWriter → Except D22Error BufWriter}
    (hf : c → f w = .ok w' → Wrote w w' b) (h : writeWhen c f w = .ok w') :
    Wrote w w' (if c then b else []) := by
  cases c with
  | false =>
    cases h
    exact Wrote.refl w
  | true => exact hf rfl h

/-! ## What is written is read back -/

/-- **Whatever a writer succeeds in writing has a property.** -/
def Writes (f : BufWriter → Except D22Error BufWriter) (P : Bytes → Prop) : Prop :=
  ∀ w w', f w = .ok w' → ∃ b, Wrote w w' b ∧ P b

section Writes

open MoqRelay.Parser

variable {f g : BufWriter → Except D22Error BufWriter} {P R : Bytes → Prop}

theorem Writes.mono (hf : Writes f P) (h : ∀ b, P b → R b) : Writes f R := fun w w' hw =>
  (hf w w' hw).imp fun b hb => hb.imp_right (h b)

/-- **Two writes**: the second may rest on what the first has written. -/
theorem Writes.bind (hf : Writes f P) (hg : ∀ b, P b → Writes g fun c => R (b ++ c)) :
    Writes (fun w => f w >>= g) R := by
  intro w w' h
  obtain ⟨w₁, h₁, h⟩ := except_bind_eq_ok h
  obtain ⟨b, hb, hP⟩ := hf w w₁ h₁
  obtain ⟨c, hc, hR⟩ := hg b hP w₁ w' h
  exact ⟨b ++ c, hb.trans hc, hR⟩

/-- A write behind a check. -/
theorem Writes.check {bad : BufWriter → Bool} {e : D22Error}
    (hf : ∀ w, bad w = false → Writes f P) :
    Writes (fun w => refuse (bad w) e >>= fun _ => f w) P := by
  intro w w' h
  obtain ⟨_, hbad, h⟩ := except_bind_eq_ok h
  exact hf w (refuse_eq_ok hbad) w w' h

/-- An integer is written as octets that are read back. -/
theorem writeVi64_writes (v : UInt64) : Writes (writeVi64 · v) fun b => Reads readVi64 b v :=
  fun _ _ h => ⟨_, writeVi64_wrote h, readVi64_vi64Encode v⟩

/-- A write that may be left out. -/
theorem Writes.when {c : Bool} (hf : Writes f P) :
    Writes (writeWhen c f) fun b => (c → P b) ∧ (c = false → b = []) := by
  cases c with
  | false =>
    rintro w _ ⟨⟩
    exact ⟨[], .refl w, nofun, fun _ => rfl⟩
  | true => exact hf.mono fun b hb => ⟨fun _ => hb, nofun⟩

end Writes

end MoqRelay
