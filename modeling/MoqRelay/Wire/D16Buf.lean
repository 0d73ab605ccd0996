import MoqRelay.Wire.Buf

/-!
# Wire/D16Buf — the writers of draft 16

The draft-16 codec writes QUIC varints and moves the position of the writer back when a field does
not fit.  So a write here keeps the writer on failure too, as the failed call leaves it, and
`rewind` is the assignment that undoes it.  `Puts` says what a write adds when it succeeds; `Keeps`
says that it only grows what stood there, and that a failure has undone it all.  `Coded m p a` pairs
a writer with the reader of its octets: whatever `m` wrote, `p` reads as `a`.
-/

namespace MoqRelay.D16

open MoqRelay.Parser (Reads)

/-! ## Readers -/

/-- `moq_buf_read_varint`. -/
def readVarint : Read UInt64 := fun d =>
  match quicVarintDecode d with
  | none => .error .buffer
  | some (v, n) => .ok (UInt64.ofNat v, d.drop n)

/-- `moq_buf_read_span`. -/
def readSpan16 : Read Bytes := do
  let len ← readVarint
  readRaw len.toNat

/-- A read whose failure is reported as `MOQ_ERR_PROTO`. -/
def orProto {α : Type} (p : Read α) : Read α := fun d => (p d).mapError fun _ => .proto

variable {v : UInt64} {b : Bytes} {α : Type} {p : Read α} {a : α}

/-- A value in range is read back. -/
theorem readVarint_reads (h : v.toNat ≤ quicVarintMax) :
    Reads readVarint (quicVarintEncode v.toNat) v := by
  intro r
  have hlen := quicVarintLen_ne_zero h
  have hread := quicVarintDecode_quicVarintEncode hlen r
  have hdrop : (quicVarintEncode v.toNat ++ r).drop (quicVarintLen v.toNat) = r :=
    List.drop_left' (length_quicVarintEncode hlen)
  simp only [readVarint, hread, hdrop, UInt64.ofNat_toNat]

/-- A length is read back as a `uint64_t`. -/
theorem readVarint_reads_length {n : ℕ} (h : n ≤ quicVarintMax) :
    Reads readVarint (quicVarintEncode n) (UInt64.ofNat n) ∧ (UInt64.ofNat n).toNat = n := by
  have hn : (UInt64.ofNat n).toNat = n := by
    rw [quicVarintMax] at h
    rw [UInt64.toNat_ofNat', Nat.mod_eq_of_lt (by omega)]
  have hread := @readVarint_reads (UInt64.ofNat n) (by rwa [hn])
  rw [hn] at hread
  exact ⟨hread, hn⟩

/-- A span is read back. -/
theorem readSpan16_reads (h : b.length ≤ quicVarintMax) :
    Reads readSpan16 (quicVarintEncode b.length ++ b) b := by
  obtain ⟨hread, hn⟩ := readVarint_reads_length h
  refine hread.bind ?_
  rw [hn]
  exact readRaw_reads b

/-- What is read is read under either error. -/
theorem orProto_reads (h : Reads p b a) : Reads (orProto p) b a := by
  intro r
  rw [orProto, h r]
  rfl

/-- What was read is in range, and took an octet. -/
theorem readVarint_eq_ok {d r : Bytes} (h : readVarint d = .ok (v, r)) :
    v.toNat ≤ quicVarintMax ∧ r.length < d.length := by
  rw [readVarint] at h
  cases hv : quicVarintDecode d with
  | none => rw [hv] at h; cases h
  | some x =>
    rw [hv] at h
    cases h
    have hmax := (quicVarintDecode_lt hv).1
    obtain ⟨hpos, hle⟩ := quicVarint.read_pos hv
    rw [List.length_drop]
    refine ⟨?_, by omega⟩
    rw [quicVarintMax] at hmax ⊢
    rwa [UInt64.toNat_ofNat', Nat.mod_eq_of_lt (by omega)]

/-! ## Writers -/

/-- A write: it fails with the writer as the failed call leaves it. -/
abbrev Write (α : Type) := EStateM D22Error BufWriter α

/-- `w->pos`. -/
def writerPos : Write ℕ := fun w => .ok w.written.length w

/-- A write that changes nothing when it fails. -/
def liftWrite (f : BufWriter → Except D22Error BufWriter) : Write Unit := fun w =>
  match f w with
  | .ok w' => .ok () w'
  | .error e => .error e w

/-- The position moved back after a failure: `if (rc < 0) { w->pos = saved; return rc; }`. -/
def rewind {α : Type} (saved : ℕ) (m : Write α) : Write α := fun w =>
  match m w with
  | .ok a w' => .ok a w'
  | .error e w' => .error e { w' with written := w'.written.take saved }

/-- `moq_buf_write_varint`. -/
def writeVarint (v : ℕ) : Write Unit := liftWrite fun w =>
  if w.written.length > w.cap then .error .inval
  else if quicVarintLen v = 0 then .error .inval
  else if w.cap - w.written.length < quicVarintLen v then .error .buffer
  else .ok { w with written := w.written ++ quicVarintEncode v }

/-- `moq_buf_write_raw`. -/
def writeOctets (bytes : Bytes) : Write Unit := liftWrite fun w => writeRaw w bytes

/-- `moq_buf_write_span`. -/
def writeSpan16 (span : Bytes) : Write Unit := do
  let saved ← writerPos
  writeVarint span.length
  rewind saved (writeOctets span)

/-- A check of an argument. -/
def refuse16 (bad : Bool) (e : D22Error) : Write Unit := fun w =>
  if bad then .error e w else .ok () w

/-- A write that some values go without. -/
def putWhen (c : Bool) (m : Write Unit) : Write Unit := if c then m else pure ()

/-! ## What a write does -/

section Laws

variable {α β : Type}

/-- Two writes in a row. -/
theorem write_bind (m : Write α) (f : α → Write β) (w : BufWriter) : (m >>= f) w = match m w with
      | .ok a w' => f a w'
      | .error e w' => .error e w' := by
  change EStateM.bind m f w = _
  rw [EStateM.bind]
  cases m w with
  | ok a w' => rfl
  | error e w' => rfl

variable {m : Write α} {f : α → Write β} {w w'' w' : BufWriter} {e : D22Error} {saved : ℕ}
  {u : Unit} {b : Bytes} {bad : Bool}

/-- Both have succeeded. -/
theorem write_bind_eq_ok {b : β}
    (h : (m >>= f) w = .ok b w'') : ∃ a w', m w = .ok a w' ∧ f a w' = .ok b w'' := by
  rw [write_bind] at h
  cases hm : m w with
  | ok a w' => rw [hm] at h; exact ⟨a, w', rfl, h⟩
  | error e w' => rw [hm] at h; cases h

/-- The failure that was undone. -/
theorem rewind_eq_error (h : rewind saved m w = .error e w') :
    ∃ v, m w = .error e v ∧ w' = { v with written := v.written.take saved } := by
  rw [rewind] at h
  cases hm : m w with
  | ok b v => rw [hm] at h; cases h
  | error e' v =>
    rw [hm] at h
    cases h
    exact ⟨v, rfl, rfl⟩

/-- A success is not undone. -/
theorem rewind_eq_ok {a : α} (h : rewind saved m w = .ok a w') : m w = .ok a w' := by
  rw [rewind] at h
  cases hm : m w with
  | ok b v => rw [hm] at h; exact h
  | error e v => rw [hm] at h; cases h

/-- The success of a lifted write. -/
theorem liftWrite_eq_ok {f : BufWriter → Except D22Error BufWriter}
    (h : liftWrite f w = .ok u w') : f w = .ok w' := by
  rw [liftWrite] at h
  cases hf : f w with
  | ok v =>
    rw [hf] at h
    cases h
    rfl
  | error e => rw [hf] at h; cases h

/-- **What a successful write adds.** -/
def Puts (m : Write Unit) (b : Bytes) : Prop := ∀ w w', m w = .ok () w' → Wrote w w' b

theorem Puts.pure : Puts (pure ()) [] := by
  intro w w' h
  cases h
  exact Wrote.refl w

/-- `rewind` changes failures alone. -/
theorem Puts.rewind {m : Write Unit} (hm : Puts m b) (saved : ℕ) :
    Puts (rewind saved m) b := fun w w' h => hm w w' (rewind_eq_ok h)

/-- Left out, it adds nothing. -/
theorem Puts.when {m : Write Unit} (c : Bool) (hm : Puts m b) :
    Puts (putWhen c m) (if c then b else []) := by
  cases c with
  | false => exact Puts.pure
  | true => exact hm

/-- A varint that was written is in range. -/
theorem writeVarint_eq_ok {v : ℕ} (h : writeVarint v w = .ok () w') :
    v ≤ quicVarintMax ∧ Wrote w w' (quicVarintEncode v) := by
  have hf := liftWrite_eq_ok h
  split_ifs at hf with hvalid hlen hroom
  cases hf
  exact ⟨le_of_quicVarintLen hlen, rfl, rfl⟩

/-- A varint adds its code. -/
theorem puts_writeVarint (v : ℕ) : Puts (writeVarint v) (quicVarintEncode v) :=
  fun _ _ h => (writeVarint_eq_ok h).2

/-- Octets are added as they are. -/
theorem puts_writeOctets (b : Bytes) : Puts (writeOctets b) b :=
  fun _ _ h => writeRaw_wrote (liftWrite_eq_ok h)

/-- A span adds its length and itself. -/
theorem writeSpan16_eq_ok (h : writeSpan16 b w = .ok () w') :
    b.length ≤ quicVarintMax ∧ Wrote w w' (quicVarintEncode b.length ++ b) := by
  obtain ⟨_, w₁, hpos, h⟩ := write_bind_eq_ok h
  cases hpos
  obtain ⟨_, w₂, hlen, h⟩ := write_bind_eq_ok h
  obtain ⟨hmax, hw⟩ := writeVarint_eq_ok hlen
  exact ⟨hmax, hw.trans (puts_writeOctets b _ _ (rewind_eq_ok h))⟩

/-- A check that passed changes nothing. -/
theorem refuse16_eq_ok (h : refuse16 bad e w = .ok u w') : bad = false ∧ w' = w := by
  cases bad with
  | false => cases h; exact ⟨rfl, rfl⟩
  | true => cases h

/-! ## What a failed write leaves -/

/-- A writer with more octets. -/
def Grown (w w' : BufWriter) : Prop := ∃ b, Wrote w w' b

theorem Grown.refl (w : BufWriter) : Grown w w := ⟨[], Wrote.refl w⟩

theorem Grown.trans (h : Grown w w') (h' : Grown w' w'') : Grown w w'' := by
  obtain ⟨b, hb⟩ := h
  obtain ⟨c, hc⟩ := h'
  exact ⟨b ++ c, hb.trans hc⟩

/-- **Moving the position back undoes any growth.** -/
theorem Grown.rewind (h : Grown w w') :
    { w' with written := w'.written.take w.written.length } = w := by
  obtain ⟨b, hb⟩ := h
  rw [hb.written, List.take_left, hb.cap]

/-- A write that only grows what stood there, done or failed. -/
def Grows (m : Write α) : Prop :=
  ∀ w, (∀ a w', m w = .ok a w' → Grown w w') ∧ ∀ e w', m w = .error e w' → Grown w w'

/-- A call on `w` inside a function that was called on `base`: what holds of the writer when it is
done, and that a failure leaves `base`. -/
def Undoes (P : BufWriter → Prop) (base w : BufWriter) (m : Write α) : Prop :=
  (∀ a w', m w = .ok a w' → P w') ∧ ∀ e w', m w = .error e w' → w' = base

/-- A call that leaves the writer as it found it when it fails. -/
def UndoneAt (base : BufWriter) (m : Write α) : Prop := Undoes (Grown base) base base m

/-- **A write inside a function that undoes its failures**: what stood at `base` only grows, and a
failure leaves `base`. -/
def Keeps (base : BufWriter) (m : Write α) : Prop :=
  ∀ w, Grown base w → Undoes (Grown base) base w m

variable {base : BufWriter} {P : BufWriter → Prop}

theorem Keeps.pure (a : α) : Keeps base (pure a : Write α) := by
  refine fun w hw => ⟨fun b w' h => ?_, fun e w' h => (by cases h)⟩
  cases h
  exact hw

/-- The position is only read. -/
theorem keeps_writerPos : Keeps base writerPos := by
  refine fun w hw => ⟨fun b w' h => ?_, fun e w' h => (by cases h)⟩
  cases h
  exact hw

/-- A failure of either call leaves `base`. -/
theorem Undoes.bind (hm : Undoes (Grown base) base w m)
    (hf : ∀ a w', Grown base w' → Undoes P base w' (f a)) : Undoes P base w (m >>= f) := by
  rw [Undoes, write_bind]
  cases hr : m w with
  | ok a w' => exact hf a w' (hm.1 a w' hr)
  | error e w' =>
    refine ⟨fun b v h => (by cases h), fun e' v h => ?_⟩
    cases h
    exact hm.2 e w' hr

/-- Two such writes in a row. -/
theorem Keeps.bind (hm : Keeps base m) (hf : ∀ a, Keeps base (f a)) : Keeps base (m >>= f) :=
  fun w hw => (hm w hw).bind hf

/-- The first write of a function finds the writer as it was. -/
theorem UndoneAt.bind (hm : UndoneAt base m)
    (hf : ∀ a, Keeps base (f a)) : UndoneAt base (m >>= f) := Undoes.bind hm hf

/-- A function that saves the position first. -/
theorem undoes_saved {f : ℕ → Write α} (h : Undoes P base w (f w.written.length)) :
    Undoes P base w (writerPos >>= f) := h

/-- A check that failed changes nothing. -/
theorem refuse16_eq_error {e' : D22Error} (h : refuse16 bad e w = .error e' w') : w' = w := by
  cases bad with
  | false => cases h
  | true =>
    cases h
    rfl

/-- A check in front. -/
theorem Undoes.refuse {f : Unit → Write α}
    (h : Undoes P base base (f ())) : Undoes P base base (refuse16 bad e >>= f) := by
  cases bad with
  | false => exact h
  | true =>
    refine ⟨fun b v h' => (by cases h'), fun e' v h' => ?_⟩
    cases h'
    rfl

/-- The failure of a lifted write changes nothing. -/
theorem liftWrite_eq_error {f : BufWriter → Except D22Error BufWriter}
    (h : liftWrite f w = .error e w') : w' = w := by
  rw [liftWrite] at h
  cases hw : f w with
  | ok v => rw [hw] at h; cases h
  | error e' =>
    rw [hw] at h
    cases h
    rfl

/-- So a lifted write that grows is undone. -/
theorem undoneAt_liftWrite {f : BufWriter → Except D22Error BufWriter}
    (hf : ∀ w w', f w = .ok w' → Grown w w') : UndoneAt base (liftWrite f) :=
  ⟨fun _ w' h => hf base w' (liftWrite_eq_ok h), fun _ _ h => liftWrite_eq_error h⟩

/-- A write that undoes itself only grows. -/
theorem grows_of_undoneAt (h : ∀ w, UndoneAt w m) : Grows m := by
  refine fun w => ⟨(h w).1, fun e w' he => ?_⟩
  rw [(h w).2 e w' he]
  exact Grown.refl w

/-- A varint is written whole or not at all. -/
theorem undoneAt_writeVarint (v : ℕ) : UndoneAt base (writeVarint v) := by
  refine undoneAt_liftWrite fun w w' h => ?_
  split_ifs at h
  cases h
  exact ⟨_, rfl, rfl⟩

theorem undoneAt_writeOctets (b : Bytes) : UndoneAt base (writeOctets b) :=
  undoneAt_liftWrite fun _ _ h => ⟨b, writeRaw_wrote h⟩

/-- A write is undone by moving the position back. -/
theorem Grows.keeps (hm : Grows m) : Keeps base (rewind base.written.length m) := by
  intro w hw
  refine ⟨fun a w' h => hw.trans ((hm w).1 a w' (rewind_eq_ok h)), fun e w' h => ?_⟩
  obtain ⟨v, hv, rfl⟩ := rewind_eq_error h
  exact (hw.trans ((hm w).2 e v hv)).rewind

theorem keeps_writeVarint (v : ℕ) : Keeps base (rewind base.written.length (writeVarint v)) :=
  (grows_of_undoneAt fun _ => undoneAt_writeVarint v).keeps

theorem keeps_writeOctets (b : Bytes) : Keeps base (rewind base.written.length (writeOctets b)) :=
  (grows_of_undoneAt fun _ => undoneAt_writeOctets b).keeps

/-- A write that may be left out. -/
theorem keeps_putWhen {c : Bool} {m : Write Unit} (hm : Keeps base m) :
    Keeps base (putWhen c m) := by
  cases c with
  | false => exact Keeps.pure ()
  | true => exact hm

/-- A span is written whole or not at all. -/
theorem undoneAt_writeSpan16 (b : Bytes) : UndoneAt base (writeSpan16 b) :=
  undoes_saved <| (undoneAt_writeVarint _).bind fun _ => keeps_writeOctets b

theorem keeps_writeSpan16 (b : Bytes) : Keeps base (rewind base.written.length (writeSpan16 b)) :=
  (grows_of_undoneAt fun _ => undoneAt_writeSpan16 b).keeps

end Laws

/-! ## Writers and their readers -/

/-- **Whatever the writer wrote, the reader reads as this value**, in front of these octets. -/
def CodedOn {α : Type} (T : Bytes → Prop) (m : Write Unit) (p : Read α) (a : α) : Prop :=
  ∀ w w', m w = .ok () w' → ∃ b, Wrote w w' b ∧ ∀ r, T r → p (b ++ r) = .ok (a, r)

/-- …in front of any. -/
abbrev Coded {α : Type} (m : Write Unit) (p : Read α) (a : α) : Prop :=
  CodedOn (fun _ => True) m p a

/-- …at the end of a payload. -/
abbrev CodedEnd {α : Type} (m : Write Unit) (p : Read α) (a : α) : Prop := CodedOn (· = []) m p a

section Coded

variable {α β : Type} {m n : Write Unit} {p : Read α} {f : α → Read β} {a : α} {x : β}
  {T : Bytes → Prop}

/-- **Fields in a row are read in a row.** -/
theorem CodedOn.bind (hm : Coded m p a) (hn : CodedOn T n (f a) x) :
    CodedOn T (m >>= fun _ => n) (p >>= f) x := by
  intro w w'' h
  obtain ⟨_, w', h₁, h₂⟩ := write_bind_eq_ok h
  obtain ⟨b, hb, hp⟩ := hm w w' h₁
  obtain ⟨c, hc, hf⟩ := hn w' w'' h₂
  refine ⟨b ++ c, hb.trans hc, fun r hr => ?_⟩
  rw [List.append_assoc, Parser.bind_of_ok (hp _ trivial)]
  exact hf r hr

/-- The reader goes on without reading. -/
theorem CodedOn.map (hm : CodedOn T m p a) (hf : Reads (f a) [] x) : CodedOn T m (p >>= f) x := by
  intro w w' h
  obtain ⟨b, hb, hp⟩ := hm w w' h
  refine ⟨b, hb, fun r hr => ?_⟩
  rw [Parser.bind_of_ok (hp r hr)]
  exact hf r

/-- …and finds the end. -/
theorem CodedOn.mapEnd (hm : CodedOn T m p a) (hT : T []) (hf : f a [] = .ok (x, [])) :
    CodedEnd m (p >>= f) x := by
  intro w w' h
  obtain ⟨b, hb, hp⟩ := hm w w' h
  refine ⟨b, hb, ?_⟩
  rintro _ rfl
  rwa [Parser.bind_of_ok (hp [] hT)]

/-- The reader first makes a check that passes. -/
theorem CodedOn.check {q : Read α} (hq : Reads q [] a) (hm : CodedOn T m (f a) x) :
    CodedOn T m (q >>= f) x := by
  intro w w' h
  obtain ⟨b, hb, hf⟩ := hm w w' h
  refine ⟨b, hb, fun r hr => ?_⟩
  have hread : q (b ++ r) = .ok (a, b ++ r) := hq (b ++ r)
  rw [Parser.bind_of_ok hread]
  exact hf r hr

/-- Undoing failures changes no octets. -/
theorem CodedOn.rewind (hm : CodedOn T m p a) (saved : ℕ) : CodedOn T (rewind saved m) p a :=
  fun w w' h => hm w w' (rewind_eq_ok h)

/-- The reader may report its failures otherwise. -/
theorem CodedOn.orProto (hm : Coded m p a) : Coded m (orProto p) a := by
  intro w w' h
  obtain ⟨b, hb, hp⟩ := hm w w' h
  exact ⟨b, hb, fun r _ => orProto_reads (fun r => hp r trivial) r⟩

/-- The writer saves its position first. -/
theorem CodedOn.saved {f : ℕ → Write Unit} (h : ∀ saved, Coded (f saved) p a) :
    Coded (writerPos >>= f) p a := fun w w' hw => h w.written.length w w' hw

/-- A check in front of a write. -/
theorem CodedOn.refuse {bad : Bool} {e : D22Error} (h : bad = false → Coded m p a) :
    Coded (refuse16 bad e >>= fun _ => m) p a := by
  intro w w' hw
  obtain ⟨_, v, hok, hrest⟩ := write_bind_eq_ok hw
  obtain ⟨hbad, rfl⟩ := refuse16_eq_ok hok
  exact h hbad _ w' hrest

theorem CodedOn.pure (a : α) : Coded (pure ()) (pure a : Read α) a := by
  intro w w' h
  cases h
  exact ⟨[], Wrote.refl w, fun r _ => Reads.pure a r⟩

theorem coded_writeVarint (v : UInt64) : Coded (writeVarint v.toNat) readVarint v := by
  intro w w' h
  obtain ⟨hmax, hw⟩ := writeVarint_eq_ok h
  exact ⟨_, hw, fun r _ => readVarint_reads hmax r⟩

/-- A number of things, as a `uint64_t`. -/
theorem coded_writeVarint_length (n : ℕ) {g : UInt64 → Read β} {k : Write Unit}
    (h : ∀ c : UInt64, c.toNat = n → Coded k (g c) x) :
    Coded (writeVarint n >>= fun _ => k) (readVarint >>= g) x := by
  intro w w'' hw
  obtain ⟨_, w', h₁, h₂⟩ := write_bind_eq_ok hw
  obtain ⟨hmax, hw'⟩ := writeVarint_eq_ok h₁
  obtain ⟨hread, hn⟩ := readVarint_reads_length hmax
  obtain ⟨c, hc, hg⟩ := h _ hn w' w'' h₂
  exact ⟨_, hw'.trans hc, fun r _ => hread.bind (fun r => hg r trivial) r⟩

theorem coded_writeSpan16 (b : Bytes) : Coded (writeSpan16 b) readSpan16 b := by
  intro w w' h
  obtain ⟨hmax, hw⟩ := writeSpan16_eq_ok h
  exact ⟨_, hw, fun r _ => readSpan16_reads hmax r⟩

theorem coded_writeOctet (b : UInt8) : Coded (writeOctets [b]) readByte b := fun w w' h =>
  ⟨[b], puts_writeOctets [b] w w' h, fun r _ => readByte_reads b r⟩

end Coded

end MoqRelay.D16
