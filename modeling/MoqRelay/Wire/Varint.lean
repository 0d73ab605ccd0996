import MoqRelay.Lib.IntCode
import MoqRelay.Lib.Machine

/-!
# Wire/Varint — the two integer encodings

`moq_vi64_*`: the leading one-bits of the first byte give the length, up to nine bytes for the full
64-bit range.  `moq_quic_varint_*`: the two top bits of the first byte give a length of 1, 2, 4 or
8, and values past `2^62 - 1` have no code.  Both decode any length able to hold the value and
encode the shortest; both are an `IntCode`.
-/

namespace MoqRelay

open List

/-! ## vi64 -/

/-- `moq_vi64_len`. -/
def vi64Len (v : ℕ) : ℕ :=
  if v ≤ 0x7F then 1
  else if v ≤ 0x3FFF then 2
  else if v ≤ 0x1FFFFF then 3
  else if v ≤ 0xFFFFFFF then 4
  else if v ≤ 0x7FFFFFFFF then 5
  else if v ≤ 0x3FFFFFFFFFF then 6
  else if v ≤ 0x1FFFFFFFFFFFF then 7
  else if v ≤ 0xFFFFFFFFFFFFFF then 8
  else 9

/-- The loop of `moq_vi64_encoded_len`: at most `n` more leading one-bits. -/
def vi64LeadingOnes : ℕ → UInt8 → ℕ
  | 0, _ => 0
  | n + 1, b => if b &&& 0x80 ≠ 0 then vi64LeadingOnes n (b <<< 1) + 1 else 0

/-- `moq_vi64_encoded_len`. -/
def vi64EncodedLen (b : UInt8) : ℕ := vi64LeadingOnes 8 b + 1

/-- Where the accumulator of `moq_vi64_decode` starts: the low `8 - len` bits of the first byte, and
nothing of a first byte that is all length. -/
def vi64High (b : UInt8) : ℕ :=
  if vi64EncodedLen b = 9 then 0 else b.toNat &&& (0xFF >>> vi64EncodedLen b)

/-- `moq_vi64_decode`: the value and the bytes used. -/
def vi64Decode : Bytes → Option (ℕ × ℕ) := headRead vi64EncodedLen vi64High

/-- The length bits `moq_vi64_encode` sets in the first byte: `len - 1` ones and a zero. -/
def vi64Mark (len : ℕ) : ℕ := if len = 1 then 0 else ((1 <<< (len - 1)) - 1) <<< (9 - len)

/-- The first byte `moq_vi64_encode` writes for a value of `len` bytes. -/
def vi64First (len v : ℕ) : UInt8 :=
  if len = 9 then 0xFF
  else UInt8.ofNat (vi64Mark len) ||| UInt8.ofNat (v >>> (8 * (len - 1)))

/-- `moq_vi64_encode`, into a buffer that has room. -/
def vi64Encode (v : ℕ) : Bytes := vi64First (vi64Len v) v :: beBytes (vi64Len v - 1) v

/-! ## QUIC varint -/

/-- `MOQ_QUIC_VARINT_MAX`. -/
def quicVarintMax : ℕ := 0x3FFFFFFFFFFFFFFF

/-- `moq_quic_varint_len`. -/
def quicVarintLen (v : ℕ) : ℕ :=
  if v ≤ 0x3F then 1
  else if v ≤ 0x3FFF then 2
  else if v ≤ 0x3FFFFFFF then 4
  else if v ≤ quicVarintMax then 8
  else 0

/-- `moq_quic_varint_encoded_len`. -/
def quicVarintEncodedLen (b : UInt8) : ℕ := 1 <<< (b.toNat >>> 6)

/-- The low six bits of the first byte. -/
def quicVarintHigh (b : UInt8) : ℕ := b.toNat &&& 0x3F

/-- `moq_quic_varint_decode`; its four shift-and-or expressions are the big-endian value. -/
def quicVarintDecode : Bytes → Option (ℕ × ℕ) := headRead quicVarintEncodedLen quicVarintHigh

/-- The top bits `moq_quic_varint_encode` sets in the first byte. -/
def quicVarintMark (len : ℕ) : ℕ :=
  if len = 2 then 0x40 else if len = 4 then 0x80 else if len = 8 then 0xC0 else 0

/-- `moq_quic_varint_encode`, into a buffer that has room; nothing for a value that has no code. -/
def quicVarintEncode (v : ℕ) : Bytes :=
  if quicVarintLen v = 0 then []
  else UInt8.ofNat (quicVarintMark (quicVarintLen v) ||| v >>> (8 * (quicVarintLen v - 1))) ::
    beBytes (quicVarintLen v - 1) v

/-! ## The laws of vi64 -/

/-- A statement about bytes is one about the numbers below 256. -/
theorem forall_byte {P : UInt8 → Prop} (h : ∀ n < 256, P (UInt8.ofNat n)) (b : UInt8) : P b := by
  have := h b.toNat b.toNat_lt
  rwa [UInt8.ofNat_toNat] at this

/-- A first byte: its length, and leading bits that fill what it has left. -/
theorem vi64First_bounds : ∀ b, (0 < vi64EncodedLen b ∧ vi64EncodedLen b ≤ 9) ∧
    vi64High b < 2 ^ (8 - (vi64EncodedLen b)) :=
  forall_byte (by decide +kernel)

theorem vi64EncodedLen_bounds (b : UInt8) : 0 < vi64EncodedLen b ∧ vi64EncodedLen b ≤ 9 :=
  (vi64First_bounds b).1

theorem vi64High_lt (b : UInt8) : vi64High b < 2 ^ (8 - (vi64EncodedLen b)) :=
  (vi64First_bounds b).2

/-- The first byte written says the length and the leading bits. -/
theorem vi64First_short : ∀ len < 9, ∀ x < 128, 0 < len → x < 2 ^ (8 - len) →
    vi64EncodedLen (UInt8.ofNat (vi64Mark len) ||| UInt8.ofNat x) = len ∧
      vi64High (UInt8.ofNat (vi64Mark len) ||| UInt8.ofNat x) = x := by
  decide +kernel

theorem vi64First_long : vi64EncodedLen 0xFF = 9 ∧ vi64High 0xFF = 0 := ⟨rfl, rfl⟩

theorem vi64Len_pos (v : ℕ) : 0 < vi64Len v := by
  unfold vi64Len
  split_ifs <;> decide

variable {v n : ℕ} {p : Bytes}

/-- A value fits the bits of its length. -/
theorem lt_of_vi64Len (h : vi64Len v < 9) : v < 2 ^ (7 * vi64Len v) := by
  unfold vi64Len at h ⊢
  split_ifs at h ⊢ <;> omega

theorem vi64First_spec (hv : v ≤ u64Max) :
    vi64EncodedLen (vi64First (vi64Len v) v) = vi64Len v ∧
      vi64High (vi64First (vi64Len v) v) = v >>> (8 * (vi64Len v - 1)) := by
  have hpos := vi64Len_pos v
  rw [vi64First]
  split
  · rename_i h9
    rw [h9, Nat.shiftRight_eq_div_pow, Nat.div_eq_of_lt]
    · exact vi64First_long
    · exact Nat.lt_succ_of_le hv
  · rename_i h9
    have hlt : vi64Len v < 9 := by
      unfold vi64Len at h9 ⊢
      split_ifs at h9 ⊢ <;> omega
    have hx : v >>> (8 * (vi64Len v - 1)) < 2 ^ (8 - vi64Len v) := by
      rw [Nat.shiftRight_eq_div_pow, Nat.div_lt_iff_lt_mul (by positivity), ← pow_add]
      have : 8 - vi64Len v + 8 * (vi64Len v - 1) = 7 * vi64Len v := by omega
      rw [this]
      exact lt_of_vi64Len hlt
    have hsmall : 2 ^ (8 - vi64Len v) ≤ 2 ^ 7 := Nat.pow_le_pow_right (by decide) (by omega)
    exact vi64First_short _ hlt _ (lt_of_lt_of_le hx hsmall) hpos hx

/-- The bits a vi64 value has by its length. -/
theorem vi64Decode_lt (h : vi64Decode p = some (v, n)) : v < 2 ^ 64 ∧ v < 256 ^ n := by
  obtain ⟨b, rfl, hlt⟩ := headRead_lt vi64High_lt (fun b => (vi64EncodedLen_bounds b).1) h
  obtain ⟨hpos, hle⟩ := vi64EncodedLen_bounds b
  refine ⟨lt_of_lt_of_le hlt (Nat.pow_le_pow_right (by decide) (by omega)), lt_of_lt_of_le hlt ?_⟩
  rw [show (256 : ℕ) = 2 ^ 8 from rfl, ← pow_mul]
  exact Nat.pow_le_pow_right (by decide) (by omega)

/-- A value below `256^n` takes at most `2n` bytes. -/
theorem vi64Len_le (hv : v < 256 ^ n) (hn : 0 < n) : vi64Len v ≤ 2 * n := by
  have hn' : v < 0x100 ∨ v < 0x10000 ∧ 2 ≤ n ∨ v < 0x1000000 ∧ 3 ≤ n ∨ v < 0x100000000 ∧ 4 ≤ n ∨
      5 ≤ n := by
    rcases Nat.lt_or_ge n 5 with h5 | h5
    · interval_cases n <;> simp only [Nat.reducePow] at hv <;> omega
    · omega
  unfold vi64Len
  split_ifs <;> omega

theorem length_vi64Encode (v : ℕ) : (vi64Encode v).length = vi64Len v := by
  have := vi64Len_pos v
  simp only [vi64Encode, length_cons, length_beBytes]
  omega

theorem vi64Decode_vi64Encode (hv : v ≤ u64Max) (q : Bytes) :
    vi64Decode (vi64Encode v ++ q) = some (v, vi64Len v) := by
  obtain ⟨h1, h2⟩ := vi64First_spec hv
  exact headRead_headWrite (vi64Len_pos v) h1 h2 q

/-- **vi64 is an integer code for all 64-bit values.** -/
def vi64 : IntCode u64Max where
  read := vi64Decode
  len := vi64Len
  write := vi64Encode
  read_pos h := by
    obtain ⟨b, rest, rfl, rfl, hle, -⟩ := headRead_eq_some h
    exact ⟨(vi64EncodedLen_bounds b).1, hle⟩
  read_le h := Nat.le_of_lt_succ (vi64Decode_lt h).1
  read_lt h := (vi64Decode_lt h).2
  read_take h := headRead_take (fun b => (vi64EncodedLen_bounds b).1) h
  length_write _ := length_vi64Encode _
  read_write hv _ := vi64Decode_vi64Encode hv
  len_le _ hv hn := vi64Len_le hv hn

/-! ## The laws of the QUIC varint -/

/-- A first byte: one of four lengths, and six leading bits. -/
theorem quicVarintFirst_bounds : ∀ b,
    quicVarintEncodedLen b ∈ [1, 2, 4, 8] ∧ quicVarintHigh b < 2 ^ 6 :=
  forall_byte (by decide +kernel)

theorem quicVarintEncodedLen_mem (b : UInt8) : quicVarintEncodedLen b ∈ [1, 2, 4, 8] :=
  (quicVarintFirst_bounds b).1

theorem quicVarintEncodedLen_bounds (b : UInt8) :
    0 < quicVarintEncodedLen b ∧ quicVarintEncodedLen b ≤ 8 := by
  have hmem := quicVarintEncodedLen_mem b
  simp only [mem_cons, not_mem_nil, or_false] at hmem
  omega

theorem quicVarintHigh_lt (b : UInt8) : quicVarintHigh b < 2 ^ 6 := (quicVarintFirst_bounds b).2

/-- The first byte written says the length and the leading bits. -/
theorem quicVarintFirst_spec : ∀ x < 64, ∀ len ∈ [1, 2, 4, 8],
    quicVarintEncodedLen (UInt8.ofNat (quicVarintMark len ||| x)) = len ∧
      quicVarintHigh (UInt8.ofNat (quicVarintMark len ||| x)) = x := by
  decide +kernel

theorem quicVarintLen_mem (h : quicVarintLen v ≠ 0) :
    quicVarintLen v ∈ [1, 2, 4, 8] ∧ v < 2 ^ (8 * quicVarintLen v - 2) := by
  unfold quicVarintLen quicVarintMax at h ⊢
  split_ifs at h ⊢ <;> first | exact absurd rfl h | exact ⟨by decide, by omega⟩

theorem quicVarintDecode_lt (h : quicVarintDecode p = some (v, n)) :
    v ≤ quicVarintMax ∧ v < 256 ^ n := by
  obtain ⟨b, rfl, hlt⟩ := headRead_lt quicVarintHigh_lt
    (fun b => (quicVarintEncodedLen_bounds b).1) h
  obtain ⟨hpos, hle⟩ := quicVarintEncodedLen_bounds b
  have hmax : v < 2 ^ 62 := lt_of_lt_of_le hlt (Nat.pow_le_pow_right (by decide) (by omega))
  refine ⟨Nat.le_of_lt_succ hmax, lt_of_lt_of_le hlt ?_⟩
  rw [show (256 : ℕ) = 2 ^ 8 from rfl, ← pow_mul]
  exact Nat.pow_le_pow_right (by decide) (by omega)

theorem quicVarintLen_le (hv : v < 256 ^ n) (hn : 0 < n) : quicVarintLen v ≤ 2 * n := by
  have hn' : v < 0x100 ∨ v < 0x10000 ∧ 2 ≤ n ∨ v < 0x1000000 ∧ 3 ≤ n ∨ 4 ≤ n := by
    rcases Nat.lt_or_ge n 4 with h4 | h4
    · interval_cases n <;> simp only [Nat.reducePow] at hv <;> omega
    · omega
  unfold quicVarintLen
  split_ifs <;> omega

theorem length_quicVarintEncode (h : quicVarintLen v ≠ 0) :
    (quicVarintEncode v).length = quicVarintLen v := by
  rw [quicVarintEncode, if_neg h]
  simp only [length_cons, length_beBytes]
  omega

theorem quicVarintDecode_quicVarintEncode (h : quicVarintLen v ≠ 0) (q : Bytes) :
    quicVarintDecode (quicVarintEncode v ++ q) = some (v, quicVarintLen v) := by
  obtain ⟨hmem, hlt⟩ := quicVarintLen_mem h
  have hx : v >>> (8 * (quicVarintLen v - 1)) < 64 := by
    rw [Nat.shiftRight_eq_div_pow, Nat.div_lt_iff_lt_mul (by positivity),
      show (64 : ℕ) = 2 ^ 6 from rfl, ← pow_add]
    have : 6 + 8 * (quicVarintLen v - 1) = 8 * quicVarintLen v - 2 := by omega
    rwa [this]
  obtain ⟨h1, h2⟩ := quicVarintFirst_spec _ hx _ hmem
  rw [quicVarintEncode, if_neg h]
  exact headRead_headWrite (Nat.pos_of_ne_zero h) h1 h2 q

/-- **The QUIC varint is an integer code**; a value past its maximum has none. -/
def quicVarint : IntCode u64Max where
  read := quicVarintDecode
  len := quicVarintLen
  write := quicVarintEncode
  read_pos h := by
    obtain ⟨b, rest, rfl, rfl, hle, -⟩ := headRead_eq_some h
    exact ⟨(quicVarintEncodedLen_bounds b).1, hle⟩
  read_le h := (quicVarintDecode_lt h).1.trans (by decide)
  read_lt h := (quicVarintDecode_lt h).2
  read_take h := headRead_take (fun b => (quicVarintEncodedLen_bounds b).1) h
  length_write h := length_quicVarintEncode h
  read_write _ h := quicVarintDecode_quicVarintEncode h
  len_le _ hv hn := quicVarintLen_le hv hn

/-! ## Shortest codes -/

/-- A value with seven bits a byte takes no more bytes; nine take any. -/
theorem vi64Len_le_of_lt (hn : 0 < n) (h : n < 9 → v < 2 ^ (7 * n)) : vi64Len v ≤ n := by
  have hcases : n = 1 ∧ v ≤ 0x7F ∨ n = 2 ∧ v ≤ 0x3FFF ∨ n = 3 ∧ v ≤ 0x1FFFFF ∨
      n = 4 ∧ v ≤ 0xFFFFFFF ∨ n = 5 ∧ v ≤ 0x7FFFFFFFF ∨ n = 6 ∧ v ≤ 0x3FFFFFFFFFF ∨
      n = 7 ∧ v ≤ 0x1FFFFFFFFFFFF ∨ n = 8 ∧ v ≤ 0xFFFFFFFFFFFFFF ∨ 9 ≤ n := by
    rcases Nat.lt_or_ge n 9 with h9 | h9
    · have hv := h h9
      interval_cases n <;> omega
    · omega
  unfold vi64Len
  split_ifs <;> omega

/-- **No byte string is read as a value that takes more bytes.** -/
theorem vi64Len_le_of_decode (h : vi64Decode p = some (v, n)) : vi64Len v ≤ n := by
  obtain ⟨b, rfl, hlt⟩ := headRead_lt vi64High_lt (fun b => (vi64EncodedLen_bounds b).1) h
  obtain ⟨hpos, -⟩ := vi64EncodedLen_bounds b
  refine vi64Len_le_of_lt hpos fun h9 => ?_
  have hbits : 8 - vi64EncodedLen b + 8 * (vi64EncodedLen b - 1) = 7 * vi64EncodedLen b := by omega
  rwa [hbits] at hlt

theorem quicVarintLen_le_of_lt (hn : n ∈ [1, 2, 4, 8]) (h : v < 2 ^ (8 * n - 2)) :
    quicVarintLen v ≤ n := by
  simp only [mem_cons, not_mem_nil, or_false] at hn
  have hcases : n = 1 ∧ v ≤ 0x3F ∨ n = 2 ∧ v ≤ 0x3FFF ∨ n = 4 ∧ v ≤ 0x3FFFFFFF ∨ n = 8 := by
    rcases hn with rfl | rfl | rfl | rfl <;> omega
  unfold quicVarintLen
  split_ifs <;> omega

theorem quicVarintLen_le_of_decode
    (h : quicVarintDecode p = some (v, n)) : quicVarintLen v ≤ n := by
  obtain ⟨b, rfl, hlt⟩ := headRead_lt quicVarintHigh_lt
    (fun b => (quicVarintEncodedLen_bounds b).1) h
  have hbits : 6 + 8 * (quicVarintEncodedLen b - 1) = 8 * quicVarintEncodedLen b - 2 := by
    have := (quicVarintEncodedLen_bounds b).1
    omega
  rw [hbits] at hlt
  exact quicVarintLen_le_of_lt (quicVarintEncodedLen_mem b) hlt

theorem quicVarintLen_ne_zero (h : v ≤ quicVarintMax) : quicVarintLen v ≠ 0 := by
  unfold quicVarintLen
  split_ifs <;> simp

theorem le_of_quicVarintLen (h : quicVarintLen v ≠ 0) : v ≤ quicVarintMax := by
  by_contra hmax
  refine h ?_
  unfold quicVarintLen
  rw [quicVarintMax] at hmax ⊢
  split_ifs <;> omega

/-- **Both codecs write the shortest code**, vi64 of every 64-bit value and the QUIC varint of every
value below `2^62`; and whatever either reads, minimal or not, its own code of that value is no
longer than the bytes read. -/
theorem intCodes_shortest :
    (∀ v : UInt64, ShortestCode vi64Decode vi64Len vi64Encode v.toNat) ∧
      (∀ v < 2 ^ 62, ShortestCode quicVarintDecode quicVarintLen quicVarintEncode v) ∧
      (∀ p v n, vi64Decode p = some (v, n) → (vi64Encode v).length ≤ n) ∧
      ∀ p v n, quicVarintDecode p = some (v, n) → (quicVarintEncode v).length ≤ n := by
  refine ⟨fun v => ?_, fun v hv => ?_, fun p v n h => ?_, fun p v n h => ?_⟩
  · exact vi64.shortestCode (fun _ _ => vi64Len_le_of_decode) (Nat.le_of_lt_succ v.toNat_lt)
      (vi64Len_pos _).ne'
  · have hmax : v ≤ quicVarintMax := Nat.le_of_lt_succ hv
    exact quicVarint.shortestCode (fun _ _ => quicVarintLen_le_of_decode)
      (hmax.trans (by decide)) (quicVarintLen_ne_zero hmax)
  · rw [length_vi64Encode]
    exact vi64Len_le_of_decode h
  · rw [length_quicVarintEncode (quicVarintLen_ne_zero (quicVarintDecode_lt h).1)]
    exact quicVarintLen_le_of_decode h

end MoqRelay
