import Mathlib.Tactic

/-!
# Lib/IntCode — self-delimiting integer codes over bytes

An integer code reads a value off the front of a byte string and says how many bytes it used; it
writes a value in a number of bytes of its own, or not at all.  `IntCode` carries the laws a client
needs: what was written reads back, whatever follows, and a read looks at no byte behind those it
used.

Codes whose first byte fixes the length and holds the leading bits share one reader and one law,
`headRead_headWrite`.
-/

namespace MoqRelay

open List

/-! ## Big-endian bytes -/

/-- A byte string. -/
abbrev Bytes := List UInt8

/-- The `n` low bytes of `v`, the highest first. -/
def beBytes (n v : ℕ) : Bytes := (List.range n).map fun i => UInt8.ofNat (v >>> (8 * (n - 1 - i)))

/-- Append bytes to a value, the highest first. -/
def beValue (v : ℕ) (bytes : Bytes) : ℕ := bytes.foldl (fun v b => v <<< 8 ||| b.toNat) v

@[simp] theorem length_beBytes (n v : ℕ) : (beBytes n v).length = n := by simp [beBytes]

theorem beBytes_succ (n v : ℕ) : beBytes (n + 1) v = beBytes n (v >>> 8) ++ [UInt8.ofNat v] := by
  rw [beBytes, range_succ, map_append]
  congr 1
  · refine map_congr_left fun i hi => ?_
    have := mem_range.mp hi
    rw [← Nat.shiftRight_add]
    congr 2
    omega
  · simp

theorem shiftLeft_or_toNat (v : ℕ) (b : UInt8) : v <<< 8 ||| b.toNat = v * 256 + b.toNat := by
  rw [← Nat.shiftLeft_add_eq_or_of_lt b.toNat_lt, Nat.shiftLeft_eq]

theorem beValue_append (v : ℕ) (l m : Bytes) : beValue v (l ++ m) = beValue (beValue v l) m :=
  foldl_append

theorem beValue_eq (v : ℕ) (l : Bytes) : beValue v l = v * 256 ^ l.length + beValue 0 l := by
  induction l using reverseRecOn with
  | nil => simp [beValue]
  | append_singleton l b ih =>
    rw [beValue_append, beValue_append, ih]
    simp only [beValue, foldl_cons, foldl_nil, shiftLeft_or_toNat, length_append, length_singleton]
    ring

theorem beValue_lt (l : Bytes) : beValue 0 l < 256 ^ l.length := by
  induction l using reverseRecOn with
  | nil => simp [beValue]
  | append_singleton l b ih =>
    have hb := b.toNat_lt
    rw [beValue_append]
    simp only [beValue, foldl_cons, foldl_nil, shiftLeft_or_toNat, length_append,
      length_singleton, pow_succ] at ih ⊢
    omega

/-- The low bytes of a value put it back behind the rest. -/
theorem beValue_beBytes (n v : ℕ) : beValue (v >>> (8 * n)) (beBytes n v) = v := by
  induction n generalizing v with
  | zero => simp [beValue, beBytes]
  | succ n ih =>
    have hshift : v >>> (8 * (n + 1)) = v >>> 8 >>> (8 * n) := by
      rw [← Nat.shiftRight_add]
      congr 1
      omega
    rw [beBytes_succ, beValue_append, hshift, ih]
    simp only [beValue, foldl_cons, foldl_nil, shiftLeft_or_toNat, UInt8.toNat_ofNat',
      Nat.shiftRight_eq_div_pow]
    omega

/-! ## Codes with a length in the first byte -/

/-- Read a code whose first byte gives the length by `lenOf` and the leading bits by `high`. -/
def headRead (lenOf high : UInt8 → ℕ) : Bytes → Option (ℕ × ℕ)
  | [] => none
  | b :: rest =>
    if (b :: rest).length < lenOf b then none
    else some (beValue (high b) (rest.take (lenOf b - 1)), lenOf b)

section Head

variable {lenOf high : UInt8 → ℕ} {p : Bytes} {v n : ℕ}

/-- **What was written reads back**, whatever follows. -/
theorem headRead_headWrite {b : UInt8} (hn : 0 < n) (hlen : lenOf b = n)
    (hhigh : high b = v >>> (8 * (n - 1))) (rest : Bytes) :
    headRead lenOf high (b :: (beBytes (n - 1) v ++ rest)) = some (v, n) := by
  have hlong : ¬ (b :: (beBytes (n - 1) v ++ rest)).length < n := by
    simp only [length_cons, length_append, length_beBytes]
    omega
  rw [headRead, hlen, if_neg hlong, take_left' (length_beBytes _ v), hhigh, beValue_beBytes]

theorem headRead_eq_some (h : headRead lenOf high p = some (v, n)) :
    ∃ b rest, p = b :: rest ∧ n = lenOf b ∧ n ≤ p.length ∧
      v = beValue (high b) (rest.take (n - 1)) := by
  cases p with
  | nil => simp [headRead] at h
  | cons b rest =>
    rw [headRead] at h
    split at h
    · cases h
    · obtain ⟨hv, hn⟩ := Prod.mk.inj (Option.some.inj h)
      subst hn
      exact ⟨b, rest, rfl, rfl, by omega, hv.symm⟩

/-- A read looks at no byte behind those it used. -/
theorem headRead_take (hpos : ∀ b, 0 < lenOf b) (h : headRead lenOf high p = some (v, n))
    (q : Bytes) : headRead lenOf high (p.take n ++ q) = some (v, n) := by
  obtain ⟨b, rest, rfl, rfl, hle, rfl⟩ := headRead_eq_some h
  obtain ⟨m, hm⟩ : ∃ m, lenOf b = m + 1 := ⟨lenOf b - 1, by have := hpos b; omega⟩
  simp only [length_cons, hm] at hle
  rw [hm, take_succ_cons, cons_append, headRead, hm, if_neg, Nat.add_sub_cancel,
    take_left' (by simp; omega)]
  simp only [length_cons, length_append, length_take]
  omega

/-- A value read has the leading bits and eight for each byte behind the first. -/
theorem headRead_lt {bits : UInt8 → ℕ} (hhigh : ∀ b, high b < 2 ^ bits b) (hpos : ∀ b, 0 < lenOf b)
    (h : headRead lenOf high p = some (v, n)) :
    ∃ b, n = lenOf b ∧ v < 2 ^ (bits b + 8 * (n - 1)) := by
  obtain ⟨b, rest, rfl, rfl, hle, rfl⟩ := headRead_eq_some h
  refine ⟨b, rfl, ?_⟩
  obtain ⟨m, hm⟩ : ∃ m, lenOf b = m + 1 := ⟨lenOf b - 1, by have := hpos b; omega⟩
  have hlen : (rest.take m).length = m := by
    simp only [length_cons, hm] at hle
    simp only [length_take]
    omega
  have hb := hhigh b
  have hlow := beValue_lt (rest.take m)
  rw [hlen, show (256 : ℕ) = 2 ^ 8 from rfl, ← pow_mul] at hlow
  rw [hm, Nat.add_sub_cancel, beValue_eq, hlen, show (256 : ℕ) = 2 ^ 8 from rfl, ← pow_mul, pow_add]
  nlinarith

end Head

/-! ## Integer codes -/

/-- **A self-delimiting integer code** for values up to `max`: `len v` is the number of bytes `v` is
written in, and 0 when it has no code. -/
structure IntCode (max : ℕ) where
  read : Bytes → Option (ℕ × ℕ)
  len : ℕ → ℕ
  write : ℕ → Bytes
  read_pos : ∀ {p v n}, read p = some (v, n) → 0 < n ∧ n ≤ p.length
  read_le : ∀ {p v n}, read p = some (v, n) → v ≤ max
  read_lt : ∀ {p v n}, read p = some (v, n) → v < 256 ^ n
  read_take : ∀ {p v n}, read p = some (v, n) → ∀ q, read (p.take n ++ q) = some (v, n)
  length_write : ∀ {v}, len v ≠ 0 → (write v).length = len v
  read_write : ∀ {v}, v ≤ max → len v ≠ 0 → ∀ q, read (write v ++ q) = some (v, len v)
  len_le : ∀ {v n}, v ≤ max → v < 256 ^ n → 0 < n → len v ≤ 2 * n

/-- A read survives any change behind the bytes it used. -/
theorem IntCode.read_take_append {max v n m : ℕ} {p : Bytes} (c : IntCode max)
    (h : c.read p = some (v, n)) (hm : n ≤ m) (q : Bytes) :
    c.read (p.take m ++ q) = some (v, n) := by
  have hsplit : p.take m ++ q = p.take n ++ ((p.take m).drop n ++ q) := by
    have htake : (p.take m).take n = p.take n := by rw [take_take, min_eq_left hm]
    rw [← append_assoc, ← htake, take_append_drop]
  rw [hsplit]
  exact c.read_take h _

/-- **The code of a value is its shortest**: it has the length reported, reads back whatever
follows, is cut short nowhere, and no byte string read as the value is shorter. -/
structure ShortestCode (read : Bytes → Option (ℕ × ℕ)) (len : ℕ → ℕ) (write : ℕ → Bytes)
    (v : ℕ) : Prop where
  length_write : (write v).length = len v
  shortest : ∀ p n, read p = some (v, n) → len v ≤ n
  read_write : ∀ q, read (write v ++ q) = some (v, len v)
  read_cut : ∀ k < (write v).length, read ((write v).take k) = none

/-- A code whose reader never takes fewer bytes than the value needs. -/
theorem IntCode.shortestCode {max v : ℕ} (c : IntCode max)
    (htight : ∀ p n, c.read p = some (v, n) → c.len v ≤ n) (hv : v ≤ max) (hlen : c.len v ≠ 0) :
    ShortestCode c.read c.len c.write v where
  length_write := c.length_write hlen
  shortest := htight
  read_write := c.read_write hv hlen
  read_cut k hk := by
    rw [Option.eq_none_iff_forall_ne_some]
    rintro ⟨u, n⟩ hread
    have hn : n ≤ k := (c.read_pos hread).2.trans (length_take_le k _)
    -- A read of the cut code would be a read of the whole one, of too few bytes.
    have hwhole := c.read_take hread ((c.write v).drop n)
    rw [take_take, min_eq_left hn, take_append_drop] at hwhole
    have hcode := c.read_write hv hlen []
    rw [append_nil, hwhole] at hcode
    have := (Prod.mk.inj (Option.some.inj hcode)).2
    rw [c.length_write hlen] at hk
    omega

end MoqRelay
