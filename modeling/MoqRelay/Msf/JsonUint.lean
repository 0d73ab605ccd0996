import Mathlib.Data.Nat.Digits.Lemmas
import MoqRelay.Lib.IntCode
import MoqRelay.Lib.Machine

/-!
# Msf/JsonUint — the exact value of a JSON number

`json_uint_exact` of `msf.c`: a number token as an integer, decided from its digits and a decimal
shift.  Every step gives its exact number if that is within the maximum (`fit`), so the token is
read with the exponent that the loop has accumulated.  That exponent stops growing at six digits,
leading zeros apart (`readExponent_eq`), and a longer one is read as another: this is the only way
to go wrong (`jsonUintExact_exact_iff`).
-/

namespace MoqRelay.Msf

open List

/-- A character from `'0'` to `'9'`. -/
def isDigit (c : UInt8) : Bool := 0x30 ≤ c && c ≤ 0x39

/-- The value of a digit. -/
def digit (c : UInt8) : ℕ := (c - 0x30).toNat

/-- The loop over the digits of the exponent. -/
def readExponent (ds : Bytes) : ℕ :=
  ds.foldl (fun e c => if e < 100000 then e * 10 + digit c else e) 0

/-- The fraction, and what is behind it. -/
def fraction : Bytes → Option (Bytes × Bytes)
  | [] => some ([], [])
  | c :: s =>
    if c ≠ 0x2E then some ([], c :: s)
    else if s.takeWhile isDigit = [] then none
    else some (s.takeWhile isDigit, s.dropWhile isDigit)

/-- The sign of the exponent, and what is behind it. -/
def exponentSign : Bytes → Bool × Bytes
  | [] => (false, [])
  | c :: s => if c = 0x2B ∨ c = 0x2D then (c = 0x2D, s) else (false, c :: s)

/-- The exponent, and what is behind it. -/
def exponent : Bytes → Option (ℤ × Bytes)
  | [] => some (0, [])
  | c :: s =>
    if c ≠ 0x65 ∧ c ≠ 0x45 then some (0, c :: s)
    else
      let (neg, s) := exponentSign s
      let e := readExponent (s.takeWhile isDigit)
      if s.takeWhile isDigit = [] then none
      else some (if neg then -(e : ℤ) else e, s.dropWhile isDigit)

/-- The loop over the digits that are kept. -/
def accumulate (max : ℕ) : ℕ → Bytes → Option ℕ
  | v, [] => some v
  | v, c :: cs =>
    if v > u64Sub max (digit c) / 10 then none
    else accumulate max ((v * 10 + digit c) % 2 ^ 64) cs

/-- The loop that appends zeros. -/
def scaleUp (max : ℕ) : ℕ → ℕ → Option ℕ
  | 0, v => some v
  | k + 1, v =>
    if v = 0 then some v else if v > max / 10 then none else scaleUp max k (v * 10 % 2 ^ 64)

/-- The digits under a shift: those that a negative one drops must be zeros. -/
def shifted (max : ℕ) (ds : Bytes) (shift : ℤ) : Option ℕ :=
  let keep := ds.length - min (-shift).toNat ds.length
  if (ds.drop keep).any (· ≠ 0x30) then none
  else ((accumulate max 0 (ds.take keep)).bind (scaleUp max shift.toNat)).filter (· ≤ max)

/-- `json_uint_exact`. -/
def jsonUintExact (s : Bytes) (max : ℕ) : Option ℕ :=
  let int := s.takeWhile isDigit
  if int = [] then none
  else
    (fraction (s.dropWhile isDigit)).bind fun (frac, s) =>
      (exponent s).bind fun (exp10, s) =>
        if s ≠ [] then none else shifted max (int ++ frac) (exp10 - frac.length)

/-! ## Tokens -/

/-- The exponent of a number token. -/
structure JsonExp where
  mark : UInt8
  (sign digits : Bytes)
  mark_eq : mark = 0x65 ∨ mark = 0x45
  sign_eq : sign = [] ∨ sign = [0x2B] ∨ sign = [0x2D]
  digits_ne : digits ≠ []
  isDigit : ∀ c ∈ digits, isDigit c

/-- **A number token without a sign**; no digits of a fraction are no fraction. -/
structure JsonNumber where
  (int frac : Bytes)
  exp : Option JsonExp
  int_ne : int ≠ []
  int_lead : int.head? = some 0x30 → int.length = 1
  isDigit : ∀ c ∈ int ++ frac, isDigit c

/-- The characters of an exponent. -/
def JsonExp.text (e : JsonExp) : Bytes := e.mark :: (e.sign ++ e.digits)

/-- The characters of a token. -/
def JsonNumber.text (t : JsonNumber) : Bytes :=
  t.int ++ ((if t.frac = [] then [] else 0x2E :: t.frac) ++ t.exp.elim [] JsonExp.text)

/-- The number that digits spell. -/
def digitsValue (ds : Bytes) : ℕ := Nat.ofDigits 10 (ds.map digit).reverse

/-- The number that the first six digits spell, leading zeros apart. -/
def firstSix (ds : Bytes) : ℕ := digitsValue ((ds.dropWhile (· = 0x30)).take 6)

/-- An exponent, with its digits read by `f`. -/
def JsonExp.value (f : Bytes → ℕ) (e : JsonExp) : ℤ :=
  if e.sign = [0x2D] then -(f e.digits : ℤ) else f e.digits

/-- The exponent of a token, zero where there is none. -/
def JsonNumber.exponent (t : JsonNumber) (f : Bytes → ℕ) : ℤ := t.exp.elim 0 (JsonExp.value f)

/-- The value of a token under an exponent. -/
def JsonNumber.valueAt (t : JsonNumber) (e : ℤ) : ℚ :=
  digitsValue (t.int ++ t.frac) * 10 ^ (e - t.frac.length)

/-- **The value of a token**, of digits, fraction and exponent taken exactly. -/
def JsonNumber.value (t : JsonNumber) : ℚ := t.valueAt (t.exponent digitsValue)

/-- A one with zeros behind it, under an exponent. -/
def scaledOne (n : ℕ) (exp : Option JsonExp) : JsonNumber where
  int := 0x31 :: replicate n 0x30
  frac := []
  exp := exp
  int_ne := cons_ne_nil _ _
  int_lead h := nomatch Option.some.inj h
  isDigit c hc := by
    rcases mem_cons.mp ((append_nil _).symm ▸ hc) with rfl | hc
    · rfl
    · rw [(mem_replicate.mp hc).2]
      rfl

/-! ## Digits -/

section Digits

variable {ds : Bytes} {c : UInt8}

theorem digit_lt (h : isDigit c) : digit c < 10 := by
  simp only [isDigit, Bool.and_eq_true, decide_eq_true_eq, UInt8.le_iff_toNat_le] at h
  rw [digit, UInt8.toNat_sub_of_le _ _ (UInt8.le_iff_toNat_le.mpr h.1)]
  exact Nat.lt_of_le_of_lt (Nat.sub_le_sub_right h.2 _) (by decide)

theorem digit_eq_zero : digit c = 0 ↔ c = 0x30 := by
  rw [digit, ← UInt8.toNat_zero, UInt8.toNat_inj, sub_eq_zero]

theorem digitsValue_append (as bs : Bytes) :
    digitsValue (as ++ bs) = digitsValue as * 10 ^ bs.length + digitsValue bs := by
  rw [digitsValue, map_append, reverse_append, Nat.ofDigits_append, length_reverse, length_map,
    Nat.add_comm, Nat.mul_comm]
  rfl

theorem digitsValue_singleton (c : UInt8) : digitsValue [c] = digit c := Nat.ofDigits_singleton ..

theorem digitsValue_cons (c : UInt8) (ds : Bytes) :
    digitsValue (c :: ds) = digit c * 10 ^ ds.length + digitsValue ds := by
  rw [← singleton_append, digitsValue_append, digitsValue_singleton]

theorem digitsValue_lt (h : ∀ c ∈ ds, isDigit c) : digitsValue ds < 10 ^ ds.length := by
  have hlt := Nat.ofDigits_lt_base_pow_length (b := 10) (l := (ds.map digit).reverse) (by decide)
    fun d hd => by
      obtain ⟨c, hc, rfl⟩ := mem_map.mp (mem_reverse.mp hd)
      exact digit_lt (h c hc)
  rwa [length_reverse, length_map] at hlt

theorem digitsValue_eq_zero : digitsValue ds = 0 ↔ ds.any (· ≠ 0x30) = false := by
  induction ds with
  | nil => exact iff_of_true rfl rfl
  | cons c ds ih =>
    rw [digitsValue_cons]
    simp [ih, digit_eq_zero]

theorem digitsValue_zeros (k : ℕ) : digitsValue (replicate k 0x30) = 0 :=
  digitsValue_eq_zero.mpr (by simp)

/-- **Six digits of an exponent are exact**, and no more are read. -/
theorem readExponent_spec (h : ∀ c ∈ ds, isDigit c) :
    readExponent ds < 1000000 ∧ (digitsValue ds < 1000000 → readExponent ds = digitsValue ds) := by
  induction ds using reverseRecOn with
  | nil => exact ⟨by decide, fun _ => rfl⟩
  | append_singleton ds c ih =>
    obtain ⟨hlt, heq⟩ := ih fun c hc => h c (mem_append_left _ hc)
    have hc := digit_lt (h c (by simp))
    have hread : readExponent (ds ++ [c]) =
        if readExponent ds < 100000 then readExponent ds * 10 + digit c else readExponent ds :=
      foldl_concat ..
    rw [digitsValue_append, digitsValue_singleton, length_singleton, hread]
    split_ifs <;> omega

/-- Leading zeros do not count. -/
theorem readExponent_dropWhile (ds : Bytes) :
    readExponent (ds.dropWhile (· = 0x30)) = readExponent ds := by
  induction ds with
  | nil => rfl
  | cons c ds ih =>
    by_cases hc : c = 0x30
    · rw [dropWhile_cons_of_pos (by simpa using hc), ih, hc]
      rfl
    · rw [dropWhile_cons_of_neg (by simpa using hc)]

/-- Behind a first digit that is no zero, the loop stops after six. -/
theorem readExponent_take (h : ∀ c ∈ ds, isDigit c) (hlead : ∀ c ∈ ds.head?, c ≠ 0x30) :
    readExponent ds = digitsValue (ds.take 6) := by
  induction ds using reverseRecOn with
  | nil => rfl
  | append_singleton ds c ih =>
    have hds : ∀ c ∈ ds, isDigit c := fun c hc => h c (mem_append_left _ hc)
    have hread : readExponent (ds ++ [c]) =
        if readExponent ds < 100000 then readExponent ds * 10 + digit c else readExponent ds :=
      foldl_concat ..
    rw [hread]
    cases ds with
    | nil => simp [readExponent, digitsValue_singleton]
    | cons d ds =>
      rw [ih hds hlead]
      by_cases hlen : ds.length < 5
      · -- five digits or less, and one more
        have hlt := digitsValue_lt hds
        have hpow : 10 ^ (d :: ds).length ≤ 10 ^ 5 :=
          Nat.pow_le_pow_right (by decide) (by rw [length_cons]; omega)
        rw [take_of_length_le (by simp; omega), take_of_length_le (by simp; omega),
          if_pos (by omega), digitsValue_append, digitsValue_singleton, length_singleton, pow_one]
      · -- six digits from a first one that is no zero
        have hd : 1 ≤ digit d := Nat.one_le_iff_ne_zero.mpr fun h0 =>
          hlead d rfl (digit_eq_zero.mp h0)
        have hmin : (ds.take 5).length = 5 := by simp; omega
        rw [take_append_of_le_length (by simp; omega), take_succ_cons, digitsValue_cons, hmin,
          if_neg (by omega)]

/-- **An exponent is read as its first six digits.** -/
theorem readExponent_eq (h : ∀ c ∈ ds, isDigit c) : readExponent ds = firstSix ds := by
  rw [← readExponent_dropWhile]
  refine readExponent_take (fun c hc => h c ((dropWhile_suffix _).subset hc)) fun c hc => ?_
  have := head?_dropWhile_not (· = (0x30 : UInt8)) ds
  rw [Option.mem_def.mp hc] at this
  simpa using this

end Digits

/-! ## Numbers within the maximum -/

/-- A number, if it is within the maximum. -/
def fit (max n : ℕ) : Option ℕ := if n ≤ max then some n else none

variable {max v r : ℕ}

theorem fit_eq_some {n : ℕ} : fit max n = some r ↔ r = n ∧ r ≤ max := by
  rw [fit, Option.ite_none_right_eq_some, Option.some_inj, eq_comm, and_comm]
  exact and_congr_right fun h => by rw [h]

theorem accumulate_append (as bs : Bytes) :
    accumulate max v (as ++ bs) = (accumulate max v as).bind fun v => accumulate max v bs := by
  induction as generalizing v with
  | nil => rfl
  | cons c as ih =>
    rw [cons_append, accumulate, accumulate]
    split_ifs
    · rfl
    · exact ih

/-- Zeros are appended as digits are. -/
theorem scaleUp_eq (h64 : max ≤ u64Max) (k : ℕ) :
    scaleUp max k v = accumulate max v (replicate k 0x30) := by
  have hsub : u64Sub max 0 = max := by
    rw [u64Max] at h64
    rw [u64Sub]
    omega
  induction k generalizing v with
  | zero => rfl
  | succ k ih =>
    have hzero : scaleUp max k 0 = some 0 := by cases k <;> rfl
    rw [scaleUp, replicate_succ, accumulate, digit_eq_zero.mpr rfl, hsub, ← ih]
    split_ifs with h0 hbig
    · omega
    · rw [h0, Nat.zero_mod, hzero]
    · rfl
    · rfl

/-- **Digits are appended while the number is within the maximum.** -/
theorem accumulate_eq (hmax : 9 ≤ max) (h64 : max ≤ u64Max) (ds : Bytes)
    (hds : ∀ c ∈ ds, isDigit c) (hv : v ≤ max) :
    accumulate max v ds = fit max (v * 10 ^ ds.length + digitsValue ds) := by
  induction ds generalizing v with
  | nil =>
    rw [length_nil, pow_zero, Nat.mul_one]
    exact (if_pos hv).symm
  | cons c ds ih =>
    obtain ⟨hc, hds⟩ := forall_mem_cons.mp hds
    have hlt := digit_lt hc
    have hle : v * 10 + digit c ≤ (v * 10 + digit c) * 10 ^ ds.length :=
      Nat.le_mul_of_pos_right _ (by positivity)
    have hvalue : v * 10 ^ (c :: ds).length + digitsValue (c :: ds) =
        (v * 10 + digit c) * 10 ^ ds.length + digitsValue ds := by
      rw [digitsValue_cons, length_cons, pow_succ]
      ring
    rw [u64Max] at h64
    rw [accumulate, u64Sub, hvalue]
    split_ifs with hbig
    · rw [fit, if_neg (by omega)]
    · rw [Nat.mod_eq_of_lt (by omega), ih hds (by omega)]

/-- **The shifted digits are exact.** -/
theorem shifted_eq_some (hmax : 9 ≤ max) (h64 : max ≤ u64Max) {ds : Bytes}
    (hds : ∀ c ∈ ds, isDigit c) (shift : ℤ) :
    shifted max ds shift = some r ↔ (r : ℚ) = digitsValue ds * 10 ^ shift ∧ r ≤ max := by
  obtain ⟨keep, hkeep⟩ : ∃ keep, ds.length - min (-shift).toNat ds.length = keep := ⟨_, rfl⟩
  have hsplit := digitsValue_append (ds.take keep) (ds.drop keep)
  have hlt := @digitsValue_lt (ds.drop keep) fun c hc => hds c (mem_of_mem_drop hc)
  have hkept : keep = 0 → digitsValue (ds.take keep) = 0 := fun h => by rw [h]; rfl
  rw [take_append_drop] at hsplit
  rw [length_drop] at hsplit hlt
  have hzeros (k : ℕ) : (accumulate max 0 (ds.take keep)).bind (scaleUp max k) =
      fit max (digitsValue (ds.take keep) * 10 ^ k) := by
    have hall : ∀ c ∈ ds.take keep ++ replicate k 0x30, isDigit c := fun c hc =>
      (mem_append.mp hc).elim (fun hc => hds c (mem_of_mem_take hc))
        fun hc => (mem_replicate.mp hc).2 ▸ rfl
    have heq := accumulate_eq hmax h64 _ hall (Nat.zero_le max)
    rw [accumulate_append, Nat.zero_mul, Nat.zero_add, digitsValue_append, digitsValue_zeros,
      length_replicate, Nat.add_zero] at heq
    simpa only [scaleUp_eq h64] using heq
  have hcode : shifted max ds shift = some r ↔ digitsValue (ds.drop keep) = 0 ∧
      r = digitsValue (ds.take keep) * 10 ^ shift.toNat ∧ r ≤ max := by
    rw [shifted, hkeep, hzeros, digitsValue_eq_zero]
    cases (ds.drop keep).any (· ≠ 0x30) with
    | true => simp
    | false => simp [Option.filter_eq_some_iff, fit_eq_some]
  rw [hcode, hsplit, ← and_assoc]
  refine and_congr_left fun _ => ?_
  generalize digitsValue (ds.take keep) = a at hkept ⊢
  generalize digitsValue (ds.drop keep) = b at hlt ⊢
  obtain ⟨k, rfl | rfl⟩ := shift.eq_nat_or_neg
  · have hall : ds.length - keep = 0 := by simp at hkeep; omega
    rw [hall, pow_zero] at hlt ⊢
    obtain rfl : b = 0 := by omega
    rw [Nat.mul_one]
    simp only [true_and]
    exact_mod_cast Iff.rfl
  · rw [Int.toNat_neg_natCast, pow_zero, Nat.mul_one, zpow_neg, eq_mul_inv_iff_mul_eq₀
      (by positivity)]
    norm_cast
    simp only [neg_neg, Int.toNat_natCast] at hkeep
    have hdropped : ds.length - keep = min k ds.length := by omega
    rw [hdropped] at hlt ⊢
    have hlt' : b < 10 ^ k := hlt.trans_le (Nat.pow_le_pow_right (by decide) (min_le_left ..))
    -- where the shift is longer than the digits, none is kept
    have hpow : a * 10 ^ min k ds.length = a * 10 ^ k := by
      rcases le_total ds.length k with hle | hle
      · rw [hkept (by omega), Nat.zero_mul, Nat.zero_mul]
      · rw [min_eq_left hle]
    rw [hpow]
    refine ⟨fun h => by rw [h.1, h.2, Nat.add_zero], fun h => ?_⟩
    have hb : b = 0 := by
      have hmod := congrArg (· % 10 ^ k) h
      rwa [Nat.mul_mod_left, Nat.mul_add_mod_self_right, Nat.mod_eq_of_lt hlt', eq_comm] at hmod
    exact ⟨hb, Nat.eq_of_mul_eq_mul_right (by positivity) (h.trans (by rw [hb, Nat.add_zero]))⟩

/-! ## Tokens, read -/

/-- A run of digits ends at what is none. -/
theorem takeWhile_digits {ds rest : Bytes} (hds : ∀ c ∈ ds, isDigit c)
    (hrest : ∀ c ∈ rest.head?, isDigit c = false) :
    (ds ++ rest).takeWhile isDigit = ds ∧ (ds ++ rest).dropWhile isDigit = rest := by
  rw [takeWhile_append_of_pos hds, dropWhile_append_of_pos hds]
  cases rest with
  | nil => simp
  | cons c rest => simp [hrest c rfl]

theorem exponent_text (e : JsonExp) : exponent e.text = some (e.value readExponent, []) := by
  obtain ⟨c, ds, hds⟩ := exists_cons_of_ne_nil e.digits_ne
  have hc := e.isDigit c (by simp [hds])
  have hplus : c ≠ 0x2B := fun h => absurd hc (h ▸ by decide)
  have hminus : c ≠ 0x2D := fun h => absurd hc (h ▸ by decide)
  have hmark : ¬ (e.mark ≠ 0x65 ∧ e.mark ≠ 0x45) := by
    have := e.mark_eq
    tauto
  have hsign : exponentSign (e.sign ++ e.digits) = (decide (e.sign = [0x2D]), e.digits) := by
    rcases e.sign_eq with h | h | h <;> simp [exponentSign, h, hds, hplus, hminus]
  obtain ⟨htake, hdrop⟩ := @takeWhile_digits e.digits [] e.isDigit nofun
  rw [append_nil] at htake hdrop
  rw [JsonExp.text, exponent, if_neg hmark, hsign]
  simp [htake, hdrop, e.digits_ne, JsonExp.value]

theorem fraction_text {ds rest : Bytes} (hds : ∀ c ∈ ds, isDigit c)
    (hrest : ∀ c ∈ rest.head?, isDigit c = false ∧ c ≠ 0x2E) :
    fraction ((if ds = [] then [] else 0x2E :: ds) ++ rest) = some (ds, rest) := by
  by_cases h0 : ds = []
  · cases rest with
    | nil => simp [h0, fraction]
    | cons c rest => simp [h0, fraction, (hrest c rfl).2]
  · obtain ⟨htake, hdrop⟩ := takeWhile_digits hds fun c hc => (hrest c hc).1
    simp [h0, fraction, htake, hdrop]

/-- **A token is read with the exponent that was accumulated.** -/
theorem jsonUintExact_text (hmax : 9 ≤ max) (h64 : max ≤ u64Max) (t : JsonNumber) :
    jsonUintExact t.text max = some r ↔
      (r : ℚ) = t.valueAt (t.exponent readExponent) ∧ r ≤ max := by
  obtain ⟨int, frac, exp, hne, -, hds⟩ := t
  have hrest : ∀ c ∈ (exp.elim [] JsonExp.text).head?, isDigit c = false ∧ c ≠ 0x2E := by
    rcases exp with - | e
    · exact nofun
    · rintro _ ⟨rfl⟩
      rcases e.mark_eq with h | h <;> rw [h] <;> decide
  have hbehind : ∀ c ∈ ((if frac = [] then [] else 0x2E :: frac) ++
      exp.elim [] JsonExp.text).head?, isDigit c = false := by
    intro c hc
    split_ifs at hc
    · exact (hrest c hc).1
    · cases hc
      decide
  have hexp : exponent (exp.elim [] JsonExp.text) =
      some (exp.elim 0 (JsonExp.value readExponent), []) := by
    rcases exp with - | e
    · rfl
    · exact exponent_text e
  obtain ⟨htake, hdrop⟩ := takeWhile_digits (fun c hc => hds c (mem_append_left _ hc)) hbehind
  rw [jsonUintExact, JsonNumber.text, htake, hdrop,
    fraction_text (fun c hc => hds c (mem_append_right _ hc)) hrest, if_neg hne, Option.bind_some]
  dsimp only
  rw [hexp]
  exact shifted_eq_some hmax h64 hds _

/-! ## Exactness -/

/-- **A token is read exactly**: accepted just if its value is an integer within the maximum, and
then as that value. -/
def ReadExactly (t : JsonNumber) (max : ℕ) : Prop :=
  ∀ r, jsonUintExact t.text max = some r ↔ (r : ℚ) = t.value ∧ r ≤ max

/-- **Every token is read exactly but those with an exponent of more than six digits** which are
integers within the maximum, under that exponent or under its first six digits. -/
theorem jsonUintExact_exact_iff (t : JsonNumber) (max : ℕ) (hmax : 9 ≤ max)
    (h64 : max ≤ u64Max) : ReadExactly t max ↔
      |t.exponent digitsValue| < 1000000 ∨ digitsValue (t.int ++ t.frac) = 0 ∨
        ∀ r : ℕ, r ≤ max → (r : ℚ) ≠ t.value ∧
          (r : ℚ) ≠ t.valueAt (t.exponent firstSix) := by
  have hsix : t.exponent firstSix = t.exponent readExponent := by
    rcases he : t.exp with - | e
    · simp [JsonNumber.exponent, he]
    · simp [JsonNumber.exponent, he, JsonExp.value, readExponent_eq e.isDigit]
  rw [hsix]
  have hread : ReadExactly t max ↔ ∀ r : ℕ, r ≤ max →
      ((r : ℚ) = t.valueAt (t.exponent readExponent) ↔ (r : ℚ) = t.value) :=
    forall_congr' fun r => by rw [jsonUintExact_text hmax h64, and_congr_left_iff]
  have hsmall : |t.exponent digitsValue| < 1000000 ↔
      t.exponent readExponent = t.exponent digitsValue := by
    rcases he : t.exp with - | e
    · simp [JsonNumber.exponent, he]
    · obtain ⟨hlt, heq⟩ := readExponent_spec e.isDigit
      simp only [JsonNumber.exponent, he, Option.elim_some, JsonExp.value]
      split_ifs <;> simp only [abs_neg, Nat.abs_cast] <;> omega
  rw [hread, hsmall]
  constructor
  · intro h
    rw [or_iff_not_imp_left, or_iff_not_imp_left]
    intro hne hpos r hr
    have hvalues : t.valueAt (t.exponent readExponent) ≠ t.value := fun heq => by
      have hpow := mul_left_cancel₀ (Nat.cast_ne_zero.mpr hpos) heq
      exact hne (sub_left_injective (zpow_right_injective₀ (by norm_num) (by norm_num) hpow))
    exact ⟨fun hval => hvalues (((h r hr).mpr hval).symm.trans hval),
      fun hval => hvalues (hval.symm.trans ((h r hr).mp hval))⟩
  · rintro (h | h | h) r hr
    · rw [h, JsonNumber.value]
    · simp [JsonNumber.value, JsonNumber.valueAt, h]
    · exact iff_of_false (h r hr).2 (h r hr).1

/-- The token `1.50E+001`. -/
def fifteen : JsonNumber where
  int := [0x31]
  frac := [0x35, 0x30]
  exp := some ⟨0x45, [0x2B], [0x30, 0x30, 0x31], .inr rfl, .inr (.inl rfl), cons_ne_nil _ _,
    all_eq_true.mp rfl⟩
  int_ne := cons_ne_nil _ _
  int_lead _ := rfl
  isDigit := all_eq_true.mp rfl

/-- A fraction and an exponent are read exactly. -/
theorem fifteen_readExactly : 9 ≤ 20 ∧ 20 ≤ u64Max ∧ ReadExactly fifteen 20 ∧
    jsonUintExact fifteen.text 20 = some 15 :=
  ⟨by decide, by decide,
    (jsonUintExact_exact_iff _ 20 (by decide) (by decide)).mpr (.inl (by decide)), by decide⟩

theorem scaledOne_valueAt (n : ℕ) (exp : Option JsonExp) (e : ℤ) :
    (scaledOne n exp).valueAt e = 10 ^ (n + e) := by
  have hint : digitsValue (0x31 :: replicate n 0x30) = 10 ^ n := by
    rw [← singleton_append, digitsValue_append, digitsValue_zeros, length_replicate]
    exact (Nat.add_zero _).trans (Nat.one_mul _)
  rw [JsonNumber.valueAt, scaledOne, append_nil, hint, zpow_add₀ (by norm_num)]
  simp

/-- The exponent `e-1000000`. -/
def millionExp : JsonExp :=
  ⟨0x65, [0x2D], [0x31, 0x30, 0x30, 0x30, 0x30, 0x30, 0x30], .inl rfl, .inr (.inr rfl),
    cons_ne_nil _ _, all_eq_true.mp rfl⟩

/-- A one, and a one with a million zeros under the exponent that takes them off. -/
theorem equal_tokens_read_differently :
    ∃ t t' : JsonNumber, t.value = 1 ∧ t'.value = 1 ∧ jsonUintExact t.text 9 = some 1 ∧
      jsonUintExact t'.text 9 = none := by
  refine ⟨scaledOne 0 none, scaledOne 1000000 (some millionExp), ?_, ?_, by decide, ?_⟩
  iterate 2 exact (scaledOne_valueAt ..).trans (zpow_zero _)
  · refine Option.eq_none_iff_forall_ne_some.mpr fun r hr => ?_
    obtain ⟨hval, hle⟩ := (jsonUintExact_text (by decide) (by decide) _).mp hr
    have hbig : (10 : ℚ) ^ (1 : ℤ) ≤ 10 ^ (((1000000 : ℕ) : ℤ) + -100000) :=
      zpow_le_zpow_right₀ (by norm_num) (by norm_num)
    rw [scaledOne_valueAt] at hval
    have hten : (10 : ℚ) ≤ r := (zpow_one (10 : ℚ)).symm.trans_le (hbig.trans_eq hval.symm)
    have : 10 ≤ r := by exact_mod_cast hten
    omega

end MoqRelay.Msf
