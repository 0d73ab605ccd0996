import Mathlib.Tactic
import MoqRelay.Basic

/-!
# Media/Scale — timestamp scalings without a wide product

`rescale` of the packager, `loc_time_us` and `scale_time_checked` of the media object, and
`pb_scale_checked` of the playback engine.  All four split the value into quotient and remainder
first, `n * m / d = n / d * m + n % d * m / d`; they differ in how the remainder's part is found and
in how an overflow is noticed.  Signed arithmetic is in `ℤ`, where no intermediate value leaves
`int64_t` (`rescale_fits`); unsigned results are taken modulo `2 ^ 64` (`wrap`).
-/

namespace MoqRelay.Scale

/-- **A product is divided by way of the quotient and the remainder.** -/
theorem mul_div_split (n m : ℕ) {d : ℕ} (hd : 0 < d) : n * m / d = n / d * m + n % d * m / d := by
  have hn : n * m = n % d * m + d * (n / d * m) := by rw [← mul_assoc, ← add_mul, Nat.mod_add_div]
  rw [hn, Nat.add_mul_div_left _ _ hd, add_comm]

/-! ## Signed -/

/-- `RESCALE_MAX`. -/
def rescaleMax : ℤ := 0x7fffffff

/-- `INT64_MAX`. -/
def int64Max : ℤ := 2 ^ 63 - 1

/-- `INT64_MIN`. -/
def int64Min : ℤ := -2 ^ 63

/-- The range of `int64_t`. -/
def InInt64 (v : ℤ) : Prop := int64Min ≤ v ∧ v ≤ int64Max

instance (v : ℤ) : Decidable (InInt64 v) := inferInstanceAs (Decidable (_ ∧ _))

/-- The test of `rescale` before it adds. -/
def sumOverflows (whole fraction : ℤ) : Bool :=
  if fraction > 0 then whole > int64Max - fraction else whole < int64Min - fraction

/-- `rescale`; `none` when the result would not fit. -/
def rescale (v num den : ℤ) : Option ℤ :=
  if den ≤ 0 || num ≤ 0 || num = den then some v
  else
    let q := v.tdiv den
    let r := v.tmod den
    if q > int64Max.tdiv num || q < int64Min.tdiv num then none
    else
      let whole := q * num
      let fraction := (r * num).tdiv den
      if sumOverflows whole fraction then none else some (whole + fraction)

/-- The value by its quotient and remainder, which have its sign. -/
theorem tdiv_split (v : ℤ) {num den : ℕ} (hden : 0 < den) :
    (v * num).tdiv den = v.tdiv den * num + (v.tmod den * num).tdiv den := by
  have hnat : ∀ n : ℕ, ((n : ℤ) * num).tdiv den =
      (n : ℤ).tdiv den * num + ((n : ℤ).tmod den * num).tdiv den := fun n => by
    have := mul_div_split n num hden
    simp only [← Int.ofNat_tdiv, ← Int.ofNat_tmod, ← Nat.cast_mul]
    exact_mod_cast this
  obtain ⟨n, rfl | rfl⟩ := v.eq_nat_or_neg
  · exact hnat n
  · simp only [neg_mul, Int.neg_tdiv, Int.neg_tmod]
    rw [hnat, neg_add]

variable {q m v : ℤ} {num den : ℕ}

/-- A multiple that a truncated quotient lets through. -/
theorem le_tdiv_iff (hnum : 0 < num) (hm : 0 ≤ m) : q ≤ m.tdiv num ↔ q * num ≤ m := by
  rw [Int.tdiv_eq_ediv_of_nonneg hm, Int.le_ediv_iff_mul_le (by exact_mod_cast hnum)]

theorem tdiv_le_iff (hnum : 0 < num) (hm : 0 ≤ m) : (-m).tdiv num ≤ q ↔ -m ≤ q * num := by
  rw [Int.neg_tdiv, neg_le, le_tdiv_iff hnum hm, neg_mul, neg_le]

/-- The first test of `rescale` is that of the product. -/
theorem product_fits_iff (hnum : 0 < num) :
    (q > int64Max.tdiv num || q < int64Min.tdiv num) = false ↔ InInt64 (q * num) := by
  rw [Bool.or_eq_false_iff, decide_eq_false_iff_not, decide_eq_false_iff_not, not_lt,
    not_lt, le_tdiv_iff hnum (by decide), int64Min, tdiv_le_iff hnum (by decide), and_comm, InInt64,
    int64Min]

/-- The two parts of the result have one sign. -/
theorem parts_sign (v : ℤ) (num den : ℕ) :
    (0 ≤ v.tdiv den * num ∧ 0 ≤ (v.tmod den * num).tdiv den) ∨
      (v.tdiv den * num ≤ 0 ∧ (v.tmod den * num).tdiv den ≤ 0) := by
  have hnat : ∀ n : ℕ, 0 ≤ (n : ℤ).tdiv den * num ∧ 0 ≤ ((n : ℤ).tmod den * num).tdiv den :=
    fun n => ⟨by rw [← Int.ofNat_tdiv]; positivity, by
      rw [← Int.ofNat_tmod, ← Nat.cast_mul, ← Int.ofNat_tdiv]; positivity⟩
  obtain ⟨n, rfl | rfl⟩ := v.eq_nat_or_neg
  · exact .inl (hnat n)
  · right
    simp only [neg_mul, Int.neg_tdiv, Int.neg_tmod, neg_nonpos]
    exact hnat n

/-- **The product of the remainder does not leave `int64_t`** within the limits set at create; that
of the quotient is tested. -/
theorem rescale_fits (v : ℤ) (hmax : (num : ℤ) ≤ rescaleMax) (hden : 0 < den)
    (hmax' : (den : ℤ) ≤ rescaleMax) : InInt64 (v.tmod den * num) := by
  rw [rescaleMax] at hmax hmax'
  have hr : (v.tmod den).natAbs < den := by
    rw [Int.natAbs_tmod]
    exact Nat.mod_lt _ hden
  have hprod : (v.tmod den * num).natAbs ≤ 0x7fffffff * 0x7fffffff := by
    rw [Int.natAbs_mul]
    exact Nat.mul_le_mul (by omega) (by omega)
  simp only [InInt64, int64Min, int64Max]
  omega

theorem sumOverflows_iff {w f : ℤ} (hw : InInt64 w) : sumOverflows w f ↔ ¬ InInt64 (w + f) := by
  simp only [InInt64, int64Min, int64Max] at hw ⊢
  rw [sumOverflows, int64Min, int64Max]
  split_ifs <;> rw [decide_eq_true_eq] <;> omega

theorem rescale_eq (hv : InInt64 v) (hnum : 0 < num) (hden : 0 < den) :
    rescale v num den =
      if InInt64 ((v * num).tdiv den) then some ((v * num).tdiv den) else none := by
  by_cases hone : num = den
  · subst hone
    rw [rescale, if_pos (by simp), Int.mul_tdiv_cancel _ (by exact_mod_cast hnum.ne'), if_pos hv]
  have hgo : ¬ ((den : ℤ) ≤ 0 || (num : ℤ) ≤ 0 || (num : ℤ) = den) := by
    simp only [Bool.or_eq_true, decide_eq_true_eq, Nat.cast_inj]
    omega
  have hsign := parts_sign v num den
  rw [rescale, if_neg hgo, tdiv_split v hden]
  dsimp only
  by_cases hfit : InInt64 (v.tdiv den * num)
  · rw [(product_fits_iff hnum).mpr hfit, if_neg Bool.false_ne_true]
    have hsum := @sumOverflows_iff _ ((v.tmod den * num).tdiv den) hfit
    split_ifs with h1 h2 h2
    · exact absurd h2 (hsum.mp h1)
    · rfl
    · rfl
    · exact absurd (hsum.mpr h2) h1
  · rw [Bool.eq_true_of_not_eq_false (mt (product_fits_iff hnum).mp hfit), if_pos rfl, if_neg]
    simp only [InInt64, int64Min, int64Max] at hfit ⊢
    omega

/-! ## Unsigned -/

/-- A result as `uint64_t` holds it. -/
def wrap (n : ℕ) : ℕ := n % 2 ^ 64

/-- The exact microseconds, if they fit. -/
def exactUs (ticks scale : ℕ) : Option ℕ :=
  if ticks * 1000000 / scale ≤ u64Max then some (ticks * 1000000 / scale) else none

/-- The common body of `scale_time_checked` and `pb_scale_checked`. -/
def scaleSplit (ticks scale : ℕ) : Option ℕ :=
  let sec := ticks / scale
  let rem := ticks % scale
  if sec > u64Max / 1000000 then none
  else
    let usSec := wrap (sec * 1000000)
    let usRem := wrap (rem * 1000000) / scale
    if usSec > u64Max - usRem then none else some (wrap (usSec + usRem))

/-- `scale_time_checked`. -/
def scaleTimeChecked (ticks timescale : ℕ) : Option ℕ := scaleSplit ticks timescale

/-- `pb_scale_checked`. -/
def pbScaleChecked (ticks ts : ℕ) : Option ℕ := if ts = 0 then none else scaleSplit ticks ts

/-- `r + a` below `scale`, and the quotient that counts the wraps. -/
def addBelow (scale a : ℕ) : ℕ × ℕ → ℕ × ℕ
  | (frac, r) =>
    if r ≥ scale - a then (wrap (frac + 1), r - (scale - a)) else (frac, wrap (r + a))

/-- One turn of the loop of `loc_time_us`, for a bit of the multiplier. -/
def fracStep (scale rem : ℕ) (s : ℕ × ℕ) (bit : Bool) : ℕ × ℕ :=
  let s := addBelow scale s.2 (wrap (s.1 * 2), s.2)
  if bit then addBelow scale rem s else s

/-- The bits of 1000000 from the highest down, as the loop reads them. -/
def microBits : List Bool := (List.range 20).reverse.map (Nat.testBit 1000000)

/-- `loc_time_us`. -/
def locTimeUs (ticks scale : ℕ) : Option ℕ :=
  if scale = 0 then none
  else
    let whole := ticks / scale
    let rem := ticks % scale
    if whole > u64Max / 1000000 then none
    else
      let us := wrap (whole * 1000000)
      let frac := (microBits.foldl (fracStep scale rem) (0, 0)).1
      if frac > u64Max - us then none else some (wrap (us + frac))

variable {ticks scale rem p : ℕ} {s : ℕ × ℕ}

/-- **The two parts put together.** -/
theorem join_exact (hs : 0 < scale) :
    (if ticks / scale > u64Max / 1000000 then none
      else if ticks % scale * 1000000 / scale > u64Max - wrap (ticks / scale * 1000000) then none
      else some (wrap (wrap (ticks / scale * 1000000) + ticks % scale * 1000000 / scale))) =
      exactUs ticks scale := by
  rw [exactUs, mul_div_split ticks 1000000 hs]
  generalize ticks / scale = whole
  generalize ticks % scale * 1000000 / scale = frac
  rw [wrap, wrap, u64Max]
  by_cases hbig : whole > 18446744073709551615 / 1000000
  · rw [if_pos hbig, if_neg (by omega)]
  rw [if_neg hbig, Nat.mod_eq_of_lt (by omega)]
  by_cases hfit : whole * 1000000 + frac ≤ 18446744073709551615
  · rw [if_neg (by omega), if_pos hfit, Nat.mod_eq_of_lt (by omega)]
  · rw [if_pos (by omega), if_neg hfit]

/-- One addition below `scale`. -/
theorem addBelow_spec {a frac r : ℕ} (hs : scale ≤ u64Max) (ha : a < scale) (hr : r < scale)
    (hfrac : frac < u64Max) :
    (addBelow scale a (frac, r)).2 < scale ∧ (addBelow scale a (frac, r)).1 ≤ frac + 1 ∧
      (addBelow scale a (frac, r)).1 * scale + (addBelow scale a (frac, r)).2 =
        frac * scale + r + a := by
  rw [u64Max] at hs hfrac
  rw [addBelow]
  split_ifs with hge
  · rw [wrap, Nat.mod_eq_of_lt (by omega), Nat.succ_mul]
    exact ⟨by omega, le_rfl, by omega⟩
  · rw [wrap, Nat.mod_eq_of_lt (by omega)]
    exact ⟨by omega, Nat.le_succ _, by dsimp only; omega⟩

/-- **What the loop keeps**: quotient and remainder of the multiplier's bits so far times `rem`. -/
structure LongDiv (scale rem p : ℕ) (s : ℕ × ℕ) : Prop where
  lt : s.2 < scale
  eq : s.1 * scale + s.2 = p * rem

theorem LongDiv.le (h : LongDiv scale rem p s) (hrem : rem < scale) : s.1 ≤ p := by
  have hle : p * rem ≤ p * scale := Nat.mul_le_mul_left _ hrem.le
  have heq := h.eq
  exact Nat.le_of_mul_le_mul_right (by omega) (Nat.zero_lt_of_lt hrem)

theorem LongDiv.step (hs : scale ≤ u64Max) (h : LongDiv scale rem p s) (hrem : rem < scale)
    (hp : p < 2 ^ 62) (bit : Bool) :
    LongDiv scale rem (2 * p + bit.toNat) (fracStep scale rem s bit) := by
  have hle := h.le hrem
  obtain ⟨hlt, hle', heq⟩ := @addBelow_spec scale s.2 (s.1 * 2) s.2 hs h.lt h.lt
    (by rw [u64Max]; omega)
  have hdouble : s.1 * 2 * scale + s.2 + s.2 = 2 * p * rem := by
    rw [mul_assoc 2 p, ← h.eq]
    ring
  rw [fracStep, wrap, Nat.mod_eq_of_lt (by omega)]
  cases bit with
  | false => exact ⟨hlt, heq.trans hdouble⟩
  | true =>
    have hroom : (addBelow scale s.2 (s.1 * 2, s.2)).1 < u64Max := by rw [u64Max]; omega
    obtain ⟨hlt₂, -, heq₂⟩ := addBelow_spec hs hrem hlt hroom
    refine ⟨hlt₂, heq₂.trans ?_⟩
    rw [heq, hdouble, Bool.toNat_true, add_mul, one_mul]

theorem LongDiv.foldl (hs : scale ≤ u64Max) (hrem : rem < scale) (bits : List Bool) :
    ∀ {p : ℕ} {s : ℕ × ℕ}, (p + 1) * 2 ^ bits.length ≤ 2 ^ 62 → LongDiv scale rem p s →
      LongDiv scale rem (bits.foldl (fun p b => 2 * p + b.toNat) p)
        (bits.foldl (fracStep scale rem) s) := by
  induction bits with
  | nil => exact fun _ h => h
  | cons bit bits ih =>
    intro p s hp h
    rw [List.length_cons, pow_succ'] at hp
    have hbit := bit.toNat_le
    have hlt : p < 2 ^ 62 := (Nat.lt_succ_self p).trans_le
      ((Nat.le_mul_of_pos_right _ (by positivity)).trans hp)
    refine ih ?_ (h.step hs hrem hlt bit)
    calc (2 * p + bit.toNat + 1) * 2 ^ bits.length
        ≤ (2 * p + 2) * 2 ^ bits.length := Nat.mul_le_mul_right _ (by omega)
      _ = (p + 1) * (2 * 2 ^ bits.length) := by ring
      _ ≤ 2 ^ 62 := hp

/-- The loop of `loc_time_us` divides. -/
theorem foldl_microBits (hs : scale ≤ u64Max) (hrem : rem < scale) :
    (microBits.foldl (fracStep scale rem) (0, 0)).1 = rem * 1000000 / scale := by
  have hinit : LongDiv scale rem 0 (0, 0) := ⟨Nat.zero_lt_of_lt hrem, by simp⟩
  have h := hinit.foldl hs hrem microBits (by decide)
  have hbits : microBits.foldl (fun p b => 2 * p + b.toNat) 0 = 1000000 := by decide
  rw [hbits] at h
  have heq := h.eq
  have hlt := h.lt
  refine (Nat.div_eq_of_lt_le ?_ ?_).symm
  · omega
  · rw [Nat.succ_mul]
    omega

theorem scaleSplit_exact (hs : 0 < scale) (h32 : scale < 2 ^ 32) :
    scaleSplit ticks scale = exactUs ticks scale := by
  have hrem := Nat.mod_lt ticks hs
  have hfrac : wrap (ticks % scale * 1000000) = ticks % scale * 1000000 :=
    Nat.mod_eq_of_lt (by omega)
  have hcomm : wrap (ticks / scale * 1000000) > u64Max - ticks % scale * 1000000 / scale ↔
      ticks % scale * 1000000 / scale > u64Max - wrap (ticks / scale * 1000000) := by
    have hmicro : ticks % scale * 1000000 / scale < 1000000 :=
      Nat.div_lt_of_lt_mul (Nat.mul_lt_mul_of_pos_right hrem (by norm_num))
    rw [wrap, u64Max]
    omega
  rw [← join_exact hs, scaleSplit, hfrac]
  simp only [hcomm]

/-- **The four scalings are exact.**  Within the limits of create `rescale` gives the truncated
quotient just when it fits in 64 signed bits, and its product of the remainder always does; for
every scale but zero the other three give the floor of `ticks * 1000000 / scale` just when it fits
in 64 unsigned bits. -/
theorem scalings_exact :
    (∀ v num den : ℤ, InInt64 v → 0 < num → num ≤ rescaleMax → 0 < den → den ≤ rescaleMax →
      rescale v num den =
        (if InInt64 ((v * num).tdiv den) then some ((v * num).tdiv den) else none) ∧
      InInt64 (v.tmod den * num)) ∧
    (∀ ticks ≤ u64Max, ∀ scale ≤ u64Max, scale ≠ 0 →
      locTimeUs ticks scale = exactUs ticks scale) ∧
    ∀ ticks ≤ u64Max, ∀ scale < 2 ^ 32, scale ≠ 0 →
      scaleTimeChecked ticks scale = exactUs ticks scale ∧
        pbScaleChecked ticks scale = exactUs ticks scale := by
  refine ⟨fun v num den hv hnum hmax hden hmax' => ?_, fun ticks _ scale hmax hs => ?_,
    fun ticks _ scale h32 hs => ?_⟩
  · lift num to ℕ using hnum.le
    lift den to ℕ using hden.le
    norm_cast at hnum hden
    exact ⟨rescale_eq hv hnum hden, rescale_fits v hmax hden hmax'⟩
  · have hpos := Nat.pos_of_ne_zero hs
    rw [locTimeUs, if_neg hs]
    dsimp only
    rw [foldl_microBits hmax (Nat.mod_lt ticks hpos)]
    exact join_exact hpos
  · have hsplit : scaleSplit ticks scale = exactUs ticks scale :=
      scaleSplit_exact (Nat.pos_of_ne_zero hs) h32
    exact ⟨hsplit, (if_neg hs).trans hsplit⟩

end MoqRelay.Scale
