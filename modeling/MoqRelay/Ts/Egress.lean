import MoqRelay.Lib.Machine
import MoqRelay.Ts.Packet

/-!
# Ts/Egress — the arithmetic of an egress scheduler

`muldiv_sat` of `mpeg2ts.c` and the two functions that schedule with it.  The product of two words
is put together from their halves (`mulWide_eq`), and the bit-serial division keeps quotient and
remainder of what it has scanned (`Scanned`).  The remainder is shifted in one word and may lose its
top bit there; the carry then stands for the comparison, and the subtraction wraps back
(`divStep_spec`).
-/

namespace MoqRelay.Ts

/-! ## The product -/

/-- The low half of a word. -/
def low32 (a : UInt64) : UInt64 := a &&& 0xFFFFFFFF

/-- The product of `muldiv_sat`: its high and its low word. -/
def mulWide (a b : UInt64) : UInt64 × UInt64 :=
  let ll := low32 a * low32 b
  let lh := low32 a * (b >>> 32)
  let hl := (a >>> 32) * low32 b
  let hh := (a >>> 32) * (b >>> 32)
  let mid := (ll >>> 32) + low32 lh + low32 hl
  (hh + (lh >>> 32) + (hl >>> 32) + (mid >>> 32), low32 ll ||| (mid <<< 32))

/-- One turn of the division: quotient, remainder and the next bit of the low word. -/
def divStep (d : UInt64) (s : UInt64 × UInt64) (bit : UInt64) : UInt64 × UInt64 :=
  let carry := s.2 >>> 63 ≠ 0
  let r := (s.2 <<< 1) ||| bit
  let q := s.1 <<< 1
  if carry ∨ r ≥ d then (q ||| 1, r - d) else (q, r)

/-- The loop, over the `n` low bits of `lo` from the highest down. -/
def divLoop (lo d : UInt64) : ℕ → UInt64 × UInt64 → UInt64 × UInt64
  | 0, s => s
  | i + 1, s => divLoop lo d i (divStep d s ((lo >>> .ofNat i) &&& 1))

/-- `muldiv_sat`. -/
def muldivSat (a b d : UInt64) : UInt64 :=
  let p := mulWide a b
  if p.1 ≥ d then 0xFFFFFFFFFFFFFFFF else (divLoop p.2 d 64 (0, p.1)).1

theorem toNat_low32 (a : UInt64) : (low32 a).toNat = a.toNat % 2 ^ 32 :=
  Nat.and_two_pow_sub_one_eq_mod a.toNat 32

theorem toNat_high32 (a : UInt64) : (a >>> 32).toNat = a.toNat / 2 ^ 32 :=
  Nat.shiftRight_eq_div_pow a.toNat 32

/-- A word shifted to make room for lower bits. -/
theorem toNat_shiftIn (k : ℕ) (hk : k < 64) (a : UInt64) {b : UInt64} (hb : b.toNat < 2 ^ k) :
    ((a <<< .ofNat k) ||| b).toNat = (a.toNat * 2 ^ k + b.toNat) % 2 ^ 64 := by
  have hpow : 2 ^ 64 = 2 ^ (64 - k) * 2 ^ k := by rw [← pow_add, Nat.sub_add_cancel hk.le]
  have hk' : (UInt64.ofNat k).toNat % 64 = k := by
    rw [UInt64.toNat_ofNat', Nat.mod_mod_of_dvd k (by decide), Nat.mod_eq_of_lt hk]
  have hlt := Nat.mod_lt a.toNat (Nat.two_pow_pos (64 - k))
  rw [UInt64.toNat_or, UInt64.toNat_shiftLeft, hk', Nat.shiftLeft_eq, hpow, Nat.mul_mod_mul_right,
    ← Nat.shiftLeft_eq, ← Nat.shiftLeft_add_eq_or_of_lt hb, Nat.shiftLeft_eq, Nat.add_mod,
    Nat.mul_mod_mul_right, Nat.mod_eq_of_lt (hb.trans_le (Nat.le_mul_of_pos_left _ (by omega)))]
  refine (Nat.mod_eq_of_lt ?_).symm
  calc a.toNat % 2 ^ (64 - k) * 2 ^ k + b.toNat
      < (a.toNat % 2 ^ (64 - k) + 1) * 2 ^ k := by rw [Nat.succ_mul]; omega
    _ ≤ 2 ^ (64 - k) * 2 ^ k := Nat.mul_le_mul_right _ hlt

/-- **The two words are the product.** -/
theorem mulWide_eq (a b : UInt64) :
    (mulWide a b).1.toNat * 2 ^ 64 + (mulWide a b).2.toNat = a.toNat * b.toNat := by
  have hprod {x y : ℕ} (hx : x < 2 ^ 32) (hy : y < 2 ^ 32) : x * y ≤ (2 ^ 32 - 1) * (2 ^ 32 - 1) :=
    Nat.mul_le_mul (Nat.le_sub_one_of_lt hx) (Nat.le_sub_one_of_lt hy)
  have haH : a.toNat / 2 ^ 32 < 2 ^ 32 := Nat.div_lt_of_lt_mul a.toNat_lt
  have hbH : b.toNat / 2 ^ 32 < 2 ^ 32 := Nat.div_lt_of_lt_mul b.toNat_lt
  have haL := Nat.mod_lt a.toNat (Nat.two_pow_pos 32)
  have hbL := Nat.mod_lt b.toNat (Nat.two_pow_pos 32)
  have hll := hprod haL hbL
  have hlh := hprod haL hbH
  have hhl := hprod haH hbL
  have hhh := hprod haH hbH
  have hlow (x mid : UInt64) : (low32 x ||| (mid <<< 32)).toNat =
      (mid.toNat * 2 ^ 32 + x.toNat % 2 ^ 32) % 2 ^ 64 := by
    rw [UInt64.or_comm, ← toNat_low32 x]
    refine toNat_shiftIn 32 (by decide) mid ?_
    rw [toNat_low32]
    exact Nat.mod_lt _ (Nat.two_pow_pos 32)
  rw [← Nat.div_add_mod a.toNat (2 ^ 32), ← Nat.div_add_mod b.toNat (2 ^ 32), mulWide, hlow]
  simp only [UInt64.toNat_add, UInt64.toNat_mul, toNat_low32, toNat_high32, Nat.add_mul,
    Nat.mul_add]
  generalize a.toNat % 2 ^ 32 = aL at *
  generalize a.toNat / 2 ^ 32 = aH at *
  generalize b.toNat / 2 ^ 32 = bH at *
  rw [show 2 ^ 32 * aH * (2 ^ 32 * bH) = aH * bH * 2 ^ 64 by ring, Nat.mul_assoc (2 ^ 32) aH,
    Nat.mul_left_comm aL]
  omega

/-! ## The division -/

variable {d lo bit : UInt64} {s : UInt64 × UInt64}

/-- **One turn divides by one bit more**, the lost top bit of the remainder included. -/
theorem divStep_spec (hr : s.2.toNat < d.toNat) (hq : s.1.toNat < 2 ^ 63) (hbit : bit.toNat < 2) :
    (divStep d s bit).2.toNat < d.toNat ∧ (divStep d s bit).1.toNat ≤ 2 * s.1.toNat + 1 ∧
      (divStep d s bit).1.toNat * d.toNat + (divStep d s bit).2.toNat =
        2 * (s.1.toNat * d.toNat + s.2.toNat) + bit.toNat := by
  obtain ⟨q, r⟩ := s
  dsimp only at hr hq
  have hd := d.toNat_lt
  have hin {b : UInt64} (a : UInt64) (hb : b.toNat < 2) :
      ((a <<< 1) ||| b).toNat = (a.toNat * 2 + b.toNat) % 2 ^ 64 := toNat_shiftIn 1 (by decide) a hb
  have hr' := hin r hbit
  have hone := @hin 1 q (by decide)
  have hzero := @hin 0 q (by decide)
  rw [UInt64.toNat_one, Nat.mod_eq_of_lt (by omega)] at hone
  rw [UInt64.or_zero, UInt64.toNat_zero, Nat.mod_eq_of_lt (by omega)] at hzero
  have hcarry : (r >>> 63).toNat = r.toNat / 2 ^ 63 := by exact Nat.shiftRight_eq_div_pow r.toNat 63
  have htest : (r >>> 63 ≠ 0 ∨ (r <<< 1) ||| bit ≥ d) ↔ d.toNat ≤ 2 * r.toNat + bit.toNat := by
    rw [ne_eq, ← UInt64.toNat_inj, UInt64.toNat_zero, ge_iff_le, UInt64.le_iff_toNat_le]
    omega
  have hsub : (((r <<< 1) ||| bit) - d).toNat = _ := UInt64.toNat_sub ..
  rw [divStep]
  dsimp only
  split_ifs with hge
  · rw [htest] at hge
    rw [hsub, hone, Nat.add_mul, Nat.mul_right_comm]
    omega
  · rw [htest] at hge
    rw [hr', hzero, Nat.add_mul, Nat.mul_right_comm]
    omega

/-- **What the loop keeps** while `n` bits of the low word are left. -/
structure Scanned (hi : ℕ) (lo d : UInt64) (n : ℕ) (s : UInt64 × UInt64) : Prop where
  lt : s.2.toNat < d.toNat
  small : s.1.toNat < 2 ^ (64 - n)
  eq : s.1.toNat * d.toNat + s.2.toNat = hi * 2 ^ (64 - n) + lo.toNat / 2 ^ n

theorem Scanned.divStep {hi n : ℕ} (h : Scanned hi lo d (n + 1) s) (hn : n < 64) :
    Scanned hi lo d n (divStep d s ((lo >>> .ofNat n) &&& 1)) := by
  have hbit : ((lo >>> .ofNat n) &&& 1).toNat = lo.toNat / 2 ^ n % 2 := by
    rw [UInt64.toNat_and, UInt64.toNat_shiftRight, UInt64.toNat_ofNat',
      Nat.mod_mod_of_dvd n (by decide), Nat.mod_eq_of_lt hn, Nat.shiftRight_eq_div_pow]
    exact Nat.and_one_is_mod _
  have hpow : 2 ^ (64 - n) = 2 * 2 ^ (64 - (n + 1)) := by
    rw [← pow_succ']
    congr 1
    omega
  have hscan : lo.toNat / 2 ^ (n + 1) = lo.toNat / 2 ^ n / 2 := by
    rw [pow_succ, Nat.div_div_eq_div_mul]
  have hsmall := h.small
  have hle : 2 ^ (64 - (n + 1)) ≤ 2 ^ 63 := Nat.pow_le_pow_right (by decide) (by omega)
  obtain ⟨hlt, hq, heq⟩ := divStep_spec h.lt (by omega) (hbit.trans_lt (Nat.mod_lt _ two_pos))
  refine ⟨hlt, by omega, ?_⟩
  rw [heq, h.eq, hpow, Nat.mul_left_comm hi]
  omega

theorem Scanned.divLoop {hi : ℕ} (n : ℕ) (hn : n ≤ 64) (h : Scanned hi lo d n s) :
    Scanned hi lo d 0 (divLoop lo d n s) := by
  induction n generalizing s with
  | zero => exact h
  | succ n ih => exact ih (by omega) (h.divStep hn)

/-- **`muldiv_sat` is the exact quotient, saturated.** -/
theorem toNat_muldivSat (a b : UInt64) (hd : d ≠ 0) :
    (muldivSat a b d).toNat = min (a.toNat * b.toNat / d.toNat) u64Max := by
  have hpos : 0 < d.toNat := Nat.pos_of_ne_zero fun h => hd (UInt64.toNat_inj.mp h)
  rw [← mulWide_eq, muldivSat]
  obtain ⟨hi, lo⟩ := mulWide a b
  split_ifs with hbig
  · have hle : 2 ^ 64 ≤ (hi.toNat * 2 ^ 64 + lo.toNat) / d.toNat := by
      rw [Nat.le_div_iff_mul_le hpos, Nat.mul_comm]
      exact (Nat.mul_le_mul_right _ (UInt64.le_iff_toNat_le.mp hbig)).trans (Nat.le_add_right ..)
    exact (Nat.min_eq_right ((Nat.le_succ u64Max).trans hle)).symm
  · have hstart : Scanned hi.toNat lo d 64 (0, hi) := by
      refine ⟨UInt64.lt_iff_toNat_lt.mp (UInt64.not_le.mp hbig), by simp, ?_⟩
      rw [Nat.div_eq_of_lt lo.toNat_lt]
      simp
    obtain ⟨hlt, -, heq⟩ := hstart.divLoop 64 le_rfl
    rw [pow_zero, Nat.div_one] at heq
    rw [← heq, Nat.add_comm, Nat.add_mul_div_right _ _ hpos, Nat.div_eq_of_lt hlt, Nat.zero_add]
    exact (Nat.min_eq_left (Nat.le_of_lt_succ (UInt64.toNat_lt _))).symm

/-! ## The schedule -/

/-- `MOQ_MPEG2TS_PTS_WRAP`. -/
def ptsWrap : UInt64 := (1 : UInt64) <<< 33

/-- `MOQ_MPEG2TS_PCR_WRAP`. -/
def pcrWrap : UInt64 := ptsWrap * 300

/-- `moq_mpeg2ts_pcr_delta`. -/
def pcrDelta (src dst : UInt64) : UInt64 :=
  let src := src % pcrWrap
  let dst := dst % pcrWrap
  if dst ≥ src then dst - src else pcrWrap - src + dst

/-- `moq_mpeg2ts_pcr_interpolate`; `none` is `MOQ_ERR_INVAL`. -/
def pcrInterpolate (pcrA byteA pcrB byteB byteI : UInt64) : Option UInt64 :=
  if byteB ≤ byteA ∨ byteI < byteA then none
  else
    let span := pcrDelta pcrA pcrB
    let step := muldivSat (byteI - byteA) span (byteB - byteA)
    some ((pcrA % pcrWrap + step % pcrWrap) % pcrWrap)

/-- `moq_mpeg2ts_stuffing_packets`. -/
def stuffingPackets (muxRateBps elapsed27mhz packetsSent : UInt64) : UInt64 :=
  let due := muldivSat muxRateBps elapsed27mhz (1504 * 27000000)
  if due > packetsSent then due - packetsSent else 0

/-- The packets sent by a caller that inserts what it is told to at a time. -/
def sendDue (muxRateBps packetsSent elapsed27mhz : UInt64) : UInt64 :=
  packetsSent + stuffingPackets muxRateBps elapsed27mhz packetsSent

/-- The exact number of packets due at a time. -/
def packetsDue (muxRateBps elapsed27mhz : UInt64) : ℕ :=
  muxRateBps.toNat * elapsed27mhz.toNat / (1504 * 27000000)

theorem toNat_mod_pcrWrap (a : UInt64) : (a % pcrWrap).toNat = a.toNat % 2576980377600 :=
  UInt64.toNat_mod ..

/-- The distance in words is the one the packetizer's model takes. -/
theorem toNat_pcrDelta (src dst : UInt64) :
    (pcrDelta src dst).toNat = MoqRelay.pcrDelta src.toNat dst.toNat := by
  have hwrap : MoqRelay.pcrWrap = 2576980377600 := rfl
  rw [pcrDelta, MoqRelay.pcrDelta, hwrap]
  split_ifs with hge hle hle <;>
    simp only [ge_iff_le, UInt64.le_iff_toNat_le, UInt64.toNat_add, UInt64.toNat_sub,
      toNat_mod_pcrWrap, show pcrWrap.toNat = 2576980377600 from rfl] at hge ⊢ <;> omega

/-- The distance is that of the clock. -/
theorem pcrDelta_emod (src dst : ℕ) :
    (MoqRelay.pcrDelta src dst : ℤ) = ((dst : ℤ) - src) % 2576980377600 := by
  have hwrap : MoqRelay.pcrWrap = 2576980377600 := rfl
  rw [MoqRelay.pcrDelta, hwrap]
  split_ifs with hle <;> omega

theorem toNat_sendDue (rate sent elapsed : UInt64) :
    (sendDue rate sent elapsed).toNat = max sent.toNat (min (packetsDue rate elapsed) u64Max) := by
  have hdue : (muldivSat rate elapsed (1504 * 27000000)).toNat =
      min (packetsDue rate elapsed) u64Max := toNat_muldivSat rate elapsed (by decide)
  rw [sendDue, stuffingPackets, ← hdue]
  generalize muldivSat rate elapsed (1504 * 27000000) = due
  have hsent := sent.toNat_lt
  have hlt := due.toNat_lt
  split_ifs with hgt <;>
    simp only [gt_iff_lt, UInt64.lt_iff_toNat_lt, UInt64.toNat_add, UInt64.toNat_sub,
      UInt64.toNat_zero] at hgt ⊢ <;> omega

/-- The packets sent over a schedule. -/
theorem toNat_foldl_sendDue (rate : UInt64) (times : List UInt64) (sent t : UInt64)
    (h : (times ++ [t]).Pairwise (· ≤ ·)) :
    ((times ++ [t]).foldl (sendDue rate) sent).toNat =
      max sent.toNat (min (packetsDue rate t) u64Max) := by
  induction times generalizing sent with
  | nil => exact toNat_sendDue rate sent t
  | cons t₀ times ih =>
    obtain ⟨hle, h⟩ := List.pairwise_cons.mp h
    have hdue : packetsDue rate t₀ ≤ packetsDue rate t := Nat.div_le_div_right
      (Nat.mul_le_mul_left _ (UInt64.le_iff_toNat_le.mp (hle t (by simp))))
    rw [List.cons_append, List.foldl_cons, ih _ h, toNat_sendDue]
    omega

/-- **Interpolation and stuffing are exact up to 64 bits.**  The quotient is that of the exact
product, saturated; the PCR is at the exact floor of the share, where this fits; and the packets
sent over a schedule are those sent before it or those due, saturated, whichever are more. -/
theorem egress_exact :
    (∀ a b d : UInt64, d ≠ 0 →
      (muldivSat a b d).toNat = min (a.toNat * b.toNat / d.toNat) (2 ^ 64 - 1)) ∧
    (∀ pcrA byteA pcrB byteB byteI : UInt64, byteA < byteB → byteA ≤ byteI → ∀ span share : ℕ,
      (span : ℤ) = ((pcrB.toNat : ℤ) - pcrA.toNat) % pcrWrap.toNat →
      share = (byteI.toNat - byteA.toNat) * span / (byteB.toNat - byteA.toNat) → share < 2 ^ 64 →
        ∃ pcrI, pcrInterpolate pcrA byteA pcrB byteB byteI = some pcrI ∧
          pcrI.toNat = (pcrA.toNat + share) % pcrWrap.toNat) ∧
    ∀ rate sent t : UInt64, ∀ times : List UInt64, (times ++ [t]).Pairwise (· ≤ ·) →
      ((times ++ [t]).foldl (sendDue rate) sent).toNat =
        max sent.toNat (min (packetsDue rate t) (2 ^ 64 - 1)) := by
  refine ⟨fun a b d => toNat_muldivSat a b, fun pcrA byteA pcrB byteB byteI hB hI span share hspan
    hshare hfits => ?_, fun rate sent t times => toNat_foldl_sendDue rate times sent t⟩
  have hdelta : (pcrDelta pcrA pcrB).toNat = span := by
    rw [toNat_pcrDelta]
    exact_mod_cast (pcrDelta_emod pcrA.toNat pcrB.toNat).trans hspan.symm
  have hsubB := UInt64.toNat_sub_of_le byteB byteA (UInt64.le_of_lt hB)
  have hsubI := UInt64.toNat_sub_of_le byteI byteA hI
  have hne : byteB - byteA ≠ 0 := fun h => by
    have hlt := UInt64.lt_iff_toNat_lt.mp hB
    rw [h, UInt64.toNat_zero] at hsubB
    omega
  have hstep : (muldivSat (byteI - byteA) (pcrDelta pcrA pcrB) (byteB - byteA)).toNat = share := by
    rw [toNat_muldivSat _ _ hne, hsubB, hsubI, hdelta, ← hshare]
    exact Nat.min_eq_left (Nat.le_of_lt_succ hfits)
  refine ⟨_, if_neg (not_or.mpr ⟨UInt64.not_le.mpr hB, UInt64.not_lt.mpr hI⟩), ?_⟩
  rw [toNat_mod_pcrWrap, UInt64.toNat_add, toNat_mod_pcrWrap, toNat_mod_pcrWrap,
    show pcrWrap.toNat = 2576980377600 from rfl]
  omega

/-- More packets are due than a word counts. -/
theorem sendDue_saturates :
    ∃ rate elapsed : UInt64, (sendDue rate 0 elapsed).toNat < packetsDue rate elapsed :=
  ⟨0xFFFFFFFFFFFFFFFF, 0xFFFFFFFFFFFFFFFF, by decide +kernel⟩

end MoqRelay.Ts
