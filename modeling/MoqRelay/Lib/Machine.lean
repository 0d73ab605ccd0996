import Mathlib.Data.UInt
import Mathlib.Tactic
import Mathlib.Data.Finset.Interval
import Mathlib.Order.Interval.Finset.Nat

/-!
# Lib/Machine — bounded machine arithmetic and ring windows

Three small theories that a bounded store is built on, none of which knows the store:

* **saturating** sums and products, which compute `min M` of the exact value (`satAdd_sat`,
  `satMul_eq`), so a saturated total is the exact total or the poison value;
* **wrapping** totals, where a comparison against a saturated ceiling survives the wrap
  (`mod_le_sat`);
* **ring windows**: fewer than `m` consecutive numbers occupy distinct residues, and a
  duplicate-free list of numbers of a window is no longer than the window.
-/

namespace MoqRelay

open List

/-- `UINT64_MAX`. -/
def u64Max : ℕ := 0xFFFFFFFFFFFFFFFF

/-- `UINT32_MAX`. -/
def u32Max : ℕ := 0xFFFFFFFF

theorem u64Max_succ : u64Max + 1 = 2 ^ 64 := rfl

/-- Unsigned 64-bit subtraction, wrapping. -/
def u64Sub (a b : ℕ) : ℕ := (a + (2 ^ 64 - b % 2 ^ 64)) % 2 ^ 64

/-! ## Saturating arithmetic -/

section Saturating

/-- Addition that saturates at `M`. -/
def satAdd (M a b : ℕ) : ℕ := if M - a < b then M else a + b

/-- Multiplication that saturates at `M`, by the division test that cannot overflow. -/
def satMul (M a b : ℕ) : ℕ := if a = 0 ∨ b = 0 then 0 else if M / b < a then M else a * b

/-- The exact value `n`, or `M` when `n` does not fit. -/
def sat (M n : ℕ) : ℕ := min M n

variable {M a b : ℕ}

theorem sat_of_le (h : a ≤ M) : sat M a = a := Nat.min_eq_right h

theorem satAdd_sat : satAdd M (sat M a) (sat M b) = sat M (a + b) := by
  unfold satAdd sat
  split <;> omega

theorem satMul_eq : satMul M a b = sat M (a * b) := by
  unfold satMul sat
  rcases Nat.eq_zero_or_pos a with rfl | hapos
  · simp
  rcases Nat.eq_zero_or_pos b with rfl | hbpos
  · simp
  have hlt : M / b < a ↔ M < a * b := Nat.div_lt_iff_lt_mul hbpos
  rw [if_neg (by omega)]
  split
  · rename_i h
    exact (Nat.min_eq_left (hlt.mp h).le).symm
  · rename_i h
    exact (Nat.min_eq_right (Nat.le_of_not_lt fun hc => h (hlt.mpr hc))).symm

/-- A factor that saturated already makes the product saturate. -/
theorem sat_sat_mul : sat M (sat M a * b) = sat M (a * b) := by
  unfold sat
  rcases le_total a M with ha | ha
  · rw [Nat.min_eq_right ha]
  · rcases Nat.eq_zero_or_pos b with rfl | hb
    · simp
    · rw [Nat.min_eq_left ha, Nat.min_eq_left (Nat.le_mul_of_pos_right M hb),
        Nat.min_eq_left (ha.trans (Nat.le_mul_of_pos_right a hb))]

/-- **A wrapped total stays under a saturated ceiling** as soon as the exact total does: a ceiling
that overflowed is the maximum, and one that did not leaves no room for the total to wrap. -/
theorem mod_le_sat (h : a ≤ b) : a % (M + 1) ≤ sat M b := by
  unfold sat
  rcases le_total b M with hb | hb
  · rw [Nat.min_eq_right hb]
    exact (Nat.mod_le _ _).trans h
  · rw [Nat.min_eq_left hb]
    exact Nat.le_of_lt_succ (Nat.mod_lt _ (Nat.succ_pos _))

end Saturating

/-- A sum accumulated with a wrap at every step is the exact sum, wrapped once. -/
theorem foldl_wrap {α : Type*} (m : ℕ) (f : α → ℕ) (l : List α) (s : ℕ) :
    l.foldl (fun acc x => (acc + f x) % m) (s % m) = (s + (l.map f).sum) % m := by
  induction l generalizing s with
  | nil => simp
  | cons x l ih =>
    simp only [foldl_cons, map_cons, sum_cons]
    rw [Nat.mod_add_mod, ih, Nat.add_assoc]

/-! ## Ring windows -/

/-- Two numbers of one window no longer than the ring occupy one slot only if they are equal. -/
theorem ring_slot_inj (lo hi : ℕ) {m a b : ℕ} (hw : hi ≤ lo + m) (ha : lo ≤ a ∧ a < hi)
    (hb : lo ≤ b ∧ b < hi) (h : a % m = b % m) : a = b := by
  have key : ∀ x y : ℕ, lo ≤ x → x ≤ y → y < hi → x % m = y % m → x = y := by
    intro x y hx hxy hy hmod
    have hdvd : m ∣ y - x := (Nat.modEq_iff_dvd' hxy).mp hmod
    rcases Nat.eq_zero_or_pos (y - x) with h0 | hpos
    · omega
    · have := Nat.le_of_dvd hpos hdvd
      omega
  rcases le_total a b with hab | hab
  · exact key a b ha.1 hab hb.2 h
  · exact (key b a hb.1 hab ha.2 h.symm).symm

/-- A duplicate-free list of numbers of a window is no longer than the window. -/
theorem length_le_window {lo hi : ℕ} {l : List ℕ} (hnd : l.Nodup)
    (hb : ∀ x ∈ l, lo ≤ x ∧ x < hi) : l.length ≤ hi - lo := by
  rw [← toFinset_card_of_nodup hnd, ← Nat.card_Ico]
  refine Finset.card_le_card fun x hx => ?_
  rw [Finset.mem_Ico]
  exact hb x (mem_toFinset.mp hx)

end MoqRelay
