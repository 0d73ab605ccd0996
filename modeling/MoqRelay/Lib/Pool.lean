import Mathlib.Tactic

/-!
# Lib/Pool — fixed pools of slots

A pool is a function from slot numbers, of which the first `n` exist; a write is `Function.update`.
Counting the slots with a property is how a pool's occupancy counter is stated.
-/

namespace MoqRelay

open Function List

/-- Rewrite one slot. -/
def modifyAt {α : Type*} (f : ℕ → α) (i : ℕ) (g : α → α) : ℕ → α := update f i (g (f i))

section Modify

variable {α β : Type*} {f : ℕ → α} {i j : ℕ} {g : α → α}

@[simp]
theorem modifyAt_self : modifyAt f i g i = g (f i) := update_self ..

@[simp]
theorem modifyAt_of_ne (h : j ≠ i) : modifyAt f i g j = f j := update_of_ne h ..

/-- What the rewriting keeps of a value, it keeps of every slot. -/
theorem map_modifyAt (k : α → β) (h : k (g (f i)) = k (f i)) : k (modifyAt f i g j) = k (f j) := by
  rcases eq_or_ne j i with rfl | hne
  · rw [modifyAt_self, h]
  · rw [modifyAt_of_ne hne]

end Modify

/-- Writing a slot past the counted ones changes no count. -/
theorem countP_range_update_of_le {α : Type*} (p : α → Bool) (f : ℕ → α) {n k : ℕ} (hk : n ≤ k)
    (a : α) : (range n).countP (fun i => p (update f k a i))
      = (range n).countP fun i => p (f i) := by
  refine countP_congr fun i hi => ?_
  have hlt := mem_range.mp hi
  rw [update_of_ne (by omega)]

/-- **Writing one slot moves the count by that slot's share.** -/
theorem countP_range_update {α : Type*} (p : α → Bool) (f : ℕ → α) {n k : ℕ} (hk : k < n) (a : α) :
    (range n).countP (fun i => p (update f k a i)) + (p (f k)).toNat
      = (range n).countP (fun i => p (f i)) + (p a).toNat := by
  induction n with
  | zero => omega
  | succ n ih =>
    simp only [range_succ, countP_append, countP_singleton]
    rcases Nat.lt_succ_iff_lt_or_eq.mp hk with hlt | rfl
    · rw [update_of_ne (by omega)]
      omega
    · rw [countP_range_update_of_le p f le_rfl, update_self]
      cases p (f k) <;> cases p a <;> simp

/-! ## Keyed pools -/

section Keyed

variable {α κ : Type*} {used : α → Bool} {key : α → κ} {n count count' i : ℕ} {slots : ℕ → α}
  {said said' : ℕ → α → Prop} {v : α}

/-- **A keyed pool**: the used slots are among the first `n` and counted, no two of them have one
key, and what is said of a slot holds. -/
structure KeyedPool (used : α → Bool) (key : α → κ) (n : ℕ) (said : ℕ → α → Prop) (slots : ℕ → α)
    (count : ℕ) : Prop where
  lt : ∀ i, used (slots i) → i < n
  count : count = (range n).countP fun i => used (slots i)
  one : ∀ i j k, used (slots i) ∧ key (slots i) = k →
    used (slots j) ∧ key (slots j) = k → i = j
  all : ∀ i, used (slots i) → said i (slots i)

/-- **One slot written**: what the new slot must say, and what the others keep. -/
theorem KeyedPool.write (h : KeyedPool used key n said slots count) (hi : i < n)
    (hcount : count' + (used (slots i)).toNat = count + (used v).toNat)
    (hnew : used v → said' i v ∧ ∀ j, j ≠ i → used (slots j) → key (slots j) ≠ key v)
    (hold : ∀ j, j ≠ i → used (slots j) → said j (slots j) → said' j (slots j)) :
    KeyedPool used key n said' (update slots i v) count' := by
  have hself := update_self i v slots
  have hother : ∀ j, j ≠ i → update slots i v j = slots j := fun j hj => update_of_ne hj ..
  refine ⟨fun j hj => ?_, ?_, fun j k x hj hk => ?_, fun j hj => ?_⟩
  · rcases eq_or_ne j i with rfl | hne
    · exact hi
    · exact h.lt j (hother j hne ▸ hj)
  · have := countP_range_update used slots hi v
    have := h.count
    omega
  · -- the new slot's key is in no other slot
    by_cases hj' : j = i <;> by_cases hk' : k = i
    · exact hj'.trans hk'.symm
    · rw [hj', hself] at hj
      rw [hother k hk'] at hk
      exact absurd (hk.2.trans hj.2.symm) ((hnew hj.1).2 k hk' hk.1)
    · rw [hk', hself] at hk
      rw [hother j hj'] at hj
      exact absurd (hj.2.trans hk.2.symm) ((hnew hk.1).2 j hj' hj.1)
    · rw [hother j hj'] at hj
      rw [hother k hk'] at hk
      exact h.one j k x hj hk
  · rcases eq_or_ne j i with rfl | hne
    · rw [hself] at hj ⊢
      exact (hnew hj).1
    · rw [hother j hne] at hj ⊢
      exact hold j hne hj (h.all j hj)

/-- A pool with no slot used. -/
theorem KeyedPool.free (h : ∀ i, used (slots i) = false) : KeyedPool used key n said slots 0 where
  lt i hi := nomatch (h i).symm.trans hi
  count := (countP_eq_zero.mpr fun i _ hi => nomatch (h i).symm.trans hi).symm
  one i _ _ hi := nomatch (h i).symm.trans hi.1
  all i hi := nomatch (h i).symm.trans hi

/-- One slot released. -/
theorem KeyedPool.release (h : KeyedPool used key n said slots count) (hi : used (slots i))
    (hv : used v = false) : KeyedPool used key n said (update slots i v) (count - 1) := by
  have hpos : 0 < count := by
    rw [h.count, countP_pos_iff]
    exact ⟨i, mem_range.mpr (h.lt i hi), hi⟩
  refine h.write (h.lt i hi) ?_ (fun hu => nomatch hv.symm.trans hu) fun _ _ _ hs => hs
  rw [hi, hv]
  exact Nat.succ_pred_eq_of_pos hpos

end Keyed

end MoqRelay
