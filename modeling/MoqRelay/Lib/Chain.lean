import Mathlib.Tactic
import Mathlib.Data.List.Perm.Basic

/-!
# Lib/Chain — singly linked lists threaded through a node table

`Chain next head l`: following `next` from `head` meets exactly the nodes of `l`, in order.  The
list is determined by the head (`Chain.unique`), it does not see writes to other nodes
(`Chain.congr`), and writing behind its last node extends it (`Chain.snoc`).
-/

namespace MoqRelay

open List Function

variable {α β : Type*}

/-- The nodes met from a head. -/
def Chain (next : α → Option α) : Option α → List α → Prop
  | head, [] => head = none
  | head, a :: l => head = some a ∧ Chain next (next a) l

/-- The node `i` links away from a head. -/
def chainNth (next : α → Option α) : ℕ → Option α → Option α
  | 0, head => head
  | i + 1, head => chainNth next i (head.bind next)

namespace Chain

variable {next next' : α → Option α} {head : Option α} {l : List α}

theorem congr (h : Chain next head l) (hn : ∀ a ∈ l, next' a = next a) : Chain next' head l := by
  induction l generalizing head with
  | nil => exact h
  | cons a l ih =>
    refine ⟨h.1, ?_⟩
    rw [hn a (by simp)]
    exact ih h.2 fun b hb => hn b (by simp [hb])

/-- Walking a chain reads its list. -/
theorem nth (h : Chain next head l) (i : ℕ) : chainNth next i head = l[i]? := by
  induction i generalizing head l with
  | zero =>
    cases l with
    | nil => exact h
    | cons a l => exact h.1
  | succ i ih =>
    cases l with
    | nil =>
      obtain rfl : head = none := h
      simpa [chainNth] using ih (show Chain next none [] from rfl)
    | cons a l => rw [chainNth, h.1, Option.bind_some, ih h.2, getElem?_cons_succ]

variable [DecidableEq α]

/-- Writing a new last node behind the old one extends the chain. -/
theorem snoc {a t : α} (h : Chain next head l) (hl : l.Nodup) (ha : a ∉ l)
    (ht : l.getLast? = some t) :
    Chain (update (update next a none) t (some a)) head (l ++ [a]) := by
  induction l generalizing head with
  | nil => cases ht
  | cons b l ih =>
    obtain ⟨hb, hl'⟩ := nodup_cons.mp hl
    have hab : a ≠ b := fun e => ha (by simp [e])
    refine ⟨h.1, ?_⟩
    cases l with
    | nil =>
      obtain rfl : b = t := by simpa using ht
      simp [Chain, update_of_ne hab]
    | cons c l =>
      have ht' : (c :: l).getLast? = some t := by simpa using ht
      have hbt : b ≠ t := fun e => hb (e ▸ mem_of_getLast? ht')
      rw [update_of_ne hbt, update_of_ne hab.symm]
      exact ih h.2 hl' (fun hx => ha (by simp [hx])) ht'

end Chain

/-! ## Many lists sharing one table -/

/-- Growing the list of one key grows the shared collection by the same nodes. -/
theorem flatMap_update_perm [DecidableEq α] {keys : List α} {k : α} {c : α → List β} {l : List β}
    (hk : k ∈ keys) (hn : keys.Nodup) :
    (c k ++ keys.flatMap (update c k l)).Perm (l ++ keys.flatMap c) := by
  induction keys with
  | nil => cases hk
  | cons x xs ih =>
    obtain ⟨hx, hxs⟩ := nodup_cons.mp hn
    by_cases hkx : k = x
    · subst hkx
      have hrest : xs.flatMap (update c k l) = xs.flatMap c :=
        flatMap_congr fun y hy => update_of_ne (fun e : y = k => hx (e ▸ hy)) _ _
      rw [flatMap_cons, flatMap_cons, hrest, update_self]
      simpa only [append_assoc] using perm_append_comm.append_right (xs.flatMap c)
    · have hmem : k ∈ xs := by simpa [hkx] using hk
      have hstep := (ih hmem hxs).append_left (c x)
      rw [flatMap_cons, update_of_ne (Ne.symm hkx)]
      exact (perm_append_comm_assoc _ _ _).trans
        (hstep.trans (perm_append_comm_assoc _ _ _))

end MoqRelay
