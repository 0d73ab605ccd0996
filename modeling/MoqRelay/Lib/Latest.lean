import Mathlib.Tactic

/-!
# Lib/Latest — the last value sent, and receivers that get nothing older

A history is a list of events, oldest first; `lastOf f` is the last value that `f` reads off one of
them.  A history is `Fresh` when every receipt is of the value its key was last sent: values may be
dropped in favour of later ones, but no receiver ever gets a value that a later one replaced.
-/

namespace MoqRelay

open List

section LastOf

variable {ε α : Type*} {f : ε → Option α} {es fs : List ε}

/-- The last value a history shows. -/
def lastOf (f : ε → Option α) (es : List ε) : Option α := (es.filterMap f).getLast?

theorem lastOf_append : lastOf f (es ++ fs) = (lastOf f fs).or (lastOf f es) := by
  rw [lastOf, filterMap_append, getLast?_append]
  rfl

theorem lastOf_append_of_none (h : ∀ e ∈ fs, f e = none) : lastOf f (es ++ fs) = lastOf f es := by
  have hfs : fs.filterMap f = [] := filterMap_eq_nil_iff.mpr h
  rw [lastOf_append, lastOf, hfs, getLast?_nil, Option.none_or]

end LastOf

section Fresh

variable {ε κ α : Type*} {sent got : κ → ε → Option α} {es fs : List ε}

/-- **Every receipt is of the value its key was last sent.** -/
def Fresh (sent got : κ → ε → Option α) (es : List ε) : Prop :=
  ∀ before e after k a, es = before ++ e :: after → got k e = some a →
    lastOf (sent k) before = some a

theorem Fresh.nil : Fresh sent got [] := fun _ _ _ _ _ h => by simp at h

/-- A history goes on fresh if its new receipts are. -/
theorem Fresh.append (h : Fresh sent got es)
    (hfs : ∀ before e after k a, fs = before ++ e :: after → got k e = some a →
      lastOf (sent k) (es ++ before) = some a) : Fresh sent got (es ++ fs) := by
  intro before e after k a heq hgot
  rcases append_eq_append_iff.mp heq with ⟨mid, rfl, hmid⟩ | ⟨mid, rfl, hmid⟩
  · exact hfs mid e after k a hmid hgot
  · cases mid with
    | nil => simpa using hfs [] e after k a hmid.symm hgot
    | cons e' mid =>
      obtain ⟨rfl, rfl⟩ := cons.inj hmid
      exact h before _ mid k a rfl hgot

/-- New events without a receipt keep a history fresh. -/
theorem Fresh.append_of_none (h : Fresh sent got es) (hfs : ∀ e ∈ fs, ∀ k, got k e = none) :
    Fresh sent got (es ++ fs) :=
  h.append fun before e after k a heq hgot => by
    rw [hfs e (heq ▸ mem_append_right _ mem_cons_self)] at hgot
    cases hgot

end Fresh

end MoqRelay
