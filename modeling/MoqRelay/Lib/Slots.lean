import Mathlib.Tactic

/-!
# Lib/Slots — a table of slots, filled and cleared by scanning

A table is a list of optional values.  `place` fills the first free slot, `clear` frees the first
slot whose value matches; both keep the length.  What a table holds is read off its values in slot
order, `occupied`.
-/

namespace MoqRelay

section Slots

variable {α : Type*} {p : α → Bool} {a : α} {l l' : List (Option α)}

/-- The values of a table, in slot order. -/
def occupied (l : List (Option α)) : List α := l.filterMap id

@[simp] theorem occupied_nil : occupied ([] : List (Option α)) = [] := rfl

@[simp] theorem occupied_none (l : List (Option α)) : occupied (none :: l) = occupied l := rfl

@[simp] theorem occupied_some (a : α) (l : List (Option α)) :
    occupied (some a :: l) = a :: occupied l := rfl

/-- Fill the first free slot. -/
def place (a : α) : List (Option α) → Option (List (Option α))
  | [] => none
  | none :: l => some (some a :: l)
  | some b :: l => (place a l).map (some b :: ·)

/-- Free the first slot whose value matches. -/
def clear (p : α → Bool) : List (Option α) → Option (α × List (Option α))
  | [] => none
  | none :: l => (clear p l).map fun r => (r.1, none :: r.2)
  | some b :: l =>
    if p b then some (b, none :: l) else (clear p l).map fun r => (r.1, some b :: r.2)

/-- **A free slot is filled unless there is none.** -/
theorem place_isSome_iff : (place a l).isSome ↔ (occupied l).length < l.length := by
  induction l with
  | nil => simp [place]
  | cons x l ih =>
    cases x with
    | none =>
      have hle : (occupied l).length ≤ l.length := List.length_filterMap_le id l
      simpa [place] using hle
    | some b => simpa [place] using ih

/-- Where the value went. -/
theorem place_split (h : place a l = some l') :
    l'.length = l.length ∧ ∃ s t, occupied l = s ++ t ∧ occupied l' = s ++ a :: t := by
  induction l generalizing l' with
  | nil => simp [place] at h
  | cons x l ih =>
    cases x with
    | none =>
      obtain rfl : some a :: l = l' := by simpa [place] using h
      exact ⟨rfl, [], occupied l, by simp, by simp⟩
    | some b =>
      obtain ⟨l'', hl'', rfl⟩ : ∃ l'', place a l = some l'' ∧ some b :: l'' = l' := by
        simpa [place] using h
      obtain ⟨hlen, s, t, hs, ht⟩ := ih hl''
      exact ⟨by simp [hlen], b :: s, t, by simp [hs], by simp [ht]⟩

theorem clear_eq_none_iff : clear p l = none ↔ ∀ b ∈ occupied l, p b = false := by
  induction l with
  | nil => simp [clear]
  | cons x l ih =>
    cases x with
    | none => simpa [clear] using ih
    | some b => cases hb : p b <;> simp [clear, hb, ih]

/-- Where the value was: the first one that matches. -/
theorem clear_split (h : clear p l = some (a, l')) :
    l'.length = l.length ∧
      ∃ s t, occupied l = s ++ a :: t ∧ occupied l' = s ++ t ∧ p a ∧ ∀ b ∈ s, p b = false := by
  induction l generalizing l' with
  | nil => simp [clear] at h
  | cons x l ih =>
    cases x with
    | none =>
      obtain ⟨l'', hl'', rfl⟩ : ∃ l'', clear p l = some (a, l'') ∧ none :: l'' = l' := by
        simpa [clear] using h
      obtain ⟨hlen, s, t, hs, ht, ha, hlt⟩ := ih hl''
      exact ⟨by simp [hlen], s, t, by simpa using hs, by simpa using ht, ha, hlt⟩
    | some b =>
      cases hb : p b with
      | true =>
        obtain ⟨rfl, rfl⟩ : b = a ∧ none :: l = l' := by simpa [clear, hb] using h
        exact ⟨rfl, [], occupied l, by simp, by simp, hb, by simp⟩
      | false =>
        obtain ⟨l'', hl'', rfl⟩ : ∃ l'', clear p l = some (a, l'') ∧ some b :: l'' = l' := by
          simpa [clear, hb] using h
        obtain ⟨hlen, s, t, hs, ht, ha, hlt⟩ := ih hl''
        exact ⟨by simp [hlen], b :: s, t, by simp [hs], by simp [ht], ha, by simpa [hb] using hlt⟩

end Slots

end MoqRelay
