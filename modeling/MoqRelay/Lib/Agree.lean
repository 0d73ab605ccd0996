import Mathlib.Tactic

/-!
# Lib/Agree — comparing a sequence with a part of it that is known

`agree held data` compares a sequence with what is held of another one from the same place on: they
differ at the first held element that is not the same, they are equal when everything was held and
the same, and the answer is unknown when what is held ends first.

The comparison goes through in steps of any size (`agree_split`), which is how a sequence held in
segments is compared, and in pieces of any size (`agree_append`): a sequence differs when a piece
does and is equal when every piece is.
-/

namespace MoqRelay

open List

/-- The outcome of a comparison with something that is partly known. -/
inductive Agreement
  | equal | differs | unknown
  deriving DecidableEq, Repr

/-- Two outcomes together. -/
def Agreement.both : Agreement → Agreement → Agreement
  | .differs, _ | _, .differs => .differs
  | .equal, .equal => .equal
  | _, _ => .unknown

theorem Agreement.both_eq_differs_iff {a b : Agreement} :
    a.both b = .differs ↔ a = .differs ∨ b = .differs := by
  cases a <;> cases b <;> decide

theorem Agreement.both_eq_equal_iff {a b : Agreement} :
    a.both b = .equal ↔ a = .equal ∧ b = .equal := by
  cases a <;> cases b <;> decide

theorem Agreement.eq_unknown_iff {a : Agreement} : a = .unknown ↔ a ≠ .equal ∧ a ≠ .differs := by
  cases a <;> decide

variable {α : Type*}

/-- The outcomes of a check made piece by piece, each where the one before it ends. -/
def pieces (check : ℕ → List α → Agreement) : ℕ → List (List α) → List Agreement
  | _, [] => []
  | offset, xs :: ps => check offset xs :: pieces check (offset + xs.length) ps

/-- **A check that goes by pieces** differs when a piece does and is equal when all are. -/
theorem pieces_iff {check : ℕ → List α → Agreement}
    (hcheck : ∀ offset xs ys, check offset (xs ++ ys)
      = (check offset xs).both (check (offset + xs.length) ys)) {ps : List (List α)} (hps : ps ≠ [])
    (offset : ℕ) :
    (check offset ps.flatten = .differs ↔ .differs ∈ pieces check offset ps) ∧
      (check offset ps.flatten = .equal ↔ ∀ a ∈ pieces check offset ps, a = .equal) := by
  induction ps generalizing offset with
  | nil => exact absurd rfl hps
  | cons xs ps ih =>
    cases ps with
    | nil => simp [pieces, eq_comm]
    | cons ys ps =>
      obtain ⟨hdiffers, hequal⟩ := ih (cons_ne_nil _ _) (offset + xs.length)
      have hpieces : pieces check offset (xs :: ys :: ps)
          = check offset xs :: pieces check (offset + xs.length) (ys :: ps) := rfl
      rw [flatten_cons, hcheck, Agreement.both_eq_differs_iff, Agreement.both_eq_equal_iff,
        hdiffers, hequal, hpieces, mem_cons]
      refine ⟨or_congr_left eq_comm, ?_⟩
      rw [forall_mem_cons]

variable [DecidableEq α] {held data : List α}

/-- Compare `data` with what is held from its place on. -/
def agree : List α → List α → Agreement
  | _, [] => .equal
  | [], _ :: _ => .unknown
  | a :: held, b :: data => if a = b then agree held data else .differs

theorem agree_nil_right (held : List α) : agree held [] = .equal := by cases held <;> rfl

theorem agree_nil_left (data : List α) :
    agree [] data = if data = [] then .equal else .unknown := by
  cases data <;> rfl

/-- Equal: every element is held and the same. -/
theorem agree_eq_equal_iff : agree held data = .equal ↔ data <+: held := by
  induction data generalizing held with
  | nil => simp [agree_nil_right]
  | cons b data ih =>
    cases held with
    | nil => simp [agree]
    | cons a held =>
      by_cases hab : a = b
      · simp [agree, hab, ih]
      · simp [agree, hab, Ne.symm hab]

/-- Different: some held element is not the same. -/
theorem agree_eq_differs_iff : agree held data = .differs ↔
    ∃ (k : ℕ) (a b : α), held[k]? = some a ∧ data[k]? = some b ∧ a ≠ b := by
  induction data generalizing held with
  | nil => simp [agree_nil_right]
  | cons b data ih =>
    cases held with
    | nil => simp [agree]
    | cons a held =>
      by_cases hab : a = b
      · subst hab
        simp only [agree, if_true, ih]
        refine ⟨fun ⟨k, x, y, hx, hy, hne⟩ => ⟨k + 1, x, y, hx, hy, hne⟩, ?_⟩
        rintro ⟨k, x, y, hx, hy, hne⟩
        cases k with
        | zero => exact absurd (Option.some.inj (hx.symm.trans hy)) hne
        | succ k => exact ⟨k, x, y, hx, hy, hne⟩
      · simp only [agree, if_neg hab, true_iff]
        exact ⟨0, a, b, rfl, rfl, hab⟩

/-- A step of the comparison over a part that is held. -/
theorem agree_split {n : ℕ} (hheld : n ≤ held.length) (hdata : n ≤ data.length) :
    agree held data =
      if held.take n = data.take n then agree (held.drop n) (data.drop n) else .differs := by
  induction n generalizing held data with
  | zero => simp
  | succ n ih =>
    obtain ⟨a, held, rfl⟩ := exists_cons_of_length_pos (show 0 < held.length by omega)
    obtain ⟨b, data, rfl⟩ := exists_cons_of_length_pos (show 0 < data.length by omega)
    rw [length_cons] at hheld hdata
    by_cases hab : a = b
    · simp [agree, hab, @ih held data (by omega) (by omega)]
    · simp [agree, hab]

/-- **By segments**: the comparison takes what the segment and the data share, and goes on behind
the segment. -/
theorem agree_segment (seg rest data : List α) {k : ℕ} (hk : k ≤ seg.length) :
    agree ((seg ++ rest).drop k) data =
      if (seg.drop k).take (min (seg.length - k) data.length)
          = data.take (min (seg.length - k) data.length) then
        agree rest (data.drop (min (seg.length - k) data.length))
      else .differs := by
  rw [drop_append_of_le_length hk]
  have hle : min (seg.length - k) data.length ≤ (seg.drop k).length := by
    rw [length_drop]
    exact min_le_left _ _
  rw [agree_split (hle.trans (by simp)) (min_le_right _ _), take_append_of_le_length hle]
  rcases le_total (seg.length - k) data.length with h | h
  · rw [min_eq_left h, ← length_drop, drop_left]
  · rw [min_eq_right h, drop_of_length_le le_rfl, agree_nil_right, agree_nil_right]

/-- **In pieces**: the first piece, and the rest compared from where it ends. -/
theorem agree_append (xs ys : List α) :
    agree held (xs ++ ys) = (agree held xs).both (agree (held.drop xs.length) ys) := by
  induction xs generalizing held with
  | nil =>
    simp only [nil_append, agree_nil_right, length_nil, drop_zero]
    cases agree held ys <;> rfl
  | cons b xs ih =>
    cases held with
    | nil =>
      -- Nothing is held of the first piece, so nothing is of the second.
      cases ys <;> rfl
    | cons a held =>
      by_cases hab : a = b
      · simp [agree, hab, ih]
      · simp [agree, hab, Agreement.both]

end MoqRelay
