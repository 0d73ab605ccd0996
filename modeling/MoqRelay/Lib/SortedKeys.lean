import Mathlib.Tactic

/-!
# Lib/SortedKeys — a sorted array as a finite map

An array of records kept strictly sorted by a key, searched by a three-way bisection, is a finite
map: `keyed` reads it by key, the bisection agrees with it (`seek_true`, `seek_false`), and an
update, an insertion at the bisection's answer and a removal act on it one key at a time.
-/

namespace MoqRelay

open List

section Bisect

/-- Bisection by a three-way comparison: the index that compares equal, or the insertion index. -/
def bisect (cmp : ℕ → Ordering) : ℕ → ℕ → ℕ → Bool × ℕ
  | 0, lo, _ => (false, lo)
  | n + 1, lo, hi =>
    if lo < hi then
      match cmp (lo + (hi - lo) / 2) with
      | .eq => (true, lo + (hi - lo) / 2)
      | .lt => bisect cmp n (lo + (hi - lo) / 2 + 1) hi
      | .gt => bisect cmp n lo (lo + (hi - lo) / 2)
    else (false, lo)

/-- What a bisection answers. -/
def Bisected (cmp : ℕ → Ordering) (out : Bool × ℕ) : Prop :=
  (out.1 → cmp out.2 = .eq) ∧
    (out.1 = false → (∀ j < out.2, cmp j = .lt) ∧ ∀ j, out.2 ≤ j → cmp j = .gt)

theorem bisect_spec {cmp : ℕ → Ordering} (hlt : ∀ i j, i ≤ j → cmp j = .lt → cmp i = .lt)
    (hgt : ∀ i j, i ≤ j → cmp i = .gt → cmp j = .gt) :
    ∀ n lo hi, hi - lo ≤ n → (∀ i < lo, cmp i = .lt) → (∀ i, hi ≤ i → cmp i = .gt) →
      Bisected cmp (bisect cmp n lo hi)
  | 0, lo, hi, hn, hl, hh => ⟨nofun, fun _ => ⟨hl, fun j (hj : lo ≤ j) => hh j (by omega)⟩⟩
  | n + 1, lo, hi, hn, hl, hh => by
    unfold bisect
    split_ifs with hlh
    · cases hc : cmp (lo + (hi - lo) / 2) with
      | eq => exact ⟨fun _ => hc, nofun⟩
      | lt =>
        exact bisect_spec hlt hgt n _ _ (by omega)
          (fun i hi => hlt i _ (Nat.lt_succ_iff.mp hi) hc) hh
      | gt => exact bisect_spec hlt hgt n _ _ (by omega) hl fun i hi => hgt _ i hi hc
    · exact ⟨nofun, fun _ => ⟨hl, fun j (hj : lo ≤ j) => hh j (by omega)⟩⟩

end Bisect

/-! ## Reading and writing by key -/

section Keyed

variable {α κ : Type*} [DecidableEq κ] (key : α → κ)

/-- The record under a key. -/
def keyed (l : List α) (k : κ) : Option α := l.find? fun a => key a = k

/-- Move the tail of an array up and write into the hole. -/
def insertAt (l : List α) (i : ℕ) (a : α) : List α := l.take i ++ a :: l.drop i

variable {key} {l l₁ l₂ : List α} {a b : α} {c : κ} {i : ℕ}

theorem keyed_append (l₁ l₂ : List α) (c : κ) :
    keyed key (l₁ ++ l₂) c = (keyed key l₁ c).or (keyed key l₂ c) := find?_append ..

theorem keyed_eq_none : keyed key l c = none ↔ ∀ a ∈ l, key a ≠ c := by simp [keyed, find?_eq_none]

theorem nodup_concat_key (hl : (l.map key).Nodup) (h : keyed key l c = none) :
    (l.map key ++ [c]).Nodup := by
  rw [nodup_append]
  refine ⟨hl, nodup_singleton c, ?_⟩
  rintro k hk k' hk' rfl
  obtain ⟨a, ha, rfl⟩ := mem_map.mp hk
  exact keyed_eq_none.mp h a ha (mem_singleton.mp hk')

theorem key_of_keyed (h : keyed key l c = some a) : a ∈ l ∧ key a = c :=
  ⟨mem_of_find?_eq_some h, of_decide_eq_true (find?_some h :)⟩

theorem keyed_cons (b : α) (l : List α) (c : κ) :
    keyed key (b :: l) c = if c = key b then some b else keyed key l c := by
  rw [keyed, find?_cons]
  by_cases hc : c = key b
  · simp [hc]
  · rw [if_neg hc, decide_eq_false fun hb => hc hb.symm]
    rfl

/-- A record whose key is new to what precedes it. -/
theorem keyed_middle (h : ∀ x ∈ l₁, key x ≠ key b) (c : κ) :
    keyed key (l₁ ++ b :: l₂) c = if c = key b then some b else keyed key (l₁ ++ l₂) c := by
  rw [keyed_append, keyed_append, keyed_cons]
  split_ifs with hc
  · rw [keyed_eq_none.mpr (hc ▸ h), Option.none_or]
  · rfl

/-- An index splits the array. -/
theorem split_at_index (h : l[i]? = some a) : ∃ l₁ l₂, l = l₁ ++ a :: l₂ ∧ l₁.length = i := by
  obtain ⟨hi, rfl⟩ := List.getElem?_eq_some_iff.mp h
  refine ⟨l.take i, l.drop (i + 1), ?_, length_take_of_le hi.le⟩
  rw [← drop_eq_getElem_cons hi, take_append_drop]

theorem getElem?_snoc (l : List α) (a : α) (j : ℕ) :
    (l ++ [a])[j]? = if j = l.length then some a else l[j]? := by
  rw [getElem?_append]
  split_ifs with hlt heq heq
  · omega
  · rfl
  · simp [heq]
  · rw [getElem?_eq_none (by simp; omega), getElem?_eq_none (by omega)]

/-- Inserting a record under a new key. -/
theorem keyed_insertAt (h : ∀ x ∈ l, key x ≠ key b) (i : ℕ) (c : κ) :
    keyed key (insertAt l i b) c = if c = key b then some b else keyed key l c := by
  rw [insertAt, keyed_middle fun x hx => h x (mem_of_mem_take hx), take_append_drop]

/-- Rewriting every record under its key. -/
theorem keyed_map {f : α → α} (hf : ∀ a, key (f a) = key a) (l : List α) (c : κ) :
    keyed key (l.map f) c = (keyed key l c).map f := by
  rw [keyed, find?_map]
  exact congrArg (fun p => (l.find? p).map f) (funext fun a => by rw [Function.comp_apply, hf])

/-- A record put in the place of its key. -/
theorem key_replace (a b : α) : key (if key b = key a then a else b) = key b := by
  split_ifs with h
  · exact h.symm
  · rfl

theorem getElem?_insertAt (h : i ≤ l.length) : (insertAt l i b)[i]? = some b := by
  rw [insertAt, getElem?_append_right (length_take_le i l),
    length_take_of_le h, Nat.sub_self, getElem?_cons_zero]

end Keyed

/-! ## Sorted arrays -/

section Sorted

variable {α κ : Type*} [Ord κ] (key : α → κ)

/-- Strictly sorted by key. -/
def SortedBy (l : List α) : Prop := l.Pairwise fun a b => compare (key a) (key b) = .lt

/-- How the key at an index compares. -/
def seekCmp (l : List α) (k : κ) (i : ℕ) : Ordering := (l[i]?).elim .gt fun a => compare (key a) k

/-- The bisection of an array for a key. -/
def seek (l : List α) (k : κ) : Bool × ℕ := bisect (seekCmp key l k) l.length 0 l.length

variable {key} {l l₁ l₂ : List α} {a b : α} {k c : κ} {i : ℕ}

theorem seekCmp_some (h : l[i]? = some a) : seekCmp key l k i = compare (key a) k := by
  rw [seekCmp, h]
  rfl

theorem seekCmp_none (h : l.length ≤ i) : seekCmp key l k i = .gt := by
  rw [seekCmp, getElem?_eq_none h]
  rfl

theorem SortedBy.get (h : SortedBy key l) {j : ℕ} (hij : i < j) (ha : l[i]? = some a)
    (hb : l[j]? = some b) : compare (key a) (key b) = .lt := by
  obtain ⟨hi, rfl⟩ := List.getElem?_eq_some_iff.mp ha
  obtain ⟨hj, rfl⟩ := List.getElem?_eq_some_iff.mp hb
  exact pairwise_iff_getElem.mp h i j hi hj hij

theorem SortedBy.ne [Std.LawfulEqOrd κ] (h : SortedBy key l) :
    l.Pairwise fun a b => key a ≠ key b := by
  refine h.imp fun {a b} hab heq => ?_
  rw [heq, Std.compare_self] at hab
  cases hab

section Order

variable [Std.TransOrd κ]

theorem compare_trans {x y z : κ} (h : compare x y = .lt) (h' : compare y z = .lt) :
    compare x z = .lt := Std.TransCmp.lt_trans h h'

theorem compare_flip {x y : κ} : compare x y = .gt ↔ compare y x = .lt := Std.OrientedCmp.gt_iff_lt

theorem seek_bisected (h : SortedBy key l) (k : κ) : Bisected (seekCmp key l k) (seek key l k) := by
  refine bisect_spec ?_ ?_ _ _ _ (by omega) (fun i hi => absurd hi (Nat.not_lt_zero i))
    fun i hi => seekCmp_none hi
  · intro i j hij hj
    rcases Nat.eq_or_lt_of_le hij with rfl | hlt
    · exact hj
    by_cases hjl : l.length ≤ j
    · exact nomatch (seekCmp_none hjl).symm.trans hj
    · have hb : l[j]? = some l[j] := getElem?_eq_getElem (by omega)
      have ha : l[i]? = some l[i] := getElem?_eq_getElem (by omega)
      rw [seekCmp_some hb] at hj
      rw [seekCmp_some ha]
      exact compare_trans (h.get hlt ha hb) hj
  · intro i j hij hi
    rcases Nat.eq_or_lt_of_le hij with rfl | hlt
    · exact hi
    by_cases hjl : l.length ≤ j
    · exact seekCmp_none hjl
    · have hb : l[j]? = some l[j] := getElem?_eq_getElem (by omega)
      have ha : l[i]? = some l[i] := getElem?_eq_getElem (by omega)
      rw [seekCmp_some ha, compare_flip] at hi
      rw [seekCmp_some hb, compare_flip]
      exact compare_trans hi (h.get hlt ha hb)

/-- The bisection finds the record of a key that is there. -/
theorem seek_true [Std.LawfulEqOrd κ] (h : SortedBy key l) (hk : (seek key l k).1) :
    ∃ a, l[(seek key l k).2]? = some a ∧ key a = k := by
  have heq := (seek_bisected h k).1 hk
  by_cases hl : l.length ≤ (seek key l k).2
  · exact nomatch (seekCmp_none hl).symm.trans heq
  · have ha : l[(seek key l k).2]? = some l[(seek key l k).2] := getElem?_eq_getElem (by omega)
    rw [seekCmp_some ha] at heq
    exact ⟨_, ha, Std.LawfulEqOrd.eq_of_compare heq⟩

/-- The bisection splits the array around a key that is not there. -/
theorem seek_false (h : SortedBy key l) (hk : (seek key l k).1 = false) :
    (∀ a ∈ l.take (seek key l k).2, compare (key a) k = .lt) ∧
      ∀ a ∈ l.drop (seek key l k).2, compare k (key a) = .lt := by
  obtain ⟨hlt, hgt⟩ := (seek_bisected h k).2 hk
  refine ⟨fun a ha => ?_, fun a ha => ?_⟩
  · obtain ⟨i, hi, rfl⟩ := mem_take_iff_getElem.mp ha
    rw [← seekCmp_some (getElem?_eq_getElem (by omega))]
    exact hlt i (by omega)
  · obtain ⟨i, hi, rfl⟩ := mem_drop_iff_getElem.mp ha
    rw [← compare_flip, ← seekCmp_some (getElem?_eq_getElem (by omega))]
    exact hgt _ (Nat.le_add_right _ _)

theorem seek_le (h : SortedBy key l) (hk : (seek key l k).1 = false) :
    (seek key l k).2 ≤ l.length := by
  by_contra hlt
  have hlt := ((seek_bisected h k).2 hk).1 _ (Nat.not_le.mp hlt)
  exact nomatch (seekCmp_none le_rfl).symm.trans hlt

/-- Inserting a key where the bisection ends keeps the order. -/
theorem SortedBy.insertAt (h : SortedBy key l) (b : α) (hk : (seek key l (key b)).1 = false) :
    SortedBy key (insertAt l (seek key l (key b)).2 b) := by
  obtain ⟨hlt, hgt⟩ := seek_false h hk
  have hsplit := (l.take_append_drop (seek key l (key b)).2).symm
  rw [hsplit] at h
  obtain ⟨h1, h2, h3⟩ := pairwise_append.mp h
  refine pairwise_append.mpr ⟨h1, pairwise_cons.mpr ⟨hgt, h2⟩, fun x hx y hy => ?_⟩
  rcases mem_cons.mp hy with rfl | hy
  · exact hlt x hx
  · exact h3 x hx y hy

end Order

theorem SortedBy.set (h : SortedBy key l) (ha : l[i]? = some a) (hb : key b = key a) :
    SortedBy key (l.set i b) := by
  obtain ⟨l₁, l₂, rfl, rfl⟩ := split_at_index ha
  rw [set_append_right _ _ le_rfl, Nat.sub_self]
  obtain ⟨h1, h2, h3⟩ := pairwise_append.mp h
  rw [pairwise_cons] at h2
  refine pairwise_append.mpr
    ⟨h1, pairwise_cons.mpr ⟨hb ▸ h2.1, h2.2⟩, fun x hx y hy => ?_⟩
  rcases mem_cons.mp hy with rfl | hy
  · exact hb ▸ h3 x hx a mem_cons_self
  · exact h3 x hx y (mem_cons_of_mem _ hy)

theorem SortedBy.map {f : α → α} (h : SortedBy key l) (hf : ∀ a, key (f a) = key a) :
    SortedBy key (l.map f) := by
  refine pairwise_map.mpr (h.imp fun {a b} hab => ?_)
  rwa [hf, hf]

theorem SortedBy.eraseIdx (h : SortedBy key l) (i : ℕ) : SortedBy key (l.eraseIdx i) :=
  h.sublist (eraseIdx_sublist l i)

section Lawful

variable [Std.LawfulEqOrd κ]

theorem SortedBy.middle (h : SortedBy key (l₁ ++ a :: l₂)) :
    (∀ x ∈ l₁, key x ≠ key a) ∧ ∀ x ∈ l₂, key x ≠ key a := by
  obtain ⟨-, h2, h3⟩ := pairwise_append.mp h.ne
  exact ⟨fun x hx => h3 x hx a mem_cons_self, fun x hx => (rel_of_pairwise_cons h2 hx).symm⟩

variable [DecidableEq κ]

/-- The record at an index is the one under its key. -/
theorem SortedBy.keyed_self (h : SortedBy key l) (ha : l[i]? = some a) :
    keyed key l (key a) = some a := by
  obtain ⟨l₁, l₂, rfl, -⟩ := split_at_index ha
  rw [keyed_middle h.middle.1, if_pos rfl]

/-- Rewriting a record under its key. -/
theorem SortedBy.keyed_set (h : SortedBy key l) (ha : l[i]? = some a) (hb : key b = key a) (c : κ) :
    keyed key (l.set i b) c = if c = key a then some b else keyed key l c := by
  obtain ⟨l₁, l₂, rfl, rfl⟩ := split_at_index ha
  rw [set_append_right _ _ le_rfl, Nat.sub_self, set_cons_zero,
    keyed_middle (hb ▸ h.middle.1), keyed_middle h.middle.1, hb]
  split_ifs <;> rfl

/-- Removing a record. -/
theorem SortedBy.keyed_eraseIdx (h : SortedBy key l) (ha : l[i]? = some a) (c : κ) :
    keyed key (l.eraseIdx i) c = if c = key a then none else keyed key l c := by
  obtain ⟨l₁, l₂, rfl, rfl⟩ := split_at_index ha
  rw [eraseIdx_append_of_length_le le_rfl, Nat.sub_self, keyed_middle h.middle.1]
  split_ifs with hc
  · subst hc
    exact keyed_eq_none.mpr fun x hx => (mem_append.mp hx).elim (h.middle.1 x) (h.middle.2 x)
  · rfl

variable [Std.TransOrd κ]

/-- **The bisection reads the map.** -/
theorem SortedBy.keyed_seek (h : SortedBy key l) (k : κ) :
    keyed key l k = if (seek key l k).1 then l[(seek key l k).2]? else none := by
  cases hk : (seek key l k).1 with
  | true =>
    obtain ⟨a, ha, rfl⟩ := seek_true h hk
    rw [if_pos rfl, ha, h.keyed_self ha]
  | false =>
    rw [if_neg Bool.false_ne_true, keyed_eq_none]
    obtain ⟨hlt, hgt⟩ := seek_false h hk
    intro x hx heq
    rw [← l.take_append_drop (seek key l k).2, mem_append] at hx
    rcases hx with hx | hx
    · have := hlt x hx
      rw [heq, Std.compare_self] at this
      cases this
    · have := hgt x hx
      rw [heq, Std.compare_self] at this
      cases this

end Lawful

end Sorted

end MoqRelay
