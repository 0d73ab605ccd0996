import Mathlib.Tactic
import Mathlib.Logic.Relation
import Mathlib.Data.Fintype.Card

/-!
# Lib/Components — strong components of a relation, and the longest path into one

Two points are in the same component when each reaches the other.  A relation between components
has no cycle, so over a finite type every component has a longest path of components leading into
it.  A function that is constant on components, grows along every arc between two components and
drops by one along some arc into each positive component is that length (`isGreatest_of_ranking`);
a relabelling of the points moves the lengths with it (`componentPath_equiv`).
-/

namespace MoqRelay

open Relation

variable {α β : Type*} {E : α → α → Prop} {u v w : α}

/-- Each of two points reaches the other. -/
def SameComponent (E : α → α → Prop) (u v : α) : Prop := ReflTransGen E u v ∧ ReflTransGen E v u

namespace SameComponent

theorem refl (E : α → α → Prop) (v : α) : SameComponent E v v := ⟨.refl, .refl⟩

theorem symm (h : SameComponent E u v) : SameComponent E v u := ⟨h.2, h.1⟩

theorem trans (h : SameComponent E u v) (h' : SameComponent E v w) : SameComponent E u w :=
  ⟨h.1.trans h'.1, h'.2.trans h.2⟩

end SameComponent

/-- A set closed under a relation is closed under reachability. -/
theorem ReflTransGen.closed {P : α → Prop} (hP : ∀ a b, P a → E a b → P b)
    (h : ReflTransGen E u v) (hu : P u) : P v := by
  induction h with
  | refl => exact hu
  | tail _ hab ih => exact hP _ _ ih hab

/-- An arc from the component of one point to another component. -/
def ComponentArc (E : α → α → Prop) (u v : α) : Prop :=
  ¬ SameComponent E u v ∧ ∃ a b, SameComponent E u a ∧ E a b ∧ SameComponent E b v

/-- A path of that many arcs between components leads into the component of a point. -/
def ComponentPath (E : α → α → Prop) : ℕ → α → Prop
  | 0, _ => True
  | k + 1, v => ∃ u, ComponentArc E u v ∧ ComponentPath E k u

/-! ## Rankings -/

/-- **The length of the longest path into a component, locally**: constant on components, growing
along every arc between components, and reached from below along one. -/
structure Ranking (E : α → α → Prop) (r : α → ℕ) : Prop where
  same : ∀ u v, SameComponent E u v → r u = r v
  up : ∀ u v, E u v → ¬ SameComponent E u v → r u < r v
  down : ∀ v, 0 < r v → ∃ u, ComponentArc E u v ∧ r v = r u + 1

namespace Ranking

variable {r : α → ℕ} (h : Ranking E r)
include h

theorem arc (ha : ComponentArc E u v) : r u < r v := by
  obtain ⟨hne, a, b, hua, hab, hbv⟩ := ha
  rw [h.same u a hua, ← h.same b v hbv]
  exact h.up a b hab fun hs => hne (hua.trans (hs.trans hbv))

theorem path_le : ∀ {k : ℕ} {v : α}, ComponentPath E k v → k ≤ r v
  | 0, _, _ => Nat.zero_le _
  | _ + 1, _, ⟨_, ha, hp⟩ => (Nat.succ_le_succ (path_le hp)).trans (h.arc ha)

theorem path : ∀ {k : ℕ} {v : α}, r v = k → ComponentPath E k v
  | 0, _, _ => trivial
  | k + 1, v, hk => by
    obtain ⟨u, ha, hu⟩ := h.down v (by omega)
    exact ⟨u, ha, path (by omega)⟩

/-- **The rank is the length of the longest path.** -/
theorem isGreatest (v : α) : IsGreatest {k | ComponentPath E k v} (r v) :=
  ⟨h.path rfl, fun _ hk => h.path_le hk⟩

/-- Every smaller rank occurs. -/
theorem exists_rank {j : ℕ} (hj : j ≤ r v) : ∃ u, r u = j := by
  obtain ⟨d, hd⟩ := Nat.exists_eq_add_of_le hj
  induction d generalizing v with
  | zero => exact ⟨v, hd⟩
  | succ d ih =>
    obtain ⟨u, -, hu⟩ := h.down v (by omega)
    exact ih (v := u) (by omega) (by omega)

/-- **There are fewer ranks than points.** -/
theorem lt_card [Fintype α] (v : α) : r v < Fintype.card α := by
  have hex : ∀ j : Fin (r v + 1), ∃ u, r u = j := fun j => h.exists_rank (Nat.lt_succ_iff.mp j.isLt)
  choose f hf using hex
  have hinj : Function.Injective f := fun i j hij => Fin.ext (by rw [← hf i, ← hf j, hij])
  have := Fintype.card_le_of_injective f hinj
  rwa [Fintype.card_fin] at this

end Ranking

/-! ## Relabelling -/

section Equiv

variable {E' : β → β → Prop} (f : α ≃ β) (hf : ∀ a b, E a b ↔ E' (f a) (f b))
include hf

theorem reflTransGen_equiv : ReflTransGen E u v ↔ ReflTransGen E' (f u) (f v) := by
  refine ⟨fun h => h.lift f fun a b => (hf a b).mp, fun h => ?_⟩
  have hback : ∀ a b, E' a b → E (f.symm a) (f.symm b) := fun a b hab => by
    rwa [hf, f.apply_symm_apply, f.apply_symm_apply]
  have hlift : ReflTransGen E (f.symm (f u)) (f.symm (f v)) := h.lift f.symm hback
  rwa [f.symm_apply_apply, f.symm_apply_apply] at hlift

theorem sameComponent_equiv : SameComponent E u v ↔ SameComponent E' (f u) (f v) :=
  and_congr (reflTransGen_equiv f hf) (reflTransGen_equiv f hf)

theorem componentArc_equiv : ComponentArc E u v ↔ ComponentArc E' (f u) (f v) := by
  refine and_congr (not_congr (sameComponent_equiv f hf)) ?_
  constructor
  · rintro ⟨a, b, hua, hab, hbv⟩
    exact ⟨f a, f b, (sameComponent_equiv f hf).mp hua, (hf a b).mp hab,
      (sameComponent_equiv f hf).mp hbv⟩
  · rintro ⟨a, b, hua, hab, hbv⟩
    refine ⟨f.symm a, f.symm b, (sameComponent_equiv f hf).mpr ?_, (hf _ _).mpr ?_,
      (sameComponent_equiv f hf).mpr ?_⟩ <;> simpa only [f.apply_symm_apply]

/-- **A relabelling moves the paths with it.** -/
theorem componentPath_equiv (k : ℕ) : ∀ v, ComponentPath E k v ↔ ComponentPath E' k (f v) := by
  induction k with
  | zero => exact fun _ => Iff.rfl
  | succ k ih =>
    intro v
    refine ⟨fun ⟨u, ha, hp⟩ => ⟨f u, (componentArc_equiv f hf).mp ha, (ih u).mp hp⟩, ?_⟩
    rintro ⟨u, ha, hp⟩
    obtain ⟨u, rfl⟩ := f.surjective u
    exact ⟨u, (componentArc_equiv f hf).mpr ha, (ih u).mpr hp⟩

end Equiv

end MoqRelay
