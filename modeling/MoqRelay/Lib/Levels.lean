import MoqRelay.Lib.Tarjan

/-!
# Lib/Levels — longest-path levels over components in topological order

Given the component of every point and the components in topological order, one pass that raises
the level of every arc's target above that of its source leaves each component at the length of the
longest path into it (`ranking_levels`): when a component is visited its own level no longer moves,
since every arc into it was met before.
-/

namespace MoqRelay

open Relation List Function

namespace Dfs

variable {n : ℕ} (edge : Fin n → Fin n → Bool) (comp : Fin n → Option (Fin n))

/-- One candidate arc out of a member of a component. -/
def relaxArc (r u : Fin n) (rank : Fin n → ℕ) (x : Fin n) : Fin n → ℕ :=
  match comp x with
  | none => rank
  | some t =>
    if t = r ∨ edge u x = false then rank
    else if rank t < rank r + 1 then update rank t (rank r + 1) else rank

/-- The arcs out of one member. -/
def relaxMember (r : Fin n) (rank : Fin n → ℕ) (u : Fin n) : Fin n → ℕ :=
  (finRange n).foldl (relaxArc edge comp r u) rank

/-- The arcs out of one component. -/
def relaxComponent (members : Fin n → List (Fin n)) (rank : Fin n → ℕ) (r : Fin n) : Fin n → ℕ :=
  (members r).foldl (relaxMember edge comp r) rank

/-- The levels after every component of a list. -/
def levels (members : Fin n → List (Fin n)) (order : List (Fin n)) (rank : Fin n → ℕ) :
    Fin n → ℕ := order.foldl (relaxComponent edge comp members) rank

/-- A member's arc into another component. -/
def Leaves (r u x t : Fin n) : Prop := edge u x ∧ comp x = some t ∧ t ≠ r

/-- **What relaxing some arcs out of a component does**: levels rise, to one above the component's
and only at the end of an arc. -/
structure Raised (r : Fin n) (A : Fin n → Fin n → Prop) (rank rank' : Fin n → ℕ) : Prop where
  self : rank' r = rank r
  le : ∀ t, rank t ≤ rank' t
  cases : ∀ t, rank' t = rank t ∨
    (rank' t = rank r + 1 ∧ ∃ u x, A u x ∧ Leaves edge comp r u x t)
  reach : ∀ u x t, A u x → Leaves edge comp r u x t → rank r + 1 ≤ rank' t

variable {edge comp} {r u : Fin n} {rank rank' rank'' : Fin n → ℕ}

namespace Raised

theorem refl : Raised edge comp r (fun _ _ => False) rank rank :=
  ⟨rfl, fun _ => le_rfl, fun _ => .inl rfl, nofun⟩

variable {A B : Fin n → Fin n → Prop}

theorem trans (h : Raised edge comp r A rank rank') (h' : Raised edge comp r B rank' rank'') :
    Raised edge comp r (fun u x => A u x ∨ B u x) rank rank'' where
  self := h'.self.trans h.self
  le t := (h.le t).trans (h'.le t)
  cases t := by
    rcases h'.cases t with heq | ⟨heq, u, x, hB, hl⟩
    · rw [heq]
      exact (h.cases t).imp_right fun ⟨hr, u, x, hA, hl⟩ => ⟨hr, u, x, .inl hA, hl⟩
    · exact .inr ⟨by rw [heq, h.self], u, x, .inr hB, hl⟩
  reach u x t hAB hl := by
    rcases hAB with hA | hB
    · exact (h.reach u x t hA hl).trans (h'.le t)
    · have := h'.reach u x t hB hl
      rwa [h.self] at this

theorem mono (h : Raised edge comp r A rank rank')
    (hAB : ∀ u x, A u x ↔ B u x) : Raised edge comp r B rank rank' := by
  obtain rfl : A = B := funext fun u => funext fun x => propext (hAB u x)
  exact h

/-- A fold of relaxations relaxes all their arcs. -/
theorem foldl {ι : Type*} {f : (Fin n → ℕ) → ι → Fin n → ℕ} {A : ι → Fin n → Fin n → Prop}
    (hf : ∀ rank i, Raised edge comp r (A i) rank (f rank i)) (l : List ι) :
    ∀ rank, Raised edge comp r (fun u x => ∃ i ∈ l, A i u x) rank (l.foldl f rank) := by
  induction l with
  | nil => exact fun rank => refl.mono fun u x => by simp
  | cons i l ih => exact fun rank => ((hf rank i).trans (ih (f rank i))).mono fun u x => by simp

end Raised

theorem raised_relaxArc (r u : Fin n) (rank : Fin n → ℕ) (x : Fin n) :
    Raised edge comp r (fun u' x' => u' = u ∧ x' = x) rank (relaxArc edge comp r u rank x) := by
  rw [relaxArc]
  cases hx : comp x with
  | none =>
    refine ⟨rfl, fun _ => le_rfl, fun _ => .inl rfl, ?_⟩
    rintro _ _ t ⟨rfl, rfl⟩ ⟨-, ht, -⟩
    exact nomatch hx.symm.trans ht
  | some t =>
    dsimp only
    split_ifs with hskip hlt
    · refine ⟨rfl, fun _ => le_rfl, fun _ => .inl rfl, ?_⟩
      rintro _ _ t' ⟨rfl, rfl⟩ ⟨hedge, ht, hne⟩
      cases hx.symm.trans ht
      rcases hskip with rfl | hno
      · exact absurd rfl hne
      · exact absurd (hno.symm.trans hedge) Bool.false_ne_true
    · simp only [not_or, Bool.not_eq_false] at hskip
      have hl : Leaves edge comp r u x t := ⟨hskip.2, hx, hskip.1⟩
      refine ⟨update_of_ne (Ne.symm hskip.1) .., fun t' => ?_, fun t' => ?_, ?_⟩
      · rcases eq_or_ne t' t with rfl | hne
        · rw [update_self]
          exact hlt.le
        · rw [update_of_ne hne]
      · rcases eq_or_ne t' t with rfl | hne
        · exact .inr ⟨update_self .., u, x, ⟨rfl, rfl⟩, hl⟩
        · exact .inl (update_of_ne hne ..)
      · rintro _ _ t' ⟨rfl, rfl⟩ ⟨-, ht, -⟩
        cases hx.symm.trans ht
        rw [update_self]
    · refine ⟨rfl, fun _ => le_rfl, fun _ => .inl rfl, ?_⟩
      rintro _ _ t' ⟨rfl, rfl⟩ ⟨-, ht, -⟩
      cases hx.symm.trans ht
      exact Nat.not_lt.mp hlt

/-- **A component's pass** relaxes every arc out of its members. -/
theorem raised_relaxComponent (members : Fin n → List (Fin n)) (r : Fin n) (rank : Fin n → ℕ) :
    Raised edge comp r (fun u _ => u ∈ members r) rank
      (relaxComponent edge comp members rank r) := by
  have hmember : ∀ (rank : Fin n → ℕ) (u : Fin n), Raised edge comp r (fun u' _ => u' = u) rank
      (relaxMember edge comp r rank u) := fun rank u =>
    (Raised.foldl (raised_relaxArc r u) (finRange n) rank).mono fun u' x' => by simp
  exact (Raised.foldl hmember (members r) rank).mono fun u x => by simp

/-! ## All components -/

/-- The levels once some components were visited: every arc out of them is respected, and every
positive level comes from one. -/
structure Settled (edge : Fin n → Fin n → Bool) (comp : Fin n → Option (Fin n))
    (done : List (Fin n)) (rank : Fin n → ℕ) : Prop where
  up : ∀ r u x t, r ∈ done → comp u = some r → Leaves edge comp r u x t → rank r + 1 ≤ rank t
  down : ∀ t, 0 < rank t → ∃ r u x, r ∈ done ∧ comp u = some r ∧ Leaves edge comp r u x t ∧
    rank t = rank r + 1

variable {members : Fin n → List (Fin n)}

/-- **One component's pass settles it**: the levels of the visited components stand. -/
theorem Settled.step {done rs : List (Fin n)}
    (h : Settled edge comp done rank) (hn : (r :: rs ++ done).Nodup)
    (ht : Topo edge comp (r :: rs)) (hm : ∀ u, u ∈ members r ↔ comp u = some r) :
    Settled edge comp (r :: done) (relaxComponent edge comp members rank r) := by
  have hr : Raised edge comp r (fun u _ => u ∈ members r) rank _ :=
    raised_relaxComponent members r rank
  obtain ⟨hrs, hdone⟩ := nodup_cons.mp hn
  have hlater : ∀ u x t, u ∈ members r → Leaves edge comp r u x t → t ∈ rs := by
    rintro u x t hu ⟨hedge, hx, hne⟩
    rcases ht.1 u x ((hm u).mp hu) hedge with hr | ⟨s, hs, hxs⟩
    · exact absurd (Option.some.inj (hx.symm.trans hr)) hne
    · rwa [Option.some.inj (hx.symm.trans hxs)]
  have hstands : ∀ s ∈ done, relaxComponent edge comp members rank r s = rank s := fun s hs =>
    (hr.cases s).resolve_right fun ⟨_, u, x, hu, hl⟩ =>
      disjoint_of_nodup_append hdone (hlater u x s hu hl) hs
  refine ⟨fun s u x t hs hu hl => ?_, fun t ht => ?_⟩
  · rcases mem_cons.mp hs with rfl | hs
    · rw [hr.self]
      exact hr.reach u x t ((hm u).mpr hu) hl
    · rw [hstands s hs]
      exact (h.up s u x t hs hu hl).trans (hr.le t)
  · rcases hr.cases t with heq | ⟨heq, u, x, hu, hl⟩
    · obtain ⟨s, u, x, hs, hu, hl, hrank⟩ := h.down t (heq ▸ ht)
      exact ⟨s, u, x, mem_cons_of_mem _ hs, hu, hl, by rw [heq, hstands s hs, hrank]⟩
    · exact ⟨r, u, x, mem_cons_self, (hm u).mp hu, hl, by rw [heq, hr.self]⟩

theorem settled_levels : ∀ (rs : List (Fin n))
    {done : List (Fin n)} {rank : Fin n → ℕ}, Settled edge comp done rank → (rs ++ done).Nodup →
    Topo edge comp rs → (∀ r ∈ rs, ∀ u, u ∈ members r ↔ comp u = some r) →
    Settled edge comp (rs.reverse ++ done) (levels edge comp members rs rank)
  | [], _, _, h, _, _, _ => h
  | r :: rs, done, rank, h, hn, ht, hm => by
    have hstep := h.step hn ht (hm r mem_cons_self)
    have hn' : (rs ++ r :: done).Nodup := (perm_middle.nodup_iff).mpr hn
    have hrec := settled_levels rs hstep hn' ht.2 fun s hs => hm s (mem_cons_of_mem _ hs)
    rwa [reverse_cons, append_assoc]

/-- **The levels are the longest-path ranks.** -/
theorem ranking_levels {d : Dfs n} (h : d.Inv edge)
    (hm : ∀ r ∈ d.order, ∀ u, u ∈ members r ↔ d.comp u = some r) {root : Fin n → Fin n}
    (hroot : ∀ v, d.comp v = some (root v)) :
    Ranking (Arc edge) fun v => levels edge d.comp members d.order (fun _ => 0) (root v) := by
  have hempty : Settled edge d.comp [] fun _ => 0 :=
    ⟨fun _ _ _ _ hr => absurd hr not_mem_nil, fun _ ht => absurd ht (lt_irrefl 0)⟩
  have hs := settled_levels d.order hempty ((append_nil _).symm ▸ h.order_nodup) h.topo hm
  have hmem : ∀ v, root v ∈ d.order.reverse ++ [] := fun v => by
    rw [append_nil, mem_reverse, h.order_iff]
    exact (h.root v _ (hroot v)).1
  have hsame : ∀ u v, SameComponent (Arc edge) u v ↔ root u = root v := fun u v => by
    refine ⟨fun huv => ?_, fun huv => ?_⟩
    · exact Option.some.inj ((h.whole u _ v (hroot u) huv).symm.trans (hroot v))
    · exact (h.root u _ (hroot u)).2.trans (huv ▸ (h.root v _ (hroot v)).2.symm)
  refine ⟨fun u v huv => ?_, fun u v huv hne => ?_, fun v hv => ?_⟩
  · rw [(hsame u v).mp huv]
  · exact hs.up (root u) u v (root v) (hmem u) (hroot u)
      ⟨huv, hroot v, fun he => hne ((hsame u v).mpr he.symm)⟩
  · obtain ⟨r, u, x, -, hu, ⟨hedge, hx, hne⟩, hrank⟩ := hs.down (root v) hv
    cases (hroot u).symm.trans hu
    have hxv := (hsame x v).mpr (Option.some.inj ((hroot x).symm.trans hx))
    exact ⟨u, ⟨fun huv => hne ((hsame u v).mp huv).symm, u, x, .refl .., hedge, hxv⟩, hrank⟩

end Dfs

end MoqRelay
