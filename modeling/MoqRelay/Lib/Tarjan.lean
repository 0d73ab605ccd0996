import MoqRelay.Lib.Components

/-!
# Lib/Tarjan — strong components by one depth-first search

Tarjan's search over the points of a decidable relation, one visit at a time: the component stack,
the search path and the list of components found are lists, the rest are tables.  `Inv` is the
invariant of a visit.  Its three ideas: a stack point off the path hangs under a stack point
discovered before it, with no path point in between (`tree`); a low mark is the discovery index of
a stack point that is reached (`low_reach`), and no scanned arc leads to a stack point below it
(`scanned`); a closed point has only closed successors (`closed`).
-/

namespace MoqRelay

open Relation List Function

/-- A list cut at the first place of a member. -/
theorem cut_at_mem {α : Type*} [DecidableEq α] {c : α} {l : List α} (hc : c ∈ l) :
    ∃ pre post, l = pre ++ c :: post ∧ l.takeWhile (· ≠ c) = pre ∧
      (l.dropWhile (· ≠ c)).tail = post := by
  obtain ⟨pre, post, rfl, hpre⟩ := eq_append_cons_of_mem hc
  have hne : ∀ v ∈ pre, decide (v ≠ c) := fun v hv => decide_eq_true fun he => hpre (he ▸ hv)
  refine ⟨pre, post, rfl, ?_, ?_⟩
  · rw [takeWhile_append_of_pos hne, takeWhile_cons_of_neg (by simp), append_nil]
  · rw [dropWhile_append_of_pos hne, dropWhile_cons_of_neg (by simp), tail_cons]

/-- A search over `n` points. -/
structure Dfs (n : ℕ) where
  count : ℕ
  index : Fin n → Option ℕ
  low : Fin n → ℕ
  next : Fin n → ℕ
  parent : Fin n → Option (Fin n)
  comp : Fin n → Option (Fin n)
  (stack path order : List (Fin n))

namespace Dfs

variable {n : ℕ} (d : Dfs n) (edge : Fin n → Fin n → Bool)

/-- The discovery index of a point. -/
def idx (v : Fin n) : ℕ := (d.index v).getD 0

/-- A new point on the path and on the stack. -/
def discover (x : Fin n) : Dfs n :=
  { d with
    count := d.count + 1
    index := update d.index x (some d.count)
    low := update d.low x d.count
    parent := update d.parent x d.path.head?
    stack := x :: d.stack
    path := x :: d.path }

/-- The scan of a point moves on. -/
def advance (c : Fin n) : Dfs n := { d with next := update d.next c (d.next c + 1) }

/-- A low mark lowered. -/
def lower (c : Fin n) (i : ℕ) : Dfs n := { d with low := update d.low c i }

/-- One candidate successor of a point. -/
def scan (c x : Fin n) : Dfs n :=
  if edge c x then
    match d.index x with
    | none => d.discover x
    | some i => if d.comp x = none ∧ i < d.low c then d.lower c i else d
  else d

/-- The component of a point taken off the stack. -/
def close (c : Fin n) : Dfs n :=
  { d with
    comp := fun v => if v = c ∨ v ∈ d.stack.takeWhile (· ≠ c) then some c else d.comp v
    stack := (d.stack.dropWhile (· ≠ c)).tail
    order := c :: d.order }

/-- A point's low mark handed to its parent. -/
def handUp (c : Fin n) : Option (Fin n) → Dfs n
  | none => d
  | some p => if d.low c < d.low p then d.lower p (d.low c) else d

/-- The end of a point's scan. -/
def finish (c : Fin n) (rest : List (Fin n)) : Dfs n :=
  { (if d.index c = some (d.low c) then d.close c else d).handUp c rest.head? with path := rest }

/-- One visit of the point at the end of the path. -/
def visit : Dfs n :=
  match d.path with
  | [] => d
  | c :: rest =>
    if h : d.next c < n then (d.scan edge c ⟨d.next c, h⟩).advance c else d.finish c rest

variable {d} in
theorem visit_scan {c : Fin n} {rest : List (Fin n)} (hp : d.path = c :: rest)
    (hx : d.next c < n) : d.visit edge = (d.scan edge c ⟨d.next c, hx⟩).advance c := by
  rw [visit, hp]
  exact dif_pos hx

variable {d} in
theorem visit_finish {c : Fin n} {rest : List (Fin n)} (hp : d.path = c :: rest)
    (hx : ¬ d.next c < n) : d.visit edge = d.finish c rest := by
  rw [visit, hp]
  exact dif_neg hx

variable {d} in
theorem visit_nil (hp : d.path = []) : d.visit edge = d := by rw [visit, hp]

/-! ## The invariant -/

/-- The arcs of the relation. -/
abbrev Arc (u v : Fin n) : Prop := edge u v

/-- Every component of the list has its arcs into itself and the later ones. -/
def Topo (comp : Fin n → Option (Fin n)) : List (Fin n) → Prop
  | [] => True
  | r :: rs => (∀ v x, comp v = some r → edge v x → comp x = some r ∨ ∃ s ∈ rs, comp x = some s) ∧
      Topo comp rs

theorem Topo.congr {comp comp' : Fin n → Option (Fin n)} : ∀ {rs : List (Fin n)},
    (∀ r ∈ rs, ∀ v, comp' v = some r ↔ comp v = some r) → Topo edge comp rs → Topo edge comp' rs
  | [], _, _ => trivial
  | r :: rs, hc, ⟨hr, hrs⟩ => by
    refine ⟨fun v x hv hvx => ?_, Topo.congr (fun s hs => hc s (mem_cons_of_mem _ hs)) hrs⟩
    refine (hr v x ((hc r mem_cons_self v).mp hv) hvx).imp
      (hc r mem_cons_self x).mpr ?_
    rintro ⟨s, hs, hx⟩
    exact ⟨s, hs, (hc s (mem_cons_of_mem _ hs) x).mpr hx⟩

/-- **The invariant of the search.** -/
structure Inv : Prop where
  idx_lt : ∀ v ∈ d.stack, d.idx v < d.count
  stack_iff : ∀ v, v ∈ d.stack ↔ d.index v ≠ none ∧ d.comp v = none
  stack_sorted : d.stack.Pairwise fun a b => d.idx b < d.idx a
  path_stack : ∀ v ∈ d.path, v ∈ d.stack
  path_sorted : d.path.Pairwise fun a b => d.idx b < d.idx a
  path_parent : ∀ pre c rest, d.path = pre ++ c :: rest → d.parent c = rest.head?
  parent_arc : ∀ v p, d.parent v = some p → edge p v
  tree : ∀ w ∈ d.stack, w ∉ d.path → d.next w = n ∧ d.low w < d.idx w ∧ ∃ p ∈ d.stack,
    d.parent w = some p ∧ d.idx p < d.idx w ∧ d.low p ≤ d.low w ∧
      ∀ q ∈ d.path, d.idx q < d.idx w → d.idx q ≤ d.idx p
  low_le : ∀ v ∈ d.stack, d.low v ≤ d.idx v
  low_reach : ∀ v ∈ d.stack, ∃ u ∈ d.stack, d.idx u = d.low v ∧ ReflTransGen (Arc edge) v u
  fresh : ∀ v, d.index v = none → d.next v = 0 ∧ d.comp v = none
  next_le : ∀ v, d.next v ≤ n
  scanned : ∀ v ∈ d.stack, ∀ x : Fin n, x < d.next v → edge v x → (∃ r, d.comp x = some r) ∨
    (x ∈ d.stack ∧ d.low v ≤ d.idx x) ∨ (x ∈ d.path ∧ d.parent x = some v)
  closed : ∀ v x, (∃ r, d.comp v = some r) → edge v x → ∃ r, d.comp x = some r
  root : ∀ v r, d.comp v = some r → d.comp r = some r ∧ SameComponent (Arc edge) v r
  whole : ∀ v r x, d.comp v = some r → SameComponent (Arc edge) v x → d.comp x = some r
  order_iff : ∀ r, r ∈ d.order ↔ d.comp r = some r
  order_nodup : d.order.Nodup
  topo : Topo edge d.comp d.order

variable {d edge} {c x : Fin n} {rest : List (Fin n)}

theorem idx_of_index {v : Fin n} {i : ℕ} (hv : d.index v = some i) : d.idx v = i := by
  rw [idx, hv, Option.getD_some]

/-- The stack is built from its older points up. -/
theorem stack_induction {P : Fin n → Prop}
    (ih : ∀ w ∈ d.stack, (∀ u ∈ d.stack, d.idx u < d.idx w → P u) → P w) : ∀ w ∈ d.stack, P w := by
  intro w
  induction hk : d.idx w using Nat.strong_induction_on generalizing w with
  | _ k hP =>
    subst hk
    exact fun hw => ih w hw fun u hu hlt => hP _ hlt u rfl hu

namespace Inv

section Facts

variable (h : d.Inv edge)
include h

theorem index_of_mem {v : Fin n} (hv : v ∈ d.stack) : d.index v = some (d.idx v) := by
  obtain ⟨i, hi⟩ := Option.ne_none_iff_exists'.mp ((h.stack_iff v).mp hv).1
  rw [hi, idx_of_index hi]

theorem idx_inj {u v : Fin n} (hu : u ∈ d.stack) (hv : v ∈ d.stack) (huv : d.idx u = d.idx v) :
    u = v :=
  inj_on_of_nodup_map (pairwise_map.mpr (h.stack_sorted.imp fun hlt => hlt.ne')) hu hv huv

/-- The end of the path is the youngest of it. -/
theorem path_idx_lt (hp : d.path = c :: rest) {q : Fin n} (hq : q ∈ rest) : d.idx q < d.idx c := by
  have hsorted := h.path_sorted
  rw [hp] at hsorted
  exact (pairwise_cons.mp hsorted).1 q hq

/-- What is left of the path without its end. -/
theorem path_rest (hp : d.path = c :: rest) : (∀ q ∈ rest, q ∈ d.path) ∧
    (∀ w ∈ d.path, w ≠ c → w ∈ rest) ∧ rest.Pairwise (fun a b => d.idx b < d.idx a) ∧
      ∀ pre v rest', rest = pre ++ v :: rest' → d.parent v = rest'.head? := by
  have hparent := fun pre => h.path_parent (c :: pre)
  have hsorted := h.path_sorted
  rw [hp] at hparent hsorted ⊢
  exact ⟨fun q => mem_cons_of_mem c, fun w hw => (mem_cons.mp hw).resolve_left,
    (pairwise_cons.mp hsorted).2, fun pre v rest' hv => hparent pre v rest' (congrArg (c :: ·) hv)⟩

theorem top_mem (hp : d.path = c :: rest) : c ∈ d.stack :=
  h.path_stack c (by rw [hp]; exact mem_cons_self)

/-- The parent of a path point is an older path point. -/
theorem path_parent_lt {v : Fin n} (hx : x ∈ d.path) (hpar : d.parent x = some v) :
    d.idx v < d.idx x := by
  obtain ⟨pre, post, hs⟩ := append_of_mem hx
  have hhead := (h.path_parent pre x post hs).symm.trans hpar
  have hsorted := h.path_sorted
  rw [hs] at hsorted
  exact (pairwise_cons.mp (pairwise_append.mp hsorted).2.1).1 v
    (mem_of_head? hhead)

/-- A younger stack point than the end of the path is off the path. -/
theorem not_mem_path (hp : d.path = c :: rest) {w : Fin n} (hw : d.idx c < d.idx w) :
    w ∉ d.path := by
  rw [hp, mem_cons]
  rintro (rfl | hr)
  · exact lt_irrefl _ hw
  · exact lt_asymm hw (h.path_idx_lt hp hr)

/-- **The stack above the end of the path hangs under it.** -/
theorem under (hp : d.path = c :: rest) : ∀ w ∈ d.stack, d.idx c ≤ d.idx w →
    ReflTransGen (Arc edge) c w ∧ d.low c ≤ d.low w := by
  refine stack_induction fun w hw ih hcw => ?_
  rcases hcw.eq_or_lt with heq | hlt
  · obtain rfl := h.idx_inj (h.top_mem hp) hw heq
    exact ⟨.refl, le_rfl⟩
  · obtain ⟨-, -, p, hpS, hpar, hidx, hlow, hq⟩ := h.tree w hw (h.not_mem_path hp hlt)
    have hcp := hq c (by rw [hp]; exact mem_cons_self) hlt
    obtain ⟨hreach, hle⟩ := ih p hpS hidx hcp
    exact ⟨hreach.tail (h.parent_arc w p hpar), hle.trans hlow⟩

/-- Every stack point is at or above some path point. -/
theorem grounded : ∀ w ∈ d.stack, ∃ q ∈ d.path, d.idx q ≤ d.idx w := by
  refine stack_induction fun w hw ih => ?_
  by_cases hwp : w ∈ d.path
  · exact ⟨w, hwp, le_rfl⟩
  · obtain ⟨-, -, p, hpS, -, hidx, -⟩ := h.tree w hw hwp
    obtain ⟨q, hq, hle⟩ := ih p hpS hidx
    exact ⟨q, hq, hle.trans hidx.le⟩

/-- **A root of a component is reached by the stack above it.** -/
theorem above (hp : d.path = c :: rest) (hroot : d.low c = d.idx c) : ∀ w ∈ d.stack,
    d.idx c ≤ d.idx w → ReflTransGen (Arc edge) w c := by
  refine stack_induction fun w hw ih hcw => ?_
  rcases hcw.eq_or_lt with heq | hlt
  · obtain rfl := h.idx_inj (h.top_mem hp) hw heq
    exact .refl
  · obtain ⟨u, hu, hidx, hreach⟩ := h.low_reach w hw
    have hlow := (h.tree w hw (h.not_mem_path hp hlt)).2.1
    have hle := (h.under hp w hw hcw).2
    exact hreach.trans (ih u hu (by omega) (by omega))

end Facts

/-! ## Scanning -/

/-- The scan of a path point moves past a candidate that needs no more attention. -/
theorem advance (h : d.Inv edge) (hc : c ∈ d.path) (hx : d.next c < n)
    (hdone : edge c ⟨d.next c, hx⟩ → (∃ r, d.comp ⟨d.next c, hx⟩ = some r) ∨
      (⟨d.next c, hx⟩ ∈ d.stack ∧ d.low c ≤ d.idx ⟨d.next c, hx⟩) ∨
      (⟨d.next c, hx⟩ ∈ d.path ∧ d.parent ⟨d.next c, hx⟩ = some c)) : (d.advance c).Inv edge :=
  have hseen := ((h.stack_iff c).mp (h.path_stack c hc)).1
  have hself : (d.advance c).next c = d.next c + 1 := update_self ..
  have hother : ∀ v, v ≠ c → (d.advance c).next v = d.next v := fun v hv => update_of_ne hv ..
  { h with
    tree := fun w hw hwp => by
      obtain ⟨hn, htree⟩ := h.tree w hw hwp
      exact ⟨(hother w fun he => hwp (he ▸ hc)).trans hn, htree⟩
    fresh := fun v hv =>
      ⟨(hother v fun he => hseen (he ▸ hv)).trans (h.fresh v hv).1, (h.fresh v hv).2⟩
    next_le := fun v => by
      rcases eq_or_ne v c with rfl | hvc
      · exact hself.trans_le hx
      · exact (hother v hvc).trans_le (h.next_le v)
    scanned := fun v hv y hy hvy => by
      rcases eq_or_ne v c with rfl | hvc
      · rcases Nat.lt_succ_iff_lt_or_eq.mp (hy.trans_eq hself) with hlt | heq
        · exact h.scanned v hv y hlt hvy
        · obtain rfl : y = ⟨d.next v, hx⟩ := Fin.ext heq
          exact hdone hvy
      · exact h.scanned v hv y (hy.trans_eq (hother v hvc)) hvy }

/-- A path point's mark is lowered to the index of a stack point that it reaches. -/
theorem lower {m : ℕ} (h : d.Inv edge) (hc : c ∈ d.path) (hm : m ≤ d.low c)
    (hreach : ∃ u ∈ d.stack, d.idx u = m ∧ ReflTransGen (Arc edge) c u) : (d.lower c m).Inv edge :=
  have hself : (d.lower c m).low c = m := update_self ..
  have hother : ∀ v, v ≠ c → (d.lower c m).low v = d.low v := fun v hv => update_of_ne hv ..
  have hle : ∀ v, (d.lower c m).low v ≤ d.low v := fun v => by
    rcases eq_or_ne v c with rfl | hv
    · exact hself.trans_le hm
    · exact (hother v hv).le
  { h with
    tree := fun w hw hwp => by
      obtain ⟨hn, hlt, p, hpS, hpar, hidx, hlw, hq⟩ := h.tree w hw hwp
      exact ⟨hn, (hle w).trans_lt hlt, p, hpS, hpar, hidx,
        (hle p).trans (hlw.trans_eq (hother w fun he => hwp (he ▸ hc)).symm), hq⟩
    low_le := fun v hv => (hle v).trans (h.low_le v hv)
    low_reach := fun v hv => by
      rcases eq_or_ne v c with rfl | hvc
      · rwa [hself]
      · rw [hother v hvc]
        exact h.low_reach v hv
    scanned := fun v hv y hy hvy =>
      (h.scanned v hv y hy hvy).imp_right fun hs =>
        hs.imp_left fun hs => ⟨hs.1, (hle v).trans hs.2⟩ }

/-- A new point. -/
theorem discover (h : d.Inv edge) (hx : d.index x = none)
    (harc : ∀ c, d.path.head? = some c → edge c x) : (d.discover x).Inv edge := by
  have hxS : x ∉ d.stack := fun hm => ((h.stack_iff x).mp hm).1 hx
  have hne : ∀ {v}, v ∈ d.stack → v ≠ x := fun hv he => hxS (he ▸ hv)
  have hself : (d.discover x).index x = some d.count := update_self ..
  have hother : ∀ v, v ≠ x → (d.discover x).index v = d.index v := fun v hv => update_of_ne hv ..
  have hix : (d.discover x).idx x = d.count := idx_of_index hself
  have hio : ∀ v, v ∈ d.stack → (d.discover x).idx v = d.idx v := fun v hv =>
    congrArg (Option.getD · 0) (hother v (hne hv))
  have hlx : (d.discover x).low x = d.count := update_self ..
  have hlo : ∀ v, v ∈ d.stack → (d.discover x).low v = d.low v := fun v hv =>
    update_of_ne (hne hv) ..
  have hpx : (d.discover x).parent x = d.path.head? := update_self ..
  have hpo : ∀ v, v ≠ x → (d.discover x).parent v = d.parent v := fun v hv => update_of_ne hv ..
  have hsorted : ∀ l : List (Fin n), (∀ v ∈ l, v ∈ d.stack) →
      l.Pairwise (fun a b => d.idx b < d.idx a) →
      (x :: l).Pairwise fun a b => (d.discover x).idx b < (d.discover x).idx a := by
    intro l hl hs
    refine pairwise_cons.mpr ⟨fun v hv => ?_, hs.imp_of_mem fun {a b} ha hb hab => ?_⟩
    · rw [hix, hio v (hl v hv)]
      exact h.idx_lt v (hl v hv)
    · rwa [hio a (hl a ha), hio b (hl b hb)]
  refine
    { h with
      idx_lt := fun v hv => ?_, stack_iff := fun v => ?_,
      stack_sorted := hsorted _ (fun _ hv => hv) h.stack_sorted, path_stack := fun v hv => ?_,
      path_sorted := hsorted _ h.path_stack h.path_sorted, path_parent := fun pre c rest hp => ?_,
      parent_arc := fun v p hv => ?_, tree := fun w hw hwp => ?_, low_le := fun v hv => ?_,
      low_reach := fun v hv => ?_, fresh := fun v hv => ?_, scanned := fun v hv y hy hvy => ?_ }
  · rcases mem_cons.mp hv with rfl | hv
    · exact hix.trans_lt (Nat.lt_succ_self _)
    · exact (hio v hv).trans_lt ((h.idx_lt v hv).trans (Nat.lt_succ_self _))
  · rcases eq_or_ne v x with rfl | hvx
    · rw [hself]
      exact iff_of_true mem_cons_self ⟨Option.some_ne_none _, (h.fresh v hx).2⟩
    · rw [hother v hvx, Dfs.discover, mem_cons, or_iff_right hvx]
      exact h.stack_iff v
  · exact mem_cons.mpr ((mem_cons.mp hv).imp_right (h.path_stack v))
  · cases pre with
    | nil =>
      obtain ⟨rfl, rfl⟩ := cons.inj hp
      exact hpx
    | cons y pre =>
      have hp := (cons.inj hp).2
      have hc : c ∈ d.path := by rw [hp]; exact mem_append_right _ mem_cons_self
      rw [hpo c (hne (h.path_stack c hc))]
      exact h.path_parent pre c rest hp
  · rcases eq_or_ne v x with rfl | hvx
    · exact harc p (hpx.symm.trans hv)
    · exact h.parent_arc v p ((hpo v hvx).symm.trans hv)
  · have hwx : w ≠ x := fun he => hwp (he ▸ mem_cons_self)
    have hwS : w ∈ d.stack := (mem_cons.mp hw).resolve_left hwx
    obtain ⟨hn, hlt, p, hpS, hpar, hidx, hlow, hq⟩ :=
      h.tree w hwS fun hm => hwp (mem_cons_of_mem _ hm)
    refine ⟨hn, ?_, p, mem_cons_of_mem _ hpS, (hpo w hwx).trans hpar, ?_, ?_, fun q hqP hqw => ?_⟩
    · rwa [hlo w hwS, hio w hwS]
    · rwa [hio p hpS, hio w hwS]
    · rwa [hlo p hpS, hlo w hwS]
    · rw [hio w hwS] at hqw
      rw [hio p hpS]
      rcases mem_cons.mp hqP with rfl | hqP
      · exact absurd (hix ▸ hqw) (h.idx_lt w hwS).not_gt
      · rw [hio q (h.path_stack q hqP)] at hqw ⊢
        exact hq q hqP hqw
  · rcases mem_cons.mp hv with rfl | hv
    · rw [hlx, hix]
    · rw [hlo v hv, hio v hv]
      exact h.low_le v hv
  · rcases mem_cons.mp hv with rfl | hv
    · exact ⟨v, mem_cons_self, hix.trans hlx.symm, .refl⟩
    · obtain ⟨u, hu, hidx, hreach⟩ := h.low_reach v hv
      exact ⟨u, mem_cons_of_mem _ hu, by rw [hio u hu, hlo v hv, hidx], hreach⟩
  · have hvx : v ≠ x := fun he => by
      rw [he, hself] at hv
      exact Option.some_ne_none _ hv
    exact h.fresh v ((hother v hvx).symm.trans hv)
  · rcases mem_cons.mp hv with rfl | hv
    · exact absurd (hy.trans_eq (h.fresh v hx).1) (Nat.not_lt_zero _)
    · rcases h.scanned v hv y hy hvy with hcomp | ⟨hyS, hle⟩ | ⟨hyP, hpar⟩
      · exact .inl hcomp
      · refine .inr (.inl ⟨mem_cons_of_mem _ hyS, ?_⟩)
        rwa [hlo v hv, hio y hyS]
      · exact .inr (.inr ⟨mem_cons_of_mem _ hyP, (hpo y (hne (h.path_stack y hyP))).trans hpar⟩)

end Inv

/-! ## Finishing -/

/-- The parent's mark becomes the smaller one. -/
theorem handUp_eq (d : Dfs n) (c p : Fin n) :
    d.handUp c (some p) = d.lower p (min (d.low c) (d.low p)) := by
  rw [handUp]
  split_ifs with hlt
  · rw [min_eq_left hlt.le]
  · rw [min_eq_right (Nat.not_lt.mp hlt), Dfs.lower, update_eq_self]

namespace Inv

/-- The end of the path leaves it, if its mark is older and not below its parent's. -/
theorem leave {p : Fin n} (h : d.Inv edge) (hp : d.path = c :: p :: rest) (hx : d.next c = n)
    (hlt : d.low c < d.idx c) (hle : d.low p ≤ d.low c) :
    { d with path := p :: rest }.Inv edge := by
  obtain ⟨hrest, hpath, hsorted, hparent⟩ := h.path_rest hp
  have hpar : d.parent c = some p := h.path_parent [] c (p :: rest) hp
  refine
    { h with
      path_stack := fun v hv => h.path_stack v (hrest v hv)
      path_sorted := hsorted
      path_parent := hparent
      tree := fun w hw hwp => ?_
      scanned := fun v hv y hy hvy => ?_ }
  · rcases eq_or_ne w c with rfl | hwc
    · refine ⟨hx, hlt, p, h.path_stack p (hrest p mem_cons_self), hpar,
        h.path_idx_lt hp mem_cons_self, hle, fun q hq _ => ?_⟩
      rcases mem_cons.mp hq with rfl | hq
      · exact le_rfl
      · exact ((pairwise_cons.mp hsorted).1 q hq).le
    · obtain ⟨hn, hlow, q, hqS, hqar, hidx, hle, hq⟩ := h.tree w hw fun hm => hwp (hpath w hm hwc)
      exact ⟨hn, hlow, q, hqS, hqar, hidx, hle, fun q' hq' => hq q' (hrest q' hq')⟩
  · refine (h.scanned v hv y hy hvy).imp_right (Or.rec .inl fun ⟨hyP, hyar⟩ => ?_)
    rcases eq_or_ne y c with rfl | hyc
    · cases hpar.symm.trans hyar
      exact .inl ⟨h.top_mem hp, hle.trans hlt.le⟩
    · exact .inr ⟨hpath y hyP hyc, hyar⟩

variable (h : d.Inv edge)
include h

/-- A point that is not the root of its component leaves the path and hands its mark up. -/
theorem retire (hp : d.path = c :: rest) (hx : d.next c = n)
    (hroot : d.low c ≠ d.idx c) : { d.handUp c rest.head? with path := rest }.Inv edge := by
  have hcS := h.top_mem hp
  have hlt : d.low c < d.idx c := lt_of_le_of_ne (h.low_le c hcS) hroot
  obtain ⟨u, hu, hidx, hreach⟩ := h.low_reach c hcS
  cases rest with
  | nil =>
    -- the bottom of the path is the oldest point of the stack
    obtain ⟨q, hq, hle⟩ := h.grounded u hu
    rw [hp, mem_singleton] at hq
    subst hq
    omega
  | cons p rest =>
    rw [head?_cons, handUp_eq]
    have hpP : p ∈ d.path := by rw [hp]; simp
    have hne : c ≠ p := fun he => lt_irrefl _ (he ▸ h.path_idx_lt hp mem_cons_self)
    have hself : (d.lower p (min (d.low c) (d.low p))).low p = min (d.low c) (d.low p) :=
      update_self ..
    have hother : (d.lower p (min (d.low c) (d.low p))).low c = d.low c := update_of_ne hne ..
    refine (h.lower hpP (min_le_right ..) ?_).leave hp hx (hother.trans_lt hlt)
      ((hself.trans_le (min_le_left ..)).trans_eq hother.symm)
    rcases min_choice (d.low c) (d.low p) with hmin | hmin
    · -- the mark handed up is reached through the arc to the child
      have hpar : d.parent c = some p := h.path_parent [] c (p :: rest) hp
      exact ⟨u, hu, hidx.trans hmin.symm, .head (h.parent_arc c p hpar) hreach⟩
    · rw [hmin]
      exact h.low_reach p (h.path_stack p hpP)

theorem stack_nodup : d.stack.Nodup := by
  refine List.Pairwise.imp ?_ h.stack_sorted
  rintro a _ hlt rfl
  exact lt_irrefl _ hlt

/-- The stack around a point of it: the younger points are above, the older ones below. -/
theorem stack_split (hc : c ∈ d.stack) :
    (∀ v, v ∈ d.stack.takeWhile (· ≠ c) ↔ v ∈ d.stack ∧ d.idx c < d.idx v) ∧
      (∀ v, v ∈ (d.stack.dropWhile (· ≠ c)).tail ↔ v ∈ d.stack ∧ d.idx v < d.idx c) ∧
      (d.stack.dropWhile (· ≠ c)).tail.Sublist d.stack := by
  obtain ⟨pre, post, hs, htake, hdrop⟩ := cut_at_mem hc
  have hsorted := h.stack_sorted
  rw [hs] at hsorted
  obtain ⟨-, hpost, habove⟩ := pairwise_append.mp hsorted
  have hbelow := (pairwise_cons.mp hpost).1
  rw [htake, hdrop, hs]
  refine ⟨fun v => ?_, fun v => ?_, ?_⟩
  · refine ⟨fun hv => ⟨mem_append_left _ hv, habove v hv c mem_cons_self⟩, ?_⟩
    rintro ⟨hv, hlt⟩
    rw [mem_append, mem_cons] at hv
    rcases hv with hv | rfl | hv
    · exact hv
    · exact absurd hlt (lt_irrefl _)
    · exact absurd hlt (hbelow v hv).not_gt
  · refine ⟨fun hv => ⟨mem_append_right _ (mem_cons_of_mem _ hv), hbelow v hv⟩, ?_⟩
    rintro ⟨hv, hlt⟩
    rw [mem_append, mem_cons] at hv
    rcases hv with hv | rfl | hv
    · exact absurd hlt (habove v hv c mem_cons_self).not_gt
    · exact absurd hlt (lt_irrefl _)
    · exact hv
  · exact ((sublist_cons_self c post).trans (sublist_append_right pre _))

/-- The points that close now. -/
theorem comp_close (hc : c ∈ d.stack) (v : Fin n) : (d.close c).comp v =
    if v ∈ d.stack ∧ d.idx c ≤ d.idx v then some c else d.comp v := by
  refine if_congr ?_ rfl rfl
  rw [(h.stack_split hc).1]
  constructor
  · rintro (rfl | ⟨hv, hlt⟩)
    · exact ⟨hc, le_rfl⟩
    · exact ⟨hv, hlt.le⟩
  · rintro ⟨hv, hle⟩
    exact hle.eq_or_lt.imp (fun he => (h.idx_inj hc hv he).symm) fun hlt => ⟨hv, hlt⟩

theorem comp_close_eq_some (hc : c ∈ d.stack) (v r : Fin n) :
    (d.close c).comp v = some r ↔
      (v ∈ d.stack ∧ d.idx c ≤ d.idx v ∧ r = c) ∨ d.comp v = some r := by
  rw [h.comp_close hc]
  split_ifs with hnow
  · simp [hnow, ((h.stack_iff v).mp hnow.1).2, eq_comm]
  · exact (or_iff_right fun hx => hnow ⟨hx.1, hx.2.1⟩).symm

/-- **The stack from a root up has arcs into itself and closed points only.** -/
theorem close_closed (hp : d.path = c :: rest) (hx : d.next c = n)
    (hroot : d.low c = d.idx c) (v y : Fin n) (hv : ∃ r, (d.close c).comp v = some r)
    (hvy : edge v y) : ∃ r, (d.close c).comp y = some r := by
  have hcS := h.top_mem hp
  simp only [h.comp_close_eq_some hcS] at hv ⊢
  obtain ⟨r, ⟨hvS, hle, -⟩ | hold⟩ := hv
  · have hfull : d.next v = n := by
      rcases hle.eq_or_lt with he | hlt
      · rwa [← h.idx_inj hcS hvS he]
      · exact (h.tree v hvS (h.not_mem_path hp hlt)).1
    rcases h.scanned v hvS y (y.isLt.trans_eq hfull.symm) hvy with hy | ⟨hyS, hlow⟩ | ⟨hyP, hpar⟩
    · exact hy.imp fun _ => .inr
    · have hle := (h.under hp v hvS hle).2
      exact ⟨c, .inl ⟨hyS, by omega, rfl⟩⟩
    · exact absurd hyP (h.not_mem_path hp (hle.trans_lt (h.path_parent_lt hyP hpar)))
  · exact (h.closed v y ⟨r, hold⟩ hvy).imp fun _ => .inr

/-- **A root closes its component**, whole. -/
theorem close (hp : d.path = c :: rest) (hx : d.next c = n)
    (hroot : d.low c = d.idx c) : { d.close c with path := rest }.Inv edge := by
  have hcS := h.top_mem hp
  obtain ⟨-, hdown, hsub⟩ := h.stack_split hcS
  have hcnone : d.comp c = none := ((h.stack_iff c).mp hcS).2
  obtain ⟨hrest, hpath, hsorted, hparent⟩ := h.path_rest hp
  have hclosed := h.close_closed hp hx hroot
  have hcomp := h.comp_close_eq_some hcS
  refine
    { h with
      stack_iff := fun v => ?_
      stack_sorted := h.stack_sorted.sublist hsub
      path_stack := fun v hv => (hdown v).mpr ⟨h.path_stack v (hrest v hv), h.path_idx_lt hp hv⟩
      path_sorted := hsorted
      path_parent := hparent
      idx_lt := fun v hv => h.idx_lt v ((hdown v).mp hv).1
      tree := fun w hw hwp => ?_
      low_le := fun v hv => h.low_le v ((hdown v).mp hv).1
      low_reach := fun v hv => ?_
      fresh := fun v hv => ⟨(h.fresh v hv).1, ?_⟩
      scanned := fun v hv y hy hvy => ?_
      closed := hclosed
      root := fun v r hv => ?_
      whole := fun v r x hv hvx => ?_
      order_iff := fun r => ?_
      order_nodup := nodup_cons.mpr
        ⟨fun hm => Option.some_ne_none c (((h.order_iff c).mp hm).symm.trans hcnone), h.order_nodup⟩
      topo := ⟨fun v x hv hvx => ?_, h.topo.congr edge fun r hr v => ?_⟩ }
  · refine (hdown v).trans ⟨fun hv => ?_, fun hv => ?_⟩
    · refine ⟨((h.stack_iff v).mp hv.1).1, ?_⟩
      rw [h.comp_close hcS, if_neg fun hle => hv.2.not_ge hle.2]
      exact ((h.stack_iff v).mp hv.1).2
    · have hnone : (d.close c).comp v = none := hv.2
      rw [h.comp_close hcS] at hnone
      split_ifs at hnone with hnow
      have hvS := (h.stack_iff v).mpr ⟨hv.1, hnone⟩
      exact ⟨hvS, Nat.not_le.mp fun hle => hnow ⟨hvS, hle⟩⟩
  · obtain ⟨hwS, hwc⟩ := (hdown w).mp hw
    obtain ⟨hn, hlt, p, hpS, hpar, hidx, hlow, hq⟩ := h.tree w hwS fun hm =>
      hwp (hpath w hm fun he => lt_irrefl _ (he ▸ hwc))
    exact ⟨hn, hlt, p, (hdown p).mpr ⟨hpS, hidx.trans hwc⟩, hpar, hidx, hlow,
      fun q hq' => hq q (hrest q hq')⟩
  · obtain ⟨hvS, hvc⟩ := (hdown v).mp hv
    obtain ⟨u, hu, hidx, hreach⟩ := h.low_reach v hvS
    have hle := h.low_le v hvS
    exact ⟨u, (hdown u).mpr ⟨hu, by omega⟩, hidx, hreach⟩
  · refine (h.comp_close hcS v).trans ((if_neg fun hvS => ?_).trans (h.fresh v hv).2)
    exact ((h.stack_iff v).mp hvS.1).1 hv
  · obtain ⟨hvS, hvc⟩ := (hdown v).mp hv
    rcases h.scanned v hvS y hy hvy with ⟨r, hy⟩ | ⟨hyS, hlow⟩ | ⟨hyP, hpar⟩
    · exact .inl ⟨r, (hcomp y r).mpr (.inr hy)⟩
    · by_cases hyc : d.idx c ≤ d.idx y
      · exact .inl ⟨c, (hcomp y c).mpr (.inl ⟨hyS, hyc, rfl⟩)⟩
      · exact .inr (.inl ⟨(hdown y).mpr ⟨hyS, Nat.not_le.mp hyc⟩, hlow⟩)
    · rcases eq_or_ne y c with rfl | hyc
      · exact .inl ⟨y, (hcomp y y).mpr (.inl ⟨hcS, le_rfl, rfl⟩)⟩
      · exact .inr (.inr ⟨hpath y hyP hyc, hpar⟩)
  · rcases (hcomp v r).mp hv with ⟨hvS, hle, rfl⟩ | hold
    · exact ⟨(hcomp r r).mpr (.inl ⟨hcS, le_rfl, rfl⟩), h.above hp hroot v hvS hle,
        (h.under hp v hvS hle).1⟩
    · exact ⟨(hcomp r r).mpr (.inr (h.root v r hold).1), (h.root v r hold).2⟩
  · rcases (hcomp v r).mp hv with ⟨hvS, hle, rfl⟩ | hold
    · -- an older component that met this one would have reached it before
      obtain ⟨s, hs⟩ := ReflTransGen.closed hclosed hvx.1 ⟨r, hv⟩
      rcases (hcomp x s).mp hs with ⟨-, -, rfl⟩ | hxold
      · exact hs
      · obtain ⟨s', hvold⟩ := ReflTransGen.closed h.closed hvx.2 ⟨s, hxold⟩
        exact nomatch hvold.symm.trans ((h.stack_iff v).mp hvS).2
    · exact (hcomp x r).mpr (.inr (h.whole v r x hold hvx))
  · refine mem_cons.trans (Iff.trans (or_congr ?_ (h.order_iff r)) (hcomp r r).symm)
    exact ⟨fun he => ⟨he ▸ hcS, he ▸ le_rfl, he⟩, fun hnow => hnow.2.2⟩
  · obtain ⟨s, hs⟩ := hclosed v x ⟨c, hv⟩ hvx
    rcases (hcomp x s).mp hs with ⟨-, -, rfl⟩ | hold
    · exact .inl hs
    · exact .inr ⟨s, (h.order_iff s).mpr (h.root x s hold).1, hs⟩
  · refine (hcomp v r).trans (or_iff_right fun hnow => ?_)
    exact Option.some_ne_none r (((h.order_iff r).mp hr).symm.trans (hnow.2.2 ▸ hcnone))

/-- One candidate scanned. -/
theorem scan (hp : d.path = c :: rest) (hx : d.next c < n) :
    ((d.scan edge c ⟨d.next c, hx⟩).advance c).Inv edge := by
  have hcP : c ∈ d.path := by rw [hp]; exact mem_cons_self
  rw [Dfs.scan]
  split_ifs with hedge
  · cases hi : d.index ⟨d.next c, hx⟩ with
    | none =>
      have hhead : d.path.head? = some c := by rw [hp, head?_cons]
      refine (h.discover hi fun c' hc' => ?_).advance (mem_cons_of_mem _ hcP) hx
        fun _ => .inr (.inr ⟨mem_cons_self, ?_⟩)
      · exact Option.some.inj (hc'.symm.trans hhead) ▸ hedge
      · exact (update_self ..).trans hhead
    | some i =>
      have hidx := idx_of_index hi
      have hseen : d.index ⟨d.next c, hx⟩ ≠ none := hi.trans_ne (Option.some_ne_none i)
      dsimp only
      split_ifs with hlow
      · have hxS := (h.stack_iff _).mpr ⟨hseen, hlow.1⟩
        rw [← hidx] at hlow ⊢
        exact (h.lower hcP hlow.2.le ⟨_, hxS, rfl, .single hedge⟩).advance hcP hx
          fun _ => .inr (.inl ⟨hxS, (update_self ..).le⟩)
      · refine h.advance hcP hx fun _ => ?_
        by_cases hcomp : d.comp ⟨d.next c, hx⟩ = none
        · refine .inr (.inl ⟨(h.stack_iff _).mpr ⟨hseen, hcomp⟩, ?_⟩)
          rw [hidx]
          exact Nat.not_lt.mp fun hlt => hlow ⟨hcomp, hlt⟩
        · exact .inl (Option.ne_none_iff_exists'.mp hcomp)
  · exact h.advance hcP hx fun hedge' => absurd hedge' hedge

theorem finish (hp : d.path = c :: rest) (hx : d.next c = n) : (d.finish c rest).Inv edge := by
  have hcS := h.top_mem hp
  rw [Dfs.finish]
  split_ifs with hroot
  · have hroot : d.low c = d.idx c := (idx_of_index hroot).symm
    -- the mark of a root is above its parent's
    have hkeep : (d.close c).handUp c rest.head? = d.close c := by
      cases rest with
      | nil => rfl
      | cons p rest =>
        refine if_neg (Nat.not_lt.mpr ?_)
        have hlt := h.path_idx_lt hp mem_cons_self
        have hle := h.low_le p (h.path_stack p (by rw [hp]; simp))
        exact (hle.trans hlt.le).trans_eq hroot.symm
    rw [hkeep]
    exact h.close hp hx hroot
  · refine h.retire hp hx fun he => hroot ?_
    rw [he]
    exact h.index_of_mem hcS

/-- **One visit keeps the invariant.** -/
theorem visit : (d.visit edge).Inv edge := by
  cases hp : d.path with
  | nil => rwa [visit_nil edge hp]
  | cons c rest =>
    by_cases hx : d.next c < n
    · rw [visit_scan edge hp hx]
      exact h.scan hp hx
    · rw [visit_finish edge hp hx]
      exact h.finish hp (le_antisymm (h.next_le c) (Nat.not_lt.mp hx))

end Inv

/-! ## The whole search -/

/-- What a visit consumes: twice the candidates left, and the path. -/
def budget (d : Dfs n) : ℕ := 2 * ∑ v, (n - d.next v) + d.path.length

theorem budget_advance (d : Dfs n) (hx : d.next c < n) : (d.advance c).budget + 2 ≤ d.budget := by
  have hlt : ∑ v, (n - (d.advance c).next v) < ∑ v, (n - d.next v) := by
    have hself : (d.advance c).next c = d.next c + 1 := update_self ..
    refine Finset.sum_lt_sum (fun v _ => ?_) ⟨c, Finset.mem_univ c, by omega⟩
    rcases eq_or_ne v c with rfl | hv
    · omega
    · exact (congrArg (n - ·) (update_of_ne hv ..)).le
  have hpath : (d.advance c).path = d.path := rfl
  rw [budget, budget, hpath]
  omega

variable (edge)

section

variable (d : Dfs n)

/-- What scanning a candidate can do. -/
theorem scan_cases (c x : Fin n) : d.scan edge c x = d ∨
    (∃ i, d.scan edge c x = d.lower c i) ∨ d.scan edge c x = d.discover x := by
  rw [scan]
  split_ifs
  · cases d.index x with
    | none => exact .inr (.inr rfl)
    | some i =>
      dsimp only
      split_ifs
      · exact .inr (.inl ⟨i, rfl⟩)
      · exact .inl rfl
  · exact .inl rfl

theorem budget_scan_le (c x : Fin n) : (d.scan edge c x).budget ≤ d.budget + 1 := by
  rcases scan_cases edge d c x with h | ⟨i, h⟩ | h <;> rw [h]
  · exact Nat.le_succ _
  · exact Nat.le_succ _
  · exact le_rfl

theorem next_scan (c x : Fin n) : (d.scan edge c x).next = d.next := by
  rcases scan_cases edge d c x with h | ⟨i, h⟩ | h <;> rw [h] <;> rfl

theorem next_handUp (c : Fin n) (p : Option (Fin n)) : (d.handUp c p).next = d.next := by
  cases p with
  | none => rfl
  | some p =>
    rw [handUp_eq]
    rfl

theorem budget_finish (hp : d.path = c :: rest) : (d.finish c rest).budget < d.budget := by
  have hnext : (d.finish c rest).next = d.next := by
    refine (next_handUp ..).trans ?_
    split_ifs <;> rfl
  have hpath : (d.finish c rest).path = rest := rfl
  rw [budget, budget, hnext, hpath, hp, length_cons]
  omega

/-- **Every visit consumes.** -/
theorem budget_visit (hp : d.path ≠ []) : (d.visit edge).budget < d.budget := by
  cases hp' : d.path with
  | nil => exact absurd hp' hp
  | cons c rest =>
    by_cases hx : d.next c < n
    · have hscan := budget_scan_le edge d c ⟨d.next c, hx⟩
      have hadv := (d.scan edge c ⟨d.next c, hx⟩).budget_advance (c := c) (by rwa [next_scan])
      rw [visit_scan edge hp' hx]
      omega
    · rw [visit_finish edge hp' hx]
      exact d.budget_finish hp'

end

/-- A number of visits. -/
def visits : ℕ → Dfs n → Dfs n
  | 0, d => d
  | k + 1, d => visits k (d.visit edge)

theorem visits_nil (hp : d.path = []) : ∀ k, visits edge k d = d
  | 0 => rfl
  | k + 1 => by rw [visits, visit_nil edge hp, visits_nil hp k]

/-- Enough visits empty the path. -/
theorem path_visits : ∀ (k : ℕ) (d : Dfs n), d.budget ≤ k → (visits edge k d).path = []
  | 0, d, hk => by
    rw [budget] at hk
    exact length_eq_zero_iff.mp (by rw [visits]; omega)
  | k + 1, d, hk => by
    by_cases hp : d.path = []
    · rwa [visits_nil edge hp]
    · exact path_visits k _ (by have := budget_visit edge d hp; omega)

theorem Inv.visits : ∀ (k : ℕ) {d : Dfs n}, d.Inv edge → (visits edge k d).Inv edge
  | 0, _, h => h
  | k + 1, _, h => Inv.visits k h.visit

/-- A point once seen stays seen. -/
def Sees (d d' : Dfs n) : Prop := ∀ v, d.index v ≠ none → d'.index v ≠ none

theorem Sees.trans {d d' d'' : Dfs n} (h : Sees d d') (h' : Sees d' d'') : Sees d d'' :=
  fun v hv => h' v (h v hv)

theorem Sees.of_eq {d d' : Dfs n} (h : d'.index = d.index) : Sees d d' := fun v hv => by rwa [h]

theorem sees_discover (d : Dfs n) (x : Fin n) : Sees d (d.discover x) := fun v hv => by
  rcases eq_or_ne v x with rfl | hvx
  · exact (update_self ..).trans_ne (Option.some_ne_none _)
  · exact (update_of_ne hvx ..).trans_ne hv

theorem sees_scan (d : Dfs n) (c x : Fin n) : Sees d (d.scan edge c x) := by
  rcases scan_cases edge d c x with h | ⟨i, h⟩ | h <;> rw [h]
  · exact .of_eq rfl
  · exact .of_eq rfl
  · exact sees_discover d x

theorem sees_visit (d : Dfs n) : Sees d (d.visit edge) := by
  cases hp : d.path with
  | nil => exact .of_eq (by rw [visit_nil edge hp])
  | cons c rest =>
    by_cases hx : d.next c < n
    · rw [visit_scan edge hp hx]
      exact (sees_scan edge d c _).trans (.of_eq rfl)
    · rw [visit_finish edge hp hx]
      refine .of_eq ?_
      cases hr : rest.head? with
      | none =>
        rw [finish, hr]
        split_ifs <;> rfl
      | some p =>
        rw [finish, hr, handUp_eq]
        split_ifs <;> rfl

theorem sees_visits : ∀ (k : ℕ) (d : Dfs n), Sees d (visits edge k d)
  | 0, _ => .of_eq rfl
  | k + 1, d => (sees_visit edge d).trans (sees_visits k _)

/-- The search from one root, unless it was met before. -/
def searchFrom (d : Dfs n) (root : Fin n) : Dfs n :=
  if d.index root = none then visits edge (2 * (n * n) + 1) (d.discover root) else d

/-- The search before its first root. -/
def start (low : ℕ) : Dfs n where
  count := 0
  index _ := none
  low _ := low
  next _ := 0
  parent _ := none
  comp _ := none
  stack := []
  path := []
  order := []

/-- The search from every root in turn. -/
def search (low : ℕ) : Dfs n := (finRange n).foldl (searchFrom edge) (start low)

theorem inv_start (low : ℕ) : (start (n := n) low).Inv edge where
  idx_lt := nofun
  stack_iff v := ⟨nofun, fun h => absurd rfl h.1⟩
  stack_sorted := .nil
  path_stack := nofun
  path_sorted := .nil
  path_parent pre c rest h := absurd h (by simp [start])
  parent_arc := nofun
  tree := nofun
  low_le := nofun
  low_reach := nofun
  fresh _ _ := ⟨rfl, rfl⟩
  next_le _ := Nat.zero_le n
  scanned := nofun
  closed := nofun
  root := nofun
  whole := nofun
  order_iff r := ⟨nofun, nofun⟩
  order_nodup := .nil
  topo := trivial

/-- The search from one root ends with an empty path, having seen the root. -/
theorem searchFrom_spec {d : Dfs n} (h : d.Inv edge) (hp : d.path = []) (root : Fin n) :
    (searchFrom edge d root).Inv edge ∧ (searchFrom edge d root).path = [] ∧
      Sees d (searchFrom edge d root) ∧ (searchFrom edge d root).index root ≠ none := by
  rw [searchFrom]
  split_ifs with hroot
  · have hseen : (d.discover root).index root ≠ none :=
      (update_self ..).trans_ne (Option.some_ne_none _)
    refine ⟨(h.discover hroot (by simp [hp])).visits edge _, path_visits edge _ _ ?_,
      (sees_discover d root).trans (sees_visits edge _ _), sees_visits edge _ _ root hseen⟩
    have hsum : ∑ v, (n - (d.discover root).next v) ≤ n * n := by
      refine (Finset.sum_le_card_nsmul _ _ n fun v _ => Nat.sub_le ..).trans_eq ?_
      rw [Finset.card_univ, Fintype.card_fin, smul_eq_mul]
    have hlen : (d.discover root).path.length = 1 := by rw [discover, hp, length_singleton]
    rw [budget]
    omega
  · exact ⟨h, hp, .of_eq rfl, hroot⟩

theorem foldl_searchFrom (l : List (Fin n)) : ∀ {d : Dfs n}, d.Inv edge → d.path = [] →
    (l.foldl (searchFrom edge) d).Inv edge ∧ (l.foldl (searchFrom edge) d).path = [] ∧
      Sees d (l.foldl (searchFrom edge) d) ∧
      ∀ v ∈ l, (l.foldl (searchFrom edge) d).index v ≠ none := by
  induction l with
  | nil => exact fun h hp => ⟨h, hp, .of_eq rfl, nofun⟩
  | cons root l ih =>
    intro d h hp
    obtain ⟨h1, hp1, hs1, hroot⟩ := searchFrom_spec edge h hp root
    obtain ⟨h2, hp2, hs2, hl⟩ := ih h1 hp1
    refine ⟨h2, hp2, hs1.trans hs2, fun v hv => ?_⟩
    rcases mem_cons.mp hv with rfl | hv
    · exact hs2 v hroot
    · exact hl v hv

/-- **The search ends with every point in a component.** -/
theorem search_complete (low : ℕ) :
    (search edge low).Inv edge ∧ ∀ v, (search edge low).comp v ≠ none := by
  obtain ⟨h, hp, -, hall⟩ := foldl_searchFrom edge (finRange n) (inv_start edge low) rfl
  refine ⟨h, fun v hv => ?_⟩
  have hmem := (h.stack_iff v).mpr ⟨hall v (mem_finRange v), hv⟩
  obtain ⟨q, hq, -⟩ := h.grounded v hmem
  rw [hp] at hq
  cases hq

end Dfs

end MoqRelay
