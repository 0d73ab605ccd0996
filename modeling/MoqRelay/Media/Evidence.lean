import Mathlib.Data.List.DropRight
import MoqRelay.Lib.Machine

/-!
# Media/Evidence — the evidence that delivery got past a gap

`note_evidence` and `gap_evidence` of `playback.c`.  Stream facts come with times that do not fall,
so a fact that no entry dominates reaches further than all of them, and the table is a staircase: it
grows at its end (`noteEvidence_cases`).  What its bound costs is the exact time only
(`evidence_run`).
-/

namespace MoqRelay.Playback

open List

/-- `pb_evidence_t`: how far a fact reaches, in the order of `pb_loc_cmp`, and when it came. -/
structure Evidence where
  reach : ℕ ×ₗ ℕ
  us : ℕ

/-- The loop for the entry that gives way: the least step to the successor's time, and its index. -/
def leastStep (t : List Evidence) : ℕ × ℕ :=
  ((t.zip t.tail).zipIdx).foldl
    (fun (best, drop) ((e, e'), i) =>
      if u64Sub e'.us e.us < best then (u64Sub e'.us e.us, i) else (best, drop))
    (u64Max, 0)

/-- The index that gives way to a fact, which may be the successor of the last entry. -/
def evicted (t : List Evidence) (f : Evidence) : ℕ :=
  match t.getLast? with
  | none => (leastStep t).2
  | some e =>
    if (t.length = 1 ∨ e.reach < f.reach) ∧ (t.length = 1 ∨ u64Sub f.us e.us < (leastStep t).1) then
      t.length - 1
    else (leastStep t).2

/-- With the bound reached, an entry gives way. -/
def roomFor (bound : ℕ) (t : List Evidence) (f : Evidence) : List Evidence :=
  if t.length = bound then t.eraseIdx (evicted t f) else t

/-- The loop that moves the entries reaching further up by one, and writes into the gap. -/
def insertFact (t : List Evidence) (f : Evidence) : List Evidence :=
  t.rdropWhile (fun e => f.reach < e.reach) ++ f :: t.rtakeWhile fun e => f.reach < e.reach

/-- `note_evidence`, with the cursor at `next`; whether the bound was hit comes with it. -/
def noteEvidence (bound : ℕ) (next : ℕ ×ₗ ℕ) (t : List Evidence) (f : Evidence) :
    Bool × List Evidence :=
  let t := t.filter fun e => ¬ e.reach < next
  if f.reach < next then (false, t)
  else if t.any fun e => f.reach ≤ e.reach ∧ e.us ≤ f.us then (false, t)
  else
    let t := t.filter fun e => ¬ (e.reach ≤ f.reach ∧ f.us ≤ e.us)
    (t.length = bound, insertFact (roomFor bound t f) f)

/-- `gap_evidence`: the earliest of the track's objects buffered past the cursor, and of the first
entry that reaches it. -/
def gapEvidence (next : ℕ ×ₗ ℕ) (objects t : List Evidence) : Option ℕ :=
  let best := (objects.filter fun o => next < o.reach).foldl
    (fun b o => if b.all (o.us < ·) then some o.us else b) none
  match t.find? fun e => ¬ e.reach < next with
  | none => best
  | some e => if best.all (e.us < ·) then some e.us else best

/-- A fact noted with the cursor at its time, and whether the bound was hit by then. -/
def noteStep (bound : ℕ) (s : Bool × List Evidence) (c : (ℕ ×ₗ ℕ) × Evidence) :
    Bool × List Evidence :=
  ((s.1 || (noteEvidence bound c.1 s.2 c.2).1), (noteEvidence bound c.1 s.2 c.2).2)

/-- The table after some facts. -/
def noteAll (bound : ℕ) (calls : List ((ℕ ×ₗ ℕ) × Evidence)) : Bool × List Evidence :=
  calls.foldl (noteStep bound) (false, [])

variable {bound : ℕ} {next : ℕ ×ₗ ℕ} {t : List Evidence} {f : Evidence}

theorem insertFact_eq (h : ∀ e ∈ t, e.reach < f.reach) : insertFact t f = t ++ [f] := by
  have hlast : ∀ hne : t ≠ [], ¬ decide (f.reach < (t.getLast hne).reach) := fun hne =>
    by simpa using (h _ (getLast_mem hne)).le
  rw [insertFact, rdropWhile_eq_self_iff.mpr hlast, rtakeWhile_eq_nil_iff.mpr hlast]

/-- **A fact no earlier than the table**: it adds nothing, or it goes to the end of what is below
it. -/
theorem noteEvidence_cases (hus : ∀ e ∈ t, e.us ≤ f.us) :
    (noteEvidence bound next t f = (false, t.filter fun e => ¬ e.reach < next) ∧
      (next ≤ f.reach → ∃ e ∈ t, f.reach ≤ e.reach ∧ e.us ≤ f.us)) ∨
    (∀ e ∈ t, next ≤ e.reach → e.reach < f.reach) ∧ ∃ kept, kept.Sublist t ∧
      (∀ e ∈ kept, e.reach < f.reach ∧ e.us < f.us) ∧
      (noteEvidence bound next t f).2 = kept ++ [f] ∧
      ((noteEvidence bound next t f).1 = false →
        ∀ e ∈ t, next ≤ e.reach → e.us < f.us → e ∈ kept) := by
  rw [noteEvidence]
  split_ifs with hbehind hdom
  · exact .inl ⟨rfl, fun hle => absurd hbehind hle.not_gt⟩
  · obtain ⟨e, he, hdom⟩ := any_eq_true.mp hdom
    exact .inl ⟨rfl, fun _ => ⟨e, mem_of_mem_filter he, of_decide_eq_true hdom⟩⟩
  · have hbelow : ∀ e ∈ t, next ≤ e.reach → e.reach < f.reach := fun e he hle => by
      by_contra hge
      exact hdom (any_eq_true.mpr ⟨e, by simpa [he] using hle, by simpa [hus e he] using hge⟩)
    set u := (t.filter fun e => ¬ e.reach < next).filter
      fun e => ¬ (e.reach ≤ f.reach ∧ f.us ≤ e.us) with hu
    have hmem : ∀ e, e ∈ u ↔ e ∈ t ∧ next ≤ e.reach ∧ e.us < f.us := by
      intro e
      simp only [hu, mem_filter, decide_eq_true_eq, not_lt, not_and, and_assoc, not_le]
      exact and_congr_right fun he => and_congr_right fun hle =>
        ⟨fun h => h (hbelow e he hle).le, fun h _ => h⟩
    have hsub : (roomFor bound u f).Sublist u := by
      rw [roomFor]
      split_ifs
      · exact eraseIdx_sublist ..
      · exact .refl u
    have hkept : ∀ e ∈ roomFor bound u f, e.reach < f.reach ∧ e.us < f.us := fun e he => by
      obtain ⟨ht, hle, hlt⟩ := (hmem e).mp (hsub.subset he)
      exact ⟨hbelow e ht hle, hlt⟩
    refine .inr ⟨hbelow, _, hsub.trans (filter_sublist.trans filter_sublist), hkept,
      insertFact_eq fun e he => (hkept e he).1, fun hhit e he hle hlt => ?_⟩
    rw [roomFor, if_neg (of_decide_eq_false hhit)]
    exact (hmem e).mpr ⟨he, hle, hlt⟩

/-- **What a table knows of the facts that were noted**: its entries are such facts, and one of them
reaches as far as any fact that the cursor has not passed, no later unless the bound was hit. -/
structure Knows (calls : List ((ℕ ×ₗ ℕ) × Evidence)) (s : Bool × List Evidence) : Prop where
  sorted : s.2.Pairwise fun e f => e.reach < f.reach ∧ e.us < f.us
  noted : ∀ e ∈ s.2, ∃ c ∈ calls, c.2 = e
  reached : ∀ c ∈ calls, (∀ c' ∈ calls, c'.1 ≤ c.2.reach) → ∃ e ∈ s.2, c.2.reach ≤ e.reach ∧
    (s.1 = false → e.us ≤ c.2.us)

variable {calls : List ((ℕ ×ₗ ℕ) × Evidence)}

theorem Knows.step {s : Bool × List Evidence} (h : Knows calls s) {c : (ℕ ×ₗ ℕ) × Evidence}
    (hlast : ∀ c' ∈ calls, c'.2.us ≤ c.2.us) : Knows (calls ++ [c]) (noteStep bound s c) := by
  obtain ⟨hsorted, hnoted, hreached⟩ := h
  have hus : ∀ e ∈ s.2, e.us ≤ c.2.us := fun e he => by
    obtain ⟨c', hc', rfl⟩ := hnoted e he
    exact hlast c' hc'
  have hnoted' : ∀ e ∈ s.2, ∃ c' ∈ calls ++ [c], c'.2 = e := fun e he => by
    obtain ⟨c', hc', rfl⟩ := hnoted e he
    exact ⟨c', mem_append_left _ hc', rfl⟩
  rw [noteStep]
  obtain ⟨heq, hdom⟩ | ⟨hbelow, kept, hsub, hkept, heq, hhit⟩ :=
    @noteEvidence_cases bound c.1 _ _ hus
  · rw [heq, Bool.or_false]
    refine ⟨hsorted.filter _, fun e he => hnoted' e (mem_of_mem_filter he), fun c' hc' hle => ?_⟩
    have hnext := hle c (by simp)
    obtain ⟨e, he, hge, hexact⟩ :
        ∃ e ∈ s.2, c'.2.reach ≤ e.reach ∧ (s.1 = false → e.us ≤ c'.2.us) := by
      rcases mem_append.mp hc' with hc' | hc'
      · exact hreached c' hc' fun c'' hc'' => hle c'' (mem_append_left _ hc'')
      · obtain rfl := mem_singleton.mp hc'
        obtain ⟨e, he, hge, hle⟩ := hdom hnext
        exact ⟨e, he, hge, fun _ => hle⟩
    exact ⟨e, by simpa [he] using hnext.trans hge, hge, hexact⟩
  · rw [heq]
    refine ⟨pairwise_append.mpr ⟨hsorted.sublist hsub, pairwise_singleton .., by simpa using hkept⟩,
      forall_mem_append.mpr ⟨fun e he => hnoted' e (hsub.subset he), by simp⟩, fun c' hc' hle => ?_⟩
    rcases mem_append.mp hc' with hc' | hc'
    · obtain ⟨e, he, hge, hexact⟩ :=
        hreached c' hc' fun c'' hc'' => hle c'' (mem_append_left _ hc'')
      have hnext := (hle c (by simp)).trans hge
      by_cases hstays : (noteEvidence bound c.1 s.2 c.2).1 = false ∧ e.us < c.2.us
      · exact ⟨e, mem_append_left _ (hhit hstays.1 e he hnext hstays.2), hge,
          fun h => hexact (Bool.or_eq_false_iff.mp h).1⟩
      · refine ⟨c.2, by simp, hge.trans (hbelow e he hnext).le, fun h => ?_⟩
        obtain ⟨h, hhit⟩ := Bool.or_eq_false_iff.mp h
        exact (not_lt.mp fun hlt => hstays ⟨hhit, hlt⟩).trans (hexact h)
    · obtain rfl := mem_singleton.mp hc'
      exact ⟨c'.2, by simp, le_rfl, fun _ => le_rfl⟩

/-- Cursors and times that do not fall. -/
def Ordered (calls : List ((ℕ ×ₗ ℕ) × Evidence)) : Prop :=
  calls.Pairwise fun c c' => c.1 ≤ c'.1 ∧ c.2.us ≤ c'.2.us

theorem noteAll_knows (bound : ℕ) (h : Ordered calls) : Knows calls (noteAll bound calls) := by
  induction calls using reverseRecOn with
  | nil => exact ⟨.nil, nofun, nofun⟩
  | append_singleton calls c ih =>
    obtain ⟨h, -, hlast⟩ := pairwise_append.mp h
    rw [noteAll, foldl_concat]
    exact (ih h).step fun c' hc' => (hlast c' hc' c (mem_singleton_self c)).2

/-- **The evidence for a wait.**  The table is strictly sorted by reach with strictly rising times.
A cursor that is not behind the earlier ones finds a time exactly when some fact reached it; it is
the time of such a fact, and of the earliest one unless the bound was hit. -/
theorem evidence_run (bound : ℕ) (calls : List ((ℕ ×ₗ ℕ) × Evidence)) (h : Ordered calls) :
    ((noteAll bound calls).2.Pairwise fun e f => e.reach < f.reach ∧ e.us < f.us) ∧
      ∀ next, (∀ c ∈ calls, c.1 ≤ next) →
        ((gapEvidence next [] (noteAll bound calls).2).isSome ↔ ∃ c ∈ calls, next ≤ c.2.reach) ∧
        ∀ us, gapEvidence next [] (noteAll bound calls).2 = some us →
          (∃ c ∈ calls, next ≤ c.2.reach ∧ c.2.us = us) ∧
          ((noteAll bound calls).1 = false → ∀ c ∈ calls, next ≤ c.2.reach → us ≤ c.2.us) := by
  obtain ⟨hsorted, hnoted, hreached⟩ := noteAll_knows bound h
  refine ⟨hsorted, fun next hnext => ?_⟩
  generalize noteAll bound calls = s at hsorted hnoted hreached ⊢
  have hcover : ∀ c ∈ calls, next ≤ c.2.reach →
      ∃ e ∈ s.2, next ≤ e.reach ∧ (s.1 = false → e.us ≤ c.2.us) := fun c hc hle => by
    obtain ⟨e, he, hge, hexact⟩ := hreached c hc fun c' hc' => (hnext c' hc').trans hle
    exact ⟨e, he, hle.trans hge, hexact⟩
  rw [gapEvidence]
  cases hfind : s.2.find? fun e => ¬ e.reach < next with
  | none =>
    refine ⟨iff_of_false nofun ?_, nofun⟩
    rintro ⟨c, hc, hle⟩
    obtain ⟨e, he, hge, -⟩ := hcover c hc hle
    exact absurd hge (by simpa using find?_eq_none.mp hfind e he)
  | some e =>
    obtain ⟨hge, l₁, l₂, hsplit, hbehind⟩ := find?_eq_some_iff_append.mp hfind
    simp only [decide_eq_true_eq, not_lt] at hge
    obtain ⟨c, hc, rfl⟩ := hnoted e (by simp [hsplit])
    refine ⟨iff_of_true rfl ⟨c, hc, hge⟩, ?_⟩
    rintro _ ⟨⟩
    refine ⟨⟨c, hc, hge, rfl⟩, fun hhit c' hc' hle => ?_⟩
    obtain ⟨e', he', hge', hexact⟩ := hcover c' hc' hle
    refine le_trans ?_ (hexact hhit)
    rw [hsplit] at he' hsorted
    rcases mem_append.mp he' with he' | he'
    · exact absurd hge' (by simpa using hbehind e' he')
    · rcases mem_cons.mp he' with rfl | he'
      · exact le_rfl
      · exact (rel_of_pairwise_cons (pairwise_append.mp hsorted).2.1 he').2.le

theorem evidence_run_two :
    Ordered [(toLex (0, 0), ⟨toLex (1, 0), 5⟩), (toLex (0, 1), ⟨toLex (2, 0), 7⟩)] ∧
      (gapEvidence (toLex (1, 1)) [] (noteAll 1 [(toLex (0, 0), ⟨toLex (1, 0), 5⟩),
        (toLex (0, 1), ⟨toLex (2, 0), 7⟩)]).2).isSome := by
  have hordered :
      Ordered [(toLex (0, 0), ⟨toLex (1, 0), 5⟩), (toLex (0, 1), ⟨toLex (2, 0), 7⟩)] := by
    unfold Ordered
    decide
  exact ⟨hordered, ((evidence_run 1 _ hordered).2 (toLex (1, 1)) (by decide)).1.mpr
    ⟨_, mem_cons_of_mem _ (mem_singleton_self _), by decide⟩⟩

end MoqRelay.Playback
