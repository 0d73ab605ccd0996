import Mathlib.Tactic
import Mathlib.Data.Fintype.Card
import MoqRelay.Lib.SortedKeys

/-!
# Lib/Search — binary search over a keyed list, and open addressing

Two lookup structures a store keeps its indices in, over arbitrary element types.

* `lowerBound` halves an interval until it is empty; on a list sorted by `key` it splits the list at
  the key (`lowerBound_split`), and `findKey` is then membership (`findKey_eq_some_iff`).
* An **open-addressing table** is a function from slots to optional entries, probed linearly.
  A walk ends at the first entry with the key or at an empty slot (`probeFind_first`).  `Probed`
  says that every entry is reachable from its hash through occupied slots; as long as one slot is
  empty a probe answers membership (`probeFind_eq_some_iff`), and writing an absent key to the first
  empty slot keeps `Probed` (`Probed.insert`).
-/

namespace MoqRelay

open List Function

/-! ## Binary search -/

section BinarySearch

/-- Halve `[lo, hi)` towards the first index at which `p` fails. -/
def lowerBoundFrom (p : ℕ → Bool) : ℕ → ℕ → ℕ → ℕ
  | 0, lo, _ => lo
  | n + 1, lo, hi =>
    if lo < hi then
      let mid := lo + (hi - lo) / 2
      if p mid then lowerBoundFrom p n (mid + 1) hi else lowerBoundFrom p n lo mid
    else lo

/-- **The search ends at the border of `p`** — an interval shrinks by at least one per step, so its
length is fuel enough. -/
theorem lowerBoundFrom_spec (p : ℕ → Bool) (hp : ∀ i j, i ≤ j → p j → p i) :
    ∀ (n lo hi : ℕ), hi - lo ≤ n → lo ≤ hi → (∀ i < lo, p i) →
      (∀ i, hi ≤ i → p i = false) →
      lowerBoundFrom p n lo hi ≤ hi ∧ (∀ i < lowerBoundFrom p n lo hi, p i) ∧
        ∀ i, lowerBoundFrom p n lo hi ≤ i → p i = false
  | 0, lo, hi, hn, hle, hlo, hhi => by
      obtain rfl : lo = hi := by omega
      exact ⟨le_rfl, hlo, hhi⟩
  | n + 1, lo, hi, hn, hle, hlo, hhi => by
      unfold lowerBoundFrom
      split
      · simp only
        split
        · rename_i hm
          exact lowerBoundFrom_spec p hp n _ hi (by omega) (by omega)
            (fun i hi' => hp i _ (by omega) hm) hhi
        · rename_i hm
          have hrec := lowerBoundFrom_spec p hp n lo (lo + (hi - lo) / 2) (by omega) (by omega) hlo
            fun i hi' => by
              by_contra hc
              exact hm (hp _ i hi' (by simpa using hc))
          exact ⟨by omega, hrec.2⟩
      · obtain rfl : lo = hi := by omega
        exact ⟨le_rfl, hlo, hhi⟩

variable {α : Type*} (key : α → ℕ)

/-- The insertion index of the key `k` in a list sorted by `key`. -/
def lowerBound (k : ℕ) (l : List α) : ℕ :=
  lowerBoundFrom (fun i => (l[i]?).any fun a => decide (key a < k)) l.length 0 l.length

/-- The entry with key `k`, looked up by binary search. -/
def findKey (k : ℕ) (l : List α) : Option α :=
  match l[lowerBound key k l]? with
  | some a => if key a = k then some a else none
  | none => none

variable {key} {k : ℕ} {l : List α}

section Sorted

variable (hs : l.Pairwise fun a b => key a < key b)
include hs

/-- **A sorted list is split at its insertion index.** -/
theorem lowerBound_split :
    ∃ l₁ l₂, l = l₁ ++ l₂ ∧ lowerBound key k l = l₁.length ∧ (∀ a ∈ l₁, key a < k) ∧
      ∀ a ∈ l₂, k ≤ key a := by
  have hget : ∀ i (hi : i < l.length),
      ((l[i]?).any fun a => decide (key a < k)) = decide (key l[i] < k) := by
    intro i hi
    simp [getElem?_eq_getElem hi]
  have hp : ∀ i j : ℕ, i ≤ j → ((l[j]?).any fun a => decide (key a < k)) →
      ((l[i]?).any fun a => decide (key a < k)) := by
    intro i j hij hj
    have hjl : j < l.length := by
      by_contra hc
      rw [List.getElem?_eq_none (by omega)] at hj
      cases hj
    rw [hget j hjl] at hj
    rw [hget i (by omega)]
    rcases hij.eq_or_lt with rfl | hlt
    · exact hj
    · have := pairwise_iff_getElem.mp hs i j (by omega) hjl hlt
      simp only [decide_eq_true_eq] at hj ⊢
      omega
  obtain ⟨hle, hlt, hge⟩ := lowerBoundFrom_spec _ hp l.length 0 l.length (by omega)
    (Nat.zero_le _) (fun i hi => absurd hi (by omega))
    (fun i hi => by simp [List.getElem?_eq_none hi])
  refine ⟨l.take (lowerBound key k l), l.drop (lowerBound key k l),
    (take_append_drop _ l).symm, ?_, fun a ha => ?_, fun a ha => ?_⟩
  · rw [length_take]
    exact (Nat.min_eq_left hle).symm
  · obtain ⟨i, hi, rfl⟩ := getElem_of_mem ha
    rw [length_take] at hi
    have := hlt i (lt_of_lt_of_le hi (Nat.min_le_left _ _))
    rw [hget i (by omega)] at this
    simpa using this
  · obtain ⟨i, hi, rfl⟩ := getElem_of_mem ha
    rw [length_drop] at hi
    have := hge (lowerBound key k l + i) (Nat.le_add_right _ _)
    rw [hget _ (by omega)] at this
    simpa using this

/-- A hit splits the list around the entry. -/
theorem findKey_some_split {a : α} (h : findKey key k l = some a) :
    ∃ l₁ l₂, l = l₁ ++ a :: l₂ ∧ lowerBound key k l = l₁.length ∧ key a = k := by
  obtain ⟨l₁, l₂, rfl, hidx, -, -⟩ := lowerBound_split (k := k) hs
  unfold findKey at h
  rw [hidx, getElem?_append_right le_rfl, Nat.sub_self] at h
  cases l₂ with
  | nil => cases h
  | cons b l₂ =>
    simp only [getElem?_cons_zero, Option.ite_none_right_eq_some, Option.some.injEq] at h
    obtain ⟨hk, rfl⟩ := h
    exact ⟨l₁, l₂, rfl, hidx, hk⟩

/-- **Binary search on a sorted list reads it by key.** -/
theorem findKey_eq_keyed (k : ℕ) : findKey key k l = keyed key l k := by
  obtain ⟨l₁, l₂, rfl, hidx, hlt, hge⟩ := lowerBound_split (k := k) hs
  rw [findKey, hidx, getElem?_append_right le_rfl, keyed_append,
    keyed_eq_none.mpr fun a ha => (hlt a ha).ne]
  cases l₂ with
  | nil => rfl
  | cons b l₂ =>
    rw [keyed_cons]
    by_cases hk : k = key b
    · simp [hk]
    · have hb : k < key b := lt_of_le_of_ne (hge b mem_cons_self) hk
      have htail := (pairwise_cons.mp (pairwise_append.mp hs).2.1).1
      rw [if_neg hk, keyed_eq_none.mpr fun a ha => (hb.trans (htail a ha)).ne']
      simp [Ne.symm hk]

theorem findKey_eq_none_iff : findKey key k l = none ↔ ∀ a ∈ l, key a ≠ k := by
  rw [findKey_eq_keyed hs, keyed_eq_none]

/-- A miss splits the list where the key belongs. -/
theorem findKey_none_split (h : findKey key k l = none) :
    ∃ l₁ l₂, l = l₁ ++ l₂ ∧ lowerBound key k l = l₁.length ∧ (∀ a ∈ l₁, key a < k) ∧
      ∀ a ∈ l₂, k < key a := by
  have hne := (findKey_eq_none_iff hs).mp h
  obtain ⟨l₁, l₂, rfl, hidx, hlt, hge⟩ := lowerBound_split (k := k) hs
  exact ⟨l₁, l₂, rfl, hidx, hlt, fun a ha =>
    lt_of_le_of_ne (hge a ha) (hne a (mem_append_right _ ha)).symm⟩

end Sorted

section Middle

variable {l₁ l₂ : List α} {a b : α}

/-- An entry may be replaced by one with the same key. -/
theorem sorted_replace (hs : (l₁ ++ a :: l₂).Pairwise fun a b => key a < key b)
    (h : key b = key a) :
    (l₁ ++ b :: l₂).Pairwise fun a b => key a < key b := by
  simpa only [pairwise_append, pairwise_cons, mem_cons, forall_eq_or_imp, h] using hs

/-- **An entry of a sorted list is found under its key alone.** -/
theorem findKey_middle (hs : (l₁ ++ b :: l₂).Pairwise fun a b => key a < key b) (k : ℕ) :
    findKey key k (l₁ ++ b :: l₂) = if k = key b then some b else findKey key k (l₁ ++ l₂) := by
  rw [findKey_eq_keyed hs, keyed_middle fun x hx => (pairwise_append.mp hs).2.2 x hx b
    (by simp) |>.ne,
    findKey_eq_keyed (hs.sublist ((sublist_cons_self b l₂).append_left l₁))]

/-- **Binary search on a sorted list is membership.** -/
theorem findKey_eq_some_iff {l : List α} (hs : l.Pairwise fun a b => key a < key b) :
    findKey key k l = some a ↔ a ∈ l ∧ key a = k := by
  constructor
  · intro h
    exact key_of_keyed ((findKey_eq_keyed hs k).symm.trans h)
  · rintro ⟨ha, hk⟩
    obtain ⟨l₁, l₂, rfl⟩ := append_of_mem ha
    rw [findKey_middle hs, if_pos hk.symm]

end Middle

end BinarySearch

/-! ## Open addressing -/

section OpenAddressing

variable {α κ : Type*}

/-- Walk from slot `i` until an empty slot or an entry with key `k`. -/
def probeFind [DecidableEq κ] (tbl : ℕ → Option α) (next : ℕ → ℕ) (key : α → κ) (k : κ) :
    ℕ → ℕ → Option α
  | 0, _ => none
  | n + 1, i =>
    match tbl i with
    | none => none
    | some a => if key a = k then some a else probeFind tbl next key k n (next i)

/-- Walk from slot `i` to the first empty slot. -/
def probeEmpty (tbl : ℕ → Option α) (next : ℕ → ℕ) : ℕ → ℕ → ℕ
  | 0, i => i
  | n + 1, i =>
    match tbl i with
    | none => i
    | some _ => probeEmpty tbl next n (next i)

/-- **A linearly probed table**: keys are unique, and the walk from an entry's hash to its slot
passes only occupied slots. -/
structure Probed (tbl : ℕ → Option α) (cap : ℕ) (key : α → κ) (hash : κ → ℕ) : Prop where
  uniq : ∀ i < cap, ∀ j < cap, ∀ a b, tbl i = some a → tbl j = some b → key a = key b → i = j
  reach : ∀ i < cap, ∀ a, tbl i = some a →
    ∃ d < cap, (hash (key a) + d) % cap = i ∧
      ∀ e < d, tbl ((hash (key a) + e) % cap) ≠ none

variable {tbl : ℕ → Option α} {next : ℕ → ℕ} {cap : ℕ} {key : α → κ} {hash : κ → ℕ}

theorem Probed.empty : Probed (fun _ => (none : Option α)) cap key hash :=
  ⟨fun _ _ _ _ _ _ h => by simp at h, fun _ _ _ h => by simp at h⟩

/-- **What a walk finds**: the first entry with the key before an empty slot, if there is one. -/
theorem probeFind_first [DecidableEq κ] (tbl : ℕ → Option α) (key : α → κ)
    (hnext : ∀ i < cap, next i = (i + 1) % cap) (hcap : 0 < cap) (k : κ) : ∀ n h : ℕ,
    match probeFind tbl next key k n (h % cap) with
    | some a => ∃ d < n, tbl ((h + d) % cap) = some a ∧ key a = k ∧
        ∀ e < d, ∀ b, tbl ((h + e) % cap) = some b → key b ≠ k
    | none => ∀ d < n, (∀ e < d, tbl ((h + e) % cap) ≠ none) →
        ∀ a, tbl ((h + d) % cap) = some a → key a ≠ k
  | 0, _ => fun d hd => absurd hd (Nat.not_lt_zero d)
  | n + 1, h => by
    have hrec := probeFind_first tbl key hnext hcap k n (h + 1)
    have hstep : next (h % cap) = (h + 1) % cap := by
      rw [hnext _ (Nat.mod_lt _ hcap), Nat.mod_add_mod]
    simp only [probeFind, hstep]
    cases hslot : tbl (h % cap) with
    | none =>
      intro d _ hocc a ha
      cases d with
      | zero => simp [hslot] at ha
      | succ d => exact absurd hslot (hocc 0 (Nat.zero_lt_succ d))
    | some b =>
      dsimp only
      by_cases hb : key b = k
      · rw [if_pos hb]
        exact ⟨0, Nat.zero_lt_succ n, hslot, hb, fun e he => absurd he (Nat.not_lt_zero e)⟩
      rw [if_neg hb]
      cases hfind : probeFind tbl next key k n ((h + 1) % cap) with
      | none =>
        simp only [hfind, Nat.add_right_comm h 1] at hrec
        simp only [Nat.forall_lt_succ_left]
        refine ⟨fun _ a ha => ?_, fun d hd hocc => hrec d hd hocc.2⟩
        cases hslot.symm.trans ha
        exact hb
      | some a =>
        simp only [hfind, Nat.add_right_comm h 1] at hrec
        obtain ⟨d, hd, ha, hk, hfirst⟩ := hrec
        refine ⟨d + 1, Nat.succ_lt_succ hd, ha, hk, Nat.forall_lt_succ_left.mpr ⟨?_, hfirst⟩⟩
        rintro c hc
        cases hslot.symm.trans hc
        exact hb

/-- **Probing answers membership.** -/
theorem probeFind_eq_some_iff [DecidableEq κ] (hp : Probed tbl cap key hash)
    (hnext : ∀ i < cap, next i = (i + 1) % cap) {k : κ} (hk : hash k < cap) {a : α} :
    probeFind tbl next key k cap (hash k) = some a ↔ ∃ i < cap, tbl i = some a ∧ key a = k := by
  have hcap : 0 < cap := Nat.zero_lt_of_lt hk
  have hwalk := probeFind_first tbl key hnext hcap k cap (hash k)
  rw [Nat.mod_eq_of_lt hk] at hwalk
  cases hfind : probeFind tbl next key k cap (hash k) with
  | none =>
    simp only [hfind] at hwalk
    refine ⟨nofun, ?_⟩
    rintro ⟨i, hi, hia, rfl⟩
    obtain ⟨d, hd, rfl, hocc⟩ := hp.reach i hi a hia
    exact absurd rfl (hwalk d hd hocc a hia)
  | some b =>
    simp only [hfind] at hwalk
    obtain ⟨d, -, hb, hkey, -⟩ := hwalk
    have hlt := Nat.mod_lt (hash k + d) hcap
    constructor
    · rintro ⟨⟩
      exact ⟨_, hlt, hb, hkey⟩
    · rintro ⟨i, hi, hia, hka⟩
      obtain rfl := hp.uniq _ hlt i hi b a hb hia (hkey.trans hka.symm)
      exact hb.symm.trans hia

/-- **The first empty slot of a walk**, when the table has one. -/
theorem probeEmpty_first (tbl : ℕ → Option α) (hnext : ∀ i < cap, next i = (i + 1) % cap)
    (hcap : 0 < cap) :
    ∀ n h : ℕ, (∃ d < n, tbl ((h + d) % cap) = none) →
      ∃ d < n, probeEmpty tbl next n (h % cap) = (h + d) % cap ∧ tbl ((h + d) % cap) = none ∧
        ∀ e < d, tbl ((h + e) % cap) ≠ none
  | 0, _, ⟨d, hd, _⟩ => absurd hd (Nat.not_lt_zero d)
  | n + 1, h, hex => by
    have hstep : next (h % cap) = (h + 1) % cap := by
      rw [hnext _ (Nat.mod_lt _ hcap), Nat.mod_add_mod]
    cases hslot : tbl (h % cap) with
    | none => exact ⟨0, Nat.zero_lt_succ n, by simp [probeEmpty, hslot], hslot, by simp⟩
    | some b =>
      rw [Nat.exists_lt_succ_left] at hex
      have hrec := probeEmpty_first tbl hnext hcap n (h + 1)
      simp only [Nat.add_right_comm h 1] at hrec
      obtain ⟨d, hd, hend, hnone, hocc⟩ := hrec (hex.resolve_left (by simp [hslot]))
      refine ⟨d + 1, Nat.succ_lt_succ hd, ?_, hnone, Nat.forall_lt_succ_left.mpr ⟨?_, hocc⟩⟩
      · simp only [probeEmpty, hslot, hstep]
        exact hend
      · simp [hslot]

theorem probeEmpty_spec (hnext : ∀ i < cap, next i = (i + 1) % cap) {h : ℕ} (hh : h < cap)
    (hex : ∃ i < cap, tbl i = none) :
    ∃ d < cap, probeEmpty tbl next cap h = (h + d) % cap ∧ tbl ((h + d) % cap) = none ∧
      ∀ e < d, tbl ((h + e) % cap) ≠ none := by
  obtain ⟨i, hi, hnone⟩ := hex
  have hcap : 0 < cap := Nat.zero_lt_of_lt hi
  have hback : (h + (i + (cap - h)) % cap) % cap = i := by
    rw [Nat.add_mod_mod, show h + (i + (cap - h)) = i + cap by omega, Nat.add_mod_right,
      Nat.mod_eq_of_lt hi]
  have hwalk := probeEmpty_first tbl hnext hcap cap h
    ⟨_, Nat.mod_lt _ hcap, (congrArg tbl hback).trans hnone⟩
  rwa [Nat.mod_eq_of_lt hh] at hwalk

/-- **Writing an absent key to the first empty slot of its walk keeps the table probed.** -/
theorem Probed.insert (hp : Probed tbl cap key hash) {a : α} {j d : ℕ} (hd : d < cap)
    (hj : j = (hash (key a) + d) % cap) (hocc : ∀ e < d, tbl ((hash (key a) + e) % cap) ≠ none)
    (habs : ∀ i < cap, ∀ b, tbl i = some b → key b ≠ key a) :
    Probed (update tbl j (some a)) cap key hash := by
  constructor
  · intro i hi i' hi' b b' hb hb' hkey
    rw [update_apply] at hb hb'
    split at hb <;> split at hb'
    · omega
    · obtain rfl : a = b := by simpa using hb
      exact absurd hkey.symm (habs i' hi' b' hb')
    · obtain rfl : a = b' := by simpa using hb'
      exact absurd hkey (habs i hi b hb)
    · exact hp.uniq i hi i' hi' b b' hb hb' hkey
  · intro i hi b hb
    rw [update_apply] at hb
    split at hb
    · obtain rfl : a = b := by simpa using hb
      refine ⟨d, hd, by omega, fun e he => ?_⟩
      rw [update_apply]
      split
      · simp
      · exact hocc e he
    · obtain ⟨d', hd', hi', hocc'⟩ := hp.reach i hi b hb
      refine ⟨d', hd', hi', fun e he => ?_⟩
      rw [update_apply]
      split
      · simp
      · exact hocc' e he

/-- A table with fewer keys than slots has an empty slot. -/
theorem Probed.exists_empty (hp : Probed tbl cap key hash) {ks : List κ}
    (hks : ∀ i < cap, ∀ a, tbl i = some a → key a ∈ ks) (hlen : ks.length < cap) :
    ∃ i < cap, tbl i = none := by
  classical
  by_contra hc
  push Not at hc
  have hfull : ∀ i : Fin cap, ∃ a, tbl i = some a := fun i =>
    Option.ne_none_iff_exists'.mp (hc i i.isLt)
  choose f hf using hfull
  have hinj : Function.Injective fun i : Fin cap => (key (f i) : κ) := fun i j hij =>
    Fin.ext (hp.uniq i i.isLt j j.isLt _ _ (hf i) (hf j) hij)
  have hcard : cap ≤ ks.toFinset.card := by
    calc cap = (Finset.univ.image fun i : Fin cap => key (f i)).card := by
          rw [Finset.card_image_of_injective _ hinj, Finset.card_univ, Fintype.card_fin]
      _ ≤ ks.toFinset.card := Finset.card_le_card fun x hx => by
          obtain ⟨i, -, rfl⟩ := Finset.mem_image.mp hx
          exact mem_toFinset.mpr (hks i i.isLt _ (hf i))
  have := ks.toFinset_card_le
  omega

end OpenAddressing

/-! ## Running choices -/

section KeepLeast

variable {α κ : Type*} [LinearOrder κ]

/-- The choice so far, unless a new value has a strictly smaller key. -/
def keepLeast (key : α → κ) (m : Option α) (x : α) : Option α :=
  if m.all fun y => key x < key y then some x else m

/-- The final choice: one of the values, and no key is smaller. -/
theorem foldl_keepLeast (key : α → κ) {l : List α} {m : Option α} :
    match l.foldl (keepLeast key) m with
    | none => m = none ∧ l = []
    | some q => (q ∈ m ∨ q ∈ l) ∧ (∀ x ∈ m, key q ≤ key x) ∧ ∀ x ∈ l, key q ≤ key x := by
  induction l generalizing m with
  | nil => cases m <;> simp
  | cons y l ih =>
    have hm : ∃ z, keepLeast key m y = some z ∧ (z = y ∨ m = some z) ∧ key z ≤ key y ∧
        ∀ x ∈ m, key z ≤ key x := by
      unfold keepLeast
      cases m with
      | none => exact ⟨y, rfl, .inl rfl, le_rfl, by simp⟩
      | some x =>
        by_cases hx : key y < key x
        · exact ⟨y, by simp [hx], .inl rfl, le_rfl, by simpa using hx.le⟩
        · exact ⟨x, by simp [hx], .inr rfl, not_lt.mp hx, by simp⟩
    obtain ⟨z, hz, hzm, hzy, hmz⟩ := hm
    have ih := ih (m := some z)
    rw [foldl_cons, hz]
    cases hq : l.foldl (keepLeast key) (some z) with
    | none => simp [hq] at ih
    | some q =>
      simp only [hq, Option.mem_def, Option.some.injEq, forall_eq'] at ih
      obtain ⟨hmem, hqz, hl⟩ := ih
      refine ⟨?_, fun x hx => hqz.trans (hmz x hx), fun x hx => ?_⟩
      · rcases hmem with rfl | hmem
        · rcases hzm with rfl | hzm
          · exact .inr (by simp)
          · exact .inl hzm
        · exact .inr (by simp [hmem])
      · rcases mem_cons.mp hx with rfl | hx
        · exact hqz.trans hzy
        · exact hl x hx

end KeepLeast

end MoqRelay
