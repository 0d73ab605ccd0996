import Mathlib.Data.List.Basic
import Mathlib.Data.List.Infix

/-!
# Lib/Parser — self-delimiting parsers

A parser reads a value off the front of a list and hands back the rest.  It is **stable** when what
it reads does not depend on what comes after (`Stable`): such a parser never succeeds on a strict
prefix of an input it reads to the end.  `Gives p b Q` says what a stable parser makes of the very
octets `b` that some writer put there.  Both are closed under sequencing, choice and counted
repetition, so a format is settled field by field.
-/

namespace MoqRelay

open List

/-- A sequence of fallible steps that succeeds, taken apart. -/
theorem except_bind_eq_ok {ε α β : Type} {x : Except ε α} {f : α → Except ε β} {b : β}
    (h : x >>= f = .ok b) : ∃ a, x = .ok a ∧ f a = .ok b := by
  cases x with
  | error e => cases h
  | ok a => exact ⟨a, rfl, h⟩

/-- A parser of lists over `β`: it fails, or reads a value and leaves the rest. -/
abbrev Parser (ε β α : Type) := StateT (List β) (Except ε) α

namespace Parser

variable {ε β α γ : Type}

theorem bind_apply (p : Parser ε β α) (f : α → Parser ε β γ) (d : List β) :
    (p >>= f) d = (p d).bind fun x => f x.1 x.2 := rfl

variable {p : Parser ε β α} {f : α → Parser ε β γ} {d r : List β} {a : α}

/-- A sequence that succeeds, taken apart. -/
theorem bind_eq_ok {c : γ}
    (h : (p >>= f) d = .ok (c, r)) : ∃ a s, p d = .ok (a, s) ∧ f a s = .ok (c, r) := by
  rw [bind_apply] at h
  cases hp : p d with
  | error e => rw [hp] at h; cases h
  | ok x => rw [hp] at h; exact ⟨x.1, x.2, rfl, h⟩

theorem bind_of_ok {s : List β} (h : p d = .ok (a, s))
    (f : α → Parser ε β γ) : (p >>= f) d = f a s := by
  rw [bind_apply, h]
  rfl

/-- A parser that takes an answer from elsewhere, and reads nothing. -/
def ofExcept (x : Except ε α) : Parser ε β α := fun d => x.map fun a => (a, d)

theorem ofExcept_eq_ok {x : Except ε α}
    (h : (ofExcept x : Parser ε β α) d = .ok (a, r)) : x = .ok a ∧ r = d := by
  cases x with
  | error e => cases h
  | ok b =>
    cases h
    exact ⟨rfl, rfl⟩

/-! ## Stable parsers -/

/-- **What is read does not depend on what comes after.** -/
def Stable (p : Parser ε β α) : Prop :=
  ∀ d a r, p d = .ok (a, r) → ∃ used, d = used ++ r ∧ ∀ r', p (used ++ r') = .ok (a, r')

theorem Stable.pure (a : α) : Stable (pure a : Parser ε β α) := by
  rintro d b r h
  cases h
  exact ⟨[], rfl, fun _ => rfl⟩

theorem Stable.throw (e : ε) : Stable (throw e : Parser ε β α) := by
  intro d b r h
  cases h

theorem Stable.bind (hp : Stable p) (hf : ∀ a, Stable (f a)) : Stable (p >>= f) := by
  intro d c r h
  obtain ⟨a, s, ha, hc⟩ := bind_eq_ok h
  obtain ⟨u, rfl, hu⟩ := hp d a s ha
  obtain ⟨v, rfl, hv⟩ := hf a s c r hc
  refine ⟨u ++ v, (append_assoc u v r).symm, fun r' => ?_⟩
  rw [append_assoc, bind_apply, hu]
  exact hv r'

theorem Stable.ite {c : Prop} [Decidable c] {q : Parser ε β α} (hp : Stable p) (hq : Stable q) :
    Stable (if c then p else q) := by
  split_ifs
  · exact hp
  · exact hq

theorem Stable.ofExcept (x : Except ε α) : Stable (ofExcept x : Parser ε β α) := by
  intro d a r h
  obtain ⟨rfl, rfl⟩ := ofExcept_eq_ok h
  exact ⟨[], rfl, fun _ => rfl⟩

/-- **No strict prefix of an input read to its end is accepted.** -/
theorem Stable.not_ok_of_shorter (hp : Stable p) {d' : List β}
    (h : p d = .ok (a, [])) (hpre : d' <+: d) (hne : d' ≠ d) : ∀ a', p d' ≠ .ok (a', []) := by
  intro a' h'
  obtain ⟨u, hu, hall⟩ := hp d' a' [] h'
  obtain ⟨t, rfl⟩ := hpre
  rw [append_nil] at hu
  subst hu
  have hrest := (Prod.mk.inj (Except.ok.inj (h.symm.trans (hall t)))).2
  exact hne (by rw [← hrest, append_nil])

/-! ## Reading back what was written -/

/-- **What a parser makes of written octets**: if it succeeds on them, whatever follows, it reads
just them, to a value with the property. -/
def Gives (p : Parser ε β α) (b : List β) (Q : α → Prop) : Prop :=
  ∀ r a r', p (b ++ r) = .ok (a, r') → r' = r ∧ Q a

variable {Q : α → Prop} {b c : List β} {R : γ → Prop} {x : γ}

theorem Gives.pure (h : Q a) : Gives (pure a : Parser ε β α) [] Q := by
  intro r b r' hb
  cases hb
  exact ⟨rfl, h⟩

theorem Gives.throw {e : ε} : Gives (throw e : Parser ε β α) b Q := by
  intro r a r' h
  cases h

theorem Gives.bind (hp : Gives p b Q) (hf : ∀ a, Q a → Gives (f a) c R) :
    Gives (p >>= f) (b ++ c) R := by
  intro r x r' h
  rw [append_assoc] at h
  obtain ⟨a, s, ha, hx⟩ := bind_eq_ok h
  obtain ⟨rfl, hQ⟩ := hp (c ++ r) a s ha
  exact hf a hQ r x r' hx

/-- A check in front reads nothing. -/
theorem Gives.check (hp : Gives p [] Q) (hf : ∀ a, Q a → Gives (f a) c R) :
    Gives (p >>= f) c R := hp.bind hf

/-- …and so does what follows the last field. -/
theorem Gives.last (hp : Gives p b Q) (hf : ∀ a, Q a → Gives (f a) [] R) : Gives (p >>= f) b R := by
  have h := hp.bind hf
  rwa [append_nil] at h

theorem Gives.mono {R : α → Prop} (h : Gives p b Q) (hQ : ∀ a, Q a → R a) : Gives p b R :=
  fun r a r' ha => (h r a r' ha).imp_right (hQ a)

/-- A parser that is known on the octets. -/
theorem Gives.of_eq (h : ∀ r, p (b ++ r) = .ok (a, r)) : Gives p b (· = a) := by
  intro r x r' hx
  obtain ⟨rfl, rfl⟩ := Prod.mk.inj (Except.ok.inj ((h r).symm.trans hx))
  exact ⟨rfl, rfl⟩

/-- What a stable parser reads to the end, it reads in front of anything. -/
theorem Stable.gives (hp : Stable p) (h : p b = .ok (a, [])) : Gives p b (· = a) := by
  refine .of_eq fun r => ?_
  obtain ⟨u, hu, hall⟩ := hp b a [] h
  rw [append_nil] at hu
  subst hu
  exact hall r

theorem Gives.ofExcept {x : Except ε α} (h : ∀ a, x = .ok a → Q a) :
    Gives (ofExcept x : Parser ε β α) [] Q := by
  intro r a r' ha
  obtain ⟨rfl, rfl⟩ := ofExcept_eq_ok ha
  exact ⟨rfl, h a rfl⟩

/-- **Written octets are read to this value**, whatever follows. -/
def Reads (p : Parser ε β α) (b : List β) (a : α) : Prop := ∀ r, p (b ++ r) = .ok (a, r)

theorem Reads.pure (a : α) : Reads (pure a : Parser ε β α) [] a := fun _ => rfl

theorem Reads.bind (hp : Reads p b a) (hf : Reads (f a) c x) : Reads (p >>= f) (b ++ c) x := by
  intro r
  rw [append_assoc, bind_of_ok (hp _)]
  exact hf r

/-- A step in front that reads nothing. -/
theorem Reads.check (hp : Reads p [] a) (hf : Reads (f a) c x) : Reads (p >>= f) c x := hp.bind hf

/-- …and one that ends the reading. -/
theorem Reads.last (hp : Reads p b a) (hf : Reads (f a) [] x) : Reads (p >>= f) b x := by
  have h := hp.bind hf
  rwa [append_nil] at h

/-- What a parser makes of the last octets of an input. -/
def Ends (p : Parser ε β α) (d : List β) (R : α → Prop) : Prop := ∀ a r, p d = .ok (a, r) → R a

theorem Gives.ends (hp : Gives p b Q) (hf : ∀ a, Q a → Ends (f a) c R) :
    Ends (p >>= f) (b ++ c) R := by
  intro x r h
  obtain ⟨a, s, ha, hx⟩ := bind_eq_ok h
  obtain ⟨rfl, hQ⟩ := hp c a s ha
  exact hf a hQ x r hx

end Parser

end MoqRelay
