import Mathlib.Tactic

/-!
# Lib/Trace — runs of a machine, and the events they emit

A machine is a step function `σ → ι → σ`; a call may also emit events.  A property of whole runs is
proved one call at a time: `run_inv` for invariants of the state, `run_rel` for what a later state
owes an earlier one, `trace_inv` for what ties the state to the events emitted so far.
-/

namespace MoqRelay

open List

section Trace

variable {σ ι ε : Type*} {step : σ → ι → σ} {emit : σ → ι → List ε} {I : σ → Prop}

/-- The events a run emits, oldest first. -/
def trace (step : σ → ι → σ) (emit : σ → ι → List ε) : σ → List ι → List ε
  | _, [] => []
  | s, i :: is => emit s i ++ trace step emit (step s i) is

/-- **An event of a run is emitted by one of its calls**, in the state that the calls before it
reached. -/
theorem mem_trace {e : ε} : ∀ (is : List ι) {s : σ}, e ∈ trace step emit s is ↔
    ∃ before i after, is = before ++ i :: after ∧ e ∈ emit (before.foldl step s) i
  | [], s => by simp [trace]
  | i :: is, s => by
    rw [trace, mem_append, mem_trace is]
    constructor
    · rintro (he | ⟨before, j, after, rfl, he⟩)
      · exact ⟨[], i, is, rfl, he⟩
      · exact ⟨i :: before, j, after, rfl, he⟩
    · rintro ⟨before, j, after, heq, he⟩
      cases before with
      | nil =>
        obtain ⟨rfl, rfl⟩ := cons.inj heq
        exact .inl he
      | cons k before =>
        obtain ⟨rfl, rfl⟩ := cons.inj heq
        exact .inr ⟨before, j, after, rfl, he⟩

theorem run_inv (hstep : ∀ s i, I s → I (step s i)) :
    ∀ (is : List ι) {s : σ}, I s → I (is.foldl step s)
  | [], _, hs => hs
  | i :: is, s, hs => run_inv hstep is (hstep s i hs)

/-- **A preorder that every call respects** relates the two ends of a run. -/
theorem run_rel {R : σ → σ → Prop} (hrefl : ∀ s, R s s) (htrans : ∀ a b c, R a b → R b c → R a c)
    (hstep : ∀ s i, R s (step s i)) : ∀ (is : List ι) (s : σ), R s (is.foldl step s)
  | [], s => hrefl s
  | i :: is, s => htrans _ _ _ (hstep s i) (run_rel hrefl htrans hstep is (step s i))

/-- **What ties the state to the events so far**, if every call extends it, holds at the end. -/
theorem trace_inv {J : σ → List ε → Prop}
    (hstep : ∀ s es i, J s es → J (step s i) (es ++ emit s i)) :
    ∀ (is : List ι) {s : σ} {es : List ε}, J s es →
      J (is.foldl step s) (es ++ trace step emit s is)
  | [], s, es, hs => by rwa [trace, append_nil]
  | i :: is, s, es, hs => by
    rw [trace, ← append_assoc]
    exact trace_inv hstep is (hstep s es i hs)

end Trace

end MoqRelay
