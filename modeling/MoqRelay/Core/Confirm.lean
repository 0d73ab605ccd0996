import MoqRelay.Core.Deliver
import MoqRelay.Lib.Trace

/-!
# Core/Confirm — what the binding reports back

`moqr_core_delivery_done` leaves the outstanding delivery in place, drops it unadvanced, or settles
the position it names.
-/

namespace MoqRelay

/-- `moqr_delivery_outcome_t`. -/
inductive Outcome
  | delivered | wouldBlock | streamError | stalled | abandoned | refusedUnbegun | discarded
  | other (code : ℕ)
  deriving DecidableEq

/-- The outcomes a recordless notice has no shape for. -/
def Outcome.recordOnly : Outcome → Bool
  | .stalled | .abandoned | .refusedUnbegun | .discarded => true
  | _ => false

/-- The outcomes `delivery_done` refuses for a held delivery. -/
def Binding.refuses (b : Binding) : Outcome → Bool
  | .other _ => true
  | o =>
    (b.outNotice ≠ .none && o.recordOnly) || (o = .discarded && b.outEvictReset) ||
      (o = .refusedUnbegun && (b.outAbandoned || (b.outChunked && b.outChunkBase ≠ 0)))

/-- A delivery that backpressure holds. -/
def Binding.holds (b : Binding) : Bool := b.outChunked || b.outAbandoned || b.outNotice ≠ .none

namespace Gpos

/-- A head confirmed: past it, nothing begun, and its marks settled. -/
def confirm (e : Gpos) (l : ℕ) : Gpos := ((e.advance l).setEmitted l 0).settle l

/-- A seal acknowledged; the owed lifetime's terminal went with it. -/
def ackSeal (e : Gpos) (l : ℕ) : Gpos := ((e.setAcked l true).setRenew l false).setOwed l 0

/-- A begun head with `n` chunks scheduled. -/
def stall (e : Gpos) (l n : ℕ) : Gpos := e.setEmitted l (gposBegunBit ||| n % 2 ^ 32)

end Gpos

namespace Core

variable (c : Core)

/-- Write an entry of a subscription's positions. -/
def setEntry (s i : ℕ) (f : Gpos → Gpos) : Core :=
  c.setSub s fun x => { x with gpos := x.gpos.map fun t => t.setEntry i f }

/-- The slot of the positions entry of a group. -/
def findEntry (s g : ℕ) : Option ℕ := (c.subs s).gpos.bind fun t => t.find g

/-- The word of a list of an entry. -/
def emittedAt (s i l : ℕ) : ℕ := ((c.subs s).gpos.map fun t => (t.entries i).emitted l).getD 0

/-- The entry no longer begun at a list, in the ledger. -/
def endBegun (s i l : ℕ) : Core := if c.emittedAt s i l ≠ 0 then c.subBegunSub s else c

/-- Give up an entry, with a skip to report. -/
def releaseEntry (s i : ℕ) : Core :=
  c.setSub s fun x => { x with gpos := x.gpos.map fun t => t.release i, pendingSkip := true }

/-! ## Confirmations -/

/-- A head delivered or discarded. -/
def confirmHead (s i l : ℕ) (reopens : Bool) : Core :=
  (c.endBegun s i l).setEntry s i fun e =>
    if reopens && l < (c.subs s).gposLists - 1 then (e.confirm l).setAcked l false else e.confirm l

/-- A head begun and not finished. -/
def stallHead (s i l n : ℕ) : Core :=
  (if c.emittedAt s i l = 0 then c.subBegunAdd s else c).setEntry s i fun e => e.stall l n

/-- A begun head abandoned. -/
def abandonHead (s i l : ℕ) : Core :=
  (c.endBegun s i l).setEntry s i fun e => (e.advance l).setEmitted l 0

/-- The reset of an evicted group confirmed: every begun list of its entry, then the entry. -/
def abandonGroup (s i : ℕ) : Core :=
  (((List.range (c.subs s).gposLists).foldl (fun c l => c.endBegun s i l) c).releaseEntry s
    i).readyMark (c.subs s).binding

/-- The positions entry of a group on the live track of a subscription. -/
def confirmedEntry (s g : ℕ) : Option ℕ :=
  if c.trackCurrent (c.subs s).track (c.subs s).trackGenSlot then c.findEntry s g else none

/-- What an outcome does to the position of a live subscription's delivery; `x` is the binding as it
held the delivery. -/
def settleOutcome (x : Binding) (nowUs : ℕ) (o : Outcome) : Core :=
  let s := x.outSub
  let l := x.outList
  let pe := c.confirmedEntry s x.outGroup
  match x.outNotice, o with
  | .none, .delivered => (pe.map fun i => c.confirmHead s i l x.outFollowsGap).getD c
  | .none, .discarded => (pe.map fun i => c.confirmHead s i l true).getD c
  | .none, .stalled => (pe.map fun i => c.stallHead s i l x.outView.record.chunkCount).getD c
  | .none, .abandoned =>
    (pe.map fun i => if x.outEvictReset then c.abandonGroup s i else c.abandonHead s i l).getD c
  | .none, .wouldBlock => c
  | .none, .refusedUnbegun => c
  | .seal, .delivered => (pe.map fun i => c.setEntry s i fun e => e.ackSeal l).getD c
  | .evictWatermark, .delivered => c.setSub s fun y => { y with pendingSkip := false }
  | _, _ => c.subRetire s nowUs

/-- `moqr_core_delivery_done`. -/
def deliveryDone (h : Handle) (o : Outcome) (nowUs : ℕ) : Core × Result :=
  match c.bindingResolve h with
  | none => (c, .staleHandle)
  | some b =>
    let x := c.bindings b
    if !x.outActive then (c, .wrongState)
    else if x.refuses o then (c, .inval)
    else if o = .wouldBlock && x.holds && c.subLive x.outSub then (c, .ok)
    else
      let c := c.setBinding b fun y => { y with outActive := false, outNotice := .none }
      let c := if c.subLive x.outSub then c.settleOutcome x nowUs o else c
      (c.setBinding b Binding.unpin, .ok)

/-! ## A confirmation adds no intent and leaves the logs alone -/

variable {c}

theorem frame_subBegunAdd (s : ℕ) : c.Frame (c.subBegunAdd s) := by
  unfold subBegunAdd
  split
  · exact (frame_setSub _ _).trans (frame_setBinding _ _)
  · exact frame_setSub _ _

theorem frame_subBegunSub (s : ℕ) : c.Frame (c.subBegunSub s) := by
  unfold subBegunSub
  split
  · exact .refl c
  · split
    · exact (frame_setSub _ _).trans (frame_setBinding _ _)
    · exact frame_setSub _ _

/-- A begun position ends in its slots. -/
theorem frame_endBegun (s i l : ℕ) : c.Frame (c.endBegun s i l) := .ite (frame_subBegunSub s)

/-- So do those of a group. -/
theorem frame_abandonGroup (s i : ℕ) : c.Frame (c.abandonGroup s i) := by
  have hfold : ∀ (ls : List ℕ) (c : Core), c.Frame (ls.foldl (fun c l => c.endBegun s i l) c) :=
    fun ls c => run_rel Frame.refl (fun _ _ _ => .trans) (fun _ l => frame_endBegun s i l) ls c
  exact ((hfold _ c).trans (frame_setSub _ _)).trans (frame_readyMark _)

/-- A stall is kept in the position. -/
theorem frame_stallHead (s i l n : ℕ) : c.Frame (c.stallHead s i l n) := by
  unfold stallHead
  split
  · exact (frame_subBegunAdd s).trans (frame_setSub _ _)
  · exact frame_setSub _ _

/-- Every outcome, whatever the notice. -/
theorem frame_settleOutcome (x : Binding) (nowUs : ℕ) (o : Outcome) :
    c.Frame (c.settleOutcome x nowUs o) := by
  have hentry : ∀ (pe : Option ℕ) (f : ℕ → Core), (∀ i, c.Frame (f i)) →
      c.Frame ((pe.map f).getD c) := by
    intro pe f hf
    cases pe with
    | none => exact .refl c
    | some i => exact hf i
  unfold settleOutcome
  split
  iterate 2 exact hentry _ _ fun i => (frame_endBegun _ i _).trans (frame_setSub _ _)
  · exact hentry _ _ fun i => frame_stallHead _ i _ _
  · refine hentry _ _ fun i => ?_
    split
    · exact frame_abandonGroup _ i
    · exact (frame_endBegun _ i _).trans (frame_setSub _ _)
  · exact .refl c
  · exact .refl c
  · exact hentry _ _ fun i => frame_setSub _ _
  · exact frame_setSub _ _
  · exact frame_subRetire _ _

/-- **A confirmation adds no intent and writes no log.** -/
theorem frame_deliveryDone (h : Handle) (o : Outcome) (nowUs : ℕ) :
    c.Frame (c.deliveryDone h o nowUs).1 := by
  unfold deliveryDone
  split
  · exact .refl c
  · dsimp only
    split_ifs
    iterate 3 exact .refl c
    · exact ((frame_setBinding _ _).trans (frame_settleOutcome _ _ _)).trans (frame_setBinding _ _)
    · exact (frame_setBinding _ _).trans (frame_setBinding _ _)

end Core

end MoqRelay
