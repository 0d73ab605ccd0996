import MoqRelay.Core.Relay

/-!
# Core/Pools — generations, handles, the ready set, intents, and the ends of slots

The helpers every operation of the core is written with.  A write to a pool is `modifyAt`; an
operation on a slot is a function of the core and the slot, as the source's are of the core and a
pointer into the pool.
-/

namespace MoqRelay

/-! ## Generations -/

/-- A live generation is odd. -/
def genLive (gen : ℕ) : Bool := gen % 2 = 1

/-- `MOQR_HANDLE_POOL_*`. -/
def poolBinding : ℕ := 3
def poolSub : ℕ := 5

/-- `MOQR_SHARD_COOKIE_BASE`. -/
def shardCookieBase : ℕ := 2 ^ 63

/-- `R_DONE_*`, the codes of a finished subscription. -/
def doneTrackEnded : ℕ := 0x2
def doneSubEnded : ℕ := 0x3

namespace Core

variable (c : Core)

/-! ## Writes -/

def setBinding (b : ℕ) (f : Binding → Binding) : Core :=
  { c with bindings := modifyAt c.bindings b f }

def setTrack (t : ℕ) (f : Track → Track) : Core := { c with tracks := modifyAt c.tracks t f }

def setSub (s : ℕ) (f : Sub → Sub) : Core := { c with subs := modifyAt c.subs s f }

/-- `r_room_changed`. -/
def roomChanged : Core := { c with roomEpoch := c.roomEpoch + 1 }

/-- `track_touch`. -/
def trackTouch (t : ℕ) : Core :=
  { c with interestSeq := c.interestSeq + 1 }.setTrack t fun x =>
    { x with interestSeq := c.interestSeq + 1, idleSinceUs := 0 }

/-! ## Handles -/

/-- `r_pack`. -/
def pack (pool gen slot : ℕ) : Option Handle := handlePack pool c.lim.shardTag gen slot

/-- `sub_handle`. -/
def subHandle (s : ℕ) : Option Handle := c.pack poolSub (c.subs s).gen s

/-- The shape of every resolver: pool and shard tag, a live generation, a slot in range, and the
slot's own generation. -/
def resolve (pool size : ℕ) (gen : ℕ → ℕ) (h : Handle) : Option ℕ :=
  if h.pool = pool ∧ h.tag = c.lim.shardTag ∧ genLive h.generation ∧ h.slot < size ∧
      gen h.slot = h.generation then some h.slot
  else none

/-- `binding_resolve`. -/
def bindingResolve (h : Handle) : Option ℕ :=
  c.resolve poolBinding c.lim.maxBindings (fun b => (c.bindings b).gen) h

/-- A live slot of each pool. -/
def bindingLive (b : ℕ) : Bool := genLive (c.bindings b).gen
def trackLive (t : ℕ) : Bool := genLive (c.tracks t).gen
def subLive (s : ℕ) : Bool := genLive (c.subs s).gen

/-- A slot is live at a given generation. -/
def bindingCurrent (b gen : ℕ) : Bool := c.bindingLive b && (c.bindings b).gen = gen
def trackCurrent (t gen : ℕ) : Bool := c.trackLive t && (c.tracks t).gen = gen

/-- A subscription is bound to the current generation of its binding. -/
def subOfBinding (s b : ℕ) : Bool :=
  c.subLive s && (c.subs s).binding = b && (c.subs s).bindingGen = (c.bindings b).gen

/-! ## The ready set -/

/-- `ready_mark`. -/
def readyMark (b : ℕ) : Core :=
  if !c.bindingLive b || shardCookieBase ≤ (c.bindings b).cookie || c.ready b then c
  else { c with ready := Function.update c.ready b true, readyCount := c.readyCount + 1 }

/-! ## Intents -/

/-- `intent_space`. -/
def intentSpace (need : ℕ) : Bool := c.intents.length + c.intentReserved + need ≤ c.lim.maxIntents

/-- `intent_push`, with the fields its caller sets. -/
def intentPush (it : Intent) : Core := { c with intents := c.intents ++ [it] }

/-! ## Counts of a track's readers -/

/-- `track_sub_count`. -/
def trackSubCount (t : ℕ) : ℕ := if c.trackLive t then (c.tracks t).subs.length else 0

end Core

/-! ## The outstanding delivery of a binding -/

/-- `binding_unpin`. -/
def Binding.unpin (b : Binding) : Binding :=
  { b with
    pinPayload := none
    pinProperties := none
    pinChunks := []
    outChunked := false
    outAbandoned := false
    outEvictReset := false
    outChunkBase := 0 }

/-- `binding_drop_held`. -/
def Binding.dropHeld (b : Binding) : Binding :=
  { b with outActive := false, outNotice := .none }.unpin

namespace Core

variable (c : Core)

/-! ## Begun positions -/

/-- `sub_begun_add`. -/
def subBegunAdd (s : ℕ) : Core :=
  let c' := c.setSub s fun x => { x with begunCount := x.begunCount + 1 }
  if (c.subs s).begunCount = 0 then
    c'.setBinding (c.subs s).binding fun b => { b with begunSubs := b.begunSubs + 1 }
  else c'

/-- `sub_begun_sub`. -/
def subBegunSub (s : ℕ) : Core :=
  if (c.subs s).begunCount = 0 then c
  else
    let c' := c.setSub s fun x => { x with begunCount := x.begunCount - 1 }
    if (c.subs s).begunCount = 1 then
      c'.setBinding (c.subs s).binding fun b => { b with begunSubs := b.begunSubs - 1 }
    else c'

/-! ## Ends -/

/-- The first step of `sub_retire`: drop the begun contribution. -/
def begunDrop (s : ℕ) : Core :=
  if (c.subs s).begunCount = 0 then c
  else (c.setBinding (c.subs s).binding fun b => { b with begunSubs := b.begunSubs - 1 }).setSub s
    fun x => { x with begunCount := 0 }

/-- The deadline of `sub_retire`: the last subscriber of a pulled track arms it. -/
def lingerArm (t nowUs : ℕ) : Core :=
  if c.trackSubCount t = 1 ∧ (c.tracks t).state = .active ∧ (c.tracks t).sourceKind = .pull then
    let d := (nowUs + c.lim.lingerUs) % 2 ^ 64
    c.setTrack t fun x => { x with lingerDeadlineUs := if d = 0 then 1 else d }
  else c

/-- `track_sub_unlink`. -/
def trackSubUnlink (t s : ℕ) : Core :=
  ((c.setTrack t fun x => { x with subs := x.subs.erase s }).trackTouch t).roomChanged

/-- `sub_retire`. -/
def subRetire (s nowUs : ℕ) : Core :=
  let x := c.subs s
  let c := c.begunDrop s
  let c := c.setBinding x.binding fun b => { b with subs := b.subs.erase s }
  let c := if c.trackCurrent x.track x.trackGenSlot then
      (c.lingerArm x.track nowUs).trackSubUnlink x.track s
    else c
  let owner := c.bindingCurrent x.binding x.bindingGen
  let c := if owner && (c.bindings x.binding).outActive && (c.bindings x.binding).outSub = s then
      c.setBinding x.binding fun b => { b with outActive := false }.unpin
    else c
  let c := if owner then c.readyMark x.binding else c
  c.setSub s fun y => { y with gpos := none, excluded := none, gen := y.gen + 1 }

/-! ## What the end of a subscription leaves alone -/

variable {c}

/-- The intents and the logs are untouched. -/
structure Frame (c c' : Core) : Prop where
  intents : c'.intents = c.intents
  log : ∀ t, (c'.tracks t).log = (c.tracks t).log

namespace Frame

theorem refl (c : Core) : c.Frame c := ⟨rfl, fun _ => rfl⟩

theorem trans {c₁ c₂ c₃ : Core} (h₁ : c₁.Frame c₂) (h₂ : c₂.Frame c₃) : c₁.Frame c₃ :=
  ⟨h₂.intents.trans h₁.intents, fun t => (h₂.log t).trans (h₁.log t)⟩

/-- A change made on a condition. -/
theorem ite {c' : Core} {p : Prop} [Decidable p] (h : c.Frame c') :
    c.Frame (if p then c' else c) := by
  split
  · exact h
  · exact .refl c

end Frame

/-- A write to a binding. -/
theorem frame_setBinding (b : ℕ) (f : Binding → Binding) : c.Frame (c.setBinding b f) :=
  ⟨rfl, fun _ => rfl⟩

/-- A write to a subscription. -/
theorem frame_setSub (s : ℕ) (f : Sub → Sub) : c.Frame (c.setSub s f) := ⟨rfl, fun _ => rfl⟩

/-- A write to a track that keeps its log. -/
theorem frame_setTrack (t : ℕ) {f : Track → Track} (hf : ∀ x, (f x).log = x.log) :
    c.Frame (c.setTrack t f) :=
  ⟨rfl, fun _ => map_modifyAt Track.log (hf _)⟩

/-- `ready_mark` writes the ready set alone. -/
theorem frame_readyMark (b : ℕ) : c.Frame (c.readyMark b) := by
  unfold readyMark
  split
  · exact .refl c
  · exact ⟨rfl, fun _ => rfl⟩

/-- Dropping a begun contribution writes slots alone. -/
theorem frame_begunDrop (s : ℕ) : c.Frame (c.begunDrop s) := by
  unfold begunDrop
  split
  · exact .refl c
  · exact (frame_setBinding _ _).trans (frame_setSub _ _)

/-- The deadline stands in the track. -/
theorem frame_lingerArm (t nowUs : ℕ) : c.Frame (c.lingerArm t nowUs) :=
  .ite (frame_setTrack t fun _ => rfl)

/-- So does the list of readers. -/
theorem frame_trackSubUnlink (t s : ℕ) : c.Frame (c.trackSubUnlink t s) := by
  have h₁ : c.Frame (c.setTrack t fun x => { x with subs := x.subs.erase s }) :=
    frame_setTrack t fun _ => rfl
  refine h₁.trans ⟨rfl, fun u => ?_⟩
  exact map_modifyAt Track.log rfl

/-- **The end of a subscription adds no intent and writes no log.** -/
theorem frame_subRetire (s nowUs : ℕ) : c.Frame (c.subRetire s nowUs) := by
  have hunlink : ∀ (c : Core) (t : ℕ), c.Frame ((c.lingerArm t nowUs).trackSubUnlink t s) :=
    fun _ t => (frame_lingerArm t nowUs).trans (frame_trackSubUnlink t s)
  exact (frame_begunDrop s).trans <| (frame_setBinding _ _).trans <|
    (Frame.ite (hunlink _ _)).trans <| (Frame.ite (frame_setBinding _ _)).trans <|
    (Frame.ite (frame_readyMark _)).trans (frame_setSub _ _)

end Core

end MoqRelay
