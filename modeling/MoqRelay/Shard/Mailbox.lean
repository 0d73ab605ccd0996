import MoqRelay.Lib.Pool
import MoqRelay.Shard.Journal

/-!
# Shard/Mailbox — directed mailboxes, and the phases that use them

`mailbox.c`: a directed mailbox holds at most `cap` namespaces, each with its latest net state.  A
push coalesces onto the slot of its namespace; an application moves a slot into the journal of the
destination.  `Shards` is all shards and all mailboxes, and a `ShardMove` is what one of their
threads does under one lock: the last-sent bit belongs to the pusher alone, so it moves with the
push.  The outbound and inbound phases are sequences of moves.
-/

namespace MoqRelay

open List Function

/-- `r_ctrl_msg` of a namespace, its canonical key as `canon`. -/
structure CtrlMsg where
  used : Bool := false
  round : ℕ := 0
  op : RouteOp := .announce
  origin : ℕ := 0
  canon : Canon := []

/-- `r_mailbox`. -/
structure Mailbox where
  slots : ℕ → CtrlMsg
  (cap count : ℕ)

namespace Mailbox

variable (mb : Mailbox)

/-- The slot that holds a namespace. -/
def slotOf (canon : Canon) : Option ℕ :=
  (range mb.cap).find? fun i => (mb.slots i).used && (mb.slots i).canon = canon

/-- The first free slot. -/
def freeSlot : Option ℕ := (range mb.cap).find? fun i => !(mb.slots i).used

/-- `mbox_push`; `none` when every slot holds another namespace, or the key would not allocate. -/
def push (round : ℕ) (op : RouteOp) (origin : ℕ) (canon : Canon) (mem : Bool) : Option Mailbox :=
  match mb.slotOf canon with
  | some i => some { mb with slots := modifyAt mb.slots i fun s => { s with op, round } }
  | none =>
    match mb.freeSlot with
    | none => none
    | some i =>
      if !mem then none
      else some
        { mb with
          slots := update mb.slots i { used := true, round, op, origin, canon }
          count := mb.count + 1 }

/-- A slot released. -/
def release (i : ℕ) : Mailbox :=
  { mb with slots := modifyAt mb.slots i fun s => { s with used := false }, count := mb.count - 1 }

end Mailbox

/-- `shard_apply_slot`; `none` leaves the slot for a later round. -/
def applySlot (m : Mgr) (mb : Mailbox) (i : ℕ) : Option (Mgr × Mailbox) :=
  match (mb.slots i).op with
  | .announce =>
    match m.jrnGet (mb.slots i).canon with
    | none => none
    | some (j, m) => some (m.jrnSetCandidate j (mb.slots i).origin true, mb.release i)
  | .unannounce =>
    some (if (m.jrnFind (mb.slots i).canon).1 then
        m.jrnSetCandidate (m.jrnFind (mb.slots i).canon).2 (mb.slots i).origin false
      else m, mb.release i)

/-! ## All shards -/

/-- `MOQR_SHARDS_MAX`. -/
def shardsMax : ℕ := 64

/-- `moqr_shards_t` of `n` shards: its managers, and its control mailboxes by source and
destination. -/
structure Shards (n : ℕ) where
  count_le : n ≤ shardsMax
  liveVisibility : Bool
  round : ℕ
  mgr : Fin n → Mgr
  mbox : Fin n → Fin n → Mailbox

/-- What one thread does under one lock: the router records a local event, a reconciliation retries
the parked entries or visits one entry, the outbound phase tells one destination or reclaims one
entry, the inbound phase applies one slot, or the round advances. -/
inductive ShardMove (n : ℕ)
  | observe (shard : Fin n) (op : RouteOp) (canon : Option Canon)
  | unpark (shard : Fin n) (roomEpoch : ℕ)
  | reconcile (shard : Fin n) (i : ℕ) (answers : CoreAnswers)
  | push (shard : Fin n) (i : ℕ) (dst : Fin n) (mem : Bool)
  | reclaim (shard : Fin n) (i : ℕ)
  | apply (src dst : Fin n) (slot : ℕ)
  | advance

namespace Shards

variable {n : ℕ} (s : Shards n)

/-- The shards as created. -/
def init (h : n ≤ shardsMax) (liveVisibility : Bool) (mailboxEntries journalEntries : ℕ) :
    Shards n where
  count_le := h
  liveVisibility := liveVisibility
  round := 0
  mgr x := { shard := x, jrnCap := journalEntries }
  mbox _ _ := { slots := fun _ => {}, cap := mailboxEntries, count := 0 }

def setMgr (x : Fin n) (m : Mgr) : Shards n := { s with mgr := update s.mgr x m }

def setMbox (src dst : Fin n) (mb : Mailbox) : Shards n :=
  { s with mbox := update s.mbox src (update (s.mbox src) dst mb) }

/-- The operation that tells a bit. -/
def tells (here : Bool) : RouteOp := if here then .announce else .unannounce

/-- The body of the destination loop of `shard_outbound`. -/
def pushOne (x : Fin n) (i : ℕ) (d : Fin n) (mem : Bool) : Shards n :=
  match (s.mgr x).jrn[i]? with
  | none => s
  | some e =>
    if d = x ∨ e.candidates.getLsbD x = e.sent.getLsbD d then s
    else
      match (s.mbox x d).push s.round (tells (e.candidates.getLsbD x)) x e.canon mem with
      | none => s
      | some mb =>
        (s.setMbox x d mb).setMgr x
          ((s.mgr x).putEntry i { e with sent := withBit e.sent d (e.candidates.getLsbD x) })

/-- An entry `shard_outbound` reclaims. -/
def quiesced (e : JEntry) : Bool :=
  e.candidates = 0 && e.mirror = none && e.sent = 0 && !e.dirty && e.echoAnn = 0 && e.echoUnann = 0

/-- The reclaim of `shard_outbound`. -/
def reclaimOne (x : Fin n) (i : ℕ) : Shards n :=
  match (s.mgr x).jrn[i]? with
  | none => s
  | some e => if quiesced e then s.setMgr x ((s.mgr x).jrnRemove i) else s

/-- A slot `shard_inbound_batch` looks at: used, and not behind the barrier. -/
def visible (slot : CtrlMsg) : Bool := slot.used && (s.liveVisibility || slot.round < s.round)

/-- The body of the slot loop of `shard_inbound_batch`. -/
def applyOne (src dst : Fin n) (i : ℕ) : Shards n :=
  if src = dst ∨ (s.mbox src dst).cap ≤ i ∨ s.visible ((s.mbox src dst).slots i) = false then s
  else
    match applySlot (s.mgr dst) (s.mbox src dst) i with
    | none => s
    | some (m, mb) => (s.setMbox src dst mb).setMgr dst m

/-- The shards after a move. -/
def step : ShardMove n → Shards n
  | .observe x op canon => s.setMgr x ((s.mgr x).observe op canon)
  | .unpark x roomEpoch => s.setMgr x ((s.mgr x).unpark roomEpoch)
  | .reconcile x i answers => s.setMgr x ((s.mgr x).reconcileAt i answers)
  | .push x i d mem => s.pushOne x i d mem
  | .reclaim x i => s.reclaimOne x i
  | .apply src dst i => s.applyOne src dst i
  | .advance => { s with round := s.round + 1 }

/-- The shards after a sequence of moves. -/
def run (moves : List (ShardMove n)) : Shards n := moves.foldl step s

/-! ## The phases of a round -/

/-- `shard_inbound_batch`: every slot of every mailbox of the destination. -/
def inboundBatch (dst : Fin n) : Shards n :=
  s.run ((finRange n).flatMap fun src =>
    (range (s.mbox src dst).cap).map fun i => .apply src dst i)

/-- `shard_reconcile`: the entries in the order of their keys. -/
def reconcile (x : Fin n) (roomEpoch : ℕ) (answers : ℕ → CoreAnswers) : Shards n :=
  s.run (.unpark x roomEpoch ::
    (range (s.mgr x).jrn.length).map fun i => .reconcile x i (answers i))

/-- `shard_outbound` from an index on; `mem` says which keys allocate. -/
def outboundFrom (x : Fin n) (mem : ℕ → Fin n → Bool) (s : Shards n) : ℕ → ℕ → Shards n
  | 0, _ => s
  | k + 1, i =>
    if (s.mgr x).jrn.length ≤ i then s
    else
      let told := s.run ((finRange n).map fun d => .push x i d (mem k d))
      if ((told.mgr x).jrn[i]?).any quiesced then outboundFrom x mem (told.reclaimOne x i) k i
      else outboundFrom x mem told k (i + 1)

/-- `shard_outbound`. -/
def outbound (x : Fin n) (mem : ℕ → Fin n → Bool) : Shards n :=
  outboundFrom x mem s (s.mgr x).jrn.length 0

end Shards

end MoqRelay
