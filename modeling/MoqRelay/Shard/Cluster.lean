import MoqRelay.Core.State
import MoqRelay.Lib.Latest
import MoqRelay.Lib.Pool
import MoqRelay.Lib.Trace
import MoqRelay.Shard.Journal

/-!
# Shard/Cluster — a source's routes on their way to one destination shard

In cluster mode a shard exports its own routes by their slot in the core's pool.  `mailbox.c` keeps
the last exported state of every slot, and a directed mailbox holds at most one message per slot: a
push replaces the message it finds there, and when the mailbox is full a withdrawal takes the one
extra slot, where no re-announcement may replace it.  The destination imports a message into its
mirrored routes; a message of another incarnation than the mirrored one withdraws that one first.

The answers of the destination's core that depend on the rest of its state (room, intents, sequence
numbers) are inputs of an import.  `ClusterLink` is one source, one destination and the mailbox
between them; a `ClusterMove` is what one of the two threads does under one lock.
-/

namespace MoqRelay

/-! ## Routes, exported and mirrored -/

/-- `moqr_cluster_export_t` of a used route that is not itself a mirror, with the key of its
namespace.  The serial of its advertisement is the lifetime of the route, never zero. -/
structure ClusterRecord where
  canon : Canon
  advertisement : AdvertisementId
  serial_ne_zero : advertisement.serial ≠ 0
  (sourceSessionCookie revision accumulatedCost : ℕ)
  (warm hasRouteCost : Bool)
  routeCost : ℕ
  hopIds : List ℕ
  (sourcePeerHopId sourceCorrelationId : ℕ)
  deriving DecidableEq

/-- The fields of a mirrored `r_cluster_route_t` that come from its source, the node as the key of
its namespace. -/
structure ClusterMirror where
  canon : Canon
  original : AdvertisementId
  inheritedWarm : Bool
  path : List ℕ
  (sessionCookie sourcePeerHopId sourceCorrelationId cost seedCost : ℕ)
  deriving DecidableEq

/-- What an import writes. -/
def ClusterRecord.mirror (r : ClusterRecord) : ClusterMirror where
  canon := r.canon
  original := r.advertisement
  inheritedWarm := r.warm
  path := r.hopIds
  sessionCookie := r.sourceSessionCookie
  sourcePeerHopId := r.sourcePeerHopId
  sourceCorrelationId := r.sourceCorrelationId
  cost := r.accumulatedCost
  seedCost := r.routeCost

/-- The state of a source slot: the route it exports, or nothing. -/
abbrev ClusterState := Option ClusterRecord

/-! ## Imports -/

/-- Why an import is refused other than for the wrong state. -/
inductive ImportRefusal
  | wouldBlock | capacity | inval | limit | nomem
  deriving DecidableEq

inductive ImportResult
  | ok | wrongState | refused (why : ImportRefusal)
  deriving DecidableEq

/-- What the rest of the destination's core says to one import. -/
structure ImportAnswers where
  /-- the advertisement's handle is a binding of the source shard -/
  tagged : Bool := true
  /-- the namespace is well formed and there is a hop -/
  wellFormed : Bool := true
  /-- the hops fit `max_cluster_hops` -/
  hopsFit : Bool := true
  /-- a route slot is free -/
  routeFree : Bool := true
  /-- `cluster_sequence` is not exhausted -/
  sequenceLeft : Bool := true
  /-- the intents of the change fit the ring -/
  intentSpace : Bool := true
  /-- what making room for a missing node, or creating it, fails with -/
  nodeRefused : Option ImportRefusal := none

section

variable (route : Option ClusterMirror)

/-- `moqr_core_internal_cluster_import` of a withdrawal. -/
def clusterWithdraw (a : ImportAnswers) : ImportResult × Option ClusterMirror :=
  match route with
  | none => (.ok, none)
  | some m => if a.intentSpace then (.ok, none) else (.refused .wouldBlock, some m)

/-- `moqr_core_internal_cluster_import` of a route. -/
def clusterAnnounce (r : ClusterRecord) (a : ImportAnswers) : ImportResult × Option ClusterMirror :=
  if !a.tagged then (.refused .inval, route)
  else if route.any (·.original ≠ r.advertisement) then (.wrongState, route)
  else if !a.wellFormed then (.refused .inval, route)
  else if !a.hopsFit then (.refused .capacity, route)
  else if route.isNone && !a.routeFree then (.refused .capacity, route)
  else if !a.sequenceLeft then (.refused .limit, route)
  else if route.any (·.canon ≠ r.canon) then (.wrongState, route)
  else if !a.intentSpace then (.refused .wouldBlock, route)
  else
    match route, a.nodeRefused with
    | none, some why => (.refused why, none)
    | _, _ => (.ok, some r.mirror)

/-- `moqr_core_internal_cluster_import`, on the mirrored route of the record's source slot. -/
def clusterImport (st : ClusterState) (a : ImportAnswers) : ImportResult × Option ClusterMirror :=
  match st with
  | none => clusterWithdraw route a
  | some r => clusterAnnounce route r a

end

/-- The core's answers to the imports of one message, in their order. -/
structure ApplyAnswers where
  first : ImportAnswers := {}
  withdraw : ImportAnswers := {}
  again : ImportAnswers := {}

/-- The cluster branch of `shard_apply_slot`: whether the message is consumed, the mirrored route
after it, and the imports that went through. -/
def applyCluster (route : Option ClusterMirror) (st : ClusterState) (a : ApplyAnswers) :
    Bool × Option ClusterMirror × List ClusterState :=
  match clusterImport route st a.first with
  | (.ok, route) => (true, route, [st])
  | (.refused _, route) => (false, route, [])
  | (.wrongState, route) =>
    if st.isNone then (false, route, [])
    else
      -- the old lifetime withdraws before its replacement is imported
      match clusterImport route none a.withdraw with
      | (.ok, route) =>
        match clusterImport route st a.again with
        | (.ok, route) => (true, route, [none, st])
        | (_, route) => (false, route, [none])
      | (_, route) => (false, route, [])

/-! ## The mailbox -/

/-- `r_ctrl_msg` with `cluster` set; `record` is present when `op` is an announcement. -/
structure ClusterMsg where
  used : Bool := false
  round : ℕ := 0
  origin : ℕ := 0
  sourceIndex : ℕ := 0
  record : ClusterState := none

/-- `r_mailbox` in cluster mode: slots `0` to `cap - 1`, and the extra one at `cap`. -/
structure ClusterBox where
  slots : ℕ → ClusterMsg
  (cap count : ℕ)

namespace ClusterBox

variable (mb : ClusterBox)

/-- `withdrawal`. -/
def withdrawal : ClusterMsg := mb.slots mb.cap

/-- The slot that holds a source slot's message. -/
def slotOf (index : ℕ) : Option ℕ :=
  (List.range mb.cap).find? fun i => (mb.slots i).used && (mb.slots i).sourceIndex = index

/-- The first free slot. -/
def freeSlot : Option ℕ := (List.range mb.cap).find? fun i => !(mb.slots i).used

/-- The slot `mbox_push_cluster` writes. -/
def pushSlot (index : ℕ) (st : ClusterState) : Option ℕ :=
  if mb.withdrawal.used && mb.withdrawal.sourceIndex = index then
    -- a re-announcement does not overtake a published withdrawal
    if st.isNone then some mb.cap else none
  else
    match mb.slotOf index with
    | some i => some i
    | none =>
      match mb.freeSlot with
      | some i => some i
      | none => if st.isNone && !mb.withdrawal.used then some mb.cap else none

/-- A slot filled. -/
def write (i round origin index : ℕ) (st : ClusterState) : ClusterBox :=
  { mb with
    slots := Function.update mb.slots i
      { used := true, round, origin, sourceIndex := index, record := st }
    count := if (mb.slots i).used then mb.count else mb.count + 1 }

/-- `mbox_push_cluster`; `mem` says whether the key and the hops of a route allocate. -/
def pushCluster (round origin index : ℕ) (st : ClusterState) (mem : Bool) : Option ClusterBox :=
  if st.isSome && !mem then none
  else (mb.pushSlot index st).map fun i => mb.write i round origin index st

/-- A slot released. -/
def release (i : ℕ) : ClusterBox :=
  { mb with slots := modifyAt mb.slots i fun s => { s with used := false }, count := mb.count - 1 }

end ClusterBox

/-! ## One source and one destination -/

/-- `r_cluster_snapshot`: the state of a source slot as last captured, and whether the destination
was sent it. -/
structure ClusterSnapshot where
  state : ClusterState := none
  sent : Bool := false

/-- A source shard, a destination shard and the mailbox from one to the other. -/
structure ClusterLink where
  liveVisibility : Bool
  (round src : ℕ)
  snapshots : ℕ → ClusterSnapshot
  box : ClusterBox
  mirrors : ℕ → Option ClusterMirror

/-- What one thread does under one lock: the outbound phase captures what the source's core exports
for a slot, or sends a slot to the destination; the inbound phase applies a message; the round
advances. -/
inductive ClusterMove
  | capture (index : ℕ) (exported : ClusterState)
  | push (index : ℕ) (mem : Bool)
  | apply (slot : ℕ) (answers : ApplyAnswers)
  | advance

/-- What a move shows: a state handed to the mailbox, an import that went through, or a message
consumed. -/
inductive ClusterEvent
  | published (index : ℕ) (st : ClusterState)
  | imported (index : ℕ) (st : ClusterState)
  | delivered (index : ℕ) (st : ClusterState)
  deriving DecidableEq

namespace ClusterEvent

variable (index : ℕ)

def publishedAt : ClusterEvent → Option ClusterState
  | published i st => if i = index then some st else none
  | _ => none

def importedAt : ClusterEvent → Option ClusterState
  | imported i st => if i = index then some st else none
  | _ => none

def deliveredAt : ClusterEvent → Option ClusterState
  | delivered i st => if i = index then some st else none
  | _ => none

/-- What applying a message shows: its imports, and its delivery if it is consumed. -/
def applied (st : ClusterState) (consumed : Bool) (imports : List ClusterState) :
    List ClusterEvent :=
  imports.map (.imported index) ++ if consumed then [.delivered index st] else []

end ClusterEvent

namespace ClusterLink

open ClusterEvent Function

variable (l : ClusterLink)

/-- The two shards as created: `mgr_create` starts every snapshot as sent to all. -/
def init (liveVisibility : Bool) (src mailboxEntries : ℕ) : ClusterLink where
  liveVisibility := liveVisibility
  round := 0
  src := src
  snapshots _ := { sent := true }
  box := { slots := fun _ => {}, cap := mailboxEntries, count := 0 }
  mirrors _ := none

/-- The capture of `shard_cluster_outbound`: a state that changed is unsent. -/
def capture (index : ℕ) (exported : ClusterState) : ClusterLink :=
  if (l.snapshots index).state = exported then l
  else { l with snapshots := update l.snapshots index { state := exported } }

/-- The push of `shard_cluster_outbound`. -/
def push (index : ℕ) (mem : Bool) : ClusterLink × List ClusterEvent :=
  if (l.snapshots index).sent then (l, [])
  else
    match l.box.pushCluster l.round l.src index (l.snapshots index).state mem with
    | none => (l, [])
    | some box =>
      ({ l with
          box
          snapshots := modifyAt l.snapshots index fun s => { s with sent := true } },
        [.published index (l.snapshots index).state])

/-- A slot `shard_inbound_batch` looks at: used, and not behind the barrier. -/
def visible (i : ℕ) : Bool :=
  (l.box.slots i).used && (l.liveVisibility || (l.box.slots i).round < l.round)

/-- The body of `shard_inbound_batch`, for the extra slot or one of the others. -/
def apply (i : ℕ) (a : ApplyAnswers) : ClusterLink × List ClusterEvent :=
  if l.box.cap < i ∨ l.visible i = false then (l, [])
  else
    let msg := l.box.slots i
    let (consumed, route, imports) := applyCluster (l.mirrors msg.sourceIndex) msg.record a
    ({ l with
        box := if consumed then l.box.release i else l.box
        mirrors := update l.mirrors msg.sourceIndex route },
      applied msg.sourceIndex msg.record consumed imports)

/-- A move, and what it shows. -/
def act : ClusterMove → ClusterLink × List ClusterEvent
  | .capture i exported => (l.capture i exported, [])
  | .push i mem => l.push i mem
  | .apply i a => l.apply i a
  | .advance => ({ l with round := l.round + 1 }, [])

/-- The link after a move. -/
def step (m : ClusterMove) : ClusterLink := (l.act m).1

/-- The link after a sequence of moves. -/
def run (moves : List ClusterMove) : ClusterLink := moves.foldl step l

/-- What a sequence of moves shows. -/
def events (moves : List ClusterMove) : List ClusterEvent :=
  trace step (fun l m => (l.act m).2) l moves

end ClusterLink

end MoqRelay
