import MoqRelay.Basic
import MoqRelay.Lib.Pool

/-!
# Session/FillOwner — the ownership table of fills

`fill_owner.c`: every fill a subscription owns, on either side, is an entry of a caller-sized table,
named by slot, generation and parent.  A call that names one entry looks it up and either refuses or
updates that entry in place, so the updates are functions of the entry; only opening, binding a
stream and clearing look at the table.

Storage of `capacity` entries exists, so of `table_valid` only the occupancy test is left.
-/

namespace MoqRelay

/-- `MOQ_FILL_PARENT_*`; `other` is any value but the two. -/
inductive FillFamily
  | other | subscribe | publish
  deriving DecidableEq, Repr, Inhabited

/-- `MOQ_FILL_SUBSCRIBER`, `MOQ_FILL_PUBLISHER`. -/
inductive FillRole
  | other | subscriber | publisher
  deriving DecidableEq, Repr, Inhabited

/-- `MOQ_FILL_OUTCOME_*`. -/
inductive FillOutcome
  | other | stream | noStream
  deriving DecidableEq, Repr, Inhabited

/-- `MOQ_FILL_CONTROL_*`. -/
inductive FillControl
  | pending | accepted | rejected | reset
  deriving DecidableEq, Repr, Inhabited

/-- `MOQ_FILL_TERM_*`. -/
inductive FillTerm
  | none | complete | noStream | cancelled | aborted | reset | parentCancelled | controlRejected
  deriving DecidableEq, Repr, Inhabited

/-- `MOQ_FILL_ACTION_*`. -/
inductive FillAction
  | none | header | fin | reset | stop
  deriving DecidableEq, Repr, Inhabited

/-- `moq_fill_parent_t`. -/
structure FillParent where
  family : FillFamily := .other
  slot : ℕ := 0
  generation : ℕ := 0
  deriving DecidableEq, Repr, Inhabited

/-- `parent_valid`. -/
def FillParent.valid (p : FillParent) : Bool :=
  p.generation ≠ 0 && (p.family = .subscribe || p.family = .publish)

/-- `moq_fill_ref_t`. -/
structure FillRef where
  (slot generation : ℕ)
  parent : FillParent
  deriving DecidableEq, Repr, Inhabited

/-- `moq_fill_delivery_t`. -/
structure FillDelivery where
  outcome : FillOutcome := .other
  groupOrder : ℕ := 0
  startGroup : ℕ := 0
  startObject : ℕ := 0
  endGroup : ℕ := 0
  endObject : ℕ := 0
  processedAtUs : ℕ := 0
  fillTimeoutMs : ℕ := 0
  subscriberPriority : ℕ := 0
  hasFillTimeout : Bool := false
  deriving DecidableEq, Repr, Inhabited

/-- `delivery_valid`. -/
def FillDelivery.valid (d : FillDelivery) : Bool :=
  d.outcome = .noStream ||
    (d.outcome = .stream && (d.groupOrder = 1 || d.groupOrder = 2) &&
      (d.startGroup < d.endGroup ||
        (d.endGroup = d.startGroup && d.startObject ≤ d.endObject)))

/-- `moq_fill_entry_t`; the defaults are the zeroed entry. -/
structure FillEntry where
  generation : ℕ := 0
  active : Bool := false
  parent : FillParent := {}
  initiatingId : ℕ := 0
  role : FillRole := .other
  control : FillControl := .pending
  deliveryKnown : Bool := false
  delivery : FillDelivery := {}
  streamBound : Bool := false
  stream : ℕ := 0
  dataFin : Bool := false
  dataReset : Bool := false
  dataLocalRetired : Bool := false
  stopCommitted : Bool := false
  peerStop : Bool := false
  cancelRequested : Bool := false
  abortRequested : Bool := false
  finishRequested : Bool := false
  parentCancelled : Bool := false
  streamAccounted : Bool := false
  terminalReason : FillTerm := .none
  terminalPublished : Bool := false
  terminalRetired : Bool := false
  deriving DecidableEq, Repr, Inhabited

/-- `moq_fill_reservation_t`. -/
structure FillReservation where
  ref : FillRef
  initiatingId : ℕ
  role : FillRole
  deliveryKnown : Bool
  delivery : FillDelivery
  deriving DecidableEq, Repr, Inhabited

/-- `moq_fill_work_t`. -/
structure FillWork where
  action : FillAction
  (accountStream publishTerminal : Bool)
  terminalReason : FillTerm
  reclaimable : Bool
  deriving DecidableEq, Repr, Inhabited

/-! ## One entry -/

namespace FillEntry

variable (e : FillEntry)

/-- `reason_first`. -/
def reasonFirst (reason : FillTerm) : FillEntry :=
  if e.terminalReason = .none then { e with terminalReason := reason } else e

/-- `data_terminal`. -/
def dataTerminal : Bool := e.streamBound && (e.dataFin || e.dataReset)

/-- `stream_ended`: the bound stream is over. -/
def streamEnded : Bool := e.dataTerminal || (e.streamBound && e.dataLocalRetired)

/-- The delivery is known to use no stream. -/
def noStream : Bool := e.deliveryKnown && e.delivery.outcome = .noStream

/-- `no_stream_proven`. -/
def noStreamProven : Bool := e.control = .accepted && e.noStream

/-- `stopping`. -/
def stopping : Bool :=
  e.cancelRequested || e.abortRequested || e.parentCancelled || e.peerStop ||
    e.control = .rejected || e.control = .reset

/-- `data_settled`. -/
def dataSettled : Bool :=
  if e.streamBound then e.streamEnded && e.streamAccounted
  else if e.noStreamProven then true
  else e.role = .publisher &&
    (e.parentCancelled || e.control = .rejected || e.control = .reset)

/-- `next_action`. -/
def nextAction : FillAction :=
  if e.streamEnded then .none
  else if e.role = .subscriber then
    if e.streamBound && e.stopping && !e.stopCommitted then .stop else .none
  else if e.streamBound then
    if e.stopping then .reset else if e.finishRequested then .fin else .none
  else if e.parentCancelled || e.control ≠ .accepted || !e.deliveryKnown ||
      e.delivery.outcome ≠ .stream then .none
  else .header

/-- `terminal_ready`. -/
def terminalReady : Bool :=
  if e.terminalReason = .none || e.terminalPublished then false
  else if e.role = .subscriber then e.dataTerminal || e.stopping || e.noStreamProven
  else e.dataTerminal || (!e.streamBound && e.dataSettled)

/-- `reclaimable`. -/
def reclaimable : Bool :=
  e.control ≠ .pending && (e.control ≠ .accepted || e.deliveryKnown) &&
    e.terminalPublished && e.terminalRetired && e.dataSettled

/-- `moq_fill_control_response`. -/
def controlResponse (id : ℕ) (accepted : Bool) : MoqResult × FillEntry :=
  if e.initiatingId ≠ id then (.inval, e)
  else if e.control ≠ .pending then (.wrongState, e)
  else if !accepted then (.ok, { e with control := .rejected }.reasonFirst .controlRejected)
  else if e.noStream then (.ok, { e with control := .accepted }.reasonFirst .noStream)
  else (.ok, { e with control := .accepted })

/-- `moq_fill_control_reset`. -/
def controlReset (id : ℕ) : MoqResult × FillEntry :=
  if e.initiatingId ≠ id then (.inval, e)
  else if e.control = .reset then (.ok, e)
  else if e.control ≠ .pending then (.wrongState, e)
  else (.ok, { e with control := .reset, parentCancelled := true }.reasonFirst .parentCancelled)

/-- `e->delivery = *d`, as `moq_fill_resolve_delivery` records it. -/
def recordDelivery (d : FillDelivery) : FillEntry :=
  let e := { e with delivery := d, deliveryKnown := true }
  if e.noStreamProven then e.reasonFirst .noStream else e

/-- `moq_fill_resolve_delivery`, past the lookup. -/
def resolveDelivery (id : ℕ) (d : FillDelivery) : MoqResult × FillEntry :=
  if e.initiatingId ≠ id then (.inval, e)
  else if e.deliveryKnown then (if e.delivery = d then .ok else .wrongState, e)
  else if e.streamBound && d.outcome = .noStream then (.proto, e)
  else (.ok, e.recordDelivery d)

/-- `moq_fill_cancel`. -/
def cancel : MoqResult × FillEntry :=
  if e.role ≠ .subscriber then (.wrongState, e)
  else if e.cancelRequested then (.ok, e)
  else if e.dataTerminal || e.noStreamProven then (.wrongState, e)
  else (.ok, { e with cancelRequested := true }.reasonFirst .cancelled)

/-- `moq_fill_abort`. -/
def abort : MoqResult × FillEntry :=
  if e.role ≠ .publisher then (.wrongState, e)
  else if e.abortRequested then (.ok, e)
  else if e.dataTerminal || e.noStream || e.parentCancelled || e.control = .rejected ||
      e.control = .reset then (.wrongState, e)
  else (.ok, { e with abortRequested := true }.reasonFirst .aborted)

/-- `moq_fill_finish`. -/
def finish : MoqResult × FillEntry :=
  if e.role ≠ .publisher then (.wrongState, e)
  else if e.finishRequested then (.ok, e)
  else if !e.streamBound || e.dataTerminal || e.stopping then (.wrongState, e)
  else (.ok, { e with finishRequested := true })

/-- `moq_fill_parent_cancel`. -/
def parentCancel : MoqResult × FillEntry :=
  (.ok, { e with parentCancelled := true }.reasonFirst .parentCancelled)

/-- `bind_stream`, past the lookup; `taken` says whether an entry already holds the stream. -/
def bindStream (stream : ℕ) (role : FillRole) (taken : Bool) : MoqResult × FillEntry :=
  if e.role ≠ role then (.wrongState, e)
  else if e.streamBound then (if e.stream = stream then .ok else .proto, e)
  else if e.noStream then (.proto, e)
  else if role = .publisher && e.nextAction ≠ .header then (.wrongState, e)
  else if taken then (.proto, e)
  else (.ok, { e with streamBound := true, stream := stream })

/-- `receive_terminal`. -/
def receiveTerminal (stream : ℕ) (reset : Bool) : MoqResult × FillEntry :=
  if e.role ≠ .subscriber || !e.streamBound || e.stream ≠ stream then (.wrongState, e)
  else if e.streamEnded then (.ok, e)
  else if reset then (.ok, { e with dataReset := true }.reasonFirst .reset)
  else (.ok, { e with dataFin := true }.reasonFirst .complete)

/-- `moq_fill_local_retired`. -/
def localRetired (stream : ℕ) : MoqResult × FillEntry :=
  if e.role ≠ .subscriber || !e.streamBound || e.stream ≠ stream || !e.stopCommitted then
    (.wrongState, e)
  else if e.streamEnded then (.ok, e)
  else (.ok, { e with dataLocalRetired := true })

/-- `moq_fill_peer_stop`. -/
def receivePeerStop (stream : ℕ) : MoqResult × FillEntry :=
  if e.role ≠ .publisher || !e.streamBound || e.stream ≠ stream then (.wrongState, e)
  else if e.dataTerminal then (.ok, { e with peerStop := true })
  else (.ok, { e with peerStop := true }.reasonFirst .reset)

/-- The action was committed before. -/
def committed (action : FillAction) : Bool :=
  (action = .fin && e.dataFin && e.role = .publisher) ||
    (action = .reset && e.dataReset && e.role = .publisher) ||
    (action = .stop && e.stopCommitted && e.role = .subscriber)

/-- `moq_fill_action_committed`. -/
def actionCommitted (action : FillAction) : MoqResult × FillEntry :=
  if action = .none || action = .header then (.inval, e)
  else if e.committed action then (.ok, e)
  else if e.nextAction ≠ action then (.wrongState, e)
  else if action = .stop then (.ok, { e with stopCommitted := true })
  else if action = .fin then (.ok, { e with dataFin := true }.reasonFirst .complete)
  else (.ok, { e with dataReset := true }.reasonFirst .reset)

/-- `moq_fill_stream_accounted`. -/
def accountStream : MoqResult × FillEntry :=
  if !e.streamEnded || e.streamAccounted then (.wrongState, e)
  else (.ok, { e with streamAccounted := true })

/-- `moq_fill_terminal_committed`. -/
def terminalCommitted : MoqResult × FillEntry :=
  if !e.terminalReady then (.wrongState, e) else (.ok, { e with terminalPublished := true })

/-- `moq_fill_terminal_retired`. -/
def retireTerminal : MoqResult × FillEntry :=
  if !e.terminalPublished then (.wrongState, e) else (.ok, { e with terminalRetired := true })

/-- The work `moq_fill_next` reports. -/
def work : FillWork where
  action := e.nextAction
  accountStream := e.streamEnded && !e.streamAccounted
  publishTerminal := e.terminalReady
  terminalReason := e.terminalReason
  reclaimable := e.reclaimable

/-- A cleared entry: all zero but its generation. -/
def cleared : FillEntry := { generation := e.generation }

end FillEntry

/-! ## The table -/

/-- `moq_fill_table_t`. -/
structure FillTable where
  entries : ℕ → FillEntry
  (capacity live : ℕ)

namespace FillTable

variable (t : FillTable)

/-- `moq_fill_table_init`. -/
def init (capacity : ℕ) : FillTable := ⟨fun _ => {}, capacity, 0⟩

/-- `table_valid`. -/
def valid : Bool := t.live ≤ t.capacity

/-- `lookup`. -/
def lookup (ref : FillRef) : Option FillEntry :=
  if !t.valid || t.capacity ≤ ref.slot || ref.generation = 0 then none
  else if (t.entries ref.slot).active && (t.entries ref.slot).generation = ref.generation &&
      (t.entries ref.slot).parent = ref.parent then some (t.entries ref.slot)
  else none

/-- An active entry of the table has the property. -/
def anyActive (p : FillEntry → Bool) : Bool :=
  (List.range t.capacity).any fun i => (t.entries i).active && p (t.entries i)

def setEntry (i : ℕ) (e : FillEntry) : FillTable :=
  { t with entries := Function.update t.entries i e }

/-- `lookup_mut`, then an update of that entry. -/
def onEntry (ref : FillRef) (f : FillEntry → MoqResult × FillEntry) : MoqResult × FillTable :=
  match t.lookup ref with
  | none => (.staleHandle, t)
  | some e => ((f e).1, t.setEntry ref.slot (f e).2)

/-- `moq_fill_prepare`. -/
def prepare (parent : FillParent) (id : ℕ) (role : FillRole) (delivery : Option FillDelivery) :
    MoqResult × Option FillReservation :=
  if !t.valid || !parent.valid || role = .other || !(delivery.all (·.valid)) then (.inval, none)
  else if t.anyActive (·.initiatingId = id) then (.wrongState, none)
  else match (List.range t.capacity).find? fun i =>
      !(t.entries i).active && (t.entries i).generation ≠ u64Max with
    | none => (.requestBlocked, none)
    | some slot => (.ok, some
        { ref := ⟨slot, (t.entries slot).generation + 1, parent⟩, initiatingId := id, role
          deliveryKnown := delivery.isSome, delivery := delivery.getD {} })

/-- `moq_fill_check_commit`. -/
def checkCommit (r : FillReservation) : MoqResult :=
  if !t.valid || !r.ref.parent.valid || r.role = .other ||
      (r.deliveryKnown && !r.delivery.valid) then .inval
  else if t.capacity ≤ r.ref.slot then .staleHandle
  else if (t.entries r.ref.slot).active || (t.entries r.ref.slot).generation = u64Max ||
      r.ref.generation ≠ (t.entries r.ref.slot).generation + 1 then .staleHandle
  else if t.capacity ≤ t.live then .requestBlocked
  else if t.anyActive (·.initiatingId = r.initiatingId) then .wrongState
  else .ok

/-- The entry `moq_fill_commit` writes. -/
def opened (r : FillReservation) : FillEntry where
  active := true
  generation := r.ref.generation
  parent := r.ref.parent
  initiatingId := r.initiatingId
  role := r.role
  deliveryKnown := r.deliveryKnown
  delivery := if r.deliveryKnown then r.delivery else {}

/-- `moq_fill_commit`. -/
def commit (r : FillReservation) : MoqResult × FillTable :=
  if t.checkCommit r ≠ .ok then (t.checkCommit r, t)
  else (.ok, { t.setEntry r.ref.slot (opened r) with live := t.live + 1 })

/-- `moq_fill_find`. -/
def find (id : ℕ) : MoqResult × Option FillRef :=
  if !t.valid then (.inval, none)
  else match (List.range t.capacity).find? fun i =>
      (t.entries i).active && (t.entries i).initiatingId = id with
    | none => (.staleHandle, none)
    | some i => (.ok, some ⟨i, (t.entries i).generation, (t.entries i).parent⟩)

/-- `moq_fill_read`. -/
def read (ref : FillRef) : MoqResult × Option FillEntry :=
  match t.lookup ref with
  | none => (.staleHandle, none)
  | some e => (.ok, some e)

/-- `moq_fill_next`. -/
def next (ref : FillRef) : MoqResult × Option FillWork :=
  match t.lookup ref with
  | none => (.staleHandle, none)
  | some e => (.ok, some e.work)

/-- `moq_fill_resolve_delivery`; `none` is a null snapshot. -/
def resolveDelivery (ref : FillRef) (id : ℕ) : Option FillDelivery → MoqResult × FillTable
  | none => (.inval, t)
  | some d => if !d.valid then (.inval, t) else t.onEntry ref (·.resolveDelivery id d)

/-- An active entry holds the stream. -/
def streamTaken (stream : ℕ) : Bool := t.anyActive fun e => e.streamBound && e.stream = stream

/-- `bind_stream`. -/
def bindStream (ref : FillRef) (stream : ℕ) (role : FillRole) : MoqResult × FillTable :=
  if stream = 0 then (.inval, t)
  else t.onEntry ref (·.bindStream stream role (t.streamTaken stream))

/-- The tail of `moq_fill_reclaim` and `moq_fill_release_unbound`. -/
def clear (slot : ℕ) : FillTable :=
  { t.setEntry slot (t.entries slot).cleared with live := t.live - 1 }

/-- `moq_fill_reclaim`. -/
def reclaim (ref : FillRef) : MoqResult × FillTable :=
  match t.lookup ref with
  | none => (.staleHandle, t)
  | some e => if !e.reclaimable then (.wouldBlock, t) else (.ok, t.clear ref.slot)

/-- `moq_fill_release_unbound`. -/
def releaseUnbound (ref : FillRef) : MoqResult × FillTable :=
  match t.lookup ref with
  | none => (.staleHandle, t)
  | some e =>
    if e.streamBound || !e.terminalPublished then (.wrongState, t) else (.ok, t.clear ref.slot)

end FillTable

/-! ## Calls -/

/-- A call on the table. -/
inductive FillOp
  | prepare (parent : FillParent) (id : ℕ) (role : FillRole) (delivery : Option FillDelivery)
  | commit (r : FillReservation)
  | find (id : ℕ)
  | read (ref : FillRef)
  | controlResponse (ref : FillRef) (id : ℕ) (accepted : Bool)
  | controlReset (ref : FillRef) (id : ℕ)
  | resolveDelivery (ref : FillRef) (id : ℕ) (d : Option FillDelivery)
  | cancel (ref : FillRef)
  | abort (ref : FillRef)
  | finish (ref : FillRef)
  | parentCancel (ref : FillRef)
  | bindReceived (ref : FillRef) (stream : ℕ)
  | headerCommitted (ref : FillRef) (stream : ℕ)
  | peerFin (ref : FillRef) (stream : ℕ)
  | peerReset (ref : FillRef) (stream : ℕ)
  | localRetired (ref : FillRef) (stream : ℕ)
  | peerStop (ref : FillRef) (stream : ℕ)
  | actionCommitted (ref : FillRef) (action : FillAction)
  | next (ref : FillRef)
  | streamAccounted (ref : FillRef)
  | terminalCommitted (ref : FillRef)
  | terminalRetired (ref : FillRef)
  | reclaim (ref : FillRef)
  | releaseUnbound (ref : FillRef)
  | publisherClear (parent : FillParent)
  deriving DecidableEq, Repr

namespace FillTable

/-- What a call answers, and the table after it. -/
def call (t : FillTable) : FillOp → MoqResult × FillTable
  | .prepare parent id role delivery => ((t.prepare parent id role delivery).1, t)
  | .commit r => t.commit r
  | .find id => ((t.find id).1, t)
  | .read ref => ((t.read ref).1, t)
  | .controlResponse ref id accepted => t.onEntry ref (·.controlResponse id accepted)
  | .controlReset ref id => t.onEntry ref (·.controlReset id)
  | .resolveDelivery ref id d => t.resolveDelivery ref id d
  | .cancel ref => t.onEntry ref (·.cancel)
  | .abort ref => t.onEntry ref (·.abort)
  | .finish ref => t.onEntry ref (·.finish)
  | .parentCancel ref => t.onEntry ref (·.parentCancel)
  | .bindReceived ref stream => t.bindStream ref stream .subscriber
  | .headerCommitted ref stream => t.bindStream ref stream .publisher
  | .peerFin ref stream => t.onEntry ref (·.receiveTerminal stream false)
  | .peerReset ref stream => t.onEntry ref (·.receiveTerminal stream true)
  | .localRetired ref stream => t.onEntry ref (·.localRetired stream)
  | .peerStop ref stream => t.onEntry ref (·.receivePeerStop stream)
  | .actionCommitted ref action => t.onEntry ref (·.actionCommitted action)
  | .next ref => ((t.next ref).1, t)
  | .streamAccounted ref => t.onEntry ref (·.accountStream)
  | .terminalCommitted ref => t.onEntry ref (·.terminalCommitted)
  | .terminalRetired ref => t.onEntry ref (·.retireTerminal)
  | .reclaim ref => t.reclaim ref
  | .releaseUnbound ref => t.releaseUnbound ref
  | .publisherClear _ => (.ok, t)

/-- The table after a call. -/
def step (t : FillTable) (op : FillOp) : FillTable := (t.call op).2

/-- The table after a sequence of calls. -/
def run (t : FillTable) (ops : List FillOp) : FillTable := ops.foldl step t

end FillTable

end MoqRelay
