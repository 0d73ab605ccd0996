import MoqRelay.Bridge.StreamOrder
import MoqRelay.Lib.Queue

/-!
# Session/Actions — the action queue, and what the next poll takes from it

`session.c`: actions wait in a ring, each with a scheduling record.  A poll takes one of them, which
need not be the first: data is taken in the order of priorities, within what may overtake what.
Three routines choose: the plain one among the leading data actions, one that passes over a
PUBLISH_DONE whose owner is not ready, and one that takes data of mapped streams only.

An action carries a `body`, which no routine reads.  Which owners still owe a terminal
(`action_waits_for_terminal`) is an argument of a poll, as are the answers of its callbacks.  The
terminals that a poll takes out of band, from the subgroups and not from the ring, are left out, and
so is what happens to other tables when an action is handed over.
-/

namespace MoqRelay

/-! ## Actions -/

/-- The kinds of `moq_action_t`, with the stream each acts on. -/
inductive SessionAction
  | sendControl
  | closeSession
  | sendData (ref : UInt64)
  | resetData (ref : UInt64)
  | stopData (ref : UInt64)
  | openBidiStream (ref : UInt64)
  | sendBidiStream (ref : UInt64)
  | closeBidiStream (ref : UInt64)
  | sendDatagram
  | openUniControl (ref : UInt64)
  | sendUniControl (ref : UInt64)
  | resetBidiStream (ref : UInt64)
  | stopBidiStream (ref : UInt64)
  | abortBidiStream (ref : UInt64)
  | setDataPriority (ref : UInt64)
  deriving DecidableEq, Repr

/-- `moq_action_meta_t`: what the choice reads of it. -/
structure SchedMeta extends ActionMeta where
  (objectId terminalOwner : UInt64)
  terminalBarrier : Bool
  deriving DecidableEq, Repr

/-- `action_data_stream`: the data stream of a write or of a stream's key. -/
def actionDataStream : SessionAction → Option UInt64
  | .sendData ref => some ref
  | .setDataPriority ref => if ref ≠ 0 then some ref else none
  | _ => none

/-- `action_is_data`. -/
def actionIsData (a : SessionAction) : Bool := a = .sendDatagram || (actionDataStream a).isSome

/-- The messages that `session_tag_owner_done` tags. -/
def carriesDone : SessionAction → Bool
  | .sendControl | .sendBidiStream _ => true
  | _ => false

/-- An action of the queue and its record.  Only a PUBLISH_DONE has a terminal owner: it is tagged
right after it was queued, on the control channel or on a request stream. -/
structure Queued (β : Type) where
  action : SessionAction
  sched : SchedMeta
  body : β
  done : sched.terminalOwner ≠ 0 → carriesDone action

/-! ## The comparison -/

/-- `MOQ_SCHED_MODE_DATAGRAM`. -/
def schedModeDatagram : UInt8 := 2

section

variable (x y : SchedMeta)

/-- The two records are of one request, and both have a location. -/
def schedPeers : Bool := x.owner ≠ 0 && x.owner = y.owner && x.hasLocation && y.hasLocation

/-- `sched_compare` within one request and one group. -/
def schedCompareGroup : Ordering :=
  let xf : Bool := x.mode = schedModeFill
  let yf : Bool := y.mode = schedModeFill
  if xf ≠ yf then if xf then .lt else .gt
  else if x.mode ≠ y.mode then
    if x.mode = schedModeDatagram then .lt
    else if y.mode = schedModeDatagram then .gt
    else .eq
  else if x.mode = schedModeSubgroup ∧ x.subgroupId ≠ y.subgroupId then
    if x.subgroupId < y.subgroupId then .lt else .gt
  else if x.mode = schedModeDatagram ∧ x.objectId ≠ y.objectId then
    if x.objectId < y.objectId then .lt else .gt
  else .eq

/-- `sched_compare` within one request. -/
def schedComparePeers : Ordering :=
  let xf : Bool := x.mode = schedModeFill
  let yf : Bool := y.mode = schedModeFill
  let fill := if xf then x else y
  if xf && yf then .eq
  else if x.groupId ≠ y.groupId then
    if xf ≠ yf ∧ fill.fillGroupOrder ≠ fill.groupOrder then if xf then .gt else .lt
    else if x.groupOrder = groupOrderDescending then
      if y.groupId < x.groupId then .lt else .gt
    else if x.groupId < y.groupId then .lt else .gt
  else schedCompareGroup x y

/-- `sched_compare`. -/
def schedCompare : Ordering :=
  if x.subscriberPriority ≠ y.subscriberPriority then
    if x.subscriberPriority < y.subscriberPriority then .lt else .gt
  else if x.publisherPriority ≠ y.publisherPriority then
    if x.publisherPriority < y.publisherPriority then .lt else .gt
  else if !schedPeers x y then .eq
  else schedComparePeers x y

/-- The comparison strictly prefers one record to another. -/
def Preferred : Prop := schedCompare x y = .lt

end

instance (x y : SchedMeta) : Decidable (Preferred x y) := inferInstanceAs (Decidable (_ = _))

/-! ## The choice -/

section Choice

variable {β : Type}

/-- Two actions are on one data stream. -/
def sameDataStream (a b : SessionAction) : Bool :=
  (actionDataStream a).isSome && actionDataStream a = actionDataStream b

section

variable (s : Ring (Queued β))

/-- An action of the same stream is queued from `head` on, in front of `i`. -/
def laterOnItsStream (head i : ℕ) : Bool :=
  (List.range' head (i - head)).any fun j => sameDataStream (s.get i).action (s.get j).action

/-- The loop of `action_select_from`, `n` actions from its end. -/
def actionSelectLoop (head : ℕ) : ℕ → ℕ → ℕ → ℕ
  | 0, _, best => best
  | n + 1, i, best =>
    if !actionIsData (s.get i).action then best
    else if laterOnItsStream s head i then actionSelectLoop head n (i + 1) best
    else actionSelectLoop head n (i + 1)
      (if Preferred (s.get i).sched (s.get best).sched then i else best)

/-- `action_select_from`. -/
def actionSelectFrom (head : ℕ) : ℕ :=
  if !actionIsData (s.get head).action then head
  else actionSelectLoop s head (s.tail - (head + 1)) (head + 1) head

/-- `action_select`. -/
def actionSelect : ℕ := actionSelectFrom s s.head

end

/-- `action_waits_for_terminal`, by the owners a subgroup still owes a terminal. -/
def actionWaitsForTerminal (owed : UInt64 → Bool) (q : Queued β) : Bool :=
  q.sched.terminalOwner ≠ 0 && owed q.sched.terminalOwner

/-- `action_take`. -/
def actionTake (s : Ring (Queued β)) (i : ℕ) : Queued β × Ring (Queued β) := (s.get i, s.take i)

/-- `bridge_session_poll_action_impl`, behind the terminal taken out of band. -/
def pollAction (owed : UInt64 → Bool) (dataOnly : Bool) (s : Ring (Queued β)) :
    Option (Queued β × Ring (Queued β)) :=
  if s.head = s.tail || dataOnly && !actionIsData (s.get s.head).action then none
  else
    let selected := actionSelect s
    if (s.get selected).sched.terminalBarrier || actionWaitsForTerminal owed (s.get selected) then
      none
    else some (actionTake s selected)

/-! ## Passing over a PUBLISH_DONE -/

/-- The request stream of an action that may follow a PUBLISH_DONE there. -/
def bidiFollower : SessionAction → Option UInt64
  | .sendBidiStream ref | .closeBidiStream ref | .resetBidiStream ref | .stopBidiStream ref
  | .abortBidiStream ref => some ref
  | _ => none

/-- `action_follows_done`. -/
def actionFollowsDone (done a : SessionAction) : Bool :=
  match done with
  | .sendControl => a = .sendControl
  | .sendBidiStream ref => bidiFollower a = some ref
  | _ => false

/-- A PUBLISH_DONE is queued in front of `i` that the action at `i` has to follow. -/
def behindDone (s : Ring (Queued β)) (i : ℕ) : Bool :=
  (List.range' s.head (i - s.head)).any fun j =>
    (s.get j).sched.terminalOwner ≠ 0 && actionFollowsDone (s.get j).action (s.get i).action

/-- The loop of `bridge_session_poll_ready_action`. -/
def readyLoop (s : Ring (Queued β)) (owed ready : UInt64 → Bool) : ℕ → ℕ → Option ℕ
  | 0, _ => none
  | n + 1, i =>
    let owner := (s.get i).sched.terminalOwner
    if owner ≠ 0 && (owed owner || !ready owner) then readyLoop s owed ready n (i + 1)
    else if behindDone s i then readyLoop s owed ready n (i + 1)
    else some (actionSelectFrom s i)

/-- `bridge_session_poll_ready_action`, behind the terminal taken out of band. -/
def pollReadyAction (owed ready : UInt64 → Bool) (s : Ring (Queued β)) :
    Option (Queued β × Ring (Queued β)) :=
  match readyLoop s owed ready (s.tail - s.head) s.head with
  | none => none
  | some selected =>
    if (s.get selected).sched.terminalBarrier then none else some (actionTake s selected)

/-! ## Data of mapped streams -/

/-- `bridge_action_gate_t`. -/
inductive ActionGate
  | barrier
  | skip
  | ready
  deriving DecidableEq, Repr

/-- The request stream whose open an action may wait for. -/
def openDependent : SessionAction → Option UInt64
  | .sendBidiStream ref | .closeBidiStream ref => if ref ≠ 0 then some ref else none
  | _ => none

/-- The open of the action's request stream is queued in front of it, and skipped. -/
def blockedOpen (s : Ring (Queued β)) (gate : Queued β → Bool → ActionGate) (i : ℕ) : Bool :=
  match openDependent (s.get i).action with
  | none => false
  | some ref => (List.range' s.head (i - s.head)).any fun j =>
      (s.get j).action = .openBidiStream ref && gate (s.get j) false = .skip

/-- The better of the best so far and a candidate. -/
def mappedBest (s : Ring (Queued β)) (best : Option ℕ) (i : ℕ) : ℕ :=
  match best with
  | none => i
  | some b => if Preferred (s.get i).sched (s.get b).sched then i else b

/-- The loop of `mapped_select`; nothing stands for the tail. -/
def mappedLoop (s : Ring (Queued β)) (owed : UInt64 → Bool) (gate : Queued β → Bool → ActionGate) :
    ℕ → ℕ → Option ℕ → Option ℕ
  | 0, _, best => best
  | n + 1, i, best =>
    let q := s.get i
    if q.sched.terminalBarrier || q.sched.terminalOwner ≠ 0 || actionWaitsForTerminal
      owed q then best
    else if q.action = .closeSession then if i = s.head then some i else best
    else if !actionIsData q.action then
      if gate q false = .skip then mappedLoop s owed gate n (i + 1) best
      else if blockedOpen s gate i then mappedLoop s owed gate n (i + 1) best
      else best
    else if q.action = .sendDatagram || (q.action matches .setDataPriority _) then
      mappedLoop s owed gate n (i + 1) best
    else if laterOnItsStream s s.head i || gate q false ≠ .ready then
      mappedLoop s owed gate n (i + 1) best
    else mappedLoop s owed gate n (i + 1) (some (mappedBest s best i))

/-- `bridge_session_poll_mapped_action`. -/
def pollMappedAction (owed : UInt64 → Bool) (dataOpen : Bool)
    (gate : Queued β → Bool → ActionGate) (s : Ring (Queued β)) :
    Option (Queued β × Ring (Queued β)) :=
  let n := if dataOpen || s.head = s.tail then s.tail - s.head else 1
  match mappedLoop s owed gate n s.head none with
  | none => none
  | some best => if gate (s.get best) true ≠ .ready then none else some (actionTake s best)

/-- What `bridge_mapped_action_gate` asks of the bridge: whether the stream map has room, which
request streams it has, whose open is owed, and whether a mapped stream takes a write now. -/
structure MapView (β : Type) where
  canMapPeerStream : Bool
  mapped : UInt64 → Bool
  openOwed : UInt64 → Bool
  data : Queued β → Bool → ActionGate

/-- `bridge_mapped_action_gate`. -/
def bridgeMappedActionGate (v : MapView β) (q : Queued β) (reserve : Bool) : ActionGate :=
  let blocked (isOpen : Bool) (ref : UInt64) : ActionGate :=
    if ref ≠ 0 && !v.canMapPeerStream && !v.mapped ref && (isOpen || v.openOwed ref) then .skip
    else .barrier
  match q.action with
  | .closeSession => .ready
  | .sendData _ => v.data q reserve
  | .openBidiStream ref => blocked true ref
  | .sendBidiStream ref | .closeBidiStream ref => blocked false ref
  | _ => .barrier

end Choice

/-! ## Runs -/

section Runs

variable {β : Type}

/-- A call: an action is queued, or one of the three routines polls. -/
inductive QueueCall (β : Type)
  | push (q : Queued β)
  | poll (owed : UInt64 → Bool) (dataOnly : Bool)
  | pollReady (owed ready : UInt64 → Bool)
  | pollMapped (owed : UInt64 → Bool) (dataOpen : Bool) (gate : Queued β → Bool → ActionGate)

/-- What a call takes from the queue, and the queue without it. -/
def QueueCall.take : QueueCall β → Ring (Queued β) → Option (Queued β × Ring (Queued β))
  | .push _, _ => none
  | .poll owed dataOnly, s => pollAction owed dataOnly s
  | .pollReady owed ready, s => pollReadyAction owed ready s
  | .pollMapped owed dataOpen gate, s => pollMappedAction owed dataOpen gate s

variable (s : Ring (Queued β))

/-- The queue behind a call; `push_action_ex` refuses an action when the ring is full. -/
def queueStep : QueueCall β → Ring (Queued β)
  | .push q => (s.push q).getD s
  | c => ((c.take s).map (·.2)).getD s

/-- The action a call queued. -/
def queued : QueueCall β → List (Queued β)
  | .push q => if (s.push q).isSome then [q] else []
  | _ => []

/-- The action a call handed over. -/
def handed (c : QueueCall β) : List (Queued β) := ((c.take s).map (·.1)).toList

end Runs

end MoqRelay
