import MoqRelay.Basic

/-!
# Session/Lifetime — the lifetime machine of one request stream

`request_lifetime.c`: one value per request at each end of its bidirectional stream.  Every check is
pure; the matching commit revalidates and leaves the value alone when it refuses.  Two values of one
family with opposite roles, joined by a queue per direction, are a `Link`.
-/

namespace MoqRelay

open Function

/-- `moq_request_family_t`; `other` is a value outside the enumeration. -/
inductive RequestFamily
  | other | subscribe | fetch | trackStatus | announcement | nsSub | publish | subscribeTracks
  deriving DecidableEq, Repr, Inhabited

/-- `moq_request_initial_response_t`. -/
inductive InitialResponse
  | pending | accepted | rejected
  deriving DecidableEq, Repr, Inhabited

/-- The `moq_result_t` values of the lifetime machine, with its private ones. -/
inductive LifetimeResult
  | ok | inval | wrongState | proto | wouldBlock | failed | updateLimit | terminalCrossing
  deriving DecidableEq, Repr, Inhabited

/-- `moq_request_lifetime_t`. -/
structure Lifetime where
  family : RequestFamily
  localRequester : Bool
  response : InitialResponse := .pending
  localFin : Bool := false
  peerFin : Bool := false
  localReset : Bool := false
  peerReset : Bool := false
  localStop : Bool := false
  peerStop : Bool := false
  cancelled : Bool := false
  peerFinFailed : Bool := false
  publisherDone : Bool := false
  incomingUpdate : Bool := false
  outgoingUpdate : Bool := false
  updateFailed : Bool := false
  deriving DecidableEq, Repr, Inhabited

namespace Lifetime

variable (s : Lifetime)

/-- `valid`. -/
def valid : Bool := s.family ≠ .other

/-- `subscription`. -/
def subscription : Bool := s.family = .subscribe || s.family = .publish

/-- `local_publisher`. -/
def localPublisher : Bool :=
  (s.family = .subscribe && !s.localRequester) || (s.family = .publish && s.localRequester)

/-- `unexpected`. -/
def unexpected (outgoing : Bool) : LifetimeResult := if outgoing then .wrongState else .proto

/-- `direction_closed`. -/
def directionClosed (outgoing : Bool) : Bool :=
  if outgoing then s.localFin || s.localReset else s.peerFin || s.peerReset

/-- `failed`. -/
def failed : Bool := s.cancelled || s.peerFinFailed

/-- `moq_request_lifetime_check_initial_response`. -/
def checkInitialResponse (outgoing : Bool) : LifetimeResult :=
  if !s.valid then .inval
  else if outgoing = s.localRequester || s.failed || s.response ≠ .pending ||
      s.directionClosed outgoing then unexpected outgoing
  else .ok

/-- The response an answer records. -/
def answered (accepted : Bool) : InitialResponse := if accepted then .accepted else .rejected

/-- `moq_request_lifetime_initial_response_committed`. -/
def initialResponseCommitted (outgoing accepted : Bool) : LifetimeResult × Lifetime :=
  if s.checkInitialResponse outgoing ≠ .ok then (s.checkInitialResponse outgoing, s)
  else (.ok, { s with response := answered accepted })

/-- `moq_request_lifetime_check_fin`. -/
def checkFin : LifetimeResult :=
  if !s.valid then .inval
  else if s.localFin then .ok
  else if s.localReset || s.failed || s.incomingUpdate then .wrongState
  else if s.response = .pending &&
      (!s.localRequester || (s.family = .publish && !s.publisherDone)) then .wrongState
  else if s.response = .accepted && s.localPublisher && !s.publisherDone then .wrongState
  else .ok

/-- `moq_request_lifetime_fin_committed`. -/
def finCommitted : LifetimeResult × Lifetime :=
  if s.checkFin ≠ .ok then (s.checkFin, s) else (.ok, { s with localFin := true })

/-- Whether a FIN of the peer leaves something owed. -/
def finMissing : Bool :=
  !s.cancelled &&
    ((s.localRequester && s.response = .pending) || s.outgoingUpdate ||
      (s.subscription && !s.localPublisher && !s.publisherDone &&
        (s.response = .accepted || (s.family = .publish && s.response = .pending))))

/-- `moq_request_lifetime_peer_fin`. -/
def receiveFin : LifetimeResult × Lifetime :=
  if !s.valid then (.inval, s)
  else if s.peerFin then (if s.peerFinFailed then .failed else .ok, s)
  else (if s.finMissing then .failed else .ok,
    { s with peerFin := true, peerFinFailed := s.finMissing })

/-- `moq_request_lifetime_stop_committed`. -/
def stopCommitted : LifetimeResult × Lifetime :=
  if !s.valid then (.inval, s)
  else if s.localStop then (.ok, s)
  else if s.peerFin || s.peerReset then (.wrongState, s)
  else (.ok, { s with localStop := true, cancelled := true })

/-- `moq_request_lifetime_check_update`. -/
def checkUpdate (outgoing : Bool) : LifetimeResult :=
  if !s.valid then .inval
  else if s.family = .trackStatus ||
      (outgoing ≠ s.localRequester && s.family ≠ .publish) ||
      s.response = .rejected || s.failed || s.updateFailed || s.localReset ||
      s.directionClosed false || (s.publisherDone && !s.localPublisher) then unexpected outgoing
  else if !outgoing && s.incomingUpdate then .updateLimit
  else if s.localFin || (s.publisherDone && s.localPublisher) then
    if outgoing then .wrongState else .terminalCrossing
  else if s.response = .pending then if outgoing then .wrongState else .wouldBlock
  else if outgoing && s.outgoingUpdate then .wouldBlock
  else .ok

/-- `moq_request_lifetime_update_committed`. -/
def updateCommitted (outgoing : Bool) : LifetimeResult × Lifetime :=
  if s.checkUpdate outgoing ≠ .ok then (s.checkUpdate outgoing, s)
  else if outgoing then (.ok, { s with outgoingUpdate := true })
  else (.ok, { s with incomingUpdate := true })

/-- `moq_request_lifetime_check_update_response`. -/
def checkUpdateResponse (outgoing : Bool) : LifetimeResult :=
  if !s.valid then .inval
  else if !(if outgoing then s.incomingUpdate else s.outgoingUpdate) || s.failed ||
      s.response ≠ .accepted || s.directionClosed outgoing ||
      (s.publisherDone && s.localPublisher = outgoing) then unexpected outgoing
  else .ok

/-- `moq_request_lifetime_update_response_committed`. -/
def updateResponseCommitted (outgoing accepted : Bool) : LifetimeResult × Lifetime :=
  if s.checkUpdateResponse outgoing ≠ .ok then (s.checkUpdateResponse outgoing, s)
  else if outgoing then
    (.ok, { s with incomingUpdate := false, updateFailed := s.updateFailed || !accepted })
  else (.ok, { s with outgoingUpdate := false, updateFailed := s.updateFailed || !accepted })

/-- `moq_request_lifetime_check_done`. -/
def checkDone (outgoing dataObligationsClear : Bool) : LifetimeResult :=
  if !s.valid then .inval
  else if !s.subscription || s.localPublisher ≠ outgoing || s.failed ||
      (s.response ≠ .accepted && !(s.family = .publish && s.response = .pending) &&
        !(!outgoing && s.family = .publish && s.response = .rejected)) ||
      s.publisherDone || s.directionClosed outgoing || (outgoing && s.incomingUpdate) then
    unexpected outgoing
  else if outgoing && !dataObligationsClear then .wouldBlock
  else .ok

/-- `moq_request_lifetime_done_committed`. -/
def doneCommitted (outgoing dataObligationsClear : Bool) : LifetimeResult × Lifetime :=
  if s.checkDone outgoing dataObligationsClear ≠ .ok then
    (s.checkDone outgoing dataObligationsClear, s)
  else (.ok, { s with publisherDone := true })

/-- `moq_request_lifetime_check_notify`. -/
def checkNotify (outgoing : Bool) : LifetimeResult :=
  if !s.valid then .inval
  else if !s.subscription || s.localPublisher ≠ outgoing || s.failed ||
      s.response = .rejected || s.publisherDone || s.directionClosed outgoing then
    unexpected outgoing
  else if s.response = .pending then if outgoing then .wrongState else .wouldBlock
  else .ok

end Lifetime

/-! ## Two endpoints -/

/-- What travels on a request stream after the request. -/
inductive LifetimeMsg
  | initialResponse (accepted : Bool)
  | update
  | updateResponse (accepted : Bool)
  | done
  | notify
  | fin
  deriving DecidableEq, Repr, Inhabited

/-- An endpoint sends a message, or takes one: the check and, on `MOQ_OK`, the commit. -/
def Lifetime.commit (s : Lifetime) (outgoing clear : Bool) : LifetimeMsg → LifetimeResult × Lifetime
  | .initialResponse accepted => s.initialResponseCommitted outgoing accepted
  | .update => s.updateCommitted outgoing
  | .updateResponse accepted => s.updateResponseCommitted outgoing accepted
  | .done => s.doneCommitted outgoing clear
  | .notify => (s.checkNotify outgoing, s)
  | .fin => if outgoing then s.finCommitted else s.receiveFin

/-- Two endpoints of one request, the requester under `true`; `chan b` is what endpoint `b` sent and
the other has not taken. -/
structure Link where
  ep : Bool → Lifetime
  chan : Bool → List LifetimeMsg

/-- What happens on a link: an endpoint sends, with its data obligations clear or not, or takes the
oldest message for it. -/
inductive LinkMove
  | send (b : Bool) (m : LifetimeMsg) (clear : Bool)
  | receive (b : Bool)
  deriving DecidableEq, Repr

/-- Whether the receiver is done with a message: it committed it, recorded a premature FIN, or
settles a crossing on its own.  Otherwise the message stays where it is. -/
def LifetimeResult.taken (rc : LifetimeResult) : Bool :=
  rc = .ok || rc = .failed || rc = .terminalCrossing

namespace Link

variable (l : Link)

/-- Both endpoints as initialised. -/
def init (family : RequestFamily) : Link where
  ep b := { family, localRequester := b }
  chan _ := []

/-- The link after a move. -/
def step : LinkMove → Link
  | .send b m clear =>
    if ((l.ep b).commit true clear m).1 ≠ .ok then l
    else
      { ep := update l.ep b ((l.ep b).commit true clear m).2
        chan := update l.chan b (l.chan b ++ [m]) }
  | .receive b =>
    match l.chan !b with
    | [] => l
    | m :: rest =>
      if !((l.ep b).commit false true m).1.taken then l
      else
        { ep := update l.ep b ((l.ep b).commit false true m).2
          chan := update l.chan (!b) rest }

/-- The link after a sequence of moves. -/
def run (moves : List LinkMove) : Link := moves.foldl step l

end Link

end MoqRelay
