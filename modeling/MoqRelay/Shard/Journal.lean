import MoqRelay.Basic
import MoqRelay.Lib.SortedKeys

/-!
# Shard/Journal — the candidate-set journal of one shard

`journal.c` and the parts of `placement.c` and `demand.c` it rests on: a shard keeps one entry per
namespace, sorted by canonical key, with a bit for every shard that announces it, the value each
destination was last told, and the mirror it installed for a remote winner.  The core's answers are
inputs of a reconciliation.  Cluster mode, which keeps no journal, is not modelled.
-/

namespace MoqRelay

/-- A canonical namespace key, as `canon_build` lays it out.  `canon_cmp` is the lexicographic order
of the bytes, shorter first. -/
abbrev Canon := Bytes

/-! ## Placement -/

/-- `r_splitmix64`. -/
def splitmix64 (x : UInt64) : UInt64 :=
  let x := x + 0x9E3779B97F4A7C15
  let x := (x ^^^ (x >>> 30)) * 0xBF58476D1CE4E5B9
  let x := (x ^^^ (x >>> 27)) * 0x94D049BB133111EB
  x ^^^ (x >>> 31)

/-- `r_hrw_score`. -/
def hrwScore (hash : UInt64) (shard : ℕ) : UInt64 :=
  splitmix64 (hash ^^^ (UInt64.ofNat shard * 0x9E3779B97F4A7C15))

/-- `canon_hash`. -/
def canonHash (canon : Canon) : UInt64 :=
  canon.foldl (fun h b => (h ^^^ b.toUInt64) * 0x100000001B3) 0xCBF29CE484222325

/-- One candidate of `r_winner_of`, against the best so far and its score. -/
def keepWinner (hash : UInt64) (best : Option (ℕ × UInt64)) (i : ℕ) : Option (ℕ × UInt64) :=
  match best with
  | none => some (i, hrwScore hash i)
  | some (b, score) =>
    if score < hrwScore hash i then some (i, hrwScore hash i) else some (b, score)

/-- `r_winner_of`: the highest score among the candidates, ties to the lowest index. -/
def winnerOf (candidates : BitVec 64) (hash : UInt64) : Option ℕ :=
  (((List.range 64).filter candidates.getLsbD).foldl (keepWinner hash) none).map Prod.fst

/-- `1ull << i`. -/
def shardBit (i : ℕ) : BitVec 64 := 1#64 <<< i

/-- A bit set or cleared. -/
def withBit (bits : BitVec 64) (i : ℕ) (b : Bool) : BitVec 64 :=
  if b then bits ||| shardBit i else bits &&& ~~~ shardBit i

/-! ## Entries -/

/-- `r_jentry`, with the mirror `R_MIRROR_NONE` as `none`. -/
structure JEntry where
  canon : Canon
  hash : UInt64
  candidates : BitVec 64 := 0
  mirror : Option ℕ := none
  sent : BitVec 64 := 0
  echoAnn : ℕ := 0
  echoUnann : ℕ := 0
  dirty : Bool := false
  holdout : Bool := false
  capBlocked : Bool := false
  deriving DecidableEq

/-- The journal part of `r_mgr`. -/
structure Mgr where
  shard : ℕ
  jrn : List JEntry := []
  jrnCap : ℕ
  journalEpoch : ℕ := 0
  holdouts : ℕ := 0
  capBlockedCount : ℕ := 0
  capEpoch : ℕ := 0
  oom : Bool := false
  owedLocalDrain : Bool := false

/-- `R_OP_ANNOUNCE`, `R_OP_UNANNOUNCE`. -/
inductive RouteOp
  | announce | unannounce
  deriving DecidableEq, Repr

/-- What an operation makes of a bit. -/
def RouteOp.present (op : RouteOp) : Bool := op = .announce

/-- The core's answers to one reconciliation: `moqr_core_force_withdraw`, `moqr_core_unannounce`,
`moqr_core_announce_room`, `moqr_core_announce`. -/
structure CoreAnswers where
  (forceWithdraw unannounce announceRoom announce : Result)
  deriving DecidableEq, Repr

namespace Mgr

variable (m : Mgr)

/-- `jrn_find`: the entry's index, or the insertion index. -/
def jrnFind (canon : Canon) : Bool × ℕ := seek JEntry.canon m.jrn canon

/-- `jrn_get`: the index of the entry, inserted if need be; `none` when the journal is full. -/
def jrnGet (canon : Canon) : Option (ℕ × Mgr) :=
  if (m.jrnFind canon).1 then some ((m.jrnFind canon).2, m)
  else if m.jrnCap ≤ m.jrn.length then none
  else some ((m.jrnFind canon).2, { m with
      jrn := insertAt m.jrn (m.jrnFind canon).2 { canon := canon, hash := canonHash canon } })

/-- `jrn_remove`. -/
def jrnRemove (i : ℕ) : Mgr :=
  { m with jrn := m.jrn.eraseIdx i, journalEpoch := m.journalEpoch + 1 }

/-- Rewrite the entry at an index. -/
def putEntry (i : ℕ) (e : JEntry) : Mgr := { m with jrn := m.jrn.set i e }

/-- `jrn_set_candidate`, on the entry at an index. -/
def jrnSetCandidate (i origin : ℕ) (present : Bool) : Mgr :=
  match m.jrn[i]? with
  | none => m
  | some e =>
    { m.putEntry i { e with candidates := withBit e.candidates origin present, dirty := true } with
      journalEpoch :=
        if withBit e.candidates origin present ≠ e.candidates then m.journalEpoch + 1
        else m.journalEpoch }

/-! ## Local events -/

/-- The pending self-echoes of an operation. -/
def echoes (e : JEntry) : RouteOp → ℕ
  | .announce => e.echoAnn
  | .unannounce => e.echoUnann

/-- One self-echo consumed. -/
def consumeEcho (e : JEntry) : RouteOp → JEntry
  | .announce => { e with echoAnn := e.echoAnn - 1 }
  | .unannounce => { e with echoUnann := e.echoUnann - 1 }

/-- A real local event: the shard's own bit. -/
def recordLocal (canon : Canon) : RouteOp → Mgr
  | .announce =>
    match m.jrnGet canon with
    | none => { m with oom := true }
    | some (i, m) => m.jrnSetCandidate i m.shard true
  | .unannounce =>
    if (m.jrnFind canon).1 then m.jrnSetCandidate (m.jrnFind canon).2 m.shard false else m

/-- The NS_FOUND / NS_GONE part of the router's observation; no key means it would not allocate. -/
def observe (op : RouteOp) : Option Canon → Mgr
  | none => { m with oom := true }
  | some canon =>
    if (m.jrnFind canon).1 then
      match m.jrn[(m.jrnFind canon).2]? with
      | none => m
      | some e =>
        if 0 < echoes e op then m.putEntry (m.jrnFind canon).2 (consumeEcho e op)
        else m.recordLocal canon op
    else m.recordLocal canon op

/-! ## Reconciliation -/

section

variable (e : JEntry)

/-- `mgr_update_holdout`. -/
def updateHoldout (holdout : Bool) : Mgr × JEntry :=
  if holdout && !e.holdout then
    ({ m with holdouts := m.holdouts + 1, journalEpoch := m.journalEpoch + 1 },
      { e with holdout := true })
  else if !holdout && e.holdout then
    ({ m with holdouts := m.holdouts - 1, journalEpoch := m.journalEpoch + 1 },
      { e with holdout := false })
  else (m, { e with holdout := holdout })

/-- The install of `mgr_reconcile_entry`, past the parked check. -/
def installMirror (a : CoreAnswers) : Option ℕ → Mgr × JEntry
  | none => (m, { e with dirty := false })
  | some winner =>
    match a.announce with
    | .ok => ({ m with owedLocalDrain := true, journalEpoch := m.journalEpoch + 1 },
        { e with echoAnn := (e.echoAnn + 1) % 2 ^ 16, mirror := some winner, dirty := false })
    | .wouldBlock => (m, e)
    | .capacity => ({ m with capBlockedCount := m.capBlockedCount + 1 },
        { e with capBlocked := true, dirty := false })
    | _ => (m, { e with dirty := false })

/-- The tail of `mgr_reconcile_entry`: a parked entry asks for room first. -/
def reconcileInstall (a : CoreAnswers) (desired : Option ℕ) : Mgr × JEntry :=
  if e.capBlocked then
    if desired.isSome && a.announceRoom = .capacity then (m, { e with dirty := false })
    else { m with capBlockedCount := m.capBlockedCount - 1 }.installMirror
      { e with capBlocked := false } a desired
  else m.installMirror e a desired

/-- A remote shard wins. -/
def remoteWinner : Option ℕ := (winnerOf e.candidates e.hash).filter (· ≠ m.shard)

/-- The mirror an entry should have: a remote winner with no local publisher here. -/
def desiredMirror : Option ℕ :=
  if e.candidates.getLsbD m.shard then none else m.remoteWinner e

/-- `mgr_reconcile_entry`, once no local publisher stands against a remote winner. -/
def reconcileMirror (a : CoreAnswers) : Mgr × JEntry :=
  let desired := m.desiredMirror e
  let (m, e) := m.updateHoldout e (e.candidates.getLsbD m.shard && (m.remoteWinner e).isSome)
  if desired = e.mirror then (m, { e with dirty := false })
  else if e.mirror.isNone then m.reconcileInstall e a desired
  else if a.unannounce ≠ .ok then (m, e)
  else { m with owedLocalDrain := true, journalEpoch := m.journalEpoch + 1 }.reconcileInstall
    { e with echoUnann := (e.echoUnann + 1) % 2 ^ 16, mirror := none } a desired

/-- `mgr_reconcile_entry`. -/
def reconcileEntry (a : CoreAnswers) : Mgr × JEntry :=
  if e.candidates.getLsbD m.shard && (m.remoteWinner e).isSome then
    match a.forceWithdraw with
    | .wouldBlock => { m with owedLocalDrain := true }.updateHoldout e true
    | .ok => { m with owedLocalDrain := true, journalEpoch := m.journalEpoch + 1 }.reconcileMirror
        { e with candidates := withBit e.candidates m.shard false } a
    | _ => ({ m with oom := true }, e)
  else m.reconcileMirror e a

end

/-- One entry of `shard_reconcile`. -/
def reconcileAt (i : ℕ) (a : CoreAnswers) : Mgr :=
  match m.jrn[i]? with
  | none => m
  | some e => if e.dirty then (m.reconcileEntry e a).1.putEntry i (m.reconcileEntry e a).2 else m

/-- The head of `shard_reconcile`: parked entries are retried once the core's room epoch moved. -/
def unpark (roomEpoch : ℕ) : Mgr :=
  { m with
    capEpoch := roomEpoch
    jrn :=
      if m.capBlockedCount ≠ 0 ∧ roomEpoch ≠ m.capEpoch then
        m.jrn.map fun e => if e.capBlocked then { e with dirty := true } else e
      else m.jrn }

end Mgr

end MoqRelay
