import MoqRelay.Fetch.Admit

/-!
# Fetch/Walk — the cursor of a fetch: scans, runs, peek and commit

A peek merges the lists of each group by object id (`scanNext`), looks for an object still
arriving before that (`scanPending`), and classifies what lies between the cursor and the nearer
of the two (`runBefore`): a hole inside a group's extent, a run without evidence, or nothing.
-/

namespace MoqRelay

/-- `track_rec_expired`: the record may no longer be started downstream. -/
def Track.recExpired (t : Track) (arrivalUs nowUs : ℕ) : Bool :=
  t.hasMaxCache && arrivalUs ≤ nowUs && t.maxCacheUs ≤ nowUs - arrivalUs

/-- `loc_cmp(a, b) < 0`. -/
def locLt (a b : ℕ × ℕ) : Bool := if a.1 ≠ b.1 then a.1 < b.1 else a.2 < b.2

/-- The record with the smaller id of a choice so far and a new one; a tie keeps the first. -/
def smallerId : Option Rec → Rec → Option Rec := keepLeast Rec.objectId

namespace Fetch

/-- `fetch_range_end`. -/
def rangeEnd (f : Fetch) : ℕ × ℕ := (f.endGroup, if f.endWhole then u64Max else f.endObject)

/-! ## Scans -/

/-- The object window of the range in a group, from the cursor on. -/
def inWindow (f : Fetch) (g o : ℕ) : Bool :=
  (if g = f.curGroup then f.curObject else 0) ≤ o &&
    o ≤ (if g = f.endGroup ∧ !f.endWhole then f.endObject else u64Max)

/-- The walk both scans share: the first group in range with a record `p` accepts gives the one with
the smallest id.  Groups ascend, so those past the end group are not looked at. -/
def scan (log : Log) (f : Fetch) (p : Rec → Bool) : Option Rec :=
  (log.groups.takeWhile fun g => g.groupId ≤ f.endGroup).findSome? fun g =>
    if g.groupId < f.curGroup then none
    else (g.recs.filter fun v => p v && f.inWindow g.groupId v.objectId).foldl smallerId none

/-- `fetch_scan_next`. -/
def scanNext (log : Log) (f : Fetch) (t : Track) (nowUs : ℕ) : Option Rec :=
  f.scan log fun v => v.status = .normal && v.objState = .complete && !t.recExpired
    v.arrivalUs nowUs

/-- `fetch_scan_pending`. -/
def scanPending (log : Log) (f : Fetch) : Option Rec :=
  f.scan log fun v => v.status = .normal && v.objState = .open

/-! ## Runs -/

end Fetch

/-- `fetch_run_t`, with the inclusive end of a run. -/
inductive FetchRun
  | none | hole (g o : ℕ) | unknown (g o : ℕ)
  deriving DecidableEq, Repr

namespace Fetch

/-- `fetch_unknown_run`: to just before the next retained group, or to the range end. -/
def unknownRun (log : Log) (f : Fetch) (g : ℕ) : FetchRun :=
  match log.groups.find? fun x => g < x.groupId with
  | none => .unknown f.rangeEnd.1 f.rangeEnd.2
  | some x =>
    if locLt (x.groupId - 1, u64Max) f.rangeEnd then .unknown (x.groupId - 1) u64Max
    else .unknown f.rangeEnd.1 f.rangeEnd.2

/-- `fetch_loc_expired`. -/
def locExpired (log : Log) (t : Track) (g o nowUs : ℕ) : Bool :=
  t.hasMaxCache && (log.objectArrival g o).any fun a => t.recExpired a nowUs

/-- The loop that extends a run of expired objects; `n` bounds it by the distance to the group's
last id. -/
def expiredEnd (log : Log) (f : Fetch) (t : Track) (nowUs : ℕ) (x : Option (ℕ × ℕ)) (g last : ℕ) :
    ℕ → ℕ → ℕ
  | 0, e => e
  | n + 1, e =>
    if e < last ∧ ¬ (g = f.rangeEnd.1 ∧ f.rangeEnd.2 ≤ e) ∧
        ¬ (x.any fun x => x.1 = g && x.2 ≤ e + 1) ∧
        log.objectStatus g (e + 1) = some (.normal, .complete) ∧
        locExpired log t g (e + 1) nowUs then
      expiredEnd log f t nowUs x g last n (e + 1)
    else e

/-- The loop that leaves status objects out of a hole's end; `n` is the distance to its start. -/
def trimStatus (log : Log) (g : ℕ) : ℕ → ℕ → ℕ
  | 0, e => e
  | n + 1, e =>
    if (log.objectStatus g e).any fun s => s.1 ≠ .normal then trimStatus log g n (e - 1) else e

/-- The hole that starts at `(g, o)`. -/
def holeRun (log : Log) (f : Fetch) (x : Option (ℕ × ℕ)) (g o last : ℕ) : FetchRun :=
  let e := match x with
    | some x => if x.1 = g ∧ 0 < x.2 then x.2 - 1 else last
    | none => if f.rangeEnd.1 = g ∧ f.rangeEnd.2 < last then f.rangeEnd.2 else last
  .hole g (trimStatus log g (e - o) e)

/-- The walk has come to the bound `x`, or with none past the range. -/
def atLimit (f : Fetch) (x : Option (ℕ × ℕ)) (l : ℕ × ℕ) : Bool :=
  match x with
  | some x => !locLt l x
  | none => locLt f.rangeEnd l

/-- The loop of `fetch_run_before` at `(g, o)`.  Each turn steps over a record or leaves a group, so
`n` counts both. -/
def runFrom (log : Log) (f : Fetch) (t : Track) (nowUs : ℕ) (x : Option (ℕ × ℕ)) :
    ℕ → ℕ → ℕ → FetchRun
  | 0, _, _ => .none
  | n + 1, g, o =>
    if f.atLimit x (g, o) then .none
    else match log.groupLast g with
      | none =>
        if f.reportUnknown then f.unknownRun log g
        else match x with
          | some x => if g < x.1 then runFrom log f t nowUs (some x) n x.1 0 else .none
          | none => .none
      | some last =>
        if last < o then
          if f.reportUnknown ∧ (log.groupFinal g).isNone then f.unknownRun log g
          else if g = u64Max then .none
          else runFrom log f t nowUs x n (g + 1) 0
        else match log.objectStatus g o with
          | none => f.holeRun log x g o last
          | some (st, state) =>
            if st = .normal ∧ state ≠ .complete then f.holeRun log x g o last
            else if st = .normal ∧ !locExpired log t g o nowUs then .none
            else if st = .normal ∧ f.reportUnknown then
              .unknown g (f.expiredEnd log t nowUs x g last (last - o) o)
            else if o = u64Max then
              if g = u64Max then .none else runFrom log f t nowUs x n (g + 1) 0
            else runFrom log f t nowUs x n g (o + 1)

/-- `fetch_run_before`. -/
def runBefore (log : Log) (f : Fetch) (t : Track) (nowUs : ℕ) (x : Option (ℕ × ℕ)) : FetchRun :=
  f.runFrom log t nowUs x (log.allRecs.length + 2 * log.groups.length + 2) f.curGroup f.curObject

end Fetch

/-! ## Peek -/

/-- The object of an item: what the binding writes. -/
structure FetchObject where
  (groupId subgroupId objectId publisherPriority : ℕ)
  datagramPref : Bool
  (payload properties : Option Bytes)
  deriving DecidableEq, Repr

/-- `moqr_fetch_item_t`. -/
inductive FetchItem
  | object (v : FetchObject)
  | finish
  | marker (group : ℕ)
  | gap (g o : ℕ)
  | unknown (g o : ℕ)
  | pending (g o : ℕ)
  deriving DecidableEq, Repr

/-- What a peek depends on besides the fetch and its track: the clock, the bytes pinned so far, and
the outcome of the two allocations of a coalesced payload. -/
structure PeekEnv where
  nowUs : ℕ
  pinUsed : UInt64
  (memTmp memBuf : Bool)
  deriving DecidableEq, Repr

/-- The copying loop of `fetch_coalesce_chunks`, from chunk `i` on. -/
def coalesceFrom (log : Log) (v : Rec) : ℕ → ℕ → UInt64 → Bytes → Option (UInt64 × Bytes)
  | 0, _, off, tmp => some (off, tmp)
  | n + 1, i, off, tmp =>
    match log.viewChunk v i with
    | .error _ => none
    | .ok (buf, clen) =>
      if v.declaredLen < off + clen then none
      else coalesceFrom log v n (i + 1) (off + clen) (tmp ++ (buf.map Rcbuf.data).getD [])

/-- `fetch_coalesce_chunks`. -/
def fetchCoalesceChunks (log : Log) (v : Rec) (env : PeekEnv) : Except Result Bytes :=
  if 0 < v.declaredLen ∧ !env.memTmp then .error .nomem
  else match coalesceFrom log v v.chunkCount 0 0 [] with
    | none => .error .internal
    | some (off, tmp) =>
      if off ≠ v.declaredLen then .error .internal
      else if env.memBuf then .ok tmp
      else .error .nomem

/-- The bytes a served record pins. -/
def Rec.pinSize (v : Rec) : UInt64 :=
  (if 0 < v.chunkCount then v.declaredLen else rcbufLen v.payload) + rcbufLen v.properties

/-- The payload a served record pins: the retained one, or its chunks coalesced. -/
def fetchPayload (log : Log) (v : Rec) (env : PeekEnv) : Except Result (Option Bytes) :=
  if 0 < v.chunkCount then (fetchCoalesceChunks log v env).map some
  else .ok (v.payload.map Rcbuf.data)

namespace Fetch

variable (f : Fetch)

/-- The object a held fetch presents again. -/
def heldObject : FetchObject where
  groupId := f.outGroup
  subgroupId := f.outSubgroup
  objectId := f.outObject
  publisherPriority := f.outPriority
  datagramPref := f.outDatagram
  payload := f.pinPayload
  properties := f.pinProperties

/-- The fetch holding a record, its payload and the pinned bytes. -/
def hold (v : Rec) (payload : Option Bytes) (bytes : UInt64) : Fetch :=
  { f with
    pinPayload := payload
    pinProperties := v.properties.map Rcbuf.data
    pinBytes := bytes
    outActive := true
    outGroup := v.groupId
    outSubgroup := v.subgroupId
    outObject := v.objectId
    outPriority := v.publisherPriority
    outDatagram := v.datagramPref }

/-- Serve a record: the pin budget, then the payload, whole or coalesced. -/
def serve (log : Log) (v : Rec) (pinCap : UInt64) (env : PeekEnv) :
    Result × Option FetchItem × Fetch :=
  if pinCap < v.pinSize then (.capacity, none, f)
  else if pinCap < env.pinUsed + v.pinSize then (.wouldBlock, none, f)
  else match fetchPayload log v env with
    | .error rc => (rc, none, f)
    | .ok payload =>
      let f' := f.hold v payload v.pinSize
      (.ok, some (.object f'.heldObject), f')

/-- The fetch after a run or a pending object was reported. -/
def report (g o : ℕ) : Fetch := { f with gapActive := true, gapGroup := g, gapObject := o }

/-- The next item of a cursor that is neither exhausted, nor holds an object, nor owes a marker. -/
def peekNext (log : Log) (t : Track) (pinCap : UInt64) (env : PeekEnv) :
    Result × Option FetchItem × Fetch :=
  let next := f.scanNext log t env.nowUs
  let pending := (f.scanPending log).filter fun p =>
    next.all fun v => locLt (p.groupId, p.objectId) (v.groupId, v.objectId)
  let bound := (pending.or next).map fun v => (v.groupId, v.objectId)
  let run := if f.reportGaps then f.runBefore log t env.nowUs bound else .none
  match run with
  | .hole g o => (.ok, some (.gap g o), f.report g o)
  | .unknown g o => (.ok, some (.unknown g o), f.report g o)
  | .none =>
    match pending with
    | some p =>
      if f.reportPending then
        (.ok, some (.pending p.groupId p.objectId), f.report p.groupId p.objectId)
      else (.wouldBlock, none, f)
    | none =>
      match next with
      | none => (.ok, some .finish, f)
      | some v => f.serve log v pinCap env

/-- `moqr_core_fetch_peek` on a resolved fetch and its track. -/
def peek (t : Track) (pinCap : UInt64) (env : PeekEnv) : Result × Option FetchItem × Fetch :=
  let f := { f with gapActive := false }
  if f.exhausted then (.ok, some .finish, f)
  else if f.outActive then (.ok, some (.object f.heldObject), f)
  else if t.gen % 2 = 0 ∨ t.gen ≠ f.trackGenSlot then (.tooOld, none, f)
  else if !f.retrievalOwner ∧ t.log.groups.length ≠ 0 ∧ f.curGroup < t.log.oldestGroupId then
    (.tooOld, none, f)
  else if f.leadMarker then (.ok, some (.marker f.leadMarkerGroup), f)
  else f.peekNext t.log t pinCap env

/-! ## Commit -/

/-- Move the cursor strictly past a Location; at or past the range end the fetch is exhausted. -/
def advance (g o : ℕ) : Fetch :=
  if !locLt (g, o) f.rangeEnd then { f with exhausted := true }
  else if o = u64Max then { f with curGroup := g + 1, curObject := 0 }
  else { f with curGroup := g, curObject := o + 1 }

/-- `fetch_unpin`, as far as the fetch is concerned. -/
def unpin : Fetch :=
  if f.outActive then
    { f with pinPayload := none, pinProperties := none, pinBytes := 0, outActive := false }
  else f

/-- `moqr_core_fetch_commit` on a resolved fetch. -/
def commit : Result × Fetch :=
  if f.leadMarker then (.ok, { f with leadMarker := false })
  else if f.gapActive then (.ok, { f with gapActive := false }.advance f.gapGroup f.gapObject)
  else if !f.outActive then (.wrongState, f)
  else (.ok, (f.advance f.outGroup f.outObject).unpin)

end Fetch

end MoqRelay
