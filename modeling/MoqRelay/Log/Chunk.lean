import MoqRelay.Log.Append

/-!
# Log/Chunk — open records, terminals, and upstream eviction

An object may be admitted incrementally: the OPEN record is the last one of its subgroup list,
chunks are threaded onto it from the node pool, and it ends complete or abandoned.  A subgroup list
ends with a seal or a reset; `moqr_log_note_evicted_below` ends every list below an upstream
watermark and raises the eviction floor over the groups that never arrived.
-/

namespace MoqRelay

open Function

/-- The record after a chunk was linked behind its tail. -/
def Rec.addChunk (r : Rec) (node : ℕ) (len : UInt64) : Rec :=
  { r with
    chunkHead := if r.chunkHead.isNone then some node else r.chunkHead
    chunkTail := some node
    chunkCount := r.chunkCount + 1
    bytes := r.bytes + len }

/-- The bytes of the chunks a record holds. -/
def Rec.chunkBytes (r : Rec) : UInt64 := r.bytes - rcbufLen r.properties

/-- The tombstone an abandoned record leaves. -/
def Rec.abandon (r : Rec) (reset : ResetDesc) : Rec :=
  { r with
    chunkHead := none
    chunkTail := none
    chunkCount := 0
    bytes := rcbufLen r.properties
    objState := .abandoned
    reset := reset }

/-- Mark a list as reset; the first terminal wins. -/
def Subgroup.resetWith (sg : Subgroup) (reset : ResetDesc) : Subgroup :=
  if sg.sealed then sg else { sg with sealed := true, sealedReset := true, reset := reset }

/-- The relay's own eviction cause. -/
def evictedCause : ResetDesc := (resetDescInternal resetCodeEvicted).getD resetDescNone

/-- The pool after a node was taken for a chunk and linked behind the record's tail. -/
def ChunkPool.link (p : ChunkPool) (r : Rec) (node : ℕ) (buf : Rcbuf) (len : UInt64) : ChunkPool :=
  let nodes := update p.nodes node ⟨some buf, len, none⟩
  { p with
    nodes := match r.chunkHead, r.chunkTail with
      | some _, some t => update nodes t { nodes t with next := some node }
      | _, _ => nodes }

namespace Group

/-- Write through the pointer to a subgroup list. -/
def modifySg (g : Group) (i : ℕ) (f : Subgroup → Subgroup) : Group :=
  { g with sgs := g.sgs.modify i f }

/-- Write through the pointer to the last record of a subgroup list. -/
def modifyTail (g : Group) (i : ℕ) (f : Rec → Rec) : Group :=
  g.modifySg i fun sg => { sg with v.recs := sg.v.recs.modify (sg.v.recs.length - 1) f }

end Group

namespace Log

/-- Remember a subgroup without a list, in place of the oldest entry of the hole table. -/
def addHole (log : Log) (gid sid : ℕ) : Log :=
  if log.holeHas gid sid then log
  else { log with
    holes := update log.holes (log.holesNext % logHoles) ⟨true, gid, sid⟩
    holesNext := log.holesNext + 1 }

/-! ## Open records -/

/-- `resolve_open_rec`: the group, the list index and the record, which is the list's last. -/
def resolveOpenRec (log : Log) (gid sid oid : ℕ) : Except Result (Group × ℕ × Rec) :=
  match log.groupFind gid with
  | none => .error (if log.belowHorizon gid then .tooOld else .wrongState)
  | some g =>
    match g.listOf sid with
    | none => .error .wrongState
    | some (i, sg) =>
      match sg.v.recs.getLast? with
      | none => .error .wrongState
      | some r =>
        if r.objectId ≠ oid ∨ r.objState ≠ .open then .error .wrongState else .ok (g, i, r)

/-- The loop of `moqr_log_append_chunk`: evict oldest groups, never the record's, until the chunk
fits the byte budget and a node is free.  When only nodes are short the older groups are looked at
once, and `olderHoldsNode` remembers that one of them holds a node.  The count is that of the
groups. -/
def fitChunk (gid sid oid : ℕ) (len : UInt64) : ℕ → Bool → Log → Except (Result × Log) Log
  | 0, _, log =>
    if ¬ log.lim.maxBytes < log.retainedBytes + len ∧ log.pool.freeHead.isSome then .ok log
    else .error (.capacity, log)
  | n + 1, olderHoldsNode, log =>
    let bytesShort : Bool := log.lim.maxBytes < log.retainedBytes + len
    if !bytesShort && log.pool.freeHead.isSome then .ok log
    else if log.isOldest gid then .error (.capacity, log)
    else
      let holds := olderHoldsNode ||
        (!bytesShort && (log.groups.takeWhile fun g => g.groupId ≠ gid).any Group.holdsNode)
      if !bytesShort && !holds then .error (.capacity, log)
      else
        let log' := log.evictGroupAt 0
        match log'.resolveOpenRec gid sid oid with
        | .error rc => .error (rc, log')
        | .ok _ => fitChunk gid sid oid len n holds log'

section

variable (log : Log)

/-- Take a node for the chunk and account it to the record, its group and the log. -/
def commitChunk (gid i : ℕ) (r : Rec) (buf : Rcbuf) : Option Log :=
  match log.pool.alloc with
  | none => none
  | some (node, pool) =>
    let len := rcbufLen (some buf)
    let log' := log.modifyGroup gid fun g =>
      { g.modifyTail i (·.addChunk node len) with bytes := g.bytes + len }
    some { log' with
      pool := pool.link r node buf len
      retainedBytes := log.retainedBytes + len }

/-- `moqr_log_append_chunk`.  A `NULL` chunk has length 0. -/
def appendChunk (gid sid oid : ℕ) (chunk : Option Rcbuf) : Result × Log :=
  match log.resolveOpenRec gid sid oid with
  | .error rc => (rc, log)
  | .ok (_, _, r) =>
    if r.declaredLen < r.chunkBytes + rcbufLen chunk then (.inval, log)
    else match chunk with
      | none => (.ok, log)
      | some buf =>
        if rcbufLen (some buf) = 0 then (.ok, log)
        else
          match fitChunk gid sid oid (rcbufLen (some buf)) log.groups.length false log with
          | .error e => e
          | .ok log =>
            match log.resolveOpenRec gid sid oid with
            | .error rc => (rc, log)
            | .ok (_, i, r) =>
              match log.commitChunk gid i r buf with
              | none => (.capacity, log)
              | some log' => (.ok, log')

/-- `moqr_log_set_opener`. -/
def setOpener (gid sid oid conn src : ℕ) : Result × Log :=
  match log.resolveOpenRec gid sid oid with
  | .error rc => (rc, log)
  | .ok (_, i, _) =>
    (.ok, log.modifyGroup gid fun g =>
      g.modifyTail i fun r => { r with hasOpener := true, openerConn := conn, openerSrc := src })

/-- `moqr_log_complete_record`. -/
def completeRecord (gid sid oid : ℕ) : Result × Log :=
  match log.resolveOpenRec gid sid oid with
  | .error rc => (rc, log)
  | .ok (_, i, r) =>
    if r.chunkBytes ≠ r.declaredLen then (.inval, log)
    else (.ok, log.modifyGroup gid fun g => g.modifyTail i fun r =>
      { r with objState := .complete })

/-- The log after the OPEN tail of a list was abandoned. -/
def abandonTail (gid i : ℕ) (r : Rec) (reset : ResetDesc) : Log :=
  let log' := log.modifyGroup gid fun g =>
    { g.modifyTail i (·.abandon reset) with bytes := g.bytes - r.chunkBytes }
  { log' with
    pool := log.pool.releaseFrom log.lim.maxChunkNodes r.chunkHead
    retainedBytes := log.retainedBytes - r.chunkBytes }

/-- `moqr_log_abandon_record`. -/
def abandonRecord (gid sid oid : ℕ) (reset : ResetDesc) : Result × Log :=
  match log.resolveOpenRec gid sid oid with
  | .error rc => (rc, log)
  | .ok (_, i, r) => (.ok, log.abandonTail gid i r reset)

end

/-- One list of `moqr_log_abandon_group_open`. -/
def abandonListOpen (gid : ℕ) (reset : ResetDesc) (acc : ℕ × Log) (si : ℕ) : ℕ × Log :=
  match (acc.2.groupFind gid).bind fun g => g.sgs[si]? with
  | none => acc
  | some sg =>
    match sg.v.recs.getLast? with
    | none => acc
    | some r =>
      if r.objState = .open then
        let out := acc.2.abandonRecord gid sg.subgroupId r.objectId reset
        (if out.1 = .ok then acc.1 + 1 else acc.1, out.2)
      else acc

/-- `moqr_log_abandon_group_open`: the result, the number abandoned, and the log. -/
def abandonGroupOpen (log : Log) (gid : ℕ) (reset : ResetDesc) : Result × ℕ × Log :=
  match log.groupFind gid with
  | none => (.done, 0, log)
  | some g => (.ok, (List.range g.sgs.length).foldl (abandonListOpen gid reset) (0, log))

/-! ## Terminals of a subgroup list -/

/-- `moqr_log_seal_subgroup`.  A list that lost an object is recorded as reset, and a header
end-of-group bit resolves to the list's last object unless the group retains something beyond it. -/
def sealSubgroup (log : Log) (gid sid : ℕ) : Result × Log :=
  match log.groupFind gid with
  | none => (.done, log)
  | some g =>
    match g.listOf sid with
    | none => (.done, log)
    | some (i, sg) =>
      if sg.incomplete then
        (.ok, log.modifyGroup gid (·.modifySg i (·.resetWith evictedCause)))
      else if sg.endOfGroup ∧ sg.hasRecords ∧ (!g.hasFinal ∨ sg.lastObjectId < g.finalObjectId) then
        if g.retainsBeyond sg.lastObjectId then (.inval, log)
        else (.ok, log.modifyGroup gid fun g =>
          { g.modifySg i fun sg => { sg with sealed := true } with
            finalObjectId := sg.lastObjectId
            hasFinal := true })
      else (.ok, log.modifyGroup gid (·.modifySg i fun sg => { sg with sealed := true }))

/-- `moqr_log_reset_subgroup`. -/
def resetSubgroup (log : Log) (gid sid : ℕ) (reset : ResetDesc) : Result × Log :=
  match log.groupFind gid with
  | none => (.done, log)
  | some g =>
    match g.listOf sid with
    | none => (.done, log)
    | some (i, _) => (.ok, log.modifyGroup gid (·.modifySg i (·.resetWith reset)))

/-- `moqr_log_note_gap`. -/
def noteGap (log : Log) (gid sid : ℕ) : Result × Log :=
  match log.groupFind gid with
  | some g =>
    match g.listOf sid with
    | some (i, _) =>
      (.ok, log.modifyGroup gid
        (·.modifySg i fun sg => { sg with gapPending := true, incomplete := true }))
    | none => (.ok, log.addHole gid sid)
  | none => if log.belowHorizon gid then (.done, log) else (.ok, log.addHole gid sid)

/-! ## Upstream eviction -/

/-- One list of `moqr_log_note_evicted_below`: abandon its OPEN tail, then reset it with the tail's
own cause when it has one. -/
def endList (acc : ℕ × Log) (gid si : ℕ) : ℕ × Log :=
  match (acc.2.groupFind gid).bind fun g => g.sgs[si]? with
  | none => acc
  | some sg =>
    if sg.sealed then acc
    else
      let tailOpen := sg.v.recs.getLast?.any fun r => r.objState = .open
      let out := if tailOpen then
          acc.2.abandonRecord gid sg.subgroupId ((sg.v.recs.getLast?.map Rec.objectId).getD 0)
            evictedCause
        else (.ok, acc.2)
      if out.1 ≠ .ok then (acc.1, out.2)
      else
        let tail := ((out.2.groupFind gid).bind fun g => g.sgs[si]?).bind fun sg =>
          sg.v.recs.getLast?
        let cause := match tail with
          | none => evictedCause
          | some r => if r.objState = .abandoned ∧ resetDescValid r.reset then r.reset
            else evictedCause
        let out' := out.2.resetSubgroup gid sg.subgroupId cause
        (if out'.1 = .ok then acc.1 + 1 else acc.1, out'.2)

/-- The lists of one group below the watermark. -/
def endGroupLists (acc : ℕ × Log) (gid : ℕ) : ℕ × Log :=
  match acc.2.groupFind gid with
  | none => acc
  | some g => (List.range g.sgs.length).foldl (fun acc si => endList acc gid si) acc

/-- Raise the eviction floor over the groups below the watermark. -/
def raiseFloor (log : Log) (oldestRetained : ℕ) : Log :=
  { log with
    maxEvictedGroupId := max log.maxEvictedGroupId (oldestRetained - 1)
    anyEvicted := true }

/-- `moqr_log_note_evicted_below`: the number of lists ended, and the log.  Group ids ascend, so the
groups below the watermark are the leading ones. -/
def noteEvictedBelow (log : Log) (oldestRetained : ℕ) : ℕ × Log :=
  if oldestRetained = 0 then (0, log)
  else
    let below := (log.groups.takeWhile fun g => g.groupId < oldestRetained).map Group.groupId
    let out := below.foldl endGroupLists (0, log)
    (out.1, out.2.raiseFloor oldestRetained)

end Log

end MoqRelay
