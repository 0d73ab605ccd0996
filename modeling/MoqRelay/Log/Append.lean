import MoqRelay.Log.Evict

/-!
# Log/Append — admitting one record

`moqr_log_append` in the source's order: descriptor checks and the final-evidence preflight, which
mutate nothing; group activation, which may evict the oldest group; the checks against the group;
the byte-budget and journal-window loops, which evict from the oldest end; and the commit, whose
only fallible step is the growth of the record vector.

A function that can fail after it evicted returns `Except (Result × Log) _`: the log it leaves
behind travels with the error.
-/

namespace MoqRelay

/-- `moqr_log_append_desc_t`; the two identifiers are 64-bit. -/
structure AppendDesc where
  (structSize groupId subgroupId objectId publisherPriority : ℕ)
  status : ObjStatus
  (datagramPref endOfGroup : Bool)
  (payload properties : Option Rcbuf)
  nowUs : ℕ
  objState : ObjState
  declaredLen : UInt64
  (firstObject subgroupProperties : Bool)
  propertiesCodec : ℕ
  group_le : groupId ≤ u64Max
  object_le : objectId ≤ u64Max
  deriving DecidableEq, Repr

/-- The outcome of each allocation an append can make: the subgroup array and the identity set of a
new group, and a grown record vector. -/
structure AppendMem where
  (sgs idSet vec : Bool)
  deriving DecidableEq, Repr

namespace AppendDesc

variable (d : AppendDesc)

/-- `LOG_DESC_HAS`: the field that ends at byte `extent` lies inside the declared size. -/
def has (extent : ℕ) : Bool := extent ≤ d.structSize

/-- `log_desc_codec_valid`. -/
def codecValid : Bool := !d.has 97 || d.propertiesCodec ≤ propsCodecVi64

/-- The bytes accounted at append. -/
def bytes : UInt64 := rcbufLen d.payload + rcbufLen d.properties

/-- The size the record will have once every chunk arrived. -/
def ceiling : UInt64 :=
  if d.objState = .open then d.declaredLen + rcbufLen d.properties else d.bytes

/-- Per-record evidence of the group's final object. -/
def eogEvidence : Bool := d.status = .endOfGroup || (d.endOfGroup && d.datagramPref)

/-- Evidence of the track's final object. -/
def eotEvidence : Bool := d.status = .endOfTrack

end AppendDesc

/-- `vec_push`: a full vector doubles, from 8; `none` when the allocation fails. -/
def RecVec.push (v : RecVec) (r : Rec) (mem : Bool) : Option RecVec :=
  if v.recs.length = v.cap then
    if mem then some ⟨v.recs ++ [r], if v.cap = 0 then 8 else v.cap * 2⟩ else none
  else some ⟨v.recs ++ [r], v.cap⟩

/-- `group_retains_beyond`. -/
def Group.retainsBeyond (g : Group) (finalQ : ℕ) : Bool :=
  g.sgs.any (fun sg => sg.hasRecords && finalQ < sg.lastObjectId) ||
    g.dg.recs.any fun r => finalQ < r.objectId

/-- The subgroup list with an id, and its index: the first match of the linear scan. -/
def Group.listOf (g : Group) (sid : ℕ) : Option (ℕ × Subgroup) :=
  (g.sgs.findIdx? fun sg => sg.subgroupId = sid).bind fun i => (g.sgs[i]?).map fun sg => (i, sg)

/-- The empty group `group_activate` inserts. -/
def Group.fresh (gid nowUs : ℕ) : Group where
  groupId := gid
  finalObjectId := finalUnknown
  bytes := 0
  recordCount := 0
  firstArrivalUs := nowUs
  lastArrivalUs := nowUs
  hasFinal := false
  hasMaxObject := false
  sgs := []
  dg := .empty
  idSet _ := none

/-- A subgroup slot prepared for its first record. -/
def Subgroup.prepared (sid : ℕ) (incomplete : Bool) : Subgroup where
  subgroupId := sid
  lastObjectId := 0
  hasRecords := false
  sealed := false
  sealedReset := false
  reset := resetDescNone
  endOfGroup := false
  gapPending := false
  incomplete := incomplete
  v := .empty

/-- An append to a list whose stream already ended starts a new lifetime of the subgroup. -/
def Subgroup.reopens (sg : Subgroup) : Bool := sg.hasRecords && sg.sealed

/-- `MOQR_LOG_HOLES`. -/
def logHoles : ℕ := 8

namespace Log

section

variable (log : Log)

/-- `log_hole_has`. -/
def holeHas (gid sid : ℕ) : Bool :=
  (List.range logHoles).any fun i =>
    (log.holes i).used && (log.holes i).groupId = gid && (log.holes i).subgroupId = sid

/-- `log_hole_clear`. -/
def holeClear (gid sid : ℕ) : ℕ → Hole := fun i =>
  let h := log.holes i
  if i < logHoles ∧ h.used ∧ h.groupId = gid ∧ h.subgroupId = sid then { h with used := false }
  else h

/-! ## Refusals that mutate nothing -/

/-- The final-evidence preflight, on a lookup that does not activate the group. -/
def finalPreflight (d : AppendDesc) : Bool :=
  if d.eogEvidence || d.eotEvidence then
    (match log.groupFind d.groupId with
      | none => false
      | some pg =>
        let lowers := !pg.hasFinal || d.objectId < pg.finalObjectId
        ((d.eotEvidence || lowers) && pg.retainsBeyond d.objectId) ||
          (d.eotEvidence && pg.hasFinal && d.objectId < pg.finalObjectId)) ||
      (d.eotEvidence && (match log.groups.getLast? with
        | none => false
        | some last => d.groupId < last.groupId))
  else false

/-- The refusals before group activation, in the source's order. -/
def appendRefuse (d : AppendDesc) : Option Result :=
  if d.structSize < 80 ∨ ¬ d.codecValid then some .inval
  else if d.status ≠ .normal ∧ d.payload.isSome then some .inval
  else if d.objState ≠ .complete ∧ d.objState ≠ .open then some .inval
  else if d.objState = .open ∧ (d.payload.isSome ∨ d.datagramPref ∨ d.status ≠ .normal) then
    some .inval
  else if log.endOfTrack ∧ (log.finalGroupId < d.groupId ∨
      (d.groupId = log.finalGroupId ∧ log.finalTrackObjectId < d.objectId)) then some .inval
  else if log.lim.maxBytes < d.ceiling then some .capacity
  else if log.finalPreflight d then some .inval
  else none

/-! ## Activation -/

/-- `group_activate`: the log in which the group is retained. -/
def groupActivate (gid nowUs : ℕ) (mem : AppendMem) : Except (Result × Log) Log :=
  match log.groupFind gid with
  | some _ => .ok log
  | none =>
    if log.belowHorizon gid then .error (.tooOld, log)
    else
      let full := log.groups.length = log.lim.maxGroups
      if full ∧ (log.groups.head?.any fun g => gid < g.groupId) then .error (.capacity, log)
      else
        let log' := if full then log.evictGroupAt 0 else log
        if mem.sgs && mem.idSet then
          .ok { log' with groups := log'.groups.insertIdx (log'.groupIdx gid) (.fresh gid nowUs) }
        else .error (.nomem, log')

/-! ## The checks against the group -/

/-- The refusals once the group is there: its final, its record bound, a repeated identity, the
subgroup bound, the order within the subgroup, and an unfinished object at its tail. -/
def groupRefuse (g : Group) (d : AppendDesc) : Option Result :=
  if g.hasFinal ∧ g.finalObjectId < d.objectId then some .inval
  else if log.lim.maxObjectsPerGroup ≤ g.recordCount then some .capacity
  else if g.idSetContains log.lim.idSetCap d.objectId then some .inval
  else if d.datagramPref then none
  else match g.listOf d.subgroupId with
    | none => if g.sgs.length = log.lim.maxSubgroups then some .capacity else none
    | some (_, sg) =>
      if sg.hasRecords ∧ d.objectId ≤ sg.lastObjectId then some .inval
      else if sg.hasRecords ∧ (sg.v.recs.getLast?.any fun r => r.objState = .open) then
        some .wrongState
      else none

end

/-! ## Making room -/

/-- The byte-budget loop: evict oldest groups, never the target, until the record fits.  `n` is the
group count. -/
def fitBytes (gid : ℕ) (bytes : UInt64) : ℕ → Log → Except (Result × Log) Log
  | 0, log =>
    if log.lim.maxBytes < log.retainedBytes + bytes then .error (.capacity, log) else .ok log
  | n + 1, log =>
    if log.lim.maxBytes < log.retainedBytes + bytes then
      if log.isOldest gid then .error (.capacity, log)
      else
        let log' := log.evictGroupAt 0
        if (log'.groupFind gid).isNone then .error (.internal, log') else fitBytes gid bytes n log'
    else .ok log

/-- The journal-window loop: compact, and evict while the window is still full. -/
def fitJournal (gid : ℕ) : ℕ → Log → Except (Result × Log) Log
  | 0, log =>
    if log.nextSeq - log.beginSeq = log.lim.maxRecords then
      let log' := log.journalCompactHead
      if log'.nextSeq - log'.beginSeq < log'.lim.maxRecords then .ok log'
        else .error (.capacity, log')
    else .ok log
  | n + 1, log =>
    if log.nextSeq - log.beginSeq = log.lim.maxRecords then
      let log' := log.journalCompactHead
      if log'.nextSeq - log'.beginSeq < log'.lim.maxRecords then .ok log'
      else if log'.isOldest gid then .error (.capacity, log')
      else
        let log'' := log'.evictGroupAt 0
        if (log''.groupFind gid).isNone then .error (.internal, log'') else fitJournal gid n log''
    else .ok log

/-! ## Commit -/

/-- The subgroup a record goes to: the existing list, or the slot prepared after the last one. -/
def destSubgroup (log : Log) (g : Group) (d : AppendDesc) : ℕ × Subgroup :=
  (g.listOf d.subgroupId).getD
    (g.sgs.length, .prepared d.subgroupId (log.holeHas d.groupId d.subgroupId))

/-- The record built at the commit point, before the subgroup's marks. -/
def baseRec (log : Log) (d : AppendDesc) : Rec where
  arrivalSeq := log.nextSeq
  arrivalUs := d.nowUs
  groupId := d.groupId
  subgroupId := if d.datagramPref then 0 else d.subgroupId
  objectId := d.objectId
  bytes := d.bytes
  declaredLen := if d.objState = .open then d.declaredLen else 0
  payload := d.payload
  properties := d.properties
  chunkHead := none
  chunkTail := none
  chunkCount := 0
  publisherPriority := d.publisherPriority
  status := d.status
  objState := d.objState
  reset := resetDescNone
  datagramPref := d.datagramPref
  endOfGroup := d.endOfGroup
  firstObject := d.has 81 && d.firstObject
  subgroupProperties := d.has 89 && d.subgroupProperties
  propertiesCodec := if d.has 97 then d.propertiesCodec else propsCodecUnknown
  followsGap := false
  gapReset := resetDescNone
  hasOpener := false
  openerConn := 0
  openerSrc := 0

/-- A subgroup record: `follows_gap` and the terminal the previous stream still owes. -/
def subgroupRec (log : Log) (d : AppendDesc) (sg : Subgroup) : Rec :=
  { log.baseRec d with
    followsGap := sg.gapPending || sg.reopens
    gapReset := if sg.reopens && sg.sealedReset then sg.reset else resetDescNone }

end Log

/-- The subgroup's fields after a record was pushed to it.  A header end-of-group bit is metadata of
the subgroup, resolved when it is sealed; an end-of-group *status* is evidence of its own. -/
def Subgroup.pushed (sg : Subgroup) (d : AppendDesc) (v : RecVec) : Subgroup :=
  { sg with
    v := v
    lastObjectId := d.objectId
    hasRecords := true
    gapPending := false
    sealed := if sg.reopens then false else sg.sealed
    sealedReset := if sg.reopens then false else sg.sealedReset
    reset := if sg.reopens then resetDescNone else sg.reset
    incomplete := if sg.reopens then false else sg.incomplete
    endOfGroup := sg.endOfGroup || (!d.eogEvidence && d.endOfGroup) }

namespace Group

/-- `has_final` and `final_object_id` after a record: end-of-group evidence sets or lowers the
final, end-of-track evidence sets one that is not known. -/
def finalAfter (g : Group) (d : AppendDesc) : Bool × ℕ :=
  let f := if d.eogEvidence ∧ (!g.hasFinal ∨ d.objectId < g.finalObjectId) then (true, d.objectId)
    else (g.hasFinal, g.finalObjectId)
  if d.eotEvidence ∧ !f.1 then (true, d.objectId) else f

/-- The group's identity set, aggregates and finals after a record was pushed to one of its
lists. -/
def account (g : Group) (cap : ℕ) (d : AppendDesc) : Group :=
  { g with
    idSet := (g.idSetInsert cap d.objectId).idSet
    hasMaxObject := (g.idSetInsert cap d.objectId).hasMaxObject
    bytes := g.bytes + d.bytes
    recordCount := g.recordCount + 1
    lastArrivalUs := d.nowUs
    hasFinal := (g.finalAfter d).1
    finalObjectId := (g.finalAfter d).2 }

/-- The group with the vector of a list replaced by a grown one. -/
def pushSubgroup (g : Group) (i : ℕ) (sg : Subgroup) : Group :=
  { g with sgs := if i = g.sgs.length then g.sgs ++ [sg] else g.sgs.set i sg }

end Group

namespace Log

variable (log : Log)

/-- The log-level effects of a committed record: its journal slot, the aggregates, and the end of
the track. -/
def account (d : AppendDesc) (s : ListSlot) (recIndex : ℕ) : Log :=
  { log with
    journal := Function.update log.journal (log.nextSeq % log.lim.maxRecords)
      ⟨d.groupId, s, recIndex⟩
    nextSeq := log.nextSeq + 1
    liveRecords := log.liveRecords + 1
    retainedBytes := log.retainedBytes + d.bytes
    appendedTotal := log.appendedTotal + 1
    endOfTrack := log.endOfTrack || d.eotEvidence
    finalGroupId := if d.eotEvidence then d.groupId else log.finalGroupId
    finalTrackObjectId := if d.eotEvidence then d.objectId else log.finalTrackObjectId }

/-- The commit of a record into the target group; `none` when its vector cannot grow. -/
def commit (g : Group) (d : AppendDesc) (mem : AppendMem) : Option Log :=
  if d.datagramPref then
    match g.dg.push (log.baseRec d) mem.vec with
    | none => none
    | some v =>
      let log' := log.modifyGroup d.groupId fun g => { g with dg := v }.account log.lim.idSetCap d
      some (log'.account d .datagram g.dg.recs.length)
  else
    let (i, sg) := log.destSubgroup g d
    match sg.v.push (log.subgroupRec d sg) mem.vec with
    | none => none
    | some v =>
      let log' := log.modifyGroup d.groupId fun g =>
        (g.pushSubgroup i (sg.pushed d v)).account log.lim.idSetCap d
      let log' := if i = g.sgs.length then
        { log' with holes := log.holeClear d.groupId d.subgroupId } else log'
      some (log'.account d (.subgroup i) sg.v.recs.length)

/-- The part of `moqr_log_append` that runs on an activated group. -/
def appendActive (d : AppendDesc) (mem : AppendMem) : Result × Log :=
  match log.groupFind d.groupId with
  | none => (.internal, log)
  | some g =>
    match log.groupRefuse g d with
    | some rc => (rc, log)
    | none =>
      match (fitBytes d.groupId d.bytes log.groups.length log).bind fun log =>
          fitJournal d.groupId log.groups.length log with
      | .error e => e
      | .ok log =>
        match log.groupFind d.groupId with
        | none => (.internal, log)
        | some g =>
          match log.commit g d mem with
          | none => (.nomem, log)
          | some log' => (.ok, log')

/-- `moqr_log_append`. -/
def append (d : AppendDesc) (mem : AppendMem) : Result × Log :=
  match log.appendRefuse d with
  | some rc => (rc, log)
  | none =>
    match log.groupActivate d.groupId d.nowUs mem with
    | .error e => e
    | .ok log => log.appendActive d mem

/-- `moqr_log_open_record`. -/
def openRecord (d : AppendDesc) (mem : AppendMem) : Result × Log :=
  if d.structSize < 80 ∨ ¬ d.codecValid then (.inval, log)
  else if d.objState ≠ .open then (.inval, log)
  else log.append d mem

end Log

end MoqRelay
