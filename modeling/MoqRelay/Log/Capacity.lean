import MoqRelay.Log.Cursor

/-!
# Log/Capacity — the closed-form ceiling and the capacity check

`moqr_log_structure_ceiling` and `moqr_log_capacity_check`.  The `sizeof` of each structure depends
on the ABI, so the sizes are a parameter, and nothing is assumed of them beyond the log's own
fitting in 64 bits.
-/

namespace MoqRelay

/-- The `sizeof` of each structure the ceiling counts. -/
structure Sizes where
  (log group subgroup record jslot cursorSlot chunkNode : ℕ)
  log_le : log ≤ u64Max

/-- `moqr_cap_add`. -/
def capAdd (a b : ℕ) : ℕ := satAdd u64Max a b

/-- `moqr_cap_mul`. -/
def capMul (a b : ℕ) : ℕ := satMul u64Max a b

/-- `moqr_log_structure_ceiling`. -/
def structureCeiling (sz : Sizes) (lim : LogLimits) : ℕ :=
  let liveCap := min (capMul lim.maxGroups lim.maxObjectsPerGroup) lim.maxRecords
  let s := sz.log
  let s := capAdd s (capMul lim.maxGroups sz.group)
  let s := capAdd s (capMul (capMul lim.maxGroups lim.maxSubgroups) sz.subgroup)
  let s := capAdd s (capMul (capMul lim.maxGroups lim.idSetCap) 8)
  let s := capAdd s (capMul lim.maxRecords sz.jslot)
  let s := capAdd s (capMul lim.maxCursors sz.cursorSlot)
  let s := capAdd s (capMul lim.maxChunkNodes sz.chunkNode)
  let s := capAdd s (capMul (capMul 2 liveCap) sz.record)
  capAdd s (capMul (capMul lim.maxGroups (lim.maxSubgroups + 1)) (8 * sz.record))

/-- The structure bytes of one retained group. -/
def Group.structureBytes (sz : Sizes) (lim : LogLimits) (g : Group) : ℕ :=
  lim.maxSubgroups * sz.subgroup + lim.idSetCap * 8 +
    (g.sgs.map fun sg => sg.v.cap * sz.record).sum + g.dg.cap * sz.record

/-- The footprint recomputed from the log's shape, accumulated in 64 bits. -/
def Log.structureBytes (sz : Sizes) (log : Log) : ℕ :=
  log.groups.foldl (fun acc g => (acc + g.structureBytes sz log.lim) % 2 ^ 64)
    ((sz.log + log.lim.maxGroups * sz.group + log.lim.maxRecords * sz.jslot +
      log.lim.maxCursors * sz.cursorSlot + log.lim.maxChunkNodes * sz.chunkNode) % 2 ^ 64)

/-! ## The check -/

/-- The walk over one subgroup list: ids ascend, none beyond a known final. -/
def checkList (finalObjectId : ℕ) : Option ℕ → List Rec → Option String
  | _, [] => none
  | prev, r :: rs =>
    if prev.any fun p => r.objectId ≤ p then some "subgroup object ids not ascending"
    else if finalObjectId ≠ finalUnknown ∧ finalObjectId < r.objectId then
      some "record beyond group final"
    else checkList finalObjectId (some r.objectId) rs

/-- One group of the check, given the previous group's id. -/
def Group.check (lim : LogLimits) (prev : Option ℕ) (g : Group) : Option String :=
  if prev.any fun p => g.groupId ≤ p then some "group array not strictly ascending"
  else if lim.maxObjectsPerGroup < g.recordCount then some "group exceeds per-group object cap"
  else if lim.maxSubgroups < g.sgs.length then some "group exceeds subgroup cap"
  else match g.sgs.findSome? fun sg => checkList g.finalObjectId none sg.v.recs with
    | some why => some why
    | none =>
      if (g.recs.map Rec.bytes).sum ≠ g.bytes then some "group byte aggregate mismatch"
      else if g.recs.length ≠ g.recordCount then some "group record aggregate mismatch"
      else none

/-- The groups of the check, in array order. -/
def checkGroups (lim : LogLimits) : Option ℕ → List Group → Option String
  | _, [] => none
  | prev, g :: gs =>
    match g.check lim prev with
    | some why => some why
    | none => checkGroups lim (some g.groupId) gs

/-- The slots with an odd generation. -/
def Log.liveCursors (log : Log) : ℕ :=
  (List.range log.lim.maxCursors).countP fun i => (log.cursors i).generation % 2 ≠ 0

/-- The first violated bound of `moqr_log_capacity_check`, in the source's order and words. -/
def Log.capacityFault (sz : Sizes) (log : Log) : Option String :=
  if log.lim.maxBytes < log.retainedBytes then some "retained bytes exceed budget"
  else if log.lim.maxGroups < log.groups.length then some "group count exceeds cap"
  else if log.lim.maxRecords < log.nextSeq - log.beginSeq then
    some "journal window exceeds max records"
  else if log.nextSeq - log.beginSeq < log.liveRecords then
    some "live records exceed journal window"
  else match checkGroups log.lim none log.groups with
    | some why => some why
    | none =>
      if (log.groups.map fun g => (g.recs.map Rec.bytes).sum).sum ≠ log.retainedBytes then
        some "log byte aggregate mismatch"
      else if (log.groups.map fun g => g.recs.length).sum ≠ log.liveRecords then
        some "log record aggregate mismatch"
      else if structureCeiling sz log.lim < log.structureBytes sz then
        some "structure bytes exceed described ceiling"
      else if log.liveCursors ≠ log.cursorCount then some "cursor count mismatch"
      else none

/-- `moqr_log_capacity_check`: the result and the reason. -/
def Log.capacityCheck (sz : Sizes) (log : Log) : Result × String :=
  match log.capacityFault sz with
  | none => (.ok, "ok")
  | some why => (.internal, why)

end MoqRelay
