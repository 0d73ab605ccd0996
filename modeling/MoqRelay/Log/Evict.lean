import MoqRelay.Log.State

/-!
# Log/Evict — group lookup, the identity set, and whole-group eviction

`group_find` is a binary search over the group array; eviction always takes a whole group, returns
its chunk nodes to the pool, and then advances the journal window past the slots of groups that are
gone.
-/

namespace MoqRelay

/-! ## The per-group object-identity set -/

/-- The start slot of an id: a Fibonacci hash, masked to the table size. -/
def idHash (cap id : ℕ) : ℕ := (id * 0x9E3779B97F4A7C15 % 2 ^ 64 / 2 ^ 32) &&& (cap - 1)

/-- The successor slot, `(i + 1) & mask`. -/
def idNext (cap i : ℕ) : ℕ := (i + 1) &&& (cap - 1)

/-- `id_set_contains`; `UINT64_MAX` is the empty mark, so that id has its own flag. -/
def Group.idSetContains (cap : ℕ) (g : Group) (id : ℕ) : Bool :=
  if id = u64Max then g.hasMaxObject
  else (probeFind g.idSet (idNext cap) (fun x => x) id cap (idHash cap id)).isSome

/-- `id_set_insert`. -/
def Group.idSetInsert (cap : ℕ) (g : Group) (id : ℕ) : Group :=
  if id = u64Max then { g with hasMaxObject := true }
  else { g with
    idSet := Function.update g.idSet (probeEmpty g.idSet (idNext cap) cap (idHash cap id))
      (some id) }

/-! ## The chunk-node pool -/

namespace ChunkPool

/-- Release one node to the head of the free list. -/
def freeNode (p : ChunkPool) (i : ℕ) : ChunkPool where
  nodes := Function.update p.nodes i ⟨none, 0, p.freeHead⟩
  freeHead := some i
  used := p.used - 1

/-- The loop of `chunk_list_release`: follow the list from a node, freeing each.  A list is no
longer than the pool, which is the fuel its callers pass. -/
def releaseFrom : ℕ → Option ℕ → ChunkPool → ChunkPool
  | 0, _, p => p
  | _ + 1, none, p => p
  | n + 1, some i, p => releaseFrom n (p.nodes i).next (p.freeNode i)

/-- `chunk_alloc`. -/
def alloc (p : ChunkPool) : Option (ℕ × ChunkPool) :=
  match p.freeHead with
  | none => none
  | some i => some (i, { p with freeHead := (p.nodes i).next, used := p.used + 1 })

/-- `rec_release`, as far as the pool is concerned. -/
def recRelease (n : ℕ) (p : ChunkPool) (r : Rec) : ChunkPool :=
  if 0 < r.chunkCount then p.releaseFrom n r.chunkHead else p

/-- `group_release`: every record of the group, the subgroup lists first. -/
def groupRelease (n : ℕ) (p : ChunkPool) (g : Group) : ChunkPool := g.recs.foldl (recRelease n) p

end ChunkPool

/-- `group_holds_node`. -/
def Group.holdsNode (g : Group) : Bool :=
  g.sgs.any fun sg => sg.v.recs.any fun r => 0 < r.chunkCount

namespace Log

/-! ## Lookup -/

section

variable (log : Log)

/-- The index `group_find` reports. -/
def groupIdx (gid : ℕ) : ℕ := lowerBound Group.groupId gid log.groups

/-- `group_find`. -/
def groupFind (gid : ℕ) : Option Group := findKey Group.groupId gid log.groups

/-- Write through the pointer `group_find` returned. -/
def modifyGroup (gid : ℕ) (f : Group → Group) : Log :=
  { log with groups := log.groups.modify (log.groupIdx gid) f }

/-- `&log->groups[0] == g` for the group `gid`. -/
def isOldest (gid : ℕ) : Bool := (log.groups.head?.map Group.groupId) = some gid

/-- The horizon test: the id lies at or below a group that was evicted. -/
def belowHorizon (gid : ℕ) : Bool := log.anyEvicted && gid ≤ log.maxEvictedGroupId

/-- The journal slot of a sequence number. -/
def slotOf (seq : ℕ) : JSlot := log.journal (seq % log.lim.maxRecords)

/-! ## Eviction -/

/-- The loop of `journal_compact_head`: the first of the next `n` sequence numbers whose group is
retained. -/
def compactFrom : ℕ → ℕ → ℕ
  | 0, seq => seq
  | n + 1, seq =>
    if (log.groupFind (log.slotOf seq).groupId).isSome then seq else compactFrom n (seq + 1)

/-- `journal_compact_head`. -/
def journalCompactHead : Log :=
  { log with beginSeq := log.compactFrom (log.nextSeq - log.beginSeq) log.beginSeq }

/-- `evict_group_at` before the journal is compacted: the group is released and leaves the
array. -/
def dropGroup (idx : ℕ) (g : Group) : Log :=
  { log with
    groups := log.groups.eraseIdx idx
    pool := log.pool.groupRelease log.lim.maxChunkNodes g
    retainedBytes := log.retainedBytes - g.bytes
    liveRecords := log.liveRecords - g.recordCount
    evictedGroupsTotal := log.evictedGroupsTotal + 1
    evictedRecordsTotal := log.evictedRecordsTotal + g.recordCount
    maxEvictedGroupId := max log.maxEvictedGroupId g.groupId
    anyEvicted := true }

/-- `evict_group_at`. -/
def evictGroupAt (idx : ℕ) : Log :=
  match log.groups[idx]? with
  | none => log
  | some g => (log.dropGroup idx g).journalCompactHead

end

/-- `moqr_log_evict_groups`: the number evicted, and the log.  `n` bounds the loop by the groups
there are. -/
def evictGroupsFrom (maxGroups : ℕ) : ℕ → ℕ → Log → ℕ × Log
  | 0, evicted, log => (evicted, log)
  | n + 1, evicted, log =>
    if evicted < maxGroups then evictGroupsFrom maxGroups n (evicted + 1) (log.evictGroupAt 0)
    else (evicted, log)

def evictGroups (log : Log) (maxGroups : ℕ) : ℕ × Log :=
  evictGroupsFrom maxGroups log.groups.length 0 log

/-- The loop of `moqr_log_tick`; the age is an unsigned difference. -/
def tickFrom (nowUs : ℕ) : ℕ → ℕ → Log → ℕ × Log
  | 0, evicted, log => (evicted, log)
  | n + 1, evicted, log =>
    match log.groups.head? with
    | none => (evicted, log)
    | some oldest =>
      if u64Sub nowUs oldest.firstArrivalUs < log.lim.maxAgeUs then (evicted, log)
      else tickFrom nowUs n (evicted + 1) (log.evictGroupAt 0)

/-- `moqr_log_tick`. -/
def tick (log : Log) (nowUs : ℕ) : ℕ × Log :=
  if log.lim.maxAgeUs = 0 then (0, log) else tickFrom nowUs log.groups.length 0 log

/-- `moqr_log_evicted_floor`; the increment is 64-bit. -/
def evictedFloor (log : Log) : ℕ :=
  if log.anyEvicted then (log.maxEvictedGroupId + 1) % 2 ^ 64 else 0

end Log

end MoqRelay
