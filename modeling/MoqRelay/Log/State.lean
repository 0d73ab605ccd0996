import MoqRelay.Basic
import MoqRelay.Lib.Search

/-!
# Log/State — the per-track object log: records, groups, journal, cursors

The data of `log_internal.h`, and `moqr_log_cfg_resolve` / `moqr_log_create`.

A count the source keeps beside an array (`sg_count`, `v.count`, `group_count`) is the length of the
list that models it; a fixed array addressed modulo its size (journal, cursors, chunk pool, id set,
holes) is a function of the index.  Byte amounts are `UInt64`, since their sums wrap; identifiers,
times and arrival sequence numbers are natural numbers.  The index sentinels `UINT32_MAX` and
`UINT64_MAX` are `none`, except `final_object_id`, whose reset value the capacity check compares
with.
-/

namespace MoqRelay

/-- `moqr_obj_status_t`; the field is a byte, so a descriptor may carry any other value. -/
inductive ObjStatus
  | normal | endOfGroup | endOfTrack | other (code : ℕ)
  deriving DecidableEq, Repr, Inhabited

/-- `moqr_obj_state_t`. -/
inductive ObjState
  | complete | open | abandoned | other (code : ℕ)
  deriving DecidableEq, Repr, Inhabited

/-- `MOQR_FINAL_UNKNOWN`. -/
def finalUnknown : ℕ := u64Max

/-- `MOQR_PROPS_CODEC_UNKNOWN`, `MOQR_PROPS_CODEC_VI64`. -/
def propsCodecUnknown : ℕ := 0
def propsCodecQuicVarint : ℕ := 1
def propsCodecVi64 : ℕ := 2

/-- `moqr_chunk_node_t`. -/
structure ChunkNode where
  buf : Option Rcbuf
  len : UInt64
  next : Option ℕ

/-- The chunk-node pool: `chunk_pool`, `chunk_free_head`, `chunk_used`. -/
structure ChunkPool where
  nodes : ℕ → ChunkNode
  freeHead : Option ℕ
  used : ℕ

/-- `moqr_rec_t`. -/
structure Rec where
  (arrivalSeq arrivalUs groupId subgroupId objectId : ℕ)
  (bytes declaredLen : UInt64)
  (payload properties : Option Rcbuf)
  (chunkHead chunkTail : Option ℕ)
  (chunkCount publisherPriority : ℕ)
  status : ObjStatus
  objState : ObjState
  reset : ResetDesc
  (datagramPref endOfGroup firstObject subgroupProperties : Bool)
  propertiesCodec : ℕ
  followsGap : Bool
  gapReset : ResetDesc
  hasOpener : Bool
  (openerConn openerSrc : ℕ)
  deriving DecidableEq, Repr

/-- `moqr_rec_vec_t`: the records and the allocated capacity. -/
structure RecVec where
  recs : List Rec
  cap : ℕ
  deriving DecidableEq, Repr

def RecVec.empty : RecVec := ⟨[], 0⟩

/-- `moqr_subgroup_t`. -/
structure Subgroup where
  (subgroupId lastObjectId : ℕ)
  (hasRecords sealed sealedReset : Bool)
  reset : ResetDesc
  (endOfGroup gapPending incomplete : Bool)
  v : RecVec
  deriving DecidableEq, Repr

/-- `moqr_group_t`. -/
structure Group where
  (groupId finalObjectId : ℕ)
  bytes : UInt64
  (recordCount firstArrivalUs lastArrivalUs : ℕ)
  (hasFinal hasMaxObject : Bool)
  sgs : List Subgroup
  dg : RecVec
  idSet : ℕ → Option ℕ

/-- One of a group's record lists: the datagram list, or a subgroup by index. -/
inductive ListSlot
  | datagram | subgroup (index : ℕ)
  deriving DecidableEq, Repr, Inhabited

/-- `moqr_jslot_t`. -/
structure JSlot where
  groupId : ℕ
  list : ListSlot
  recIndex : ℕ
  deriving DecidableEq, Repr, Inhabited

/-- `moqr_cursor_slot_t`. -/
structure CursorSlot where
  seq : ℕ
  peekedSeq : Option ℕ
  (skips generation : ℕ)
  deriving DecidableEq, Repr, Inhabited

/-- An entry of the log's hole table. -/
structure Hole where
  used : Bool
  (groupId subgroupId : ℕ)
  deriving DecidableEq, Repr, Inhabited

/-- The resolved bounds a log is created with. -/
structure LogLimits where
  maxGroups : ℕ
  maxBytes : UInt64
  (maxAgeUs maxSubgroups maxObjectsPerGroup maxRecords maxCursors maxChunkNodes idSetCap : ℕ)
  deriving DecidableEq, Repr

/-- `moqr_log_t`. -/
structure Log where
  lim : LogLimits
  groups : List Group
  maxEvictedGroupId : ℕ
  (anyEvicted endOfTrack : Bool)
  (finalGroupId finalTrackObjectId : ℕ)
  journal : ℕ → JSlot
  (beginSeq nextSeq liveRecords : ℕ)
  cursors : ℕ → CursorSlot
  cursorCount : ℕ
  pool : ChunkPool
  holes : ℕ → Hole
  holesNext : ℕ
  retainedBytes : UInt64
  (appendedTotal evictedGroupsTotal evictedRecordsTotal : ℕ)

/-! ## The lists of a group -/

namespace Group

/-- The record list a slot names. -/
def list? (g : Group) : ListSlot → Option RecVec
  | .datagram => some g.dg
  | .subgroup i => (g.sgs[i]?).map Subgroup.v

/-- The record at an index of a list. -/
def recAt? (g : Group) (s : ListSlot) (i : ℕ) : Option Rec := (g.list? s).bind fun v => v.recs[i]?

/-- Every retained record of the group: the subgroup lists in order, then the datagrams. -/
def recs (g : Group) : List Rec := g.sgs.flatMap (fun sg => sg.v.recs) ++ g.dg.recs

end Group

/-! ## Configuration -/

/-- `moqr_log_cfg_t`, with the fields resolution reads; `alloc` says a usable allocator was
given. -/
structure LogCfg where
  structSize : ℕ
  alloc : Bool
  maxGroups : ℕ
  maxBytes : UInt64
  (maxAgeUs maxSubgroupsPerGroup maxObjectsPerGroup maxCursors maxChunkNodes : ℕ)
  deriving DecidableEq, Repr

/-- A configured value, or the library default for an absent or zero one. -/
def orDefault (present : Bool) (v dflt : ℕ) : ℕ := if present ∧ v ≠ 0 then v else dflt

/-- `while (cap < want) cap <<= 1`. -/
def idSetCapFrom : ℕ → ℕ → ℕ → ℕ
  | 0, cap, _ => cap
  | n + 1, cap, want => if cap < want then idSetCapFrom n (cap * 2) want else cap

namespace LogCfg

/-- `LOG_CFG_HAS`: the field that ends at byte `extent` lies inside the declared size. -/
def has (cfg : LogCfg) (extent : ℕ) : Bool := extent ≤ cfg.structSize

/-- `moqr_log_cfg_resolve`.  Field extents are those of the 64-bit layout.  The identity set's size
starts at 16 and doubles; 32 doublings exceed every size that passes the check. -/
def resolve (cfg : LogCfg) : Option LogLimits :=
  let maxSubgroups := orDefault (cfg.has 44) cfg.maxSubgroupsPerGroup 16
  let maxObjects := orDefault (cfg.has 48) cfg.maxObjectsPerGroup 4096
  let cap := idSetCapFrom 32 16 (2 * maxObjects)
  if u32Max < cap ∨ u32Max ≤ maxSubgroups then none
  else some
    { maxGroups := orDefault (cfg.has 40) cfg.maxGroups 8
      maxBytes := if cfg.has 40 ∧ cfg.maxBytes ≠ 0 then cfg.maxBytes else 8 * 1024 * 1024
      maxAgeUs := if cfg.has 40 then cfg.maxAgeUs else 0
      maxSubgroups := maxSubgroups
      maxObjectsPerGroup := maxObjects
      maxRecords := 4096
      maxCursors := orDefault (cfg.has 52) cfg.maxCursors 64
      maxChunkNodes := orDefault (cfg.has 56) cfg.maxChunkNodes 8192
      idSetCap := cap }

end LogCfg

/-- `memset` of a chunk pool: every node on the free list, in index order. -/
def ChunkPool.fresh (n : ℕ) : ChunkPool where
  nodes i := ⟨none, 0, if i + 1 < n then some (i + 1) else none⟩
  freeHead := if 0 < n then some 0 else none
  used := 0

/-- The state `moqr_log_create` leaves behind. -/
def Log.fresh (lim : LogLimits) : Log where
  lim := lim
  groups := []
  maxEvictedGroupId := 0
  anyEvicted := false
  endOfTrack := false
  finalGroupId := finalUnknown
  finalTrackObjectId := finalUnknown
  journal _ := ⟨0, .subgroup 0, 0⟩
  beginSeq := 0
  nextSeq := 0
  liveRecords := 0
  cursors _ := ⟨0, some 0, 0, 0⟩
  cursorCount := 0
  pool := .fresh lim.maxChunkNodes
  holes _ := ⟨false, 0, 0⟩
  holesNext := 0
  retainedBytes := 0
  appendedTotal := 0
  evictedGroupsTotal := 0
  evictedRecordsTotal := 0

/-- `moqr_log_create`; `mem` is whether its allocations succeed. -/
def Log.create (cfg : LogCfg) (mem : Bool) : Except Result Log :=
  if cfg.structSize < 4 then .error .inval
  else match cfg.resolve with
    | none => .error .inval
    | some lim =>
      if ¬ (cfg.has 16 ∧ cfg.alloc) then .error .inval
      else if mem then .ok (.fresh lim)
      else .error .nomem

/-! ## What resolution guarantees -/

theorem idSetCapFrom_pow (n c want : ℕ) : ∃ k, idSetCapFrom n c want = c * 2 ^ k := by
  induction n generalizing c with
  | zero => exact ⟨0, by simp [idSetCapFrom]⟩
  | succ n ih =>
    unfold idSetCapFrom
    split
    · obtain ⟨k, hk⟩ := ih (c * 2)
      exact ⟨k + 1, by rw [hk]; ring⟩
    · exact ⟨0, by simp⟩

/-- The doubling stops at a sufficient size, unless the fuel runs out at `c · 2ⁿ`. -/
theorem le_idSetCapFrom (n c want : ℕ) :
    want ≤ idSetCapFrom n c want ∨ idSetCapFrom n c want = c * 2 ^ n := by
  induction n generalizing c with
  | zero => exact .inr (by simp [idSetCapFrom])
  | succ n ih =>
    unfold idSetCapFrom
    split
    · rcases ih (c * 2) with h | h
      · exact .inl h
      · exact .inr (by rw [h]; ring)
    · exact .inl (by omega)

/-- **The bounds a created log runs under.**  The identity set is a power of two at least twice the
records a group may hold, so it always keeps an empty slot. -/
structure LogLimits.Ok (lim : LogLimits) : Prop where
  maxGroups_pos : 0 < lim.maxGroups
  maxObjects_pos : 0 < lim.maxObjectsPerGroup
  maxRecords_eq : lim.maxRecords = 4096
  idSetCap_pow : ∃ k, lim.idSetCap = 2 ^ k
  idSetCap_ge : 2 * lim.maxObjectsPerGroup ≤ lim.idSetCap
  idSetCap_le : lim.idSetCap ≤ u32Max
  maxSubgroups_lt : lim.maxSubgroups < u32Max

theorem orDefault_pos {p : Bool} {v d : ℕ} (hd : 0 < d) : 0 < orDefault p v d := by
  unfold orDefault
  split <;> omega

theorem LogCfg.resolve_ok {cfg : LogCfg} {lim : LogLimits} (h : cfg.resolve = some lim) :
    lim.Ok := by
  unfold resolve at h
  simp only at h
  split at h
  · cases h
  · rename_i hc
    obtain ⟨hcap, hsub⟩ := not_or.mp hc
    cases h
    obtain ⟨k, hk⟩ := idSetCapFrom_pow 32 16
      (2 * orDefault (cfg.has 48) cfg.maxObjectsPerGroup 4096)
    refine ⟨orDefault_pos (by decide), orDefault_pos (by decide), rfl, ⟨k + 4, ?_⟩, ?_,
      Nat.le_of_not_lt hcap, Nat.lt_of_not_le hsub⟩
    · rw [hk]
      ring
    · refine (le_idSetCapFrom 32 16 _).resolve_right fun hfull => hcap ?_
      rw [hfull]
      decide

theorem Log.create_eq_ok {cfg : LogCfg} {mem : Bool} {log : Log}
    (h : Log.create cfg mem = .ok log) : ∃ lim : LogLimits, lim.Ok ∧ log = .fresh lim := by
  unfold Log.create at h
  split at h
  · cases h
  · cases hr : cfg.resolve with
    | none => simp [hr] at h
    | some lim =>
      simp only [hr] at h
      split at h
      · cases h
      · split at h
        · exact ⟨lim, LogCfg.resolve_ok hr, by simpa using h.symm⟩
        · cases h

end MoqRelay
