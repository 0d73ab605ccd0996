import MoqRelay.Core.Pools

/-!
# Core/Positions — where a subscription stands in each retained group

The `gpos_*` functions of `delivery.c`: the index from group ids to entries, the reclaim of evicted
groups, find-or-claim, and the per-list marks the scan and the confirmations write.
-/

namespace MoqRelay

/-- `gpos_hash_cap_for`; 32 doublings exceed every size that passes the creation check. -/
def gposHashCapFor (groups : ℕ) : ℕ := idSetCapFrom 32 8 (2 * groups)

/-- `gpos_hash0`. -/
def gposHash0 (cap gid : ℕ) : ℕ := (gid * 0x9E3779B97F4A7C15 % 2 ^ 64 / 2 ^ 48) &&& (cap - 1)

namespace Gpos

variable (e : Gpos)

/-- The group an occupied entry stands for. -/
def key : Option ℕ := if e.occupied then some e.groupId else none

def setIdx (l n : ℕ) : Gpos := { e with idx := Function.update e.idx l n }
def setEmitted (l n : ℕ) : Gpos := { e with emitted := Function.update e.emitted l n }

/-- `gpos_seal_ack`, and its inverse. -/
def setAcked (l : ℕ) (on : Bool) : Gpos := { e with acked := Function.update e.acked l on }

/-- `gpos_gap_set`. -/
def setGap (l : ℕ) (on : Bool) : Gpos := { e with gap := Function.update e.gap l on }

/-- `gpos_renew_set`. -/
def setRenew (l : ℕ) (on : Bool) : Gpos := { e with renew := Function.update e.renew l on }

def setOwed (l n : ℕ) : Gpos := { e with owed := Function.update e.owed l n }

/-- Past the record at a list's position, with no word of it begun. -/
def advance (l : ℕ) : Gpos := e.setIdx l (e.idx l + 1)

/-- Clear the marks a delivered or discarded record settles. -/
def settle (l : ℕ) : Gpos := ((e.setGap l false).setRenew l false).setOwed l 0

/-- `gpos_pass_over`. -/
def passOver (log : Log) (g : ℕ) (s : ListSlot) (pos : ℕ) : Gpos :=
  if (log.recFlags g s (e.idx pos)).2.1 && !e.renew pos then
    (e.setRenew pos true).setOwed pos (e.idx pos + 1)
  else e

/-- `gpos_owed_cause`. -/
def owedCause (log : Log) (g : ℕ) (s : ListSlot) (pos : ℕ) : Option ResetDesc :=
  if !e.renew pos || e.owed pos = 0 then none
  else some (log.recFlags g s (e.owed pos - 1)).2.2

/-- Some of the first `lists` lists has a begun object. -/
def begun (lists : ℕ) : Bool := (List.range lists).any fun l => e.emitted l ≠ 0

end Gpos

namespace GposTable

variable (t : GposTable)

def setEntry (i : ℕ) (f : Gpos → Gpos) : GposTable := { t with entries := modifyAt t.entries i f }

/-- `gpos_hash_find`. -/
def find (gid : ℕ) : Option ℕ :=
  probeFind t.hash (idNext t.hashCap) (fun i => (t.entries i).key) (some gid) t.hashCap
    (gposHash0 t.hashCap gid)

/-- `gpos_hash_insert`. -/
def insert (gid i : ℕ) : GposTable :=
  { t with
    hash := Function.update t.hash
      (probeEmpty t.hash (idNext t.hashCap) t.hashCap (gposHash0 t.hashCap gid)) (some i) }

/-- `gpos_hash_rebuild`. -/
def rebuild : GposTable :=
  (List.range t.groups).foldl
    (fun t i => if (t.entries i).occupied then t.insert (t.entries i).groupId i else t)
    { t with hash := fun _ => none }

/-- An entry the reclaim takes: its group was evicted and nothing of it was begun. -/
def stale (log : Log) (i : ℕ) : Bool :=
  let e := t.entries i
  e.occupied && log.listCount e.groupId = 0 && log.groupGone e.groupId && !e.begun t.lists

/-- `gpos_gc`: the table, and whether an entry went. -/
def gc (log : Log) : GposTable × Bool :=
  if log.evictedGroupsTotal ≤ t.gcEvicted then (t, false)
  else
    let t' := { t with
      gcEvicted := log.evictedGroupsTotal
      entries := fun i =>
        if i < t.groups ∧ t.stale log i then { t.entries i with occupied := false }
          else t.entries i }
    if (List.range t.groups).any (t.stale log) then (t'.rebuild, true) else (t', false)

/-- A free entry. -/
def freeEntry : Option ℕ := (List.range t.groups).find? fun i => !(t.entries i).occupied

/-- Claim entry `i` for a group. -/
def claim (i gid : ℕ) : GposTable :=
  (t.setEntry i fun e => { e with occupied := true, groupId := gid }.bodyClear).insert gid i

/-- `gpos_entry`: find the entry of a group, or claim one. -/
def entry (gid : ℕ) : Option (ℕ × GposTable) :=
  match t.find gid with
  | some i => some (i, t)
  | none => t.freeEntry.map fun i => (i, t.claim i gid)

/-- Give up entry `i`: `occupied = false`, a cleared body, a rebuilt index. -/
def release (i : ℕ) : GposTable :=
  (t.setEntry i fun e => { e with occupied := false }.bodyClear).rebuild

/-- The table `gpos_alloc` sets up for a log. -/
def fresh (log : Log) : GposTable where
  groups := log.lim.maxGroups
  lists := log.lim.maxSubgroups + 1
  hashCap := gposHashCapFor log.lim.maxGroups
  entries _ := ⟨false, 0, fun _ => 0, fun _ => 0, fun _ => false, fun _ => false, fun _ => false,
    fun _ => 0⟩
  hash _ := none
  gcEvicted := log.evictedGroupsTotal

end GposTable

/-- `gpos_alloc`; the oracle's places are the block, the index and the exclusion bits. -/
def Sub.gposAlloc (s : Sub) (log : Log) (memGpos memHash memExcl : Bool) : Option Sub :=
  if !memGpos || !memHash then none
  else if s.hasLocation then
    if memExcl then
      some { s with
        gpos := some (.fresh log)
        excluded := some fun _ => false
        excludedCap := log.lim.maxRecords }
    else none
  else some { s with gpos := some (.fresh log) }

end MoqRelay
