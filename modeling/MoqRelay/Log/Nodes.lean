import Mathlib.Data.List.TakeWhile
import MoqRelay.Log.Budget
import MoqRelay.Log.Stored

/-!
# Log/Nodes — the chunk pool over whole runs

The free list and the chains of the retained records partition the pool, and `chunk_used` counts the
nodes of the records, whatever is called (`Log.Stored`).  The byte counts are exact, and the reclaim
loop of `moqr_log_append_chunk` keeps its promise, as long as no 64-bit sum of a call wraps
(`SumsFit`): when only nodes are short it evicts the oldest groups up to the first that holds a node
and links the chunk, or it evicts nothing and refuses (`reclaims`).
-/

namespace MoqRelay

open List

/-- The exact length of a chain. -/
def ChunkPool.total (p : ChunkPool) (l : List ℕ) : ℕ := (l.map fun i => (p.len i).toNat).sum

/-- **A record accounts for exactly what it stores**, and a datagram stores no chunk. -/
structure Rec.Exact (p : ChunkPool) (r : Rec) (l : List ℕ) : Prop where
  bytes : r.bytes.toNat =
    (rcbufLen r.payload).toNat + (rcbufLen r.properties).toNat + p.total l
  datagram : r.datagramPref → l = []

variable {p p' : ChunkPool} {l : List ℕ} {m : UInt64} {r : Rec}

theorem ChunkPool.total_congr (h : ∀ i ∈ l, p'.len i = p.len i) : p'.total l = p.total l :=
  congrArg sum (map_congr_left fun i hi => by rw [h i hi])

/-- A move keeps the account when the sum of a linked chunk does not wrap. -/
theorem Rec.Exact.move {b : Option Rcbuf} {r' : Rec}
    {l' : List ℕ} (h : r.Exact p l) (hs : r.Stores p m l) (hm : r.Move b p p' l r' l')
    (hfit : ∀ buf, b = some buf → r.bytes.toNat + buf.len.toNat < 2 ^ 64) : r'.Exact p' l' := by
  cases hm with
  | kept hc _ hdg _ hp =>
    refine ⟨?_, fun hd => h.datagram (hdg ▸ hd)⟩
    have htotal : p'.total l = p.total l :=
      ChunkPool.total_congr fun i hi => congrArg ChunkNode.len (hp i hi)
    rw [hc.bytes, hc.payload, hc.properties, h.bytes, htotal]
  | abandoned ho reset =>
    refine ⟨?_, fun _ => rfl⟩
    have hpay := hs.bare (.inl ho)
    simp [Rec.abandon, hpay, rcbufLen, ChunkPool.total]
  | @grown node buf hb ho hdg hnode hlen hp =>
    refine ⟨?_, fun hd => absurd (hdg.symm.trans hd) (by decide)⟩
    have hlen' : ∀ i, p'.len i = if i = node then buf.len else p.len i := fun i => by
      rw [ChunkPool.len, hp]
      exact (ChunkPool.link_chunk ..).2
    have hold : p'.total l = p.total l := ChunkPool.total_congr fun i hi => by
      rw [hlen', if_neg fun e : i = node => hnode (e ▸ hi)]
    have hgrow : p'.total (l ++ [node]) = p.total l + buf.len.toNat := by
      rw [← hold]
      simp [ChunkPool.total, hlen']
    have hsum : (r.bytes + buf.len).toNat = r.bytes.toNat + buf.len.toNat := by
      rw [UInt64.toNat_add, Nat.mod_eq_of_lt (hfit buf hb)]
    change (r.bytes + buf.len).toNat = (rcbufLen r.payload).toNat +
      (rcbufLen r.properties).toNat + _
    rw [hsum, h.bytes]
    omega

/-- A record without a whole payload stays within what was declared. -/
theorem Rec.Stores.bytes_le (h : r.Stores p m l) (hp : r.payload = none) :
    r.bytes.toNat ≤ (rcbufLen r.properties).toNat + r.declaredLen.toNat := by
  have hup := h.upTo l.length
  rw [take_length, ← h.sum hp] at hup
  have hbytes : r.bytes = rcbufLen r.properties + r.chunkBytes := by
    rw [Rec.chunkBytes]
    abel
  rw [hbytes]
  exact (Nat.mod_le _ _).trans (Nat.add_le_add_left hup _)

/-- The nodes of a group's records. -/
def Group.nodes (g : Group) : ℕ := (g.recs.map Rec.chunkCount).sum

namespace Log

variable {log log' : Log} {gid sid oid i : ℕ} {g : Group} {r : Rec} {buf : Rcbuf} {free : List ℕ}
  {chain : ℕ → List ℕ}

/-! ## Sums that do not wrap -/

/-- **No sum of the call wraps**: the bytes it brings, added to the retained ones. -/
def SumsFit (log : Log) : LogOp → Prop
  | .append d _ | .openRecord d _ => log.retainedBytes.toNat +
      ((rcbufLen d.payload).toNat + (rcbufLen d.properties).toNat) < 2 ^ 64
  | .appendChunk _ _ _ chunk => log.retainedBytes.toNat + (rcbufLen chunk).toNat < 2 ^ 64
  | _ => True

instance (log : Log) : (op : LogOp) → Decidable (log.SumsFit op)
  | .append _ _ | .openRecord _ _ | .appendChunk _ _ _ _ => Nat.decLt _ _
  | .completeRecord _ _ _ | .abandonRecord _ _ _ _ | .abandonGroupOpen _ _ | .sealSubgroup _ _
  | .resetSubgroup _ _ _ | .noteGap _ _ | .noteEvictedBelow _ | .tick _ | .evictGroups _
  | .setOpener _ _ _ _ _ | .cursorOpen _ | .cursorClose _ | .cursorNext _ | .cursorPeek _
  | .cursorCommit _ => instDecidableTrue

theorem toNat_bytes {d : AppendDesc} {n : ℕ}
    (h : n + ((rcbufLen d.payload).toNat + (rcbufLen d.properties).toNat) < 2 ^ 64) :
    d.bytes.toNat = (rcbufLen d.payload).toNat + (rcbufLen d.properties).toNat := by
  rw [AppendDesc.bytes, UInt64.toNat_add, Nat.mod_eq_of_lt (by omega)]

variable {op : LogOp}

theorem SumsFit.noWrap (h : log.SumsFit op) : log.NoWrap op := by
  cases op with
  | append d _ | openRecord d _ =>
    change log.retainedBytes.toNat + d.bytes.toNat < 2 ^ 64
    rwa [toNat_bytes h]
  | _ => exact h

/-- What a run of such calls reaches. -/
structure Sound (log : Log) : Prop where
  wf : log.Wf
  within : log.Within
  exact : log.StoredWith Rec.Exact

theorem Quiets.exact (hq : Quiets log log') (hw : log.Wf) (h : log.StoredWith Rec.Exact) :
    log'.StoredWith Rec.Exact :=
  hq.storedWith hw (fun _ _ _ _ _ _ _ he hs hm => he.move hs hm nofun) h

theorem bytes_le_byteTotal (hr : r ∈ log.allRecs) : r.bytes.toNat ≤ log.byteTotal := by
  obtain ⟨g, hg, hrg⟩ := mem_flatMap.mp hr
  calc r.bytes.toNat ≤ g.byteTotal :=
        single_le_sum (fun _ _ => Nat.zero_le _) _
          (mem_map_of_mem (f := fun r : Rec => r.bytes.toNat) hrg)
    _ ≤ log.byteTotal := single_le_sum (fun _ _ => Nat.zero_le _) _ (mem_map_of_mem hg)

/-- **A call whose sums fit keeps the accounts exact.** -/
theorem Sound.step (h : log.Sound) (hfit : log.SumsFit op) : (log.step op).Sound := by
  refine ⟨step_wf h.wf op, h.within.step h.wf hfit.noWrap, step_storedWith h.wf op
    (fun _ _ _ _ _ _ _ he hs hm => he.move hs hm nofun) ?_ ?_ h.exact⟩
  · intro d mem hop log₁ p r hcontent
    refine ⟨?_, fun _ => rfl⟩
    rw [hcontent.bytes, hcontent.payload, hcontent.properties]
    rcases hop with rfl | rfl <;> exact toNat_bytes hfit
  · rintro gid sid oid buf log₁ rfl hr r hmem p' r' l l' he hst - hm
    refine he.move hst hm fun b hb => ?_
    cases hb
    have hle := bytes_le_byteTotal hmem
    have htot := (hr.quiets.shrinks h.wf h.within.openProps).total_le
    have hret := h.within.toNat_retainedBytes h.wf
    change log.retainedBytes.toNat + buf.len.toNat < 2 ^ 64 at hfit
    omega

theorem Sound.create {cfg : LogCfg} {ok : Bool} (h : Log.create cfg ok = .ok log) : log.Sound :=
  ⟨create_wf h, .create h, .create h⟩

/-! ## The partition -/

/-- **The pool is partitioned and every record is accounted for.**  `free` are the nodes of the free
list, `chain` those of each record. -/
structure Partitioned (log : Log) (free : List ℕ) (chain : ℕ → List ℕ) : Prop where
  freeList : Chain log.pool.next log.pool.freeHead free
  chains : ∀ r ∈ log.allRecs, Chain log.pool.next r.chunkHead (chain r.arrivalSeq)
  once : (free ++ (log.allRecs.map Rec.arrivalSeq).flatMap chain).Perm
    (range log.lim.maxChunkNodes)
  used : log.pool.used = (log.allRecs.map Rec.chunkCount).sum
  bytes : ∀ r ∈ log.allRecs, r.bytes.toNat = (rcbufLen r.payload).toNat +
    (rcbufLen r.properties).toNat + log.pool.total (chain r.arrivalSeq)
  bytes_le : ∀ r ∈ log.allRecs, r.payload = none →
    r.bytes.toNat ≤ (rcbufLen r.properties).toNat + r.declaredLen.toNat

theorem Stored.used_eq (h : log.Stored free chain) :
    log.pool.used = (log.allRecs.map Rec.chunkCount).sum := by
  have hlen := h.once.length_eq
  have hused := h.used
  have hcount : (log.allRecs.map Rec.chunkCount).sum
      = ((log.allRecs.map Rec.arrivalSeq).flatMap chain).length := by
    rw [flatMap_map, length_flatMap]
    exact congrArg sum (map_congr_left fun r hr => (h.stores r hr).count)
  rw [length_append, length_range] at hlen
  omega

theorem Sound.partitioned (h : log.Sound) : ∃ free chain, log.Partitioned free chain := by
  obtain ⟨free, chain, hs, hall⟩ := h.exact
  exact ⟨free, chain, hs.freeList, fun r hr => (hs.stores r hr).chain, hs.once, hs.used_eq,
    fun r hr => (hall r hr).bytes, fun r hr hp => (hs.stores r hr).bytes_le hp⟩

/-! ## Reclaiming a node -/

theorem Sound.room (h : log.Sound) (hr : Rooms gid log log') : log'.Sound :=
  ⟨hr.wf h.wf, (hr.quiets.shrinks h.wf h.within.openProps).within h.within,
    Quiets.exact hr.quiets h.wf h.exact⟩

theorem Stored.free_eq_nil_iff (h : log.Stored free chain) :
    log.pool.freeHead = none ↔ free = [] := by
  have hf := h.freeList
  cases free with
  | nil => exact iff_of_true hf rfl
  | cons a l => simp [hf.1]

/-- The pool is full when the groups hold all of its nodes. -/
theorem Sound.full_iff (h : log.Sound) :
    log.pool.freeHead = none ↔ (log.groups.map Group.nodes).sum = log.lim.maxChunkNodes := by
  obtain ⟨free, chain, hs, -⟩ := h.exact
  have hsum : (log.groups.map Group.nodes).sum = (log.allRecs.map Rec.chunkCount).sum := by
    simp only [allRecs, flatMap_def, map_flatten, sum_flatten, map_map]
    rfl
  have hused := hs.used
  rw [hs.free_eq_nil_iff, hsum, ← hs.used_eq, ← length_eq_zero_iff]
  omega

/-- `group_holds_node` looks at the subgroup lists, and a datagram never holds a node. -/
theorem Sound.holdsNode_iff (h : log.Sound) (hg : g ∈ log.groups) : g.holdsNode ↔ g.nodes ≠ 0 := by
  obtain ⟨free, chain, hs, hall⟩ := h.exact
  have hdg : ∀ r ∈ g.dg.recs, r.chunkCount = 0 := fun r hr => by
    have hmem : r ∈ log.allRecs := mem_flatMap.mpr ⟨g, hg, mem_append_right _ hr⟩
    have hpref := ((h.wf.group g hg).dgOwner r hr).1
    rw [(hs.stores r hmem).count, (hall r hmem).datagram hpref, length_nil]
  rw [Group.nodes, Ne, sum_eq_zero_iff]
  simp only [Group.holdsNode, any_eq_true, decide_eq_true_eq, forall_mem_map, not_forall]
  refine ⟨fun ⟨sg, hsg, r, hr, hpos⟩ => ⟨r, Group.mem_recs_of_sg hsg hr, hpos.ne'⟩, ?_⟩
  rintro ⟨r, hr, hne⟩
  rcases mem_append.mp hr with hr | hr
  · obtain ⟨sg, hsg, hr⟩ := mem_flatMap.mp hr
    exact ⟨sg, hsg, r, hr, Nat.pos_of_ne_zero hne⟩
  · exact absurd (hdg r hr) hne

variable {rest : List Group} {len : UInt64} {p : Group × ℕ × Rec}

/-- A full pool stays full when the oldest group holds no node, and has one free when it holds
one. -/
theorem Sound.evict_full_iff (h : log.Sound) (hgs : log.groups = g :: rest)
    (hfull : log.pool.freeHead = none) :
    (log.evictGroupAt 0).pool.freeHead = none ↔ g.holdsNode = false := by
  have hr : Rooms g.groupId log (log.evictGroupAt 0) := rooms_evictGroupAt _ log
  rw [h.full_iff, hgs, map_cons, sum_cons] at hfull
  rw [(h.room hr).full_iff, evictGroupAt_groups, evictGroupAt_lim, hgs, tail_cons,
    ← Bool.not_eq_true, h.holdsNode_iff (by simp [hgs])]
  omega

/-- The log after `n` evictions of the oldest group. -/
def evictOldest (n : ℕ) (log : Log) : Log := (fun log => log.evictGroupAt 0)^[n] log

theorem evictOldest_succ (n : ℕ) (log : Log) :
    log.evictOldest (n + 1) = (log.evictGroupAt 0).evictOldest n := rfl

theorem evictOldest_groups (n : ℕ) :
    ∀ log : Log, (log.evictOldest n).groups = log.groups.drop n := by
  induction n with
  | zero => exact fun _ => rfl
  | succ n ih =>
    intro log
    rw [evictOldest_succ, ih, evictGroupAt_groups, drop_tail]

/-- Evicting the oldest group keeps the budget of a chunk that fits. -/
theorem Sound.evict_fits (h : log.Sound)
    (hfit : log.retainedBytes.toNat + len.toNat ≤ log.lim.maxBytes.toNat) :
    (log.evictGroupAt 0).retainedBytes.toNat + len.toNat
      ≤ (log.evictGroupAt 0).lim.maxBytes.toNat := by
  have hr : Rooms 0 log (log.evictGroupAt 0) := rooms_evictGroupAt _ log
  have hs := hr.quiets.shrinks h.wf h.within.openProps
  have htot := hs.total_le
  rw [evictGroupAt_lim, (h.room hr).within.toNat_retainedBytes (h.room hr).wf]
  rw [h.within.toNat_retainedBytes h.wf] at hfit
  omega

theorem not_bytesShort (hfit : log.retainedBytes.toNat + len.toNat ≤ log.lim.maxBytes.toNat) :
    ¬ log.lim.maxBytes < log.retainedBytes + len := by
  rw [UInt64.lt_iff_toNat_lt, UInt64.toNat_add]
  omega

/-- A chunk that fits, with a node free, needs no room made. -/
theorem fitChunk_fits (hfree : log.pool.freeHead ≠ none)
    (hfit : log.retainedBytes.toNat + len.toNat ≤ log.lim.maxBytes.toNat) (n : ℕ) (b : Bool) :
    fitChunk gid sid oid len n b log = .ok log := by
  have hsome : log.pool.freeHead.isSome := Option.isSome_iff_ne_none.mpr hfree
  cases n with
  | zero => rw [fitChunk, if_pos ⟨not_bytesShort hfit, hsome⟩]
  | succ n => rw [fitChunk, decide_eq_false (not_bytesShort hfit), hsome]; rfl

/-- A turn of the loop when only nodes are short and an older group holds one. -/
theorem fitChunk_turn {x : Group}
    (hw : log.Wf) (hgs : log.groups = x :: rest) (hx : x.groupId ≠ gid)
    (hres : log.resolveOpenRec gid sid oid = .ok p) (hfull : log.pool.freeHead = none)
    (hfit : log.retainedBytes.toNat + len.toNat ≤ log.lim.maxBytes.toNat)
    (hholds : (log.groups.takeWhile fun g => g.groupId ≠ gid).any Group.holdsNode)
    (n : ℕ) (b : Bool) :
    (log.evictGroupAt 0).resolveOpenRec gid sid oid = .ok p ∧
      fitChunk gid sid oid len (n + 1) b log
        = fitChunk gid sid oid len n true (log.evictGroupAt 0) := by
  have hold : log.isOldest gid = false := by simp [isOldest, hgs, hx]
  have hres' : (log.evictGroupAt 0).resolveOpenRec gid sid oid = .ok p :=
    resolveOpenRec_congr (groupFind_evictGroupAt hw hold) hres
  rw [fitChunk, decide_eq_false (not_bytesShort hfit), hfull, hold, hholds]
  simp [hres']

/-- **The reclaim loop**: with the groups `pre` holding no node and `holder` holding one, all in
front of the record's group, it evicts exactly these. -/
theorem fitChunk_reclaims {holder : Group}
    (hholder : holder.holdsNode) (hne : holder.groupId ≠ gid) (pre : List Group) :
    ∀ (n : ℕ) (b : Bool) (log : Log), log.Sound → log.groups = pre ++ holder :: rest →
      (∀ x ∈ pre, x.holdsNode = false ∧ x.groupId ≠ gid) → pre.length < n →
      log.resolveOpenRec gid sid oid = .ok p → log.pool.freeHead = none →
      log.retainedBytes.toNat + len.toNat ≤ log.lim.maxBytes.toNat →
      fitChunk gid sid oid len n b log = .ok (log.evictOldest (pre.length + 1)) ∧
        (log.evictOldest (pre.length + 1)).pool.freeHead ≠ none ∧
        (log.evictOldest (pre.length + 1)).resolveOpenRec gid sid oid = .ok p := by
  have hholds : ∀ (pre : List Group) (log : Log), log.groups = pre ++ holder :: rest →
      (∀ x ∈ pre, x.holdsNode = false ∧ x.groupId ≠ gid) →
      (log.groups.takeWhile fun g => g.groupId ≠ gid).any Group.holdsNode := by
    intro pre log hgs hpre
    rw [hgs, takeWhile_append_of_pos fun x hx => by simpa using (hpre x hx).2,
      takeWhile_cons_of_pos (by simpa using hne)]
    simp [hholder]
  -- On the groups in front of the holder: each is evicted, and the pool stays full until the
  -- holder.
  induction pre with
  | nil =>
    intro n b log h hgs hpre hn hres hfull hfit
    obtain ⟨m, rfl⟩ : ∃ m, n = m + 1 := ⟨n - 1, by omega⟩
    obtain ⟨hres', hturn⟩ := fitChunk_turn h.wf hgs hne hres hfull hfit (hholds _ log hgs hpre) m b
    have hfree : (log.evictGroupAt 0).pool.freeHead ≠ none := fun hnone => by
      rw [h.evict_full_iff hgs hfull, hholder] at hnone
      cases hnone
    exact ⟨hturn.trans (fitChunk_fits hfree (h.evict_fits hfit) m true), hfree, hres'⟩
  | cons x pre ih =>
    intro n b log h hgs hpre hn hres hfull hfit
    obtain ⟨m, rfl⟩ : ∃ m, n = m + 1 := ⟨n - 1, by omega⟩
    obtain ⟨hx, hpre'⟩ := forall_mem_cons.mp hpre
    obtain ⟨hres', hturn⟩ := fitChunk_turn h.wf hgs hx.2 hres hfull hfit (hholds _ log hgs hpre) m b
    have hfull' : (log.evictGroupAt 0).pool.freeHead = none := (h.evict_full_iff hgs hfull).mpr hx.1
    have hgs' : (log.evictGroupAt 0).groups = pre ++ holder :: rest := by
      rw [evictGroupAt_groups, hgs]
      rfl
    have hsound : (log.evictGroupAt 0).Sound := h.room (rooms_evictGroupAt 0 log)
    obtain ⟨h1, h2, h3⟩ := ih m true _ hsound hgs' hpre' (by simpa using hn) hres' hfull'
      (h.evict_fits hfit)
    exact ⟨hturn.trans h1, h2, h3⟩

/-- The end of `moqr_log_append_chunk`, once room was made. -/
def linkChunk (log : Log) (gid sid oid : ℕ) (buf : Rcbuf) : Result × Log :=
  match log.resolveOpenRec gid sid oid with
  | .error rc => (rc, log)
  | .ok (_, i, r) =>
    match log.commitChunk gid i r buf with
    | none => (.capacity, log)
    | some log' => (.ok, log')

theorem linkChunk_eq (hres : log.resolveOpenRec gid sid oid = .ok (g, i, r))
    (hc : log.commitChunk gid i r buf = some log') :
    log.linkChunk gid sid oid buf = (.ok, log') := by
  simp only [linkChunk, hres, hc]

/-- A chunk within the declared length. -/
theorem appendChunk_eq (hres : log.resolveOpenRec gid sid oid = .ok (g, i, r)) (hpos : buf.len ≠ 0)
    (hlen : r.chunkBytes + buf.len ≤ r.declaredLen) :
    log.appendChunk gid sid oid (some buf) =
      match fitChunk gid sid oid buf.len log.groups.length false log with
      | .error e => e
      | .ok log => log.linkChunk gid sid oid buf := by
  have hlen' : ¬ r.declaredLen < r.chunkBytes + rcbufLen (some buf) := UInt64.not_lt.mpr hlen
  have hpos' : ¬ rcbufLen (some buf) = 0 := hpos
  simp only [appendChunk, hres, if_neg hlen', if_neg hpos']
  rfl

/-- A free node is taken. -/
theorem commitChunk_of_free (hfree : log.pool.freeHead ≠ none) (gid i : ℕ) (r : Rec) (buf : Rcbuf) :
    ∃ log', log.commitChunk gid i r buf = some log' := by
  obtain ⟨node, hnode⟩ := Option.ne_none_iff_exists'.mp hfree
  simp only [commitChunk, ChunkPool.alloc, hnode]
  exact ⟨_, rfl⟩

/-- The groups older than `gid`. -/
def olderThan (log : Log) (gid : ℕ) : List Group := log.groups.takeWhile fun g => g.groupId ≠ gid

/-- **When only nodes are short**, a chunk is linked after the eviction of the oldest groups up to
the first that holds a node, or refused with nothing evicted when no older group holds one. -/
theorem Sound.reclaims (h : log.Sound) (hres : log.resolveOpenRec gid sid oid = .ok (g, i, r))
    (hpos : buf.len ≠ 0) (hlen : r.chunkBytes + buf.len ≤ r.declaredLen)
    (hsum : log.SumsFit (.appendChunk gid sid oid (some buf)))
    (hbudget : log.retainedBytes + buf.len ≤ log.lim.maxBytes) (hfull : log.pool.freeHead = none) :
    match (log.olderThan gid).findIdx? Group.holdsNode with
    | none => log.appendChunk gid sid oid (some buf) = (.capacity, log)
    | some k => (log.evictOldest (k + 1)).groups = log.groups.drop (k + 1) ∧
        ∃ log', (log.evictOldest (k + 1)).commitChunk gid i r buf = some log' ∧
          log.appendChunk gid sid oid (some buf) = (.ok, log') := by
  have hfit : log.retainedBytes.toNat + buf.len.toNat ≤ log.lim.maxBytes.toNat := by
    have hlt : log.retainedBytes.toNat + buf.len.toNat < 2 ^ 64 := hsum
    rwa [UInt64.le_iff_toNat_le, UInt64.toNat_add, Nat.mod_eq_of_lt hlt] at hbudget
  obtain ⟨hfind, -⟩ := resolveOpenRec_eq_ok hres
  have hmem := ((groupFind_eq_some_iff h.wf.sorted).mp hfind)
  have hsplit : log.olderThan gid ++ log.groups.dropWhile (fun g => g.groupId ≠ gid) = log.groups :=
    takeWhile_append_dropWhile
  cases hidx : (log.olderThan gid).findIdx? Group.holdsNode with
  | none =>
    -- The record's group is there, so the loop is entered and looks at the older groups once.
    have hnone : (log.olderThan gid).any Group.holdsNode = false := by
      rw [any_eq_false]
      exact fun x hx => by simpa using findIdx?_eq_none_iff.mp hidx x hx
    obtain ⟨m, hm⟩ : ∃ m, log.groups.length = m + 1 :=
      ⟨log.groups.length - 1, by have := length_pos_of_mem hmem.1; omega⟩
    rw [appendChunk_eq hres hpos hlen, hm, fitChunk, decide_eq_false (not_bytesShort hfit), hfull]
    change (log.groups.takeWhile fun g => g.groupId ≠ gid).any Group.holdsNode = false at hnone
    rw [hnone]
    simp
  | some k =>
    obtain ⟨hk, hholder, hbefore⟩ := findIdx?_eq_some_iff_getElem.mp hidx
    have hne : ∀ x ∈ log.olderThan gid, x.groupId ≠ gid := fun x hx => by
      simpa using mem_takeWhile_imp hx
    have hgs : log.groups = (log.olderThan gid).take k ++
        (log.olderThan gid)[k] :: ((log.olderThan gid).drop (k + 1) ++
          log.groups.dropWhile fun g => g.groupId ≠ gid) := by
      rw [← cons_append, cons_getElem_drop_succ, ← append_assoc, take_append_drop, hsplit]
    have hpre : ∀ x ∈ (log.olderThan gid).take k, x.holdsNode = false ∧ x.groupId ≠ gid :=
      fun x hx => by
        obtain ⟨j, hj, rfl⟩ := mem_take_iff_getElem.mp hx
        exact ⟨by simpa using hbefore j (by omega), hne _ (getElem_mem _)⟩
    have hlength : ((log.olderThan gid).take k).length = k := by simp; omega
    have hlt : k < log.groups.length := by
      have := congrArg length hsplit
      rw [length_append] at this
      omega
    obtain ⟨hok, hfree, hres'⟩ := fitChunk_reclaims hholder (hne _ (getElem_mem hk)) _
      log.groups.length false log h hgs hpre (by rw [hlength]; exact hlt) hres hfull hfit
    rw [hlength] at hok hfree hres'
    obtain ⟨log', hc⟩ := commitChunk_of_free hfree gid i r buf
    refine ⟨evictOldest_groups _ log, log', hc, ?_⟩
    rw [appendChunk_eq hres hpos hlen, hok]
    exact linkChunk_eq hres' hc

/-- **The chunk pool over whole runs.**  In every state of a run whose sums do not wrap, the pool is
partitioned and every record accounted for; and a chunk that finds enough byte budget but no free
node is linked after the eviction of the oldest groups up to the first that holds a node, or refused
with nothing evicted. -/
theorem chunk_pool_accounts (cfg : LogCfg) (ok : Bool) (log : Log) (ops : List LogOp)
    (hc : Log.create cfg ok = .ok log) (hfit : RunAll SumsFit log ops) :
    (∃ free chain, (log.run ops).Partitioned free chain) ∧
      ∀ (gid sid oid i : ℕ) (g : Group) (r : Rec) (buf : Rcbuf),
        (log.run ops).resolveOpenRec gid sid oid = .ok (g, i, r) → buf.len ≠ 0 →
        r.chunkBytes + buf.len ≤ r.declaredLen →
        (log.run ops).SumsFit (.appendChunk gid sid oid (some buf)) →
        (log.run ops).retainedBytes + buf.len ≤ (log.run ops).lim.maxBytes →
        (log.run ops).pool.freeHead = none →
        match ((log.run ops).olderThan gid).findIdx? Group.holdsNode with
        | none => (log.run ops).appendChunk gid sid oid (some buf) = (.capacity, log.run ops)
        | some k => ((log.run ops).evictOldest (k + 1)).groups = (log.run ops).groups.drop (k + 1) ∧
            ∃ log', ((log.run ops).evictOldest (k + 1)).commitChunk gid i r buf = some log' ∧
              (log.run ops).appendChunk gid sid oid (some buf) = (.ok, log') := by
  have hsound : (log.run ops).Sound :=
    run_induct (P := SumsFit) (I := Sound) (fun _ _ h hop => h.step hop) ops log (.create hc) hfit
  refine ⟨hsound.partitioned, fun gid sid oid i g r buf hres hpos hlen hsum hbudget hfull => ?_⟩
  exact hsound.reclaims hres hpos hlen hsum hbudget hfull

/-- A group whose record takes all four nodes of the pool. -/
def fillPoolOps (gid : UInt8) : List LogOp :=
  .openRecord (openDesc gid 4) ⟨true, true, true⟩ ::
    (replicate 4 (.appendChunk gid.toNat 0 0 (some (zeroBuf 1))) ++
      [.completeRecord gid.toNat 0 0])

/-- The pool is taken by group 1, and a record of group 2 is open. -/
def fullPoolOps : List LogOp := fillPoolOps 1 ++ [.openRecord (openDesc 2 1) ⟨true, true, true⟩]

theorem chunk_pool_accounts_small : ∃ log', Log.create smallCfg true = .ok smallLog ∧
    (smallLog.run fullPoolOps).appendChunk 2 0 0 (some (zeroBuf 1)) = (.ok, log') := by
  have hfit : RunAll SumsFit smallLog fullPoolOps := by decide +kernel
  obtain ⟨-, hreclaims⟩ := chunk_pool_accounts smallCfg true smallLog fullPoolOps rfl hfit
  have hopen : ∃ p, (smallLog.run fullPoolOps).resolveOpenRec 2 0 0 = .ok p ∧
      p.2.2.chunkBytes + (zeroBuf 1).len ≤ p.2.2.declaredLen := ⟨_, rfl, by decide +kernel⟩
  obtain ⟨⟨g, i, r⟩, hres, hlen⟩ := hopen
  have hstate : (smallLog.run fullPoolOps).SumsFit (.appendChunk 2 0 0 (some (zeroBuf 1))) ∧
      (smallLog.run fullPoolOps).retainedBytes + (zeroBuf 1).len
        ≤ (smallLog.run fullPoolOps).lim.maxBytes ∧
      (smallLog.run fullPoolOps).pool.freeHead = none ∧
      ((smallLog.run fullPoolOps).olderThan 2).findIdx? Group.holdsNode = some 0 := by
    decide +kernel
  obtain ⟨hsum, hbudget, hfull, hidx⟩ := hstate
  have hout := hreclaims 2 0 0 i g r (zeroBuf 1) hres (by decide) hlen hsum hbudget hfull
  obtain ⟨-, log', -, hok⟩ := hout
  exact ⟨log', rfl, hok⟩

/-- The log `moqr_log_create` makes of the wide configuration. -/
def wideLog : Log := Log.fresh ⟨4, 0xFFFFFFFFFFFFFFFE, 0, 4, 8, 4096, 2, 4, 16⟩

/-- The pool is taken by group 2, an object of group 3 wraps the comparison with the budget, and a
record of group 3 is open. -/
def wrappedPoolOps : List LogOp :=
  .append (payloadDesc 1 3) ⟨true, true, true⟩ :: (fillPoolOps 2 ++
    [.append (payloadDesc 3 0xFFFFFFFFFFFFFFFE) ⟨true, true, true⟩,
      .openRecord { openDesc 3 1 with subgroupId := 1, objectId := 1, object_le := one_le_u64Max }
        ⟨true, true, true⟩])

/-- **A sum that wraps breaks the prediction.**  The chunk finds budget enough and no node, evicts
group 1 and the holder, group 2, and is refused all the same, since the retained bytes have fallen
below zero. -/
theorem wrapped_reclaim : ∃ log, Log.create wideCfg true = .ok log ∧
    (log.run wrappedPoolOps).retainedBytes + 1 ≤ (log.run wrappedPoolOps).lim.maxBytes ∧
    (log.run wrappedPoolOps).pool.freeHead = none ∧
    ((log.run wrappedPoolOps).olderThan 3).findIdx? Group.holdsNode = some 1 ∧
    ((log.run wrappedPoolOps).appendChunk 3 1 1 (some (zeroBuf 1))).1 = .capacity ∧
    ((log.run wrappedPoolOps).appendChunk 3 1 1 (some (zeroBuf 1))).2.groups.map Group.groupId
      = [3] :=
  ⟨wideLog, rfl, by decide +kernel⟩

end Log

end MoqRelay
