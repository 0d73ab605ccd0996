import MoqRelay.Log.Nodes

/-!
# Log/Complete — whether an admitted record can be completed

`moqr_log_open_record` admits a record when its declared length and its properties fit the byte
budget together.  The sum is taken in 64 bits, so the test bounds the exact size only when the sum
does not wrap.

Once its group is the only one retained, nothing can be evicted for the record any more: what is
left of it is taken exactly when it fits the budget beside the other records of the group
(`takes_iff`).
-/

namespace MoqRelay

open List

/-- The list with an id is found. -/
theorem Group.listOf_of_getElem {g : Group} {lim : LogLimits} (h : g.Lists lim) {i : ℕ}
    {sg : Subgroup} (hi : g.sgs[i]? = some sg) : g.listOf sg.subgroupId = some (i, sg) := by
  cases hl : g.listOf sg.subgroupId with
  | none => exact absurd rfl (Group.listOf_eq_none hl sg (mem_of_getElem? hi))
  | some p =>
    obtain ⟨j, sg'⟩ := p
    obtain ⟨hj, hid⟩ := Group.listOf_eq_some hl
    obtain ⟨hilt, rfl⟩ := List.getElem?_eq_some_iff.mp hi
    obtain ⟨hjlt, rfl⟩ := List.getElem?_eq_some_iff.mp hj
    have hij : j = i := by
      have hj' : j < (g.sgs.map Subgroup.subgroupId).length := by simpa using hjlt
      have hi' : i < (g.sgs.map Subgroup.subgroupId).length := by simpa using hilt
      exact (@List.Nodup.getElem_inj_iff _ _ h.sgIds j hj' i hi').mp (by simpa using hid)
    subst hij
    rfl

theorem Rec.chunkBytes_addChunk (r : Rec) (node : ℕ) (len : UInt64) :
    (r.addChunk node len).chunkBytes = r.chunkBytes + len := by
  simp only [Rec.chunkBytes, Rec.addChunk]
  abel

namespace Log

variable {log log' : Log} {gid sid oid i : ℕ} {g : Group} {r : Rec} {buf : Rcbuf} {free : List ℕ}
  {chain : ℕ → List ℕ}

/-- An open record at the tail of its list is resolved. -/
theorem resolveOpenRec_of_tail (hw : log.Wf) {sg : Subgroup} (hfind : log.groupFind gid = some g)
    (hi : g.sgs[i]? = some sg) (hid : sg.subgroupId = sid) (hlast : sg.v.recs.getLast? = some r)
    (hoid : r.objectId = oid) (hopen : r.objState = .open) :
    log.resolveOpenRec gid sid oid = .ok (g, i, r) := by
  subst hid hoid
  have hlists := (hw.group g ((groupFind_eq_some_iff hw.sorted).mp hfind).1).toLists
  simp only [resolveOpenRec, hfind, Group.listOf_of_getElem hlists hi, hlast]
  rw [if_neg (by simp [hopen])]

/-! ## One chunk, with the group alone -/

/-- **A chunk of a record whose group is alone** is taken exactly when it fits the budget. -/
theorem appendChunk_alone (hw : log.Wf) (hres : log.resolveOpenRec gid sid oid = .ok (g, i, r))
    (hgs : log.groups = [g]) (hpos : buf.len ≠ 0) (hlen : r.chunkBytes + buf.len ≤ r.declaredLen)
    (hfree : log.pool.freeHead ≠ none) :
    if log.retainedBytes + buf.len ≤ log.lim.maxBytes then
      ∃ log', log.commitChunk gid i r buf = some log' ∧
        log.appendChunk gid sid oid (some buf) = (.ok, log')
    else log.appendChunk gid sid oid (some buf) = (.capacity, log) := by
  have hgid := ((groupFind_eq_some_iff hw.sorted).mp (resolveOpenRec_eq_ok hres).1).2
  have hsome : log.pool.freeHead.isSome := Option.isSome_iff_ne_none.mpr hfree
  split
  · rename_i hfit
    obtain ⟨log', hc⟩ := commitChunk_of_free hfree gid i r buf
    refine ⟨log', hc, ?_⟩
    rw [appendChunk_eq hres hpos hlen, hgs, length_singleton, fitChunk,
      decide_eq_false (UInt64.not_lt.mpr hfit), hsome]
    exact linkChunk_eq hres hc
  · rename_i hshort
    have hold : log.isOldest gid := by simp [isOldest, hgs, hgid]
    rw [appendChunk_eq hres hpos hlen, hgs, length_singleton, fitChunk,
      decide_eq_true (UInt64.not_le.mp hshort), hold]
    rfl

/-- What a linked chunk leaves: the record is still open and has one chunk more. -/
theorem commitChunk_after (hw : log.Wf) (hres : log.resolveOpenRec gid sid oid = .ok (g, i, r))
    (hlen : r.chunkBytes + buf.len ≤ r.declaredLen) (hc : log.commitChunk gid i r buf = some log') :
    log'.lim = log.lim ∧ log'.retainedBytes = log.retainedBytes + buf.len ∧
      log'.pool.used = log.pool.used + 1 ∧
      ∃ g' node, log'.resolveOpenRec gid sid oid = .ok (g', i, r.addChunk node buf.len) ∧
        (log.groups = [g] → log'.groups = [g']) := by
  have hw' : log'.Wf := (Atom.chunk hres hlen hc).wf hw
  obtain ⟨hfind, sg, hi, rfl, htail, rfl, hopen⟩ := resolveOpenRec_eq_ok hres
  obtain ⟨node, pool, hused, rfl⟩ := commitChunk_eq hc
  have hfind' : (log.modifyGroup gid (·.chunked i node buf.len)).groupFind gid
      = some (g.chunked i node buf.len) := by
    rw [groupFind_modifyGroup hw.sorted hfind rfl, if_pos rfl]
  refine ⟨rfl, rfl, hused, g.chunked i node buf.len, node, ?_, fun hgs => ?_⟩
  · have hi' : (g.chunked i node buf.len).sgs[i]? = some { sg with
        v.recs := sg.v.recs.modify (sg.v.recs.length - 1) (·.addChunk node buf.len) } := by
      simp [Group.chunked, Group.modifyTail, Group.modifySg, hi]
    refine resolveOpenRec_of_tail hw' hfind' hi' rfl ?_ rfl hopen
    rw [getLast?_eq_getElem?] at htail ⊢
    rw [length_modify, getElem?_modify, htail]
    simp
  · obtain ⟨l₁, l₂, hsplit, -, hmod⟩ := modifyGroup_split hw.sorted hfind
    have hlen1 := congrArg length (hgs.symm.trans hsplit)
    simp only [length_append, length_cons, length_nil] at hlen1
    have h₁ : l₁ = [] := length_eq_zero_iff.mp (by omega)
    have h₂ : l₂ = [] := length_eq_zero_iff.mp (by omega)
    rw [hmod, h₁, h₂]
    rfl

/-! ## The rest of a record -/

/-- Whether the chunks are all taken, one after the other, and the record then completes. -/
def takes (log : Log) (gid sid oid : ℕ) : List Rcbuf → Bool
  | [] => (log.completeRecord gid sid oid).1 = .ok
  | c :: cs => (log.appendChunk gid sid oid (some c)).1 = .ok &&
      (log.appendChunk gid sid oid (some c)).2.takes gid sid oid cs

/-- The exact length of some chunks. -/
def chunksLength (cs : List Rcbuf) : ℕ := (cs.map fun c => c.len.toNat).sum

/-- A record is open, its group is alone, and `left` bytes of the record are missing. -/
structure Alone (log : Log) (gid sid oid left : ℕ) : Prop where
  wf : log.Wf
  stored : ∃ free chain, log.Stored free chain
  record : ∃ g i r, log.resolveOpenRec gid sid oid = .ok (g, i, r) ∧ log.groups = [g] ∧
    r.chunkBytes.toNat + left = r.declaredLen.toNat

theorem Stored.free_ne_nil (h : log.Stored free chain)
    (hn : log.pool.used < log.lim.maxChunkNodes) : log.pool.freeHead ≠ none := by
  rw [Ne, h.free_eq_nil_iff, ← length_eq_zero_iff]
  have := h.used
  omega

/-- One chunk of what is missing: taken exactly when it fits the budget. -/
theorem Alone.chunk {left : ℕ} (h : log.Alone gid sid oid left) (hpos : buf.len ≠ 0)
    (hle : buf.len.toNat ≤ left) (hnode : log.pool.used < log.lim.maxChunkNodes) :
    if log.retainedBytes + buf.len ≤ log.lim.maxBytes then
      ∃ log', log.appendChunk gid sid oid (some buf) = (.ok, log') ∧
        log'.Alone gid sid oid (left - buf.len.toNat) ∧ log'.lim = log.lim ∧
        log'.retainedBytes = log.retainedBytes + buf.len ∧ log'.pool.used = log.pool.used + 1
    else log.appendChunk gid sid oid (some buf) = (.capacity, log) := by
  obtain ⟨free, chain, hs⟩ := h.stored
  obtain ⟨g, i, r, hres, hgs, hleft⟩ := h.record
  have hlt := r.declaredLen.toNat_lt
  have hsum : (r.chunkBytes + buf.len).toNat = r.chunkBytes.toNat + buf.len.toNat := by
    rw [UInt64.toNat_add, Nat.mod_eq_of_lt (by omega)]
  have hlen : r.chunkBytes + buf.len ≤ r.declaredLen := by
    rw [UInt64.le_iff_toNat_le]
    omega
  have hcall := appendChunk_alone h.wf hres hgs hpos hlen (hs.free_ne_nil hnode)
  split at hcall
  · rename_i hfit
    rw [if_pos hfit]
    obtain ⟨log', hc, hcall⟩ := hcall
    obtain ⟨hlim, hret, hused, g', node, hres', hgs'⟩ := commitChunk_after h.wf hres hlen hc
    obtain ⟨free', chain', hs', -⟩ := hs.chunk h.wf hres hlen hc
    refine ⟨log', hcall, ⟨(Atom.chunk hres hlen hc).wf h.wf, ⟨free', chain', hs'⟩, g', i, _, hres',
      hgs' hgs, ?_⟩, hlim, hret, hused⟩
    rw [Rec.chunkBytes_addChunk]
    change _ = r.declaredLen.toNat
    omega
  · rename_i hshort
    rwa [if_neg hshort]

/-- Nothing missing: the record completes. -/
theorem Alone.complete (h : log.Alone gid sid oid 0) :
    (log.completeRecord gid sid oid).1 = .ok := by
  obtain ⟨g, i, r, hres, -, hleft⟩ := h.record
  have heq : r.chunkBytes = r.declaredLen := UInt64.toNat_inj.mp (by omega)
  simp only [completeRecord, hres]
  rw [if_neg (by simp [heq])]

/-- **What is missing is taken exactly when it fits the budget**, however it is cut. -/
theorem takes_iff (cs : List Rcbuf) : ∀ (log : Log) (left : ℕ), log.Alone gid sid oid left →
    (∀ c ∈ cs, c.len ≠ 0) → chunksLength cs = left →
    log.pool.used + cs.length ≤ log.lim.maxChunkNodes →
    log.retainedBytes.toNat + left < 2 ^ 64 →
    (log.takes gid sid oid cs ↔
      cs = [] ∨ log.retainedBytes.toNat + left ≤ log.lim.maxBytes.toNat) := by
  induction cs with
  | nil =>
    intro log left h _ hleft _ _
    obtain rfl : left = 0 := hleft.symm
    simpa [takes] using h.complete
  | cons c cs ih =>
    intro log left h hpos hleft hnodes hwrap
    obtain ⟨hc, hcs⟩ := forall_mem_cons.mp hpos
    have hsplit : chunksLength (c :: cs) = c.len.toNat + chunksLength cs := rfl
    rw [length_cons] at hnodes
    have hadd : (log.retainedBytes + c.len).toNat = log.retainedBytes.toNat + c.len.toNat := by
      rw [UInt64.toNat_add, Nat.mod_eq_of_lt (by omega)]
    have hcall := h.chunk hc (by omega) (by omega)
    split at hcall
    · rename_i hfit
      obtain ⟨log', hcall, h', hlim, hret, hused⟩ := hcall
      rw [UInt64.le_iff_toNat_le] at hfit
      have hrest := ih log' (left - c.len.toNat) h' hcs (by omega)
        (by rw [hlim]; omega) (by rw [hret]; omega)
      simp only [takes, hcall, decide_true, Bool.true_and, hrest, hret, hlim, hadd,
        cons_ne_nil, false_or]
      -- With no chunk left behind this one, what was missing is this chunk.
      refine ⟨fun hor => ?_, fun hle => .inr (by omega)⟩
      rcases hor with rfl | hle
      · have hzero : chunksLength [] = 0 := rfl
        omega
      · omega
    · rename_i hshort
      rw [UInt64.le_iff_toNat_le] at hshort
      simp only [takes, hcall, reduceCtorEq, decide_false, Bool.false_and, Bool.false_eq_true,
        cons_ne_nil, false_or, false_iff]
      omega

/-! ## Admission -/

/-- What an accepted open has passed. -/
theorem openRecord_admitted (hw : log.Wf) {d : AppendDesc} {mem : AppendMem}
    (hok : (log.openRecord d mem).1 = .ok) :
    d.objState = .open ∧ d.declaredLen + rcbufLen d.properties ≤ log.lim.maxBytes := by
  have hopen : d.objState = .open := by
    by_contra hne
    unfold openRecord at hok
    split at hok <;> cases hok
  refine ⟨hopen, ?_⟩
  have hspec := openRecord_spec hw d mem
  generalize log.openRecord d mem = out at hok hspec
  cases hspec with
  | refused hne _ _ => exact absurd hok hne
  | committed ht₀ _ ht₁ hready _ =>
    have hceil := hready.admitted.ceiling
    rwa [(Trims.rooms (ht₀.trans ht₁)).lim, AppendDesc.ceiling, if_pos hopen] at hceil

/-- The exact bytes of the other records of the group. -/
def otherBytes (g : Group) (r : Rec) : ℕ := g.byteTotal - r.bytes.toNat

theorem Alone.of_reachable (h : log.Reachable)
    (hres : log.resolveOpenRec gid sid oid = .ok (g, i, r)) (hgs : log.groups = [g])
    (hfit : otherBytes g r + (r.declaredLen.toNat + (rcbufLen r.properties).toNat) < 2 ^ 64) :
    log.Alone gid sid oid (r.declaredLen.toNat - r.chunkBytes.toNat) ∧
      log.retainedBytes.toNat + (r.declaredLen.toNat - r.chunkBytes.toNat)
        = otherBytes g r + (r.declaredLen.toNat + (rcbufLen r.properties).toNat) := by
  have hw := h.wf
  obtain ⟨free, chain, hs⟩ := h.stored
  obtain ⟨-, sg, hi, -, htail, -, hopen⟩ := resolveOpenRec_eq_ok hres
  have hmem : r ∈ g.recs := Group.mem_recs_of_sg (mem_of_getElem? hi) (mem_of_getLast? htail)
  have hst := hs.stores r (mem_flatMap.mpr ⟨g, by simp [hgs], hmem⟩)
  have hle : r.chunkBytes.toNat ≤ r.declaredLen.toNat := by
    have hup := hst.upTo (chain r.arrivalSeq).length
    rwa [take_length, ← hst.sum (hst.bare (.inl hopen))] at hup
  have hbytes : r.bytes.toNat = r.chunkBytes.toNat + (rcbufLen r.properties).toNat := by
    have hsum : r.bytes = r.chunkBytes + rcbufLen r.properties := by
      rw [Rec.chunkBytes]
      abel
    rw [hsum, UInt64.toNat_add, Nat.mod_eq_of_lt (by omega)]
  have hmine : r.bytes.toNat ≤ g.byteTotal := single_le_sum (fun _ _ => Nat.zero_le _) _
    (mem_map_of_mem (f := fun r : Rec => r.bytes.toNat) hmem)
  have htotal : log.byteTotal = g.byteTotal := by simp [byteTotal, hgs]
  have hret := hw.toNat_retainedBytes
  unfold otherBytes at hfit ⊢
  exact ⟨⟨hw, ⟨free, chain, hs⟩, g, i, r, hres, hgs, by omega⟩, by omega⟩

/-- **When an admitted record fits, and when it can be completed.**  An accepted `open_record`
bounds the exact size by the budget exactly when the 64-bit sum of the admission test does not wrap.
In any later state in which the record is open and its group is the only one, with a node for every
chunk, what is missing of it, however it is cut, is taken and the record completes exactly when
nothing is missing or the record fits the budget beside the others of its group. -/
theorem open_record_fits_iff (log : Log) (hreach : log.Reachable) (d : AppendDesc) (mem : AppendMem)
    (hok : (log.openRecord d mem).1 = .ok) :
    (d.declaredLen.toNat + (rcbufLen d.properties).toNat ≤ log.lim.maxBytes.toNat ↔
      d.declaredLen.toNat + (rcbufLen d.properties).toNat < 2 ^ 64) ∧
    ∀ (ops : List LogOp) (log' : Log) (g : Group) (i : ℕ) (r : Rec) (cs : List Rcbuf),
      (log.openRecord d mem).2.run ops = log' →
      log'.resolveOpenRec d.groupId d.subgroupId d.objectId = .ok (g, i, r) → log'.groups = [g] →
      (∀ c ∈ cs, c.len ≠ 0) → chunksLength cs = r.declaredLen.toNat - r.chunkBytes.toNat →
      log'.pool.used + cs.length ≤ log'.lim.maxChunkNodes →
      otherBytes g r + (r.declaredLen.toNat + (rcbufLen r.properties).toNat) < 2 ^ 64 →
      (log'.takes d.groupId d.subgroupId d.objectId cs ↔ cs = [] ∨
        otherBytes g r + (r.declaredLen.toNat + (rcbufLen r.properties).toNat)
          ≤ log'.lim.maxBytes.toNat) := by
  obtain ⟨-, hceil⟩ := openRecord_admitted hreach.wf hok
  refine ⟨⟨fun hle => ?_, fun hlt => ?_⟩, ?_⟩
  · exact lt_of_le_of_lt hle log.lim.maxBytes.toNat_lt
  · rwa [UInt64.le_iff_toNat_le, UInt64.toNat_add, Nat.mod_eq_of_lt hlt] at hceil
  · intro ops log' g i r cs hrun hres hgs hpos hlength hnodes hfit
    have hreach' : log'.Reachable := by
      obtain ⟨cfg, ok, log₀, before, hc, rfl⟩ := hreach
      refine ⟨cfg, ok, log₀, before ++ .openRecord d mem :: ops, hc, ?_⟩
      rw [← hrun, run, foldl_append]
      rfl
    obtain ⟨halone, hsum⟩ := Alone.of_reachable hreach' hres hgs hfit
    rw [takes_iff cs log' _ halone hpos hlength hnodes (by omega), hsum]

/-- A record of four bytes, alone, in two chunks. -/
theorem open_record_fits_small :
    (smallLog.openRecord (openDesc 1 4) ⟨true, true, true⟩).1 = .ok ∧
      (smallLog.openRecord (openDesc 1 4) ⟨true, true, true⟩).2.takes 1 0 0 [zeroBuf 3, zeroBuf 1]
        := by
  have hok : (smallLog.openRecord (openDesc 1 4) ⟨true, true, true⟩).1 = .ok := by decide +kernel
  obtain ⟨-, hcomplete⟩ := open_record_fits_iff smallLog (smallLog_reachable [])
    (openDesc 1 4) ⟨true, true, true⟩ hok
  refine ⟨hok, (hcomplete [] _ _ _ _ [zeroBuf 3, zeroBuf 1] rfl rfl rfl ?_ ?_ ?_ ?_).mpr
    (.inr ?_)⟩ <;> decide +kernel

/-- **A declared length that wraps is admitted**, and a record that fits alone cannot be completed
beside another object of its group.  In the first log the size is `2 ^ 64` under a budget of 1024;
in the second the other object has 3 bytes and the record's 1024 are refused. -/
theorem open_record_wraps :
    (smallLog.openRecord { openDesc 1 0xFFFFFFFFFFFFFFFF with properties := some (zeroBuf 1) }
        ⟨true, true, true⟩).1 = .ok ∧
      smallLog.lim.maxBytes.toNat < (0xFFFFFFFFFFFFFFFF : UInt64).toNat + (zeroBuf 1).len.toNat ∧
      (smallLog.openRecord (openDesc 1 1024) ⟨true, true, true⟩).1 = .ok ∧
      (((smallLog.openRecord (openDesc 1 1024) ⟨true, true, true⟩).2.run
        [.append { payloadDesc 1 3 with subgroupId := 1, objectId := 1, object_le := one_le_u64Max }
          ⟨true, true, true⟩]).appendChunk 1 0 0 (some (zeroBuf 1024))).1 = .capacity := by
  decide +kernel

end Log

end MoqRelay
