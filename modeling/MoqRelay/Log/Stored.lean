import MoqRelay.Lib.Chain
import MoqRelay.Log.Run

/-!
# Log/Stored — what the retained records store: chunk chains, sizes, 64-bit ids

The chunk nodes are shared by the free list and the records.  `Log.Stored` says how: every record
owns a chain of its own, and the free list and the chains together hold each node of the pool
exactly once (`once`).  A record's chain carries its bytes, never beyond the declared length, and a
complete one carries all of them; what a complete record takes to serve was admitted by the byte
budget.
-/

namespace MoqRelay

open List Function

namespace ChunkPool

/-- The link of a node. -/
def next (p : ChunkPool) (i : ℕ) : Option ℕ := (p.nodes i).next

/-- The bytes of a node. -/
def len (p : ChunkPool) (i : ℕ) : UInt64 := (p.nodes i).len

variable {p : ChunkPool} {head : Option ℕ} {l free : List ℕ} {n : ℕ}

/-- `p'` is `p` with the nodes of `l` given to the free list. -/
structure Released (p p' : ChunkPool) (l free free' : List ℕ) : Prop where
  chain : Chain p'.next p'.freeHead free'
  perm : free'.Perm (l ++ free)
  frame : ∀ i ∉ l, p'.nodes i = p.nodes i
  used : p'.used = p.used - l.length

variable {j node : ℕ} {r : Rec}

theorem next_freeNode_of_ne {i : ℕ} (h : j ≠ i) : (p.freeNode i).nodes j = p.nodes j :=
  update_of_ne h _ _

/-- **Releasing a chain** gives its nodes to the free list, and touches no other node. -/
theorem releaseFrom_spec (hc : Chain p.next head l) (hf : Chain p.next p.freeHead free)
    (hn : (l ++ free).Nodup) (hlen : l.length ≤ n) :
    ∃ free', Released p (p.releaseFrom n head) l free free' := by
  induction l generalizing head p free n with
  | nil =>
    obtain rfl : head = none := hc
    have hp : p.releaseFrom n none = p := by cases n <;> rfl
    exact ⟨free, by rw [hp]; exact ⟨hf, .refl _, fun _ _ => rfl, rfl⟩⟩
  | cons i l ih =>
    obtain ⟨rfl, hrest⟩ := hc
    obtain ⟨hi, hn'⟩ := nodup_cons.mp (cons_append ▸ hn)
    rw [mem_append, not_or] at hi
    obtain ⟨m, rfl⟩ : ∃ m, n = m + 1 := ⟨n - 1, by simp only [length_cons] at hlen; omega⟩
    have hne : ∀ j, j ≠ i → (p.freeNode i).next j = p.next j := fun j hj => by
      rw [next, next_freeNode_of_ne hj, next]
    have hfree : Chain (p.freeNode i).next (p.freeNode i).freeHead (i :: free) := by
      refine ⟨rfl, ?_⟩
      have hlink : (p.freeNode i).next i = p.freeHead := by simp [next, freeNode]
      rw [hlink]
      exact hf.congr fun j hj => hne j fun e => hi.2 (e ▸ hj)
    have hrest' : Chain (p.freeNode i).next (p.next i) l :=
      hrest.congr fun j hj => hne j fun e => hi.1 (e ▸ hj)
    have hnodup : (l ++ i :: free).Nodup :=
      perm_middle.nodup_iff.mpr (nodup_cons.mpr ⟨by simp [hi], hn'⟩)
    obtain ⟨free', hr⟩ := ih hrest' hfree hnodup (by simpa using hlen)
    refine ⟨free', hr.chain, hr.perm.trans perm_middle, fun j hj => ?_, ?_⟩
    · simp only [mem_cons, not_or] at hj
      exact (hr.frame j hj.2).trans (next_freeNode_of_ne hj.1)
    · refine hr.used.trans ?_
      change p.used - 1 - l.length = p.used - (l.length + 1)
      omega

/-- Releasing the chains of a list of records. -/
theorem foldl_recRelease_spec {chain : ℕ → List ℕ} {rs : List Rec}
    (hc : ∀ r ∈ rs, Chain p.next r.chunkHead (chain r.arrivalSeq) ∧
      r.chunkCount = (chain r.arrivalSeq).length)
    (hf : Chain p.next p.freeHead free)
    (hn : (rs.flatMap (fun r => chain r.arrivalSeq) ++ free).Nodup)
    (hlen : ∀ r ∈ rs, (chain r.arrivalSeq).length ≤ n) :
    ∃ free', Released p (rs.foldl (recRelease n) p) (rs.flatMap fun r => chain r.arrivalSeq) free
      free' := by
  induction rs generalizing p free with
  | nil => exact ⟨free, hf, .refl _, fun _ _ => rfl, rfl⟩
  | cons r rs ih =>
    rw [flatMap_cons, append_assoc] at hn
    obtain ⟨hr, hcount⟩ := hc r (by simp)
    -- A record without chunks has an empty chain, so skipping it releases all of it.
    have hone : ∃ f₁, Released p (recRelease n p r) (chain r.arrivalSeq) free f₁ := by
      unfold recRelease
      split
      · refine releaseFrom_spec hr hf ?_ (hlen r (by simp))
        exact hn.sublist ((sublist_append_right _ _).append_left _)
      · have hnil : chain r.arrivalSeq = [] := length_eq_zero_iff.mp (by omega)
        rw [hnil]
        exact ⟨free, hf, .refl _, fun _ _ => rfl, rfl⟩
    obtain ⟨f₁, h₁⟩ := hone
    have hdisj := nodup_append.mp hn
    have hnot : ∀ x ∈ rs, ∀ j ∈ chain x.arrivalSeq, j ∉ chain r.arrivalSeq := fun x hx j hj hjr =>
      hdisj.2.2 j hjr j (mem_append_left _ (mem_flatMap.mpr ⟨x, hx, hj⟩)) rfl
    have hcc : ∀ x ∈ rs, Chain (recRelease n p r).next x.chunkHead (chain x.arrivalSeq) ∧
        x.chunkCount = (chain x.arrivalSeq).length := fun x hx => by
      obtain ⟨hx1, hx2⟩ := hc x (by simp [hx])
      refine ⟨hx1.congr fun j hj => ?_, hx2⟩
      rw [next, h₁.frame j (hnot x hx j hj), next]
    have hn₁ : (rs.flatMap (fun r => chain r.arrivalSeq) ++ f₁).Nodup := by
      refine (List.Perm.nodup_iff ?_).mp hn
      exact (perm_append_comm_assoc _ _ _).trans (h₁.perm.symm.append_left _)
    obtain ⟨f₂, h₂⟩ := ih hcc h₁.chain hn₁ fun x hx => hlen x (by simp [hx])
    refine ⟨f₂, h₂.chain, ?_, fun j hj => ?_, ?_⟩
    · rw [flatMap_cons, append_assoc]
      exact h₂.perm.trans ((h₁.perm.append_left _).trans (perm_append_comm_assoc _ _ _))
    · simp only [flatMap_cons, mem_append, not_or] at hj
      exact (h₂.frame j hj.2).trans (h₁.frame j hj.1)
    · refine h₂.used.trans ?_
      rw [h₁.used, flatMap_cons, length_append]
      omega

/-- The node a chunk was linked in has the chunk, and no other chunk changes. -/
theorem link_chunk (r : Rec) (node : ℕ) (buf : Rcbuf) (len : UInt64) (j : ℕ) :
    ((p.link r node buf len).nodes j).buf = (if j = node then some buf else (p.nodes j).buf) ∧
      ((p.link r node buf len).nodes j).len = if j = node then len else (p.nodes j).len := by
  unfold link
  cases r.chunkHead with
  | none => by_cases hj : j = node <;> simp [hj]
  | some h =>
    cases r.chunkTail with
    | none => by_cases hj : j = node <;> simp [hj]
    | some t => by_cases ht : j = t <;> by_cases hj : j = node <;> simp_all

/-- **Linking a chunk** extends the record's chain by the new node. -/
theorem chain_link (hc : Chain p.next r.chunkHead l)
    (ht : r.chunkTail = l.getLast?) (hl : l.Nodup) (hnode : node ∉ l) (buf : Rcbuf) (len : UInt64) :
    Chain (p.link r node buf len).next (r.addChunk node len).chunkHead (l ++ [node]) := by
  cases l with
  | nil =>
    have hnone : r.chunkHead = none := hc
    simp [Chain, Rec.addChunk, link, next, hnone]
  | cons i l =>
    obtain ⟨t, hlast⟩ : ∃ t, (i :: l).getLast? = some t := ⟨_, getLast?_cons⟩
    have hhead : (r.addChunk node len).chunkHead = r.chunkHead := by simp [Rec.addChunk, hc.1]
    have hnext : (p.link r node buf len).next
        = update (update p.next node none) t (some node) := by
      funext j
      by_cases hj : j = t
      · simp [link, next, hc.1, ht, hlast, hj]
      · by_cases hjn : j = node
        · subst hjn
          simp [link, next, hc.1, ht, hlast, update_of_ne hj]
        · simp [link, next, hc.1, ht, hlast, hj, hjn]
    rw [hhead, hnext]
    exact hc.snoc hl hnode hlast

/-- Linking touches the new node and the record's old last one only. -/
theorem nodes_link (ht : r.chunkTail = l.getLast?) (hj : j ∉ l)
    (hjn : j ≠ node) (buf : Rcbuf) (len : UInt64) :
    (p.link r node buf len).nodes j = p.nodes j := by
  unfold link
  cases r.chunkHead with
  | none => exact update_of_ne hjn _ _
  | some h =>
    cases hl : r.chunkTail with
    | none => exact update_of_ne hjn _ _
    | some t =>
      have hjt : j ≠ t := fun e => hj (e ▸ mem_of_getLast? (ht.symm.trans hl))
      exact (update_of_ne hjt _ _).trans (update_of_ne hjn _ _)

end ChunkPool

/-! ## One record -/

/-- **What a retained record stores**, its chunks being the nodes `l`. -/
structure Rec.Stores (p : ChunkPool) (maxBytes : UInt64) (r : Rec) (l : List ℕ) : Prop where
  chain : Chain p.next r.chunkHead l
  tail : r.chunkTail = l.getLast?
  count : r.chunkCount = l.length
  bare : r.objState = .open ∨ l ≠ [] → r.payload = none
  sum : r.payload = none → r.chunkBytes = (l.map p.len).sum
  upTo : ∀ k, ((l.take k).map p.len).sum ≤ r.declaredLen
  whole : r.objState = .complete → l ≠ [] → r.chunkBytes = r.declaredLen
  chunked_le : r.objState = .open ∨ l ≠ [] → r.declaredLen + rcbufLen r.properties ≤ maxBytes
  payload_le : r.objState = .complete → l = [] →
    rcbufLen r.payload + rcbufLen r.properties ≤ maxBytes
  object_le : r.objectId ≤ u64Max

namespace Rec.Stores

variable {p p' : ChunkPool} {maxBytes : UInt64} {r r' : Rec} {l : List ℕ}

section

variable (h : r.Stores p maxBytes l)
include h

/-- A record does not see writes to nodes it does not own. -/
theorem frame (hp : ∀ i ∈ l, p'.nodes i = p.nodes i) : r.Stores p' maxBytes l := by
  have hlen : ∀ m : List ℕ, m ⊆ l → m.map p'.len = m.map p.len := fun m hm =>
    map_congr_left fun i hi => by rw [ChunkPool.len, hp i (hm hi), ChunkPool.len]
  refine ⟨h.chain.congr fun i hi => by rw [ChunkPool.next, hp i hi, ChunkPool.next], h.tail,
    h.count, h.bare, fun hn => ?_, fun k => ?_, h.whole, h.chunked_le, h.payload_le, h.object_le⟩
  · rw [hlen l (List.Subset.refl l)]
    exact h.sum hn
  · rw [hlen _ (take_subset k l)]
    exact h.upTo k

/-- A rewrite that keeps the content, and completes only a record whose bytes are all there. -/
theorem mark (hc : r.SameContent r') (hid : r'.objectId = r.objectId)
    (hst : r'.objState = r.objState ∨
      r'.objState = .complete ∧ r.objState = .open ∧ r.chunkBytes = r.declaredLen) :
    r'.Stores p maxBytes l := by
  have hcb : r'.chunkBytes = r.chunkBytes := by
    rw [Rec.chunkBytes, hc.bytes, hc.properties, Rec.chunkBytes]
  have hopen : r'.objState = .open → r.objState = .open := fun ho => by
    rcases hst with hst | hst
    · exact hst ▸ ho
    · exact hst.2.1
  refine ⟨hc.chunkHead ▸ h.chain, hc.chunkTail.trans h.tail, hc.chunkCount.trans h.count,
    fun ho => hc.payload.trans (h.bare (ho.imp_left hopen)),
    fun hn => hcb.trans (h.sum (hc.payload ▸ hn)), fun k => ?_, fun hco hl => ?_, fun ho => ?_,
    fun hco hl => ?_, hid ▸ h.object_le⟩
  · rw [hc.declaredLen]
    exact h.upTo k
  · rw [hcb, hc.declaredLen]
    rcases hst with hst | hst
    · exact h.whole (hst ▸ hco) hl
    · exact hst.2.2
  · rw [hc.declaredLen, hc.properties]
    exact h.chunked_le (ho.imp_left hopen)
  · rw [hc.payload, hc.properties]
    rcases hst with hst | ⟨-, ho, hdecl⟩
    · exact h.payload_le (hst ▸ hco) hl
    · -- Completed without a chunk: the declared length was zero.
      have hpay := h.bare (.inl ho)
      have hzero : r.declaredLen = 0 := by rw [← hdecl, h.sum hpay, hl]; rfl
      have := h.chunked_le (.inl ho)
      rw [hzero] at this
      rwa [hpay]

/-- A record whose chunks were given up. -/
theorem abandon (ho : r.objState = .open) (reset : ResetDesc)
    (p' : ChunkPool) : (r.abandon reset).Stores p' maxBytes [] where
  chain := rfl
  tail := rfl
  count := rfl
  bare _ := h.bare (.inl ho)
  sum _ := sub_self _
  upTo k := by simp
  whole _ hl := absurd rfl hl
  chunked_le hs := by simp [Rec.abandon] at hs
  payload_le hs := by simp [Rec.abandon] at hs
  object_le := h.object_le

/-- A record after one more chunk. -/
theorem addChunk (ho : r.objState = .open) {node : ℕ} {buf : Rcbuf}
    (hl : l.Nodup) (hnode : node ∉ l) (hlen : r.chunkBytes + buf.len ≤ r.declaredLen) :
    (r.addChunk node buf.len).Stores (p.link r node buf buf.len) maxBytes (l ++ [node]) := by
  have hpay := h.bare (.inl ho)
  have hmap : ∀ m : List ℕ, m ⊆ l → m.map (p.link r node buf buf.len).len = m.map p.len :=
    fun m hm => map_congr_left fun i hi =>
      (ChunkPool.link_chunk ..).2.trans (if_neg fun e : i = node => hnode (e ▸ hm hi))
  have hall : ((l ++ [node]).map (p.link r node buf buf.len).len).sum = r.chunkBytes + buf.len := by
    rw [map_append, hmap l (List.Subset.refl l), h.sum hpay]
    simp [ChunkPool.len, (ChunkPool.link_chunk ..).2]
  refine ⟨ChunkPool.chain_link h.chain h.tail hl hnode buf buf.len, ?_, ?_, fun _ => hpay,
    fun _ => ?_, fun k => ?_, fun hc => ?_, fun _ => h.chunked_le (.inl ho), fun _ hn => ?_,
    h.object_le⟩
  · simp [Rec.addChunk]
  · simp [Rec.addChunk, h.count]
  · rw [hall]
    simp only [Rec.chunkBytes, Rec.addChunk]
    abel
  · -- A proper initial part is one of the old chain; the whole is what the length check allowed.
    by_cases hk : k ≤ l.length
    · rw [take_append_of_le_length hk, hmap _ (take_subset k l)]
      exact h.upTo k
    · rwa [take_of_length_le (by simp; omega), hall]
  · simp [Rec.addChunk, ho] at hc
  · simp at hn

end

/-- A record as it is committed. -/
theorem commit {log : Log} {d : AppendDesc} (hadm : log.Admitted d)
    (hc : (log.baseRec d).SameContent r) (hst : r.objState = d.objState)
    (hid : r.objectId = d.objectId) (p : ChunkPool) : r.Stores p log.lim.maxBytes [] := by
  have hpay : r.payload = d.payload := hc.payload
  have hprops : r.properties = d.properties := hc.properties
  refine ⟨hc.chunkHead, hc.chunkTail, hc.chunkCount, fun ho => ?_, fun hn => ?_, fun k => by simp,
    fun _ hl => absurd rfl hl, fun ho => ?_, fun hco _ => ?_, hid ▸ d.object_le⟩
  · rw [hpay]
    exact (hadm.openForm (hst ▸ ho.resolve_right (by simp))).1
  · rw [hpay] at hn
    have hb : r.bytes = rcbufLen d.payload + rcbufLen d.properties := hc.bytes
    rw [Rec.chunkBytes, hb, hprops, hn]
    simp [rcbufLen]
  · have ho' : d.objState = .open := hst ▸ ho.resolve_right (by simp)
    have hdl : r.declaredLen = d.declaredLen := by
      rw [hc.declaredLen]
      simp [Log.baseRec, ho']
    rw [hdl, hprops]
    simpa [AppendDesc.ceiling, ho'] using hadm.ceiling
  · have hco' : d.objState = .complete := hst ▸ hco
    rw [hpay, hprops]
    simpa [AppendDesc.ceiling, hco', AppendDesc.bytes] using hadm.ceiling

end Rec.Stores

/-- **What a change does to a retained record** and its chain: it rewrites marks, gives the chunks
up, or links one more, the chunk `b`. -/
inductive Rec.Move (b : Option Rcbuf) (p p' : ChunkPool) (r : Rec) (l : List ℕ) :
    Rec → List ℕ → Prop
  | kept {r' : Rec} (hc : r.SameContent r') (hid : r'.objectId = r.objectId)
      (hdg : r'.datagramPref = r.datagramPref)
      (hst : r'.objState = r.objState ∨
        r'.objState = .complete ∧ r.objState = .open ∧ r.chunkBytes = r.declaredLen)
      (hp : ∀ i ∈ l, p'.nodes i = p.nodes i) : Move b p p' r l r' l
  | abandoned (ho : r.objState = .open) (reset : ResetDesc) : Move b p p' r l (r.abandon reset) []
  | grown {node : ℕ} {buf : Rcbuf} (hb : b = some buf) (ho : r.objState = .open)
      (hdg : r.datagramPref = false) (hnode : node ∉ l)
      (hlen : r.chunkBytes + buf.len ≤ r.declaredLen)
      (hp : p'.nodes = (p.link r node buf buf.len).nodes) :
      Move b p p' r l (r.addChunk node buf.len) (l ++ [node])

variable {b : Option Rcbuf} {p p' : ChunkPool} {l : List ℕ} {r : Rec}

/-- A record that only sees writes to nodes it does not own. -/
theorem Rec.Move.frame (r : Rec) (hp : ∀ i ∈ l, p'.nodes i = p.nodes i) : r.Move b p p' l r l :=
  .kept (.refl r) rfl rfl (.inl rfl) hp

theorem Rec.Stores.move {maxBytes : UInt64} {r' : Rec}
    {l' : List ℕ} (h : r.Stores p maxBytes l) (hl : l.Nodup) (hm : r.Move b p p' l r' l') :
    r'.Stores p' maxBytes l' := by
  cases hm with
  | kept hc hid _ hst hp => exact (h.mark hc hid hst).frame hp
  | abandoned ho reset => exact h.abandon ho reset p'
  | grown _ ho _ hnode hlen hp => exact (h.addChunk ho hl hnode hlen).frame fun i _ => congrFun hp i

/-! ## The log -/

variable {g : Group} {j : ℕ} {s : ListSlot}

theorem Group.seqAt_eq (h : g.recAt? s j = some r) : g.seqAt s j = some r.arrivalSeq := by
  rw [seqAt, h, Option.map_some]

namespace Log

variable {log log' : Log} {gid sid oid i : ℕ} {g : Group} {r : Rec} {free : List ℕ}
  {chain : ℕ → List ℕ}

/-- A sequence number has one place. -/
theorem Wf.place_unique (hw : log.Wf) {g' : Group} {s s' : ListSlot} {j j' q : ℕ}
    (hg : g ∈ log.groups) (hg' : g' ∈ log.groups) (h : g.seqAt s j = some q)
    (h' : g'.seqAt s' j' = some q) : g.groupId = g'.groupId ∧ s = s' ∧ j = j' := by
  have h1 := (hw.slotOfRec g hg s j q h).2.2
  have h2 := (hw.slotOfRec g' hg' s' j' q h').2.2
  simpa using h1.symm.trans h2

/-- **The records after an edit of one list**: the edited last record, and the others as they
were. -/
theorem mem_allRecs_edit (hw : log.Wf) {F : Subgroup → Subgroup} {f : Rec → Rec}
    (hfind : log.groupFind gid = some g) (hF : Subgroup.Edit F f) {e : Group → Group}
    (he : (e g).recs = (g.modifySg i F).recs) {x : Rec} (hx : x ∈ (log.modifyGroup gid e).allRecs) :
    (∃ sg r, g.sgs[i]? = some sg ∧ sg.v.recs.getLast? = some r ∧ r ∈ log.allRecs ∧ x = f r) ∨
      x ∈ log.allRecs ∧ ∀ sg r, g.sgs[i]? = some sg → sg.v.recs.getLast? = some r →
        x.arrivalSeq ≠ r.arrivalSeq := by
  obtain ⟨l₁, l₂, hgs, hid, hmod⟩ := modifyGroup_split hw.sorted hfind
  have hmem : g ∈ log.groups := by simp [hgs]
  have htail : ∀ sg r, g.sgs[i]? = some sg → sg.v.recs.getLast? = some r →
      g.recAt? (.subgroup i) (sg.v.recs.length - 1) = some r := fun sg r hi hr => by
    simpa [Group.recAt?, Group.list?, hi, getLast?_eq_getElem?] using hr
  rw [hmod] at hx
  obtain ⟨g', hg', hxg⟩ := mem_flatMap.mp hx
  rcases mem_replaced hw.sorted hgs hg' with rfl | ⟨hg', hne⟩
  · obtain ⟨s, j, hj⟩ := (g.modifySg i F).exists_recAt?_of_mem (he ▸ hxg)
    rcases Group.recAt?_modifySg (g := g) hF i s j with ⟨sg, hi, rfl, rfl, hmap⟩ | ⟨hne, hsame⟩
    · obtain ⟨r, hr, rfl⟩ := Option.map_eq_some_iff.mp (hmap.symm.trans hj)
      refine .inl ⟨sg, r, hi, ?_, mem_flatMap.mpr ⟨g, hmem, Group.mem_recs_of_recAt? hr⟩, rfl⟩
      simpa [Group.recAt?, Group.list?, hi, getLast?_eq_getElem?] using hr
    · have hxj := hsame.symm.trans hj
      refine .inr ⟨mem_flatMap.mpr ⟨g, hmem, Group.mem_recs_of_recAt? hxj⟩,
        fun sg r hi hr heq => hne sg hi ?_⟩
      exact (hw.place_unique hmem hmem (Group.seqAt_eq hxj)
        (heq ▸ Group.seqAt_eq (htail sg r hi hr))).2
  · refine .inr ⟨mem_flatMap.mpr ⟨g', hg', hxg⟩, fun sg r hi hr heq => hne ?_⟩
    obtain ⟨s, j, hj⟩ := g'.exists_recAt?_of_mem hxg
    exact (hw.place_unique hg' hmem (Group.seqAt_eq hj)
      (heq ▸ Group.seqAt_eq (htail sg r hi hr))).1

/-- The OPEN record found is retained, and the last one of its list. -/
theorem resolveOpenRec_mem (hw : log.Wf) (h : log.resolveOpenRec gid sid oid = .ok (g, i, r)) :
    r ∈ log.allRecs ∧
      ∀ sg r', g.sgs[i]? = some sg → sg.v.recs.getLast? = some r' → r' = r := by
  obtain ⟨hfind, sg, hi, -, htail, -, -⟩ := resolveOpenRec_eq_ok h
  refine ⟨mem_flatMap.mpr ⟨g, ((groupFind_eq_some_iff hw.sorted).mp hfind).1,
    Group.mem_recs_of_sg (mem_of_getElem? hi) (mem_of_getLast? htail)⟩, fun sg' r' hi' hr' => ?_⟩
  cases hi.symm.trans hi'
  exact Option.some.inj (hr'.symm.trans htail)

/-- **The storage of a log**: the free nodes and the chain of each record, by sequence number. -/
structure Stored (log : Log) (free : List ℕ) (chain : ℕ → List ℕ) : Prop where
  group_le : ∀ g ∈ log.groups, g.groupId ≤ u64Max
  stores : ∀ r ∈ log.allRecs, r.Stores log.pool log.lim.maxBytes (chain r.arrivalSeq)
  freeList : Chain log.pool.next log.pool.freeHead free
  once : (free ++ (log.allRecs.map Rec.arrivalSeq).flatMap chain).Perm
    (range log.lim.maxChunkNodes)
  used : log.pool.used + free.length = log.lim.maxChunkNodes

/-- Every record of `log'` is one of `log`, moved. -/
def Carried (b : Option Rcbuf) (log log' : Log) (chain chain' : ℕ → List ℕ) : Prop :=
  ∀ r' ∈ log'.allRecs, ∃ r ∈ log.allRecs,
    r.Move b log.pool log'.pool (chain r.arrivalSeq) r' (chain' r'.arrivalSeq)

theorem Carried.of_same {b : Option Rcbuf} (hpool : log'.pool = log.pool)
    (hrecs : log'.allRecs = log.allRecs) : Carried b log log' chain chain := fun r hr =>
  ⟨r, hrecs ▸ hr, .frame r fun _ _ => by rw [hpool]⟩

namespace Stored

variable (h : log.Stored free chain)
include h

theorem nodup : (free ++ (log.allRecs.map Rec.arrivalSeq).flatMap chain).Nodup :=
  h.once.nodup_iff.mpr nodup_range

variable {q : ℕ} {F : Subgroup → Subgroup} {f : Rec → Rec} {e : Group → Group}

/-- The chain of a record and the free list share no node. -/
theorem nodup_chain (hq : q ∈ log.allRecs.map Rec.arrivalSeq) : (chain q ++ free).Nodup := by
  refine perm_append_comm.nodup_iff.mp (h.nodup.sublist (List.Sublist.append_left ?_ _))
  exact sublist_flatten_of_mem (mem_map_of_mem hq)

/-- Two records share no node. -/
theorem disjoint {a b : ℕ} (ha : a ∈ log.allRecs.map Rec.arrivalSeq)
    (hb : b ∈ log.allRecs.map Rec.arrivalSeq) (hab : a ≠ b) : (chain a).Disjoint (chain b) := by
  have hp := (nodup_flatMap.mp (nodup_append.mp h.nodup).2.1).2
  have : Std.Symm (onFun List.Disjoint chain) := ⟨fun _ _ hd => List.Disjoint.symm hd⟩
  exact hp.forall ha hb hab

theorem length_le (hq : q ∈ log.allRecs.map Rec.arrivalSeq) :
    (chain q).length + free.length ≤ log.lim.maxChunkNodes := by
  have hlen := h.once.length_eq
  have hsub : (chain q).length ≤ ((log.allRecs.map Rec.arrivalSeq).flatMap chain).length :=
    (sublist_flatten_of_mem (mem_map_of_mem hq)).length_le
  rw [length_append, length_range] at hlen
  omega

theorem stores_carried {b : Option Rcbuf} {chain' : ℕ → List ℕ}
    (hc : Carried b log log' chain chain') : ∀ r ∈ log'.allRecs,
      r.Stores log'.pool log.lim.maxBytes (chain' r.arrivalSeq) := fun x hx => by
  obtain ⟨r, hr, hm⟩ := hc x hx
  exact (h.stores r hr).move (nodup_append.mp (h.nodup_chain (mem_map_of_mem hr))).1 hm

/-- A group written keeps its id. -/
theorem group_le_modify {l₁ l₂ : List Group} (hgs : log.groups = l₁ ++ g :: l₂)
    (hmod : ∀ f, log.modifyGroup gid f = { log with groups := l₁ ++ f g :: l₂ })
    (hid : (e g).groupId = g.groupId) :
    ∀ x ∈ (log.modifyGroup gid e).groups, x.groupId ≤ u64Max := by
  have hle := h.group_le
  rw [hgs, forall_mem_append, forall_mem_cons] at hle
  rwa [hmod, forall_mem_append, forall_mem_cons, hid]

/-- An edit of one list, with what becomes of the nodes: the last record of the list moves, and
every other keeps its chain. -/
theorem edit (hw : log.Wf) (hfind : log.groupFind gid = some g) (hF : Subgroup.Edit F f)
    (he : (e g).recs = (g.modifySg i F).recs) (hid : (e g).groupId = g.groupId)
    {pool : ChunkPool} {n : UInt64} {b : Option Rcbuf} {free' : List ℕ} {chain' : ℕ → List ℕ}
    (htail : ∀ sg r, g.sgs[i]? = some sg → sg.v.recs.getLast? = some r → r ∈ log.allRecs →
      r.Move b log.pool pool (chain r.arrivalSeq) (f r) (chain' r.arrivalSeq))
    (hframe : ∀ x ∈ log.allRecs, (∀ sg r, g.sgs[i]? = some sg → sg.v.recs.getLast? = some r →
      x.arrivalSeq ≠ r.arrivalSeq) → chain' x.arrivalSeq = chain x.arrivalSeq ∧
        ∀ j ∈ chain x.arrivalSeq, pool.nodes j = log.pool.nodes j)
    (hfree : Chain pool.next pool.freeHead free')
    (honce : (free' ++ (log.allRecs.map Rec.arrivalSeq).flatMap chain').Perm
      (free ++ (log.allRecs.map Rec.arrivalSeq).flatMap chain))
    (hused : pool.used + free'.length = log.pool.used + free.length) :
    Log.Stored { log.modifyGroup gid e with pool := pool, retainedBytes := n } free' chain' ∧
      Carried b log { log.modifyGroup gid e with pool := pool, retainedBytes := n } chain
        chain' := by
  obtain ⟨l₁, l₂, hgs, -, hmod⟩ := modifyGroup_split hw.sorted hfind
  have hseqs : (log.modifyGroup gid e).allRecs.map Rec.arrivalSeq
      = log.allRecs.map Rec.arrivalSeq := by
    rw [hmod]
    simp [allRecs, hgs, he, Group.recs_map_modifySg hF hF.tail.arrivalSeq]
  have hcarried : Carried b log { log.modifyGroup gid e with pool := pool, retainedBytes := n }
      chain chain' := fun x hx => by
    rcases mem_allRecs_edit hw hfind hF he hx with ⟨sg, r, hi, hr, hmem, rfl⟩ | ⟨hmem, hne⟩
    · refine ⟨r, hmem, ?_⟩
      rw [hF.tail.arrivalSeq]
      exact htail sg r hi hr hmem
    · obtain ⟨hchain, hnodes⟩ := hframe x hmem hne
      refine ⟨x, hmem, ?_⟩
      rw [hchain]
      exact .frame x hnodes
  refine ⟨⟨?_, fun x hx => ?_, hfree, ?_, hused.trans h.used⟩, hcarried⟩
  · exact h.group_le_modify hgs hmod hid
  · exact h.stores_carried hcarried x hx
  · change (free' ++ ((log.modifyGroup gid e).allRecs.map Rec.arrivalSeq).flatMap chain').Perm _
    rw [hseqs]
    exact honce.trans h.once

/-- A rewrite of marks. -/
theorem mark (hw : log.Wf) (hfind : log.groupFind gid = some g) (hF : Subgroup.Edit F f)
    (hcontent : ∀ r : Rec, r.SameContent (f r))
    (hstate : ∀ sg r, g.sgs[i]? = some sg → sg.v.recs.getLast? = some r →
      (f r).objState = r.objState ∨
        (f r).objState = .complete ∧ r.objState = .open ∧ r.chunkBytes = r.declaredLen)
    (he : (e g).recs = (g.modifySg i F).recs) (hid : (e g).groupId = g.groupId) :
    (log.modifyGroup gid e).Stored free chain ∧
      Carried none log (log.modifyGroup gid e) chain chain :=
  h.edit (n := log.retainedBytes) hw hfind hF he hid
    (fun sg r hi hr _ => .kept (hcontent r) (hF.tail.objectId r) (hF.tail.datagramPref r)
      (hstate sg r hi hr) fun _ _ => rfl)
    (fun _ _ _ => ⟨rfl, fun _ _ => rfl⟩) h.freeList (.refl _) rfl

theorem abandon (hw : log.Wf) {reset : ResetDesc}
    (hr : log.resolveOpenRec gid sid oid = .ok (g, i, r)) :
    ∃ free' chain', (log.abandonTail gid i r reset).Stored free' chain' ∧
      Carried none log (log.abandonTail gid i r reset) chain chain' := by
  obtain ⟨hfind, sg, hi, -, htail, -, hopen⟩ := resolveOpenRec_eq_ok hr
  obtain ⟨hmem, hone⟩ := resolveOpenRec_mem hw hr
  have hq : r.arrivalSeq ∈ log.allRecs.map Rec.arrivalSeq := mem_map_of_mem hmem
  have hlen := h.length_le hq
  obtain ⟨free', hrel⟩ := ChunkPool.releaseFrom_spec (h.stores r hmem).chain h.freeList
    (h.nodup_chain hq) (n := log.lim.maxChunkNodes) (by omega)
  refine ⟨free', update chain r.arrivalSeq [], ?_⟩
  refine h.edit hw hfind (Subgroup.Edit.ofTail (edit_abandon reset)) rfl rfl
    (fun sg' r' hi' hr' hm => ?_) (fun x hx hne => ?_) hrel.chain ?_ ?_
  · obtain rfl := hone sg' r' hi' hr'
    rw [update_self]
    exact .abandoned hopen reset
  · have hxr := hne sg r hi htail
    refine ⟨update_of_ne hxr _ _, fun j hj => hrel.frame j fun hjr => ?_⟩
    exact h.disjoint (mem_map_of_mem hx) hq hxr hj hjr
  · refine (hrel.perm.append_right _).trans ?_
    rw [append_assoc]
    refine (perm_append_comm_assoc _ _ _).trans (List.Perm.append_left _ ?_)
    exact flatMap_update_perm (l := []) hq hw.seqNodup
  · have hperm := hrel.perm.length_eq
    rw [length_append] at hperm
    have hu := h.used
    rw [hrel.used]
    omega

theorem chunk (hw : log.Wf) {buf : Rcbuf} (hr : log.resolveOpenRec gid sid oid = .ok (g, i, r))
    (hlen : r.chunkBytes + buf.len ≤ r.declaredLen) (hc : log.commitChunk gid i r buf = some log') :
    ∃ free' chain', log'.Stored free' chain' ∧ Carried (some buf) log log' chain chain' := by
  obtain ⟨hfind, sg, hi, -, htail, -, hopen⟩ := resolveOpenRec_eq_ok hr
  obtain ⟨hmem, hone⟩ := resolveOpenRec_mem hw hr
  have hq : r.arrivalSeq ∈ log.allRecs.map Rec.arrivalSeq := mem_map_of_mem hmem
  have hdg : r.datagramPref = false := by
    have hgw := hw.group g ((groupFind_eq_some_iff hw.sorted).mp hfind).1
    exact ((hgw.sgs sg (mem_of_getElem? hi)).owner r (mem_of_getLast? htail)).2
  unfold commitChunk ChunkPool.alloc at hc
  cases free with
  | nil =>
    have hnone : log.pool.freeHead = none := h.freeList
    simp [hnone] at hc
  | cons node free =>
    have hhead : log.pool.freeHead = some node := h.freeList.1
    simp only [hhead, Option.some.injEq] at hc
    subst hc
    have hnd := h.nodup_chain hq
    rw [nodup_append] at hnd
    have hnode : node ∉ chain r.arrivalSeq := fun hx => hnd.2.2 node hx node (by simp) rfl
    have hnf : node ∉ free := (nodup_cons.mp hnd.2.1).1
    have hst := h.stores r hmem
    refine ⟨free, update chain r.arrivalSeq (chain r.arrivalSeq ++ [node]), ?_⟩
    refine h.edit hw hfind (Subgroup.Edit.ofTail (edit_addChunk node _)) rfl rfl
      (fun sg' r' hi' hr' hm => ?_) (fun x hx hne => ?_) ?_ ?_ ?_
    · obtain rfl := hone sg' r' hi' hr'
      rw [update_self]
      exact .grown rfl hopen hdg hnode hlen rfl
    · have hxr := hne sg r hi htail
      refine ⟨update_of_ne hxr _ _, fun j hj =>
        ChunkPool.nodes_link hst.tail (fun hjr => ?_) ?_ _ _⟩
      · exact h.disjoint (mem_map_of_mem hx) hq hxr hj hjr
      · rintro rfl
        have hxd := h.nodup_chain (mem_map_of_mem hx : x.arrivalSeq ∈ _)
        exact (nodup_append.mp hxd).2.2 j hj j (by simp) rfl
    · refine h.freeList.2.congr fun j hj => ?_
      have hjn : j ≠ node := fun e => hnf (e ▸ hj)
      have hjr : j ∉ chain r.arrivalSeq := fun hx => hnd.2.2 j hx j (by simp [hj]) rfl
      exact congrArg ChunkNode.next (ChunkPool.nodes_link hst.tail hjr hjn buf _)
    · have hgrow := flatMap_update_perm (c := chain) (l := chain r.arrivalSeq ++ [node]) hq
        hw.seqNodup
      rw [append_assoc, perm_append_left_iff] at hgrow
      exact (hgrow.append_left free).trans perm_middle
    · change log.pool.used + 1 + free.length = log.pool.used + (free.length + 1)
      omega

theorem drop {rest : List Group} (hgs : log.groups = g :: rest) :
    ∃ free', (log.dropGroup 0 g).Stored free' chain ∧
      Carried none log (log.dropGroup 0 g) chain chain := by
  have hrecs : log.allRecs = g.recs ++ rest.flatMap Group.recs := by rw [allRecs, hgs, flatMap_cons]
  have hrecs' : (log.dropGroup 0 g).allRecs = rest.flatMap Group.recs := by
    simp [allRecs, dropGroup, hgs]
  have hsub : ∀ r ∈ g.recs, r ∈ log.allRecs := fun r hr => hrecs ▸ mem_append_left _ hr
  have hnd := h.nodup
  rw [hrecs, map_append, flatMap_append, flatMap_map, ← append_assoc] at hnd
  have hmine := (nodup_append.mp hnd).1
  obtain ⟨free', hrel⟩ := ChunkPool.foldl_recRelease_spec (n := log.lim.maxChunkNodes)
    (fun r hr => ⟨(h.stores r (hsub r hr)).chain, (h.stores r (hsub r hr)).count⟩) h.freeList
    (perm_append_comm.nodup_iff.mp hmine)
    (fun r hr => (Nat.le_add_right _ _).trans (h.length_le (mem_map_of_mem (hsub r hr))))
  have honce := h.once
  rw [hrecs, map_append, flatMap_append, flatMap_map, ← append_assoc] at honce
  have hcarried : Carried none log (log.dropGroup 0 g) chain chain := fun x hx => by
    rw [hrecs'] at hx
    refine ⟨x, hrecs ▸ mem_append_right _ hx, .frame x fun j hj => hrel.frame j fun hjg => ?_⟩
    refine (nodup_append.mp hnd).2.2 j (mem_append_right _ hjg) j ?_ rfl
    exact mem_flatMap.mpr ⟨x.arrivalSeq, mem_map_of_mem hx, hj⟩
  refine ⟨free', ⟨fun x hx => h.group_le x ?_, fun x hx => ?_, hrel.chain, ?_, ?_⟩, hcarried⟩
  · rw [hgs]
    exact mem_cons_of_mem _ (by simpa [dropGroup, hgs] using hx)
  · exact h.stores_carried hcarried x hx
  · rw [hrecs']
    exact ((hrel.perm.trans perm_append_comm).append_right _).trans honce
  · have h1 := honce.length_eq
    have h2 := hrel.perm.length_eq
    have h3 := h.used
    have h4 : (log.dropGroup 0 g).pool.used = _ := hrel.used
    simp only [length_append, length_range] at h1 h2
    change _ = log.lim.maxChunkNodes
    omega

theorem commit (hw : log.Wf) {d : AppendDesc} {mem : AppendMem} (hready : log.Ready g d)
    (hc : log.commit g d mem = some log') : ∃ chain', log'.Stored free chain' ∧
      ∀ x ∈ log'.allRecs, (∃ r ∈ log.allRecs,
          r.Move none log.pool log'.pool (chain r.arrivalSeq) x (chain' x.arrivalSeq)) ∨
        (log.baseRec d).SameContent x ∧ chain' x.arrivalSeq = [] := by
  obtain ⟨l₁, l₂, hgs, hid, hmod⟩ := modifyGroup_split hw.sorted hready.find
  obtain ⟨f, s, n, r, hcom⟩ := hready.committed hw hc
  obtain ⟨holes, rfl⟩ := hcom.eq
  obtain ⟨hseq, hoid, -, hst, -, -⟩ := hcom.record
  have hperm := hcom.allRecs hw hready.find
  have hold : ∀ x ∈ log.allRecs, x.arrivalSeq ≠ log.nextSeq := fun x hx e =>
    hw.nextSeq_fresh (e ▸ mem_map_of_mem hx)
  have hkeys : (log.allRecs.map Rec.arrivalSeq).flatMap (update chain log.nextSeq [])
      = (log.allRecs.map Rec.arrivalSeq).flatMap chain :=
    flatMap_congr fun q hq => update_of_ne
      (fun e : q = log.nextSeq => hw.nextSeq_fresh (e ▸ hq)) _ _
  refine ⟨update chain log.nextSeq [], ⟨?_, fun x hx => ?_, h.freeList, ?_, h.used⟩, fun x hx => ?_⟩
  · exact h.group_le_modify hgs hmod hcom.groupId
  · rcases mem_cons.mp (hperm.mem_iff.mp hx) with rfl | hx
    · rw [hseq, update_self]
      exact Rec.Stores.commit hready.admitted hcom.content hst hoid _
    · rw [update_of_ne (hold x hx)]
      exact h.stores x hx
  · refine (List.Perm.append_left _ ((hperm.map Rec.arrivalSeq).flatMap_right _)).trans ?_
    rw [map_cons, flatMap_cons, hseq, update_self, hkeys]
    exact h.once
  · rcases mem_cons.mp (hperm.mem_iff.mp hx) with rfl | hx
    · exact .inr ⟨hcom.content, by rw [hseq, update_self]⟩
    · refine .inl ⟨x, hx, ?_⟩
      rw [update_of_ne (hold x hx)]
      exact .frame x fun _ _ => rfl

end Stored

/-! ## Every log is stored -/

theorem Room.stored (hr : Room gid log log') (hw : log.Wf) (h : log.Stored free chain) :
    ∃ free', log'.Stored free' chain ∧ Carried none log log' chain chain := by
  cases hr with
  | drop hgs => exact h.drop hgs
  | compact => exact ⟨free, { h with }, .of_same rfl rfl⟩
  | activate hgid habs hhor hroom =>
    rename_i nowUs
    obtain ⟨l₁, l₂, hgs, hins, -⟩ := insert_split hw.sorted habs nowUs
    have hrecs : (log.groups.insertIdx (log.groupIdx gid) (.fresh gid nowUs)).flatMap Group.recs
        = log.allRecs := by
      rw [hins, allRecs, hgs, flatMap_append, flatMap_append]
      rfl
    refine ⟨free, { h with
      group_le := ?_
      stores := fun r hr => h.stores r (hrecs ▸ hr)
      once := by rw [allRecs, hrecs]; exact h.once }, .of_same rfl hrecs⟩
    have hle := h.group_le
    rw [hgs, forall_mem_append] at hle
    rw [hins, forall_mem_append, forall_mem_cons]
    exact ⟨hle.1, hgid, hle.2⟩

theorem Quiet.stored (hq : Quiet log log') (hw : log.Wf) (h : log.Stored free chain) :
    ∃ free' chain', log'.Stored free' chain' ∧ Carried none log log' chain chain' := by
  cases hq with
  | room hr =>
    obtain ⟨free', h'⟩ := hr.stored hw h
    exact ⟨free', chain, h'⟩
  | abandon hr => exact h.abandon hw hr
  | mark hfind hF hcontent hstate => exact ⟨free, chain, h.mark hw hfind hF hcontent hstate rfl rfl⟩
  | final hfind hi hF hbeyond =>
    exact ⟨free, chain, h.mark hw hfind hF Rec.SameContent.refl (fun _ _ _ _ => .inl rfl) rfl rfl⟩
  | floor n => exact ⟨free, chain, { h with }, .of_same rfl rfl⟩
  | hole gid sid =>
    unfold addHole
    split
    · exact ⟨free, chain, h, .of_same rfl rfl⟩
    · exact ⟨free, chain, { h with }, .of_same rfl rfl⟩

/-- A fresh pool links its nodes in index order. -/
theorem chain_fresh {n k : ℕ} (hk : k ≤ n) : Chain (ChunkPool.fresh n).next
    (if k < n then some k else none) (range' k (n - k)) := by
  obtain ⟨m, rfl⟩ : ∃ m, n = k + m := ⟨n - k, by omega⟩
  induction m generalizing k with
  | zero => simp [Chain]
  | succ m ih =>
    have hnext : (ChunkPool.fresh (k + (m + 1))).next k
        = if k + 1 < k + (m + 1) then some (k + 1) else none := rfl
    have hk' := ih (k := k + 1) (by omega)
    rw [show k + 1 + m = k + (m + 1) by omega] at hk'
    rw [if_pos (by omega), show k + (m + 1) - k = m + 1 by omega]
    refine ⟨rfl, ?_⟩
    rw [hnext]
    simpa only [show k + (m + 1) - (k + 1) = m by omega] using hk'

theorem Stored.fresh (lim : LogLimits) :
    (Log.fresh lim).Stored (range lim.maxChunkNodes) fun _ => [] where
  group_le _ hg := absurd hg not_mem_nil
  stores _ hr := absurd hr not_mem_nil
  freeList := by
    rw [range_eq_range']
    exact chain_fresh (n := lim.maxChunkNodes) (Nat.zero_le _)
  once := by simp [allRecs, Log.fresh]
  used := by simp [Log.fresh, ChunkPool.fresh]

/-! ## Facts about a record and its chain -/

/-- The storage is in order, and `Q` holds of every record and its chain. -/
def StoredWith (Q : ChunkPool → Rec → List ℕ → Prop) (log : Log) : Prop :=
  ∃ free chain, log.Stored free chain ∧ ∀ r ∈ log.allRecs, Q log.pool r (chain r.arrivalSeq)

section StoredWith

variable {Q : ChunkPool → Rec → List ℕ → Prop}

/-- A fact that marks and abandons keep. -/
def QuietFact (Q : ChunkPool → Rec → List ℕ → Prop) : Prop :=
  ∀ p p' m r r' l l', Q p r l → r.Stores p m l → r.Move none p p' l r' l' → Q p' r' l'

/-- A fact that every record keeps when the chunk is linked. -/
def ChunkFact (Q : ChunkPool → Rec → List ℕ → Prop) (log : Log) (buf : Rcbuf) : Prop :=
  ∀ r ∈ log.allRecs, ∀ p' r' l l', Q log.pool r l → r.Stores log.pool log.lim.maxBytes l →
    l.Nodup → r.Move (some buf) log.pool p' l r' l' → Q p' r' l'

/-- The records that are there keep the fact when every move of one does. -/
theorem Carried.keeps {b : Option Rcbuf} {chain' : ℕ → List ℕ}
    (hc : Carried b log log' chain chain')
    (hQ : ∀ r ∈ log.allRecs, ∀ r' l', Q log.pool r (chain r.arrivalSeq) →
      r.Move b log.pool log'.pool (chain r.arrivalSeq) r' l' → Q log'.pool r' l')
    (h : ∀ r ∈ log.allRecs, Q log.pool r (chain r.arrivalSeq)) :
    ∀ r ∈ log'.allRecs, Q log'.pool r (chain' r.arrivalSeq) := fun r' hr' => by
  obtain ⟨r, hr, hm⟩ := hc r' hr'
  exact hQ r hr r' _ (h r hr) hm

theorem Quiets.storedWith (hq : Quiets log log') (hw : log.Wf)
    (hQ : QuietFact Q) (h : log.StoredWith Q) : log'.StoredWith Q := by
  induction hq with
  | refl => exact h
  | tail hprev hstep ih =>
    obtain ⟨free, chain, hs, hall⟩ := ih
    obtain ⟨free', chain', hs', hc⟩ := hstep.stored (Quiets.wf hprev hw) hs
    refine ⟨free', chain', hs', hc.keeps (fun r hr r' l' hr' hm => ?_) hall⟩
    exact hQ _ _ _ r r' _ l' hr' (hs.stores r hr) hm

variable {d : AppendDesc} {mem : AppendMem} {out : Result × Log}

variable (hw : log.Wf)
include hw

/-- **A commit**: the new record has the fact with no chain. -/
theorem commit_storedWith (hready : log.Ready g d) (hc : log.commit g d mem = some log')
    (hQ : QuietFact Q)
    (hnew : ∀ p r, (log.baseRec d).SameContent r → Q p r []) (h : log.StoredWith Q) :
    log'.StoredWith Q := by
  obtain ⟨free, chain, hs, hall⟩ := h
  obtain ⟨chain', hs', hrecs⟩ := hs.commit hw hready hc
  refine ⟨free, chain', hs', fun x hx => ?_⟩
  rcases hrecs x hx with ⟨r, hr, hm⟩ | ⟨hcontent, hnil⟩
  · exact hQ _ _ _ r x _ _ (hall r hr) (hs.stores r hr) hm
  · rw [hnil]
    exact hnew _ x hcontent

theorem commitChunk_storedWith {buf : Rcbuf} (hr : log.resolveOpenRec gid sid oid = .ok (g, i, r))
    (hlen : r.chunkBytes + buf.len ≤ r.declaredLen) (hc : log.commitChunk gid i r buf = some log')
    (hQ : ChunkFact Q log buf) (h : log.StoredWith Q) : log'.StoredWith Q := by
  obtain ⟨free, chain, hs, hall⟩ := h
  obtain ⟨free', chain', hs', hcar⟩ := hs.chunk hw hr hlen hc
  refine ⟨free', chain', hs', hcar.keeps (fun x hx x' l' hx' hm => ?_) hall⟩
  have hnd := (nodup_append.mp (hs.nodup_chain (mem_map_of_mem hx))).1
  exact hQ x hx _ x' _ l' hx' (hs.stores x hx) hnd hm

theorem Appended.storedWith (hap : Appended log d mem out) (hQ : QuietFact Q)
    (hnew : ∀ log₁ p r, (baseRec log₁ d).SameContent r → Q p r []) (h : log.StoredWith Q) :
    out.2.StoredWith Q := by
  cases hap with
  | refused _ ht _ => exact ht.rooms.quiets.storedWith hw hQ h
  | @committed _ log₁ _ _ ht₀ _ ht₁ hready hc =>
    have hr := Trims.rooms (ht₀.trans ht₁)
    exact commit_storedWith (hr.wf hw) hready hc hQ (hnew log₁) (hr.quiets.storedWith hw hQ h)

theorem Chunked.storedWith {chunk : Option Rcbuf} (hch : Chunked log gid sid oid chunk out)
    (hQ : QuietFact Q)
    (hchunk : ∀ buf log₁, chunk = some buf → Rooms gid log log₁ → ChunkFact Q log₁ buf)
    (h : log.StoredWith Q) : out.2.StoredWith Q := by
  cases hch with
  | refused _ hr => exact hr.quiets.storedWith hw hQ h
  | empty _ => exact h
  | linked hr _ hres hlen _ hc =>
    exact commitChunk_storedWith (hr.wf hw) hres hlen hc (hchunk _ _ rfl hr)
      (hr.quiets.storedWith hw hQ h)

/-- **One call** keeps a fact that quiet moves keep, that the record it commits has with no chain,
and that every record keeps when it links its chunk. -/
theorem step_storedWith (op : LogOp) (hQ : QuietFact Q)
    (hnew : ∀ d mem, op = .append d mem ∨ op = .openRecord d mem →
      ∀ log₁ p r, (baseRec log₁ d).SameContent r → Q p r [])
    (hchunk : ∀ gid sid oid buf log₁, op = .appendChunk gid sid oid (some buf) →
      Rooms gid log log₁ → ChunkFact Q log₁ buf)
    (h : log.StoredWith Q) : (log.step op).StoredWith Q := by
  cases hc : op.isCursor with
  | true =>
    obtain ⟨c, n, heq⟩ := step_cursor hw hc
    obtain ⟨free, chain, hs, hall⟩ := h
    rw [heq]
    exact ⟨free, chain, { hs with }, hall⟩
  | false =>
    cases ha : op.admits with
    | false => exact (step_quiets hc ha).storedWith hw hQ h
    | true =>
      cases op <;> simp only [LogOp.admits, Bool.false_eq_true] at ha
      case append d mem => exact (append_spec hw d mem).storedWith hw hQ (hnew d mem (.inl rfl)) h
      case openRecord d mem =>
        exact (openRecord_spec hw d mem).storedWith hw hQ (hnew d mem (.inr rfl)) h
      case appendChunk gid sid oid chunk =>
        exact (appendChunk_spec hw gid sid oid chunk).storedWith hw hQ
          (fun buf log₁ hb => hchunk gid sid oid buf log₁ (by rw [← hb])) h

end StoredWith

/-- A log without records has any fact. -/
theorem StoredWith.create {Q : ChunkPool → Rec → List ℕ → Prop} {cfg : LogCfg} {ok : Bool}
    (h : Log.create cfg ok = .ok log) : log.StoredWith Q := by
  obtain ⟨lim, -, rfl⟩ := create_eq_ok h
  exact ⟨_, _, Stored.fresh lim, fun r hr => absurd hr not_mem_nil⟩

/-- **In every reachable log the storage is in order.** -/
theorem Reachable.stored (h : Reachable log) : ∃ free chain, log.Stored free chain := by
  obtain ⟨cfg, mem, log₀, ops, hc, rfl⟩ := h
  obtain ⟨-, free, chain, h, -⟩ := run_induct (P := fun _ _ => True)
    (I := fun log => log.Wf ∧ log.StoredWith fun _ _ _ => True)
    (fun log op hi _ => ⟨step_wf hi.1 op, step_storedWith hi.1 op
    (fun _ _ _ _ _ _ _ _ _ _ => trivial)
      (fun _ _ _ _ _ _ _ => trivial) (fun _ _ _ _ _ _ _ _ _ _ _ _ _ _ _ _ _ => trivial) hi.2⟩)
    ops _ ⟨create_wf hc, StoredWith.create hc⟩ (.of_forall (fun _ _ => trivial) ops _)
  exact ⟨free, chain, h⟩

end Log

end MoqRelay
