import MoqRelay.Lib.Agree
import MoqRelay.Lib.Machine
import MoqRelay.Log.Stored

/-!
# Log/Duplicate — a copy of a retained object

`moqr_log_duplicate` classifies a whole copy of an object against the record retained at its
Location, and `moqr_log_duplicate_range` a part of a streamed one.  Both walk the record's chunks
with an offset into each.

What a copy can see of a record is its `Held`: the metadata, the length and the bytes, with no trace
of how these were cut.  The walk compares with these bytes (`compareFrom_eq`), so the two answers
are functions of the `Held` alone (`duplicate_eq`, `duplicateRange_eq`), and a range can be checked
in pieces (`Held.compare_append`).
-/

namespace MoqRelay

open List

/-- `MOQR_LOG_DUP_*`. -/
inductive Dup
  | none | identical | differs | update | pending | unverified
  deriving DecidableEq, Repr

/-- `moq_rcbuf_data`, as far as `moq_rcbuf_len` reaches. -/
def rcbufData : Option Rcbuf → Bytes
  | .none => []
  | some b => b.data

theorem length_rcbufData (b : Option Rcbuf) : (rcbufData b).length = (rcbufLen b).toNat := by
  cases b with
  | none => rfl
  | some b => exact b.length_eq

/-- `log_rec_at`: the subgroup lists in their order, then the datagrams. -/
def Group.logRecAt (g : Group) (oid : ℕ) : Option Rec := g.recs.find? fun r => r.objectId = oid

/-- The bytes of a record are its payload, not chunks. -/
def Rec.IsWhole (r : Rec) : Prop := r.chunkCount = 0 ∧ r.objState ≠ .open

instance (r : Rec) : Decidable r.IsWhole := inferInstanceAs (Decidable (_ ∧ _))

/-- `log_rec_len`. -/
def Rec.logRecLen (r : Rec) : UInt64 :=
  if 0 < r.chunkCount ∨ r.objState = .open then r.declaredLen else rcbufLen r.payload

/-! ## The walk over the chunks -/

namespace ChunkPool

/-- The loop of `log_rec_compare`: the current chunk is at payload offset `pos`, and `done` bytes of
`data` are compared.  `n` bounds the chunks there are. -/
def compareFrom (p : ChunkPool) (offset : ℕ) (data : Bytes) : ℕ → Option ℕ → ℕ → ℕ → Agreement
  | n + 1, some i, pos, done =>
    if done < data.length then
      let stop := (pos + (p.len i).toNat) % 2 ^ 64
      let want := (offset + done) % 2 ^ 64
      if want < stop then
        let start := u64Sub want pos
        let count := min (stop - want) (data.length - done)
        if ((rcbufData (p.nodes i).buf).drop start).take count = (data.drop done).take count then
          compareFrom p offset data n (p.next i) stop (done + count)
        else .differs
      else compareFrom p offset data n (p.next i) stop done
    else if done = data.length then .equal
    else .unknown
  | _, _, _, done => if done = data.length then .equal else .unknown

/-- The nodes met from a head. -/
def walk (p : ChunkPool) : ℕ → Option ℕ → List ℕ
  | n + 1, some i => i :: walk p n (p.next i)
  | _, _ => []

/-- The bytes of some nodes. -/
def bytesOf (p : ChunkPool) (l : List ℕ) : Bytes := l.flatMap fun i => rcbufData (p.nodes i).buf

/-- Every node has a buffer of its length. -/
def Backed (p : ChunkPool) (l : List ℕ) : Prop :=
  ∀ i ∈ l, (rcbufData (p.nodes i).buf).length = (p.len i).toNat

variable {p p' : ChunkPool} {l : List ℕ}

theorem walk_eq {n : ℕ} {head : Option ℕ} (h : Chain p.next head l) (hn : l.length ≤ n) :
    p.walk n head = l := by
  induction l generalizing n head with
  | nil =>
    obtain rfl : head = none := h
    cases n <;> rfl
  | cons i l ih =>
    obtain ⟨rfl, hrest⟩ := h
    obtain ⟨m, rfl⟩ : ∃ m, n = m + 1 := ⟨n - 1, by rw [length_cons] at hn; omega⟩
    rw [walk, ih hrest (by simpa using hn)]

/-- **The walk compares with the bytes of the chunks**, from the wanted place on, when no position
wraps. -/
theorem compareFrom_eq {offset : ℕ} {data : Bytes} (hdata : offset + data.length < 2 ^ 64)
    {n pos done : ℕ} {head : Option ℕ} (h : Chain p.next head l) (hn : l.length ≤ n)
    (hbuf : p.Backed l) (hfit : pos + (p.bytesOf l).length < 2 ^ 64) (hdone : done ≤ data.length)
    (hpos : done < data.length → pos ≤ offset + done) :
    p.compareFrom offset data n head pos done
      = agree ((p.bytesOf l).drop (offset + done - pos)) (data.drop done) := by
  have hend : ∀ (k : ℕ) (held : Bytes), k = data.length → agree held (data.drop k) = .equal :=
    fun k held hk => by rw [drop_of_length_le hk.ge, agree_nil_right]
  induction l generalizing n pos done head with
  | nil =>
    obtain rfl : head = none := h
    have hrest : data.drop done = [] ↔ done = data.length := by
      rw [drop_eq_nil_iff]
      omega
    cases n <;> simp [compareFrom, bytesOf, agree_nil_left, hrest]
  | cons i l ih =>
    obtain ⟨rfl, hrest⟩ := h
    obtain ⟨m, rfl⟩ : ∃ m, n = m + 1 := ⟨n - 1, by rw [length_cons] at hn; omega⟩
    obtain ⟨hi, hbuf'⟩ := forall_mem_cons.mp hbuf
    have hbytes : p.bytesOf (i :: l) = rcbufData (p.nodes i).buf ++ p.bytesOf l := rfl
    rw [hbytes, length_append] at hfit
    rw [hbytes]
    unfold compareFrom
    by_cases hlt : done < data.length
    · have hstop : (pos + (p.len i).toNat) % 2 ^ 64 = pos + (p.len i).toNat :=
        Nat.mod_eq_of_lt (by omega)
      have hwant : (offset + done) % 2 ^ 64 = offset + done := Nat.mod_eq_of_lt (by omega)
      have hstart : u64Sub (offset + done) pos = offset + done - pos := by
        unfold u64Sub
        omega
      rw [if_pos hlt, hstop, hwant]
      dsimp only
      rw [hstart]
      by_cases hin : offset + done < pos + (p.len i).toNat
      · -- The wanted place is in this chunk: the step takes what the chunk and the data share.
        have hleft : pos + (p.len i).toNat - (offset + done)
            = (rcbufData (p.nodes i).buf).length - (offset + done - pos) := by omega
        rw [if_pos hin, agree_segment _ _ _ (by omega), length_drop, hleft, drop_drop]
        set count := min ((rcbufData (p.nodes i).buf).length - (offset + done - pos))
          (data.length - done) with hcount
        rw [ih hrest (by simpa using hn) hbuf' (by omega) (by omega) (by omega)]
        by_cases hd : done + count = data.length
        · rw [hend _ _ hd, hend _ _ hd]
        · have hzero : offset + (done + count) - (pos + (p.len i).toNat) = 0 := by omega
          rw [hzero, drop_zero]
      · -- The chunk ends before the wanted place.
        have hskip : (rcbufData (p.nodes i).buf).drop (offset + done - pos) = [] :=
          drop_of_length_le (by omega)
        rw [if_neg hin, ih hrest (by simpa using hn) hbuf' (by omega) hdone (fun _ => by omega),
          drop_append, hskip, nil_append, hi, Nat.sub_add_eq]
    · have hd : done = data.length := by omega
      rw [if_neg hlt, if_pos hd, hend _ _ hd]

/-- **Every move keeps the buffers.** -/
theorem Backed.move {b : Option Rcbuf} {r r' : Rec} {l' : List ℕ} (h : p.Backed l)
    (hm : r.Move b p p' l r' l') : p'.Backed l' := by
  cases hm with
  | kept _ _ _ _ hp =>
    intro i hi
    rw [len, hp i hi]
    exact h i hi
  | abandoned _ _ => exact fun i hi => absurd hi not_mem_nil
  | @grown node buf _ _ _ hnode _ hp =>
    intro i hi
    rw [len, hp, (link_chunk ..).1, (link_chunk ..).2]
    by_cases hin : i = node
    · rw [if_pos hin, if_pos hin]
      exact buf.length_eq
    · rw [if_neg hin, if_neg hin]
      exact h i ((mem_append.mp hi).resolve_right (by simpa using hin))

end ChunkPool

/-! ## The two checks -/

namespace Log

variable {log : Log} {gid sid oid offset : ℕ} {r : Rec}

/-- `log_rec_compare`. -/
def recCompare (log : Log) (r : Rec) (offset : ℕ) (data : Bytes) : Agreement :=
  if r.logRecLen.toNat < offset ∨ r.logRecLen.toNat - offset < data.length then .differs
  else if r.IsWhole then
    if data.length = 0 then .equal
    else if ((rcbufData r.payload).drop offset).take data.length = data then .equal
    else .differs
  else log.pool.compareFrom offset data log.lim.maxChunkNodes r.chunkHead 0 0

/-- `moqr_log_duplicate`. -/
def duplicate (log : Log) (d : AppendDesc) : Dup :=
  if d.structSize < 80 then .none
  else match log.groupFind d.groupId with
    | none => .none
    | some g => match g.logRecAt d.objectId with
      | none => .none
      | some r =>
        if r.objState = .abandoned then .none
        else if r.datagramPref ≠ d.datagramPref ∨
            (¬ d.datagramPref ∧ r.subgroupId ≠ d.subgroupId) ∨
            r.publisherPriority ≠ d.publisherPriority then .differs
        else if r.status = .normal ∧ (d.status = .endOfGroup ∨ d.status = .endOfTrack) then .update
        else if r.status ≠ d.status then .differs
        else if d.objState = .open then
          if d.declaredLen = r.logRecLen then .pending else .differs
        else if rcbufLen d.payload ≠ r.logRecLen then .differs
        else if rcbufLen d.payload = 0 then .identical
        else match log.recCompare r 0 (rcbufData d.payload) with
          | .equal => .identical
          | .differs => .differs
          | .unknown => .unverified

/-- `moqr_log_duplicate_range`. -/
def duplicateRange (log : Log) (gid sid oid offset : ℕ) (data : Bytes) : Agreement :=
  match (log.groupFind gid).bind fun g => g.logRecAt oid with
  | none => .unknown
  | some r =>
    if r.objState = .abandoned then .unknown
    else if r.datagramPref ∨ r.subgroupId ≠ sid then .differs
    else log.recCompare r offset data

end Log

/-! ## What a copy can see -/

/-- **A retained record as a copy sees it**: its bytes in order, with no trace of how they were
cut. -/
structure Held where
  datagramPref : Bool
  (subgroupId publisherPriority : ℕ)
  status : ObjStatus
  abandoned : Bool
  len : ℕ
  bytes : Bytes
  deriving DecidableEq, Repr

namespace Held

variable (h : Held) (d : AppendDesc) (sid offset : ℕ) (data : Bytes)

/-- The delivery mode, the subgroup and the priority agree. -/
def SameMode : Prop :=
  h.datagramPref = d.datagramPref ∧ (d.datagramPref = false → h.subgroupId = d.subgroupId) ∧
    h.publisherPriority = d.publisherPriority

/-- The metadata agree. -/
def Matches : Prop := h.SameMode d ∧ h.status = d.status

/-- The copy says that the object does not exist any more. -/
def UpdatedBy : Prop :=
  h.SameMode d ∧ h.status = .normal ∧ (d.status = .endOfGroup ∨ d.status = .endOfTrack)

instance : Decidable (h.SameMode d) := inferInstanceAs (Decidable (_ ∧ _))

instance : Decidable (h.Matches d) := inferInstanceAs (Decidable (_ ∧ _))

instance : Decidable (h.UpdatedBy d) := inferInstanceAs (Decidable (_ ∧ _))

/-- The bytes of a part of a copy against the held ones. -/
def compare : Agreement :=
  if h.len < offset + data.length then .differs else agree (h.bytes.drop offset) data

/-- A part of a streamed copy. -/
def range : Agreement :=
  if h.abandoned then .unknown
  else if h.datagramPref ∨ h.subgroupId ≠ sid then .differs
  else h.compare offset data

/-- A whole copy, or the announcement of a streamed one. -/
def classify : Dup :=
  if h.abandoned then .none
  else if h.UpdatedBy d then .update
  else if ¬ h.Matches d then .differs
  else if d.objState = .open then if d.declaredLen.toNat = h.len then .pending else .differs
  else if (rcbufData d.payload).length ≠ h.len then .differs
  else match agree h.bytes (rcbufData d.payload) with
    | .equal => .identical
    | .differs => .differs
    | .unknown => .unverified

/-- Every byte is held and the same, and the list is the record's. -/
def EqualAt : Prop :=
  (h.datagramPref = false ∧ h.subgroupId = sid) ∧ offset + data.length ≤ h.len ∧
    data <+: h.bytes.drop offset

/-- A held byte is another one, or the list is, or the part runs past the length. -/
def DiffersAt : Prop :=
  ¬ (h.datagramPref = false ∧ h.subgroupId = sid) ∨ h.len < offset + data.length ∨
    ∃ (k : ℕ) (a b : UInt8), h.bytes[offset + k]? = some a ∧ data[k]? = some b ∧ a ≠ b

/-- The metadata and the length agree, and every byte is held and the same. -/
def EqualTo : Prop :=
  h.Matches d ∧ (rcbufData d.payload).length = h.len ∧ rcbufData d.payload <+: h.bytes

/-- The metadata or the length differ, or a held byte does. -/
def DiffersFrom : Prop :=
  ¬ h.Matches d ∨ (rcbufData d.payload).length ≠ h.len ∨
    ∃ (k : ℕ) (a b : UInt8), h.bytes[k]? = some a ∧ (rcbufData d.payload)[k]? = some b ∧ a ≠ b

variable {h d sid offset data}

/-- **A part can be compared in pieces.** -/
theorem compare_append (xs ys : Bytes) :
    h.compare offset (xs ++ ys) = (h.compare offset xs).both
      (h.compare (offset + xs.length) ys) := by
  unfold compare
  rw [length_append, ← add_assoc, agree_append, drop_drop]
  by_cases hxs : h.len < offset + xs.length
  · rw [if_pos (by omega), if_pos hxs]
    rfl
  · split
    · cases agree (h.bytes.drop offset) xs <;> rfl
    · rfl

theorem range_append (offset : ℕ) (xs ys : Bytes) :
    h.range sid offset (xs ++ ys)
      = (h.range sid offset xs).both (h.range sid (offset + xs.length) ys) := by
  unfold range
  split_ifs
  · rfl
  · rfl
  · exact compare_append xs ys

variable (ha : h.abandoned = false)
include ha

theorem range_eq_equal_iff : h.range sid offset data = .equal ↔ h.EqualAt sid offset data := by
  unfold range EqualAt compare
  rw [ha, if_neg Bool.false_ne_true]
  split_ifs with hlist hlen
  · simp only [false_iff]
    rintro ⟨⟨hdg, hsid⟩, -⟩
    rcases hlist with h | h
    · exact absurd (hdg.symm.trans h) Bool.false_ne_true
    · exact h hsid
  · simp only [false_iff]
    omega
  · rw [agree_eq_equal_iff]
    simp only [not_or, Bool.not_eq_true, not_not] at hlist
    exact ⟨fun hp => ⟨hlist, by omega, hp⟩, fun hp => hp.2.2⟩

theorem range_eq_differs_iff :
    h.range sid offset data = .differs ↔ h.DiffersAt sid offset data := by
  unfold range DiffersAt compare
  rw [ha, if_neg Bool.false_ne_true]
  split_ifs with hlist hlen
  · refine iff_of_true rfl (.inl fun hl => ?_)
    rcases hlist with h | h
    · exact absurd (hl.1.symm.trans h) Bool.false_ne_true
    · exact h hl.2
  · exact iff_of_true rfl (.inr (.inl hlen))
  · rw [agree_eq_differs_iff]
    simp only [not_or, Bool.not_eq_true, not_not] at hlist
    simp only [getElem?_drop, hlist, hlen, and_self, not_true_eq_false, false_or]

/-- **A whole copy** that is no update: identical, different, or neither to be told. -/
theorem classify_iff (hu : ¬ h.UpdatedBy d) (ho : d.objState ≠ .open) :
    (h.classify d = .identical ↔ h.EqualTo d) ∧ (h.classify d = .differs ↔ h.DiffersFrom d) ∧
      (h.classify d = .unverified ↔ ¬ h.EqualTo d ∧ ¬ h.DiffersFrom d) := by
  unfold classify EqualTo DiffersFrom
  rw [ha, if_neg hu, if_neg ho, ← agree_eq_equal_iff, ← agree_eq_differs_iff]
  by_cases hm : h.Matches d
  · by_cases hlen : (rcbufData d.payload).length = h.len
    · cases agree h.bytes (rcbufData d.payload) <;> simp [hm, hlen]
    · simp [hm, hlen]
  · simp [hm]

end Held

/-! ## The checks see no more -/

namespace Log

variable {log log' : Log} {gid sid oid offset : ℕ} {r : Rec}

/-- The bytes a record stores. -/
def storedBytes (log : Log) (r : Rec) : Bytes :=
  if r.IsWhole then rcbufData r.payload
  else log.pool.bytesOf (log.pool.walk log.lim.maxChunkNodes r.chunkHead)

/-- What a copy can see of a record. -/
def held (log : Log) (r : Rec) : Held where
  datagramPref := r.datagramPref
  subgroupId := r.subgroupId
  publisherPriority := r.publisherPriority
  status := r.status
  abandoned := r.objState = .abandoned
  len := r.logRecLen.toNat
  bytes := log.storedBytes r

/-- What a copy can see at a Location. -/
def heldAt (log : Log) (gid oid : ℕ) : Option Held :=
  ((log.groupFind gid).bind fun g => g.logRecAt oid).map log.held

section

variable (hreach : log.Reachable)
include hreach

theorem Reachable.backed : log.StoredWith fun p _ l => p.Backed l := by
  obtain ⟨cfg, ok, log₀, ops, hc, rfl⟩ := hreach
  refine (run_induct (P := fun _ _ => True)
    (I := fun log => log.Wf ∧ log.StoredWith fun p _ l => p.Backed l) (fun log op hi _ => ?_) ops _
    ⟨create_wf hc, .create hc⟩ (.of_forall (fun _ _ => trivial) ops _)).2
  refine ⟨step_wf hi.1 op, step_storedWith hi.1 op (fun _ _ _ _ _ _ _ hb _ hm =>
    hb.move hm) ?_ ?_ hi.2⟩
  · exact fun _ _ _ _ _ _ _ i hi => absurd hi not_mem_nil
  · exact fun _ _ _ _ _ _ _ _ _ _ _ _ _ hb _ _ hm => hb.move hm

/-- **A comparison with a record is one with its bytes.** -/
theorem recCompare_eq (hr : r ∈ log.allRecs)
    (hfit : (log.storedBytes r).length < 2 ^ 64) (offset : ℕ) (data : Bytes) :
    log.recCompare r offset data = (log.held r).compare offset data := by
  have hout : (r.logRecLen.toNat < offset ∨ r.logRecLen.toNat - offset < data.length) ↔
      r.logRecLen.toNat < offset + data.length := by omega
  unfold recCompare Held.compare held
  simp only [hout]
  by_cases hlen : r.logRecLen.toNat < offset + data.length
  · rw [if_pos hlen, if_pos hlen]
  by_cases hw : r.IsWhole
  · have hpay : r.logRecLen = rcbufLen r.payload := by
      unfold Rec.logRecLen
      rw [if_neg (by rw [hw.1]; simpa using hw.2)]
    rw [hpay, ← length_rcbufData] at hlen
    rw [if_pos hw, storedBytes, if_pos hw,
      agree_split (n := data.length) (by rw [length_drop]; omega) le_rfl, take_length,
      drop_of_length_le le_rfl, agree_nil_right]
    by_cases hnil : data.length = 0
    · rw [length_eq_zero_iff.mp hnil]
      simp
    · rw [if_neg hnil]
  · obtain ⟨free, chain, hs, hall⟩ := hreach.backed
    have hchain := (hs.stores r hr).chain
    have hle := (Nat.le_add_right _ _).trans (hs.length_le (mem_map_of_mem hr))
    have hwalk := ChunkPool.walk_eq hchain hle
    rw [storedBytes, if_neg hw, hwalk] at hfit
    have hlt := r.logRecLen.toNat_lt
    rw [if_neg hw, storedBytes, if_neg hw, hwalk, ChunkPool.compareFrom_eq (by omega) hchain hle
      (hall r hr) (by omega) (Nat.zero_le _) (fun _ => Nat.zero_le _)]
    rfl

theorem heldAt_eq_some {h : Held} (hat : log.heldAt gid oid = some h) :
    ∃ g r, log.groupFind gid = some g ∧ g.logRecAt oid = some r ∧ r ∈ log.allRecs ∧
      log.held r = h := by
  obtain ⟨r, hr, rfl⟩ := Option.map_eq_some_iff.mp hat
  obtain ⟨g, hg, hr⟩ := Option.bind_eq_some_iff.mp hr
  have hmem := ((groupFind_eq_some_iff hreach.wf.sorted).mp hg).1
  exact ⟨g, r, hg, hr, mem_flatMap.mpr ⟨g, hmem, mem_of_find?_eq_some hr⟩, rfl⟩

/-- **The check of a part** is a function of what a copy can see. -/
theorem duplicateRange_eq {h : Held} (hat : log.heldAt gid oid = some h)
    (hfit : h.bytes.length < 2 ^ 64) (sid offset : ℕ) (data : Bytes) :
    log.duplicateRange gid sid oid offset data = h.range sid offset data := by
  obtain ⟨g, r, hg, hr, hmem, rfl⟩ := heldAt_eq_some hreach hat
  unfold duplicateRange Held.range
  rw [hg, Option.bind_some, hr, ← recCompare_eq hreach hmem hfit]
  by_cases ha : r.objState = .abandoned
  · simp [held, ha]
  · have hkept : (log.held r).abandoned = false := by simp [held, ha]
    rw [hkept]
    exact if_neg ha

/-- **The check of a copy** is a function of what the copy can see. -/
theorem duplicate_eq {d : AppendDesc} {h : Held}
    (hat : log.heldAt d.groupId d.objectId = some h) (hfit : h.bytes.length < 2 ^ 64) :
    log.duplicate d = if d.structSize < 80 then .none else h.classify d := by
  obtain ⟨g, r, hg, hr, hmem, rfl⟩ := heldAt_eq_some hreach hat
  unfold duplicate
  rw [hg]
  dsimp only
  rw [hr]
  dsimp only
  congr 1
  have hmode : (r.datagramPref ≠ d.datagramPref ∨
      (¬ d.datagramPref ∧ r.subgroupId ≠ d.subgroupId) ∨
      r.publisherPriority ≠ d.publisherPriority) ↔ ¬ (log.held r).SameMode d := by
    simp only [Held.SameMode, held, Bool.not_eq_true]
    tauto
  unfold Held.classify
  by_cases ha : r.objState = .abandoned
  · have hgone : (log.held r).abandoned := by simp [held, ha]
    rw [if_pos ha, if_pos hgone]
  have hkept : ¬ (log.held r).abandoned := by simp [held, ha]
  rw [if_neg ha, if_neg hkept]
  by_cases hs : (log.held r).SameMode d
  swap
  · have hstays : ¬ (log.held r).UpdatedBy d := fun hu => hs hu.1
    have hother : ¬ (log.held r).Matches d := fun hm => hs hm.1
    rw [if_pos (hmode.mpr hs), if_neg hstays, if_pos hother]
  rw [if_neg (mt hmode.mp (not_not.mpr hs))]
  by_cases hu : r.status = .normal ∧ (d.status = .endOfGroup ∨ d.status = .endOfTrack)
  · rw [if_pos hu, if_pos ⟨hs, hu⟩]
  have hstays : ¬ (log.held r).UpdatedBy d := fun h => hu h.2
  rw [if_neg hu, if_neg hstays]
  by_cases hst : r.status = d.status
  swap
  · have hother : ¬ (log.held r).Matches d := fun hm => hst hm.2
    rw [if_pos hst, if_pos hother]
  have hm : (log.held r).Matches d := ⟨hs, hst⟩
  rw [if_neg (not_not.mpr hst), if_neg (not_not.mpr hm)]
  by_cases ho : d.objState = .open
  · rw [if_pos ho, if_pos ho]
    simp only [held, UInt64.toNat_inj]
  rw [if_neg ho, if_neg ho]
  have hlength : (rcbufData d.payload).length = (log.held r).len ↔
      rcbufLen d.payload = r.logRecLen := by
    rw [length_rcbufData]
    exact UInt64.toNat_inj
  by_cases hlen : rcbufLen d.payload = r.logRecLen
  swap
  · rw [if_pos hlen, if_pos (mt hlength.mp hlen)]
  rw [if_neg (not_not.mpr hlen), if_neg (not_not.mpr (hlength.mpr hlen))]
  have hcompare : log.recCompare r 0 (rcbufData d.payload)
      = agree (log.held r).bytes (rcbufData d.payload) := by
    rw [recCompare_eq hreach hmem hfit, Held.compare, if_neg (by rw [hlength.mpr hlen]; omega),
      drop_zero]
  rw [hcompare]
  split
  · rename_i hzero
    have hnil : rcbufData d.payload = [] := by
      rw [← length_eq_zero_iff, length_rcbufData, hzero]
      rfl
    rw [hnil, agree_nil_right]
  · rfl

end

/-- **What the two checks answer.**  They are functions of what a copy can see of the record,
however its bytes were cut, and a range can be checked in pieces.  Of a record that was not
abandoned, a part is equal when all of it is held and the same, different when a held byte or the
list differ or it runs past the length, and unknown otherwise; and so is a whole copy, whose
metadata and length count, unless it says that the object does not exist any more. -/
theorem duplicate_by_bytes (log : Log) (hreach : log.Reachable) (gid oid : ℕ) (h : Held)
    (hat : log.heldAt gid oid = some h) (hfit : h.bytes.length < 2 ^ 64) :
    (∀ log' : Log, log'.Reachable → log'.heldAt gid oid = some h →
      (∀ sid offset data, log'.duplicateRange gid sid oid offset data
        = log.duplicateRange gid sid oid offset data) ∧
      ∀ d : AppendDesc, d.groupId = gid → d.objectId = oid → log'.duplicate d = log.duplicate d) ∧
    (∀ (sid offset : ℕ) (ps : List Bytes), ps ≠ [] →
      (log.duplicateRange gid sid oid offset ps.flatten = .differs ↔
        .differs ∈ pieces (log.duplicateRange gid sid oid) offset ps) ∧
      (log.duplicateRange gid sid oid offset ps.flatten = .equal ↔
        ∀ a ∈ pieces (log.duplicateRange gid sid oid) offset ps, a = .equal)) ∧
    (h.abandoned = false →
      (∀ sid offset data,
        (log.duplicateRange gid sid oid offset data = .equal ↔ h.EqualAt sid offset data) ∧
        (log.duplicateRange gid sid oid offset data = .differs ↔ h.DiffersAt sid offset data) ∧
        (log.duplicateRange gid sid oid offset data = .unknown ↔
          ¬ h.EqualAt sid offset data ∧ ¬ h.DiffersAt sid offset data)) ∧
      ∀ d : AppendDesc, d.groupId = gid → d.objectId = oid → 80 ≤ d.structSize →
        (h.UpdatedBy d → log.duplicate d = .update) ∧
        (¬ h.UpdatedBy d → d.objState = .open →
          log.duplicate d = if h.Matches d ∧ d.declaredLen.toNat = h.len then .pending
            else .differs) ∧
        (¬ h.UpdatedBy d → d.objState ≠ .open →
          (log.duplicate d = .identical ↔ h.EqualTo d) ∧
          (log.duplicate d = .differs ↔ h.DiffersFrom d) ∧
          (log.duplicate d = .unverified ↔ ¬ h.EqualTo d ∧ ¬ h.DiffersFrom d))) ∧
    (h.abandoned →
      (∀ sid offset data, log.duplicateRange gid sid oid offset data = .unknown) ∧
      ∀ d : AppendDesc, d.groupId = gid → d.objectId = oid → log.duplicate d = .none) := by
  have hrange := duplicateRange_eq hreach hat hfit
  refine ⟨fun log' hreach' hat' => ⟨fun sid offset data => ?_, ?_⟩, fun sid offset ps hps => ?_,
    fun ha => ⟨fun sid offset data => ?_, ?_⟩, fun ha => ⟨fun sid offset data => ?_, ?_⟩⟩
  · rw [hrange, duplicateRange_eq hreach' hat' hfit]
  · rintro d rfl rfl
    rw [duplicate_eq hreach hat hfit, duplicate_eq hreach' hat' hfit]
  · refine pieces_iff (fun offset xs ys => ?_) hps offset
    simp only [hrange]
    exact Held.range_append offset xs ys
  · rw [Agreement.eq_unknown_iff, hrange, ← Held.range_eq_equal_iff ha,
      ← Held.range_eq_differs_iff ha]
    exact ⟨Iff.rfl, Iff.rfl, Iff.rfl⟩
  · rintro d rfl rfl hsize
    rw [duplicate_eq hreach hat hfit, if_neg (by omega)]
    refine ⟨fun hu => ?_, fun hu ho => ?_, fun hu ho => ?_⟩
    · rw [Held.classify, ha, if_neg Bool.false_ne_true, if_pos hu]
    · rw [Held.classify, ha, if_neg hu, if_pos ho]
      by_cases hm : h.Matches d <;> simp [hm]
    · exact Held.classify_iff ha hu ho
  · rw [hrange, Held.range, if_pos ha]
  · rintro d rfl rfl
    rw [duplicate_eq hreach hat hfit, Held.classify, if_pos ha, ite_self]

/-- A record of four bytes of which three are there, in two chunks. -/
def partLog : Log := smallLog.run [.openRecord (openDesc 1 4) ⟨true, true, true⟩,
  .appendChunk 1 0 0 (some (zeroBuf 2)), .appendChunk 1 0 0 (some (zeroBuf 1))]

theorem duplicate_by_bytes_small :
    partLog.heldAt 1 0 = some ⟨false, 0, 0, .normal, false, 4, [0, 0, 0]⟩ ∧
      partLog.duplicateRange 1 0 0 1 [0, 0] = .equal ∧
      partLog.duplicate (payloadDesc 1 4) = .unverified := by
  have hat : partLog.heldAt 1 0 = some ⟨false, 0, 0, .normal, false, 4, [0, 0, 0]⟩ := by
    decide +kernel
  obtain ⟨-, -, hkept, -⟩ := duplicate_by_bytes partLog (smallLog_reachable _) 1 0 _ hat (by decide)
  obtain ⟨hrange, hwhole⟩ := hkept rfl
  refine ⟨hat, (hrange 0 1 [0, 0]).1.mpr ⟨⟨rfl, rfl⟩, by decide, by decide⟩, ?_⟩
  obtain ⟨-, -, hcopy⟩ := hwhole (payloadDesc 1 4) rfl rfl (by decide)
  have hu : ¬ (⟨false, 0, 0, .normal, false, 4, [0, 0, 0]⟩ : Held).UpdatedBy (payloadDesc 1 4) := by
    decide +kernel
  refine (hcopy hu (by decide)).2.2.mpr ⟨fun he => ?_, fun hd => ?_⟩
  · exact absurd he.2.2.length_le (by decide)
  · rcases hd with hm | hlen | ⟨k, a, b, ha, hb, hne⟩
    · exact hm ⟨⟨rfl, fun _ => rfl, rfl⟩, rfl⟩
    · exact hlen rfl
    · have ha' : a = 0 := eq_of_mem_replicate (n := 3) (mem_of_getElem? ha)
      have hb' : b = 0 := eq_of_mem_replicate (n := 4) (mem_of_getElem? hb)
      exact hne (ha'.trans hb'.symm)

/-- **Answers that are none of the three.**  A copy that ends the group at the place of a retained
object is an update, although the status differs; a shorter copy differs, although all of its bytes
are held and the same; and for an abandoned record every answer is that there is nothing to
compare. -/
theorem copy_with_other_answer :
    (smallLog.append (payloadDesc 1 3) ⟨true, true, true⟩).2.duplicate
        { payloadDesc 1 0 with payload := none, status := .endOfGroup } = .update ∧
      (smallLog.append (payloadDesc 1 3) ⟨true, true, true⟩).2.duplicate (payloadDesc 1 2)
        = .differs ∧
      (partLog.abandonRecord 1 0 0 resetDescNone).2.duplicate
        { payloadDesc 1 4 with publisherPriority := 7 } = .none ∧
      (partLog.abandonRecord 1 0 0 resetDescNone).2.duplicateRange 1 5 0 9 [1] = .unknown := by
  decide +kernel

end Log

end MoqRelay
