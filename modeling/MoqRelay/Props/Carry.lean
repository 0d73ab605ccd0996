import MoqRelay.Props.Convert

/-!
# Props/Carry — what the conversion of a property block achieves

A block *is* the list of its entries (`entries`), and its meaning the list of pairs they hold.  The
measuring pass reads exactly those entries and the writing pass writes them one behind the other
(`pass_eq`), so the three results and the bytes of the output can be told from the entries alone.
-/

namespace MoqRelay

open List

namespace Props

/-! ## The codec as an integer code -/

/-- The integer code of a codec. -/
def code (codec : ℕ) : IntCode u64Max := if codec = propsCodecVi64 then vi64 else quicVarint

variable {codec src dst : ℕ} {p q : Bytes} {prev used vl n w : ℕ} {k : Kvp}

theorem codecValid_iff : codecValid codec ↔
    codec = propsCodecQuicVarint ∨ codec = propsCodecVi64 := by
  simp [codecValid]

theorem intRead_eq (codec : ℕ) (p : Bytes) : intRead codec p = (code codec).read p := by
  unfold intRead code
  split
  · rename_i hp
    subst hp
    split <;> rfl
  · split <;> rfl

theorem intLen_eq (h : codecValid codec) (v : ℕ) : intLen codec v = (code codec).len v := by
  rcases codecValid_iff.mp h with rfl | rfl
  · change (if quicVarintMax < v then 0 else quicVarintLen v) = quicVarintLen v
    split
    · rename_i hv
      unfold quicVarintLen
      unfold quicVarintMax at hv ⊢
      rw [if_neg (by omega), if_neg (by omega), if_neg (by omega), if_neg (by omega)]
    · rfl
  · rfl

theorem intWrite_eq (h : codecValid codec) {v cap : ℕ} (hcap : (code codec).len v ≤ cap) :
    intWrite codec v cap = (code codec).write v := by
  rcases codecValid_iff.mp h with rfl | rfl
  iterate 2 exact if_neg (Nat.not_lt.mpr hcap)

/-! ## Reading one entry -/

/-- An entry `k` stands at the front of `p`: its delta in `used` bytes, its value or length in the
next `vl`, and its bytes. -/
structure Reads (c : IntCode u64Max) (p : Bytes) (prev : ℕ) (k : Kvp) (used vl : ℕ) : Prop where
  delta : c.read p = some (k.delta, used)
  type : k.type = prev + k.delta
  type_le : k.delta ≤ u64Max - prev
  second : c.read (p.drop used) = some (k.second, vl)
  even : k.type % 2 = 0 → k.length = 0
  odd : k.type % 2 ≠ 0 → k.value = 0 ∧ k.length ≤ maxLength
  size : k.size = used + vl + k.length
  size_le : k.size ≤ p.length
  bytes : k.bytes = (p.drop (used + vl)).take k.length

variable {c : IntCode u64Max}

theorem Reads.used_pos (h : Reads c p prev k used vl) : 0 < used ∧ 0 < vl :=
  ⟨(c.read_pos h.delta).1, (c.read_pos h.second).1⟩

theorem kvpRead_eq_read_iff :
    kvpRead codec p prev = .read k ↔ ∃ used vl, Reads (code codec) p prev k used vl := by
  constructor
  · intro h
    unfold kvpRead at h
    rw [intRead_eq] at h
    split at h
    · cases h
    cases hd : (code codec).read p with
    | none => simp [hd] at h
    | some x =>
      obtain ⟨delta, used⟩ := x
      simp only [hd] at h
      split at h
      · cases h
      rename_i hle
      rw [intRead_eq] at h
      cases hs : (code codec).read (p.drop used) with
      | none => simp [hs] at h
      | some y =>
        obtain ⟨second, vl⟩ := y
        have hpos' := (code codec).read_pos hs
        rw [length_drop] at hpos'
        simp only [hs] at h
        refine ⟨used, vl, ?_⟩
        split at h
        · rename_i heven
          obtain rfl := KvpRead.read.inj h
          exact ⟨hd, rfl, Nat.not_lt.mp hle, by simpa [Kvp.second, heven] using hs, fun _ => rfl,
            fun hodd => absurd heven hodd, rfl, by dsimp only; omega, by simp⟩
        · rename_i hodd
          split at h
          · cases h
          split at h
          · cases h
          obtain rfl := KvpRead.read.inj h
          exact ⟨hd, rfl, Nat.not_lt.mp hle, by simpa [Kvp.second, hodd] using hs,
            fun heven => absurd heven hodd, fun _ => ⟨rfl, by dsimp only; omega⟩, rfl,
            by dsimp only; omega, rfl⟩
  · rintro ⟨used, vl, h⟩
    have hne : p ≠ [] := by
      rintro rfl
      have := (code codec).read_pos h.delta
      simp at this
      omega
    have hsize := h.size
    have hsle := h.size_le
    unfold kvpRead
    rw [if_neg hne, intRead_eq, h.delta]
    dsimp only
    rw [if_neg (Nat.not_lt.mpr h.type_le), ← h.type]
    by_cases heven : k.type % 2 = 0
    · rw [intRead_eq, h.second]
      have hlen := h.even heven
      have hbytes : k.bytes = [] := by simp [h.bytes, hlen]
      cases k
      simp_all [Kvp.second]
    · obtain ⟨hval, hmax⟩ := h.odd heven
      have hsec : k.second = k.length := if_neg heven
      rw [if_neg heven, intRead_eq, h.second, hsec]
      dsimp only
      rw [if_neg (by omega), if_neg (by omega), ← h.bytes, ← h.size, ← hval]

/-- Reading an entry looks at no byte behind it. -/
theorem Reads.take (h : Reads c p prev k used vl) (q : Bytes) :
    Reads c (p.take k.size ++ q) prev k used vl := by
  have hsize := h.size
  have hsle := h.size_le
  have hdrop : ∀ m ≤ k.size, (p.take k.size ++ q).drop m = (p.drop m).take (k.size - m) ++ q := by
    intro m hm
    rw [drop_append_of_le_length (by simp; omega), drop_take]
  refine ⟨c.read_take_append h.delta (by omega) q, h.type, h.type_le, ?_, h.even, h.odd, h.size,
    by simp; omega, ?_⟩
  · rw [hdrop used (by omega)]
    exact c.read_take_append h.second (by omega) q
  · rw [hdrop (used + vl) (by omega), h.bytes, show k.size - (used + vl) = k.length by omega,
      take_left' (by simp; omega)]

theorem kvpRead_eq_done_iff : kvpRead codec p prev = .done ↔ p = [] := by
  refine ⟨fun h => ?_, fun h => by rw [kvpRead, if_pos h]⟩
  by_contra hne
  unfold kvpRead at h
  rw [if_neg hne] at h
  repeat' split at h
  all_goals cases h

theorem Reads.length_bytes (h : Reads c p prev k used vl) : k.bytes.length = k.length := by
  have := h.size
  have := h.size_le
  rw [h.bytes, length_take, length_drop]
  omega

/-- What was written reads back, whatever follows. -/
theorem reads_write (hd : c.len k.delta ≠ 0) (hs : c.len k.second ≠ 0)
    (hdle : k.delta ≤ u64Max) (hsle : k.second ≤ u64Max) (htype : k.type = prev + k.delta)
    (hle : k.delta ≤ u64Max - prev) (heven : k.type % 2 = 0 → k.length = 0)
    (hodd : k.type % 2 ≠ 0 → k.value = 0 ∧ k.length ≤ maxLength)
    (hbytes : k.bytes.length = k.length)
    (q : Bytes) :
    Reads c (c.write k.delta ++ c.write k.second ++ k.bytes ++ q) prev
      { k with size := c.len k.delta + c.len k.second + k.length } (c.len k.delta)
      (c.len k.second) := by
  have h1 := c.length_write hd
  have h2 := c.length_write hs
  refine ⟨?_, htype, hle, ?_, heven, hodd, rfl, ?_, ?_⟩
  · rw [append_assoc, append_assoc]
    exact c.read_write hdle hd _
  · rw [append_assoc, append_assoc, drop_left' h1]
    exact c.read_write hsle hs _
  · simp only [length_append, h1, h2, hbytes]
    omega
  · rw [append_assoc, drop_left' (by simp [h1, h2]), take_left' hbytes]

/-! ## Blocks -/

/-- A value of a property. -/
inductive Value
  | int (v : ℕ)
  | bytes (b : Bytes)
  deriving DecidableEq, Repr

/-- The pair an entry holds. -/
def Kvp.pair (k : Kvp) : ℕ × Value :=
    (k.type, if k.type % 2 = 0 then .int k.value else .bytes k.bytes)

/-- An entry of a block: the type before it, its bytes as they stand, and what they read as. -/
structure Entry where
  prev : ℕ
  raw : Bytes
  kvp : Kvp
  deriving DecidableEq, Repr

/-- The pair of an entry. -/
def Entry.pair (e : Entry) : ℕ × Value := e.kvp.pair

/-- The entries of a block, read off at most `n` times. -/
def entriesFrom (codec : ℕ) : ℕ → ℕ → Bytes → Option (List Entry)
  | 0, _, _ => none
  | n + 1, prev, p =>
    match kvpRead codec p prev with
    | .malformed => none
    | .done => some []
    | .read k => (entriesFrom codec n k.type (p.drop k.size)).map (⟨prev, p.take k.size, k⟩ :: ·)

/-- **The entries of a block.** -/
def entries (codec : ℕ) (p : Bytes) : Option (List Entry) := entriesFrom codec (p.length + 1) 0 p

/-- Whether an entry is Immutable Properties. -/
def Entry.immutable (e : Entry) : Bool := e.kvp.type = immutableType

/-- A body of Immutable Properties is a block that holds none itself. -/
def bodyValid (codec : ℕ) (b : Bytes) : Bool :=
  (entries codec b).any fun es => es.all fun e => !e.immutable

/-- Whether an entry is valid in its own codec. -/
def Entry.valid (codec : ℕ) (e : Entry) : Bool := !e.immutable || bodyValid codec e.kvp.bytes

/-- The entries of a well-formed block, its Immutable Properties included. -/
def parse (codec : ℕ) (p : Bytes) : Option (List Entry) :=
  (entries codec p).filter fun es => es.all (Entry.valid codec)

/-- Whether a value has a code. -/
def representable (codec v : ℕ) : Bool := codec = propsCodecVi64 || v ≤ quicVarintMax

/-- Two readings of one block that agree: the same pairs, each in the same bytes, and no Immutable
Properties. -/
def alike : Option (List Entry) → Option (List Entry) → Bool
  | some es, some fs =>
    es.map (fun e => (e.raw, e.pair)) = fs.map (fun e => (e.raw, e.pair)) && es.all fun e =>
      !e.immutable
  | _, _ => false

variable {es : List Entry}

theorem alike_some_iff {fs : List Entry} : alike (some es) (some fs) ↔
    es.map (fun e => (e.raw, e.pair)) = fs.map (fun e => (e.raw, e.pair)) ∧
      ∀ e ∈ es, e.immutable = false := by
  rw [alike, Bool.and_eq_true, decide_eq_true_eq, all_eq_true]
  simp

/-- Whether a body reads as the same pairs in both codecs. -/
def readsAlike (b : Bytes) : Bool :=
  alike (entries propsCodecQuicVarint b) (entries propsCodecVi64 b)

/-- Whether the bytes of an entry read as the same pair at the destination. -/
def Entry.rawAlike (dst : ℕ) (e : Entry) : Bool :=
  match kvpRead dst e.raw e.prev with
  | .read d => d.pair = e.pair && d.size = e.raw.length
  | _ => false

/-- **Whether an entry can be carried to the destination**: Immutable Properties as they stand,
header and body; any other entry when its integers have a code. -/
def Entry.supported (dst : ℕ) (e : Entry) : Bool :=
  if e.immutable then e.rawAlike dst && readsAlike e.kvp.bytes
  else representable dst e.kvp.delta && representable dst e.kvp.second

/-- The bytes an entry is carried as. -/
def Entry.out (dst : ℕ) (e : Entry) : Bytes :=
  if e.immutable then e.raw
  else (code dst).write e.kvp.delta ++ (code dst).write e.kvp.second ++ e.kvp.bytes

/-- The bytes the passes count for an entry. -/
def Entry.outSize (dst : ℕ) (e : Entry) : ℕ :=
  if e.immutable then e.kvp.size
  else intLen dst e.kvp.delta + intLen dst e.kvp.second +
    if e.kvp.type % 2 = 0 then 0 else e.kvp.length

/-! ## The loops as functions of the entries -/

theorem blockValidFrom_eq (codec : ℕ) : ∀ n prev p, blockValidFrom codec n prev p =
    (entriesFrom codec n prev p).any fun es => es.all fun e => !e.immutable
  | 0, _, _ => rfl
  | n + 1, prev, p => by
      rw [blockValidFrom, entriesFrom]
      cases kvpRead codec p prev with
      | malformed | done => rfl
      | read k =>
        dsimp only
        rw [blockValidFrom_eq codec n]
        cases entriesFrom codec n k.type (p.drop k.size) with
        | none => simp
        | some es => by_cases hk : k.type = immutableType <;> simp [hk, Entry.immutable]

theorem blockValid_eq (codec : ℕ) (b : Bytes) : blockValid codec b = bodyValid codec b :=
  blockValidFrom_eq codec _ 0 b

theorem Reads.take_size {c' : IntCode u64Max} {a b : Kvp} {pa pb ua ub va vb : ℕ}
    (ha : Reads c p pa a ua va) (hb : Reads c' p pb b ub vb) :
    p.take a.size = p.take b.size ↔ a.size = b.size := by
  rw [take_eq_take_iff, min_eq_left ha.size_le, min_eq_left hb.size_le]

/-- Two entries alike are the same pair in the same bytes. -/
theorem kvpAlike_iff {a b : Kvp} {pa pb ua ub va vb : ℕ}
    (ha : Reads (code propsCodecQuicVarint) p pa a ua va)
    (hb : Reads (code propsCodecVi64) p pb b ub vb) :
    kvpAlike a b ↔
      (p.take a.size, a.pair) = (p.take b.size, b.pair) ∧ a.type ≠ immutableType := by
  have hlen : a.bytes = b.bytes → a.length = b.length := fun h => by
    rw [← ha.length_bytes, ← hb.length_bytes, h]
  rw [Prod.mk.injEq, ha.take_size hb, Kvp.pair, Kvp.pair]
  unfold kvpAlike
  by_cases ht : a.type = b.type
  · by_cases heven : a.type % 2 = 0
    · simp [ht, ht ▸ heven]
      tauto
    · simp [ht, ht ▸ heven]
      tauto
  · simp [ht]

theorem blockReadsAlikeFrom_eq : ∀ n prev p, blockReadsAlikeFrom n prev prev p p =
    alike (entriesFrom propsCodecQuicVarint n prev p) (entriesFrom propsCodecVi64 n prev p)
  | 0, _, _ => rfl
  | n + 1, prev, p => by
      rw [blockReadsAlikeFrom, entriesFrom, entriesFrom]
      cases ha : kvpRead propsCodecQuicVarint p prev with
      | malformed => rfl
      | done =>
        rw [kvpRead_eq_done_iff.mp ha]
        rfl
      | read a =>
        cases hb : kvpRead propsCodecVi64 p prev with
        | malformed =>
          dsimp only
          cases entriesFrom propsCodecQuicVarint n a.type (p.drop a.size) <;> rfl
        | done =>
          rw [kvpRead_eq_done_iff.mp hb] at ha
          simp [kvpRead] at ha
        | read b =>
          dsimp only
          obtain ⟨ua, va, hra⟩ := kvpRead_eq_read_iff.mp ha
          obtain ⟨ub, vb, hrb⟩ := kvpRead_eq_read_iff.mp hb
          have hiff := kvpAlike_iff hra hrb
          by_cases hk : kvpAlike a b
          · -- The readings agree so far, and go on from the same place.
            obtain ⟨hpair, himm⟩ := hiff.mp hk
            have hsize := (hra.take_size hrb).mp (congrArg Prod.fst hpair)
            have htype : a.type = b.type := congrArg (fun x => x.2.1) hpair
            rw [hk, Bool.true_and, ← htype, ← hsize, blockReadsAlikeFrom_eq n]
            cases entriesFrom propsCodecQuicVarint n a.type (p.drop a.size) with
            | none => rfl
            | some es =>
              cases entriesFrom propsCodecVi64 n a.type (p.drop a.size) with
              | none => rfl
              | some fs =>
                have hp : a.pair = b.pair := congrArg Prod.snd hpair
                rw [Bool.eq_iff_iff, Option.map_some, Option.map_some, alike_some_iff,
                  alike_some_iff]
                simp [Entry.pair, Entry.immutable, hp, himm]
          · have hne := mt hiff.mpr hk
            rw [Bool.not_eq_true] at hk
            rw [hk]
            cases entriesFrom propsCodecQuicVarint n a.type (p.drop a.size) with
            | none => rfl
            | some es =>
              cases entriesFrom propsCodecVi64 n b.type (p.drop b.size) with
              | none => rfl
              | some fs =>
                refine (Bool.eq_false_iff.mpr fun h => hne ?_).symm
                rw [Option.map_some, Option.map_some, alike_some_iff] at h
                obtain ⟨hmap, hall⟩ := h
                rw [map_cons, map_cons, cons.injEq] at hmap
                exact ⟨hmap.1, by simpa [Entry.immutable] using hall _ mem_cons_self⟩

theorem blockReadsAlike_eq (b : Bytes) : blockReadsAlike b = readsAlike b :=
  blockReadsAlikeFrom_eq _ 0 b

/-! ## What the passes make of an entry -/

theorem intLen_ne_zero_iff (h : codecValid codec) (v : ℕ) :
    intLen codec v ≠ 0 ↔ representable codec v := by
  rcases codecValid_iff.mp h with rfl | rfl
  · have hlen : quicVarintLen v ≠ 0 ↔ v ≤ quicVarintMax := by
      unfold quicVarintLen quicVarintMax
      split_ifs <;> omega
    by_cases hv : quicVarintMax < v
    · simp [intLen, representable, hv, propsCodecQuicVarint, propsCodecVi64]
    · simpa [intLen, representable, hv, propsCodecQuicVarint, propsCodecVi64] using hlen
  · exact iff_of_true (vi64Len_pos v).ne' rfl

/-- The entry `kvp_read` found at the front of `p`. -/
structure EntryAt (codec : ℕ) (p : Bytes) (prev : ℕ) (e : Entry) : Prop where
  reads : ∃ used vl, Reads (code codec) p prev e.kvp used vl
  prev_eq : e.prev = prev
  raw_eq : e.raw = p.take e.kvp.size

variable {e : Entry} {es : List Entry}

theorem EntryAt.kvpRead_eq (h : EntryAt codec p prev e) : kvpRead codec p prev = .read e.kvp :=
  kvpRead_eq_read_iff.mpr h.reads

theorem EntryAt.length_raw (h : EntryAt codec p prev e) : e.raw.length = e.kvp.size := by
  obtain ⟨used, vl, hr⟩ := h.reads
  have := hr.size_le
  rw [h.raw_eq, length_take]
  omega

theorem EntryAt.size_le (h : EntryAt codec p prev e) : 0 < e.kvp.size ∧ e.kvp.size ≤ p.length := by
  obtain ⟨used, vl, hr⟩ := h.reads
  have := hr.used_pos
  have := hr.size
  exact ⟨by omega, hr.size_le⟩

/-- The entries of a block, one behind the other. -/
inductive Block (codec : ℕ) : ℕ → Bytes → List Entry → Prop
  | nil {prev : ℕ} : Block codec prev [] []
  | cons {prev : ℕ} {p : Bytes} {e : Entry} {es : List Entry} (he : EntryAt codec p prev e)
      (hes : Block codec e.kvp.type (p.drop e.kvp.size) es) : Block codec prev p (e :: es)

theorem block_of_entriesFrom : ∀ n prev p es, entriesFrom codec n prev p = some es →
    Block codec prev p es
  | 0, _, _, _, h => by simp [entriesFrom] at h
  | n + 1, prev, p, es, h => by
      rw [entriesFrom] at h
      cases hk : kvpRead codec p prev with
      | malformed => simp [hk] at h
      | done =>
        rw [hk] at h
        cases h
        rw [kvpRead_eq_done_iff.mp hk]
        exact .nil
      | read k =>
        simp only [hk, Option.map_eq_some_iff] at h
        obtain ⟨fs, hfs, rfl⟩ := h
        exact .cons ⟨kvpRead_eq_read_iff.mp hk, rfl, rfl⟩ (block_of_entriesFrom n _ _ _ hfs)

/-- Immutable Properties read the same at the destination where they stand exactly when their own
bytes do. -/
theorem EntryAt.immutableAlike_eq (h : EntryAt codec p prev e) (himm : e.immutable) (dst : ℕ) :
    immutableAlike dst p prev e.kvp = (e.rawAlike dst && readsAlike e.kvp.bytes) := by
  obtain ⟨used, vl, hr⟩ := h.reads
  have hraw := h.length_raw
  have hodd : ¬ e.kvp.type % 2 = 0 := by
    rw [show e.kvp.type = immutableType by simpa [Entry.immutable] using himm]
    decide
  rw [immutableAlike, blockReadsAlike_eq]
  congr 1
  rw [Bool.eq_iff_iff, Entry.rawAlike, h.prev_eq]
  constructor
  · intro hd
    split at hd
    · rename_i d hread
      simp only [Bool.and_eq_true, decide_eq_true_eq] at hd
      obtain ⟨⟨htype, hsize⟩, hlen⟩ := hd
      obtain ⟨u, l, hrd⟩ := kvpRead_eq_read_iff.mp hread
      have htake := hrd.take []
      rw [append_nil, hsize, ← h.raw_eq] at htake
      rw [kvpRead_eq_read_iff.mpr ⟨u, l, htake⟩]
      have hbytes : d.bytes = e.kvp.bytes := by
        have := hrd.size
        have := hr.size
        rw [hrd.bytes, hr.bytes, hlen, show u + l = used + vl by omega]
      simp [Kvp.pair, Entry.pair, htype, hbytes, hodd, hsize, hraw]
    · cases hd
  · intro hd
    split at hd
    · rename_i d hread
      simp only [Bool.and_eq_true, decide_eq_true_eq] at hd
      obtain ⟨hpair, hsize⟩ := hd
      obtain ⟨u, l, hrd⟩ := kvpRead_eq_read_iff.mp hread
      have htype : d.type = e.kvp.type := congrArg Prod.fst hpair
      have htake := hrd.take (p.drop e.kvp.size)
      rw [hsize, take_length, h.raw_eq, take_append_drop] at htake
      rw [kvpRead_eq_read_iff.mpr ⟨u, l, htake⟩]
      have hbytes : d.bytes = e.kvp.bytes := by
        simpa [Kvp.pair, Entry.pair, htype, hodd] using hpair
      have hlen : d.length = e.kvp.length := by rw [← hrd.length_bytes, hbytes, hr.length_bytes]
      simp [htype, hsize, hraw, hlen]
    · cases hd

/-- An entry is counted with at most twice its bytes. -/
theorem EntryAt.outSize_le (h : EntryAt src p prev e) (hd : codecValid dst) :
    e.outSize dst ≤ 2 * e.kvp.size := by
  obtain ⟨used, vl, hr⟩ := h.reads
  have hsize := hr.size
  unfold Entry.outSize
  split
  · omega
  · have h1 : (code dst).len e.kvp.delta ≤ 2 * used :=
      (code dst).len_le ((code src).read_le hr.delta) ((code src).read_lt hr.delta) hr.used_pos.1
    have h2 : (code dst).len e.kvp.second ≤ 2 * vl :=
      (code dst).len_le ((code src).read_le hr.second) ((code src).read_lt hr.second) hr.used_pos.2
    rw [intLen_eq hd, intLen_eq hd]
    split <;> omega

/-- An entry that is not Immutable Properties is carried when its integers have a code. -/
theorem supported_plain (himm : e.immutable = false) (hd : codecValid dst) :
    e.supported dst ↔
      (code dst).len e.kvp.delta ≠ 0 ∧ (code dst).len e.kvp.second ≠ 0 := by
  rw [Entry.supported, himm, if_neg Bool.false_ne_true, Bool.and_eq_true, ← intLen_ne_zero_iff hd,
    ← intLen_ne_zero_iff hd, intLen_eq hd, intLen_eq hd]

theorem out_plain (himm : e.immutable = false) (dst : ℕ) : e.out dst =
    (code dst).write e.kvp.delta ++ (code dst).write e.kvp.second ++ e.kvp.bytes :=
  if_neg (by simp [himm])

theorem EntryAt.length_out (h : EntryAt src p prev e) (hd : codecValid dst)
    (hsup : e.supported dst) : (e.out dst).length = e.outSize dst := by
  obtain ⟨used, vl, hr⟩ := h.reads
  cases himm : e.immutable with
  | true =>
    rw [Entry.out, Entry.outSize, if_pos himm, if_pos himm]
    exact h.length_raw
  | false =>
    obtain ⟨hdelta, hsecond⟩ := (supported_plain himm hd).mp hsup
    rw [out_plain himm, Entry.outSize, if_neg (by simp [himm]), length_append, length_append,
      (code dst).length_write hdelta, (code dst).length_write hsecond, hr.length_bytes,
      intLen_eq hd, intLen_eq hd]
    split
    · rename_i heven
      rw [hr.even heven]
    · rfl

/-! ## The passes -/

theorem writeAt_nil (out : Bytes) (w : ℕ) : writeAt out w [] = out := by simp [writeAt]

variable {out b : Bytes}

theorem length_writeAt (h : w + b.length ≤ out.length) : (writeAt out w b).length = out.length := by
  simp only [writeAt, length_append, length_take, length_drop]
  omega

/-- Two writes one behind the other are one. -/
theorem writeAt_writeAt (b c : Bytes) (h : w ≤ out.length) :
    writeAt (writeAt out w b) (w + b.length) c = writeAt out w (b ++ c) := by
  have hlen : (out.take w ++ b).length = w + b.length := by
    rw [length_append, length_take]
    omega
  rw [writeAt, writeAt, take_left' hlen, ← drop_drop, drop_left' hlen, drop_drop,
    writeAt, length_append, Nat.add_assoc, append_assoc (out.take w)]

theorem EntryAt.writeEntry_eq (h : EntryAt src p prev e) (hd : codecValid dst)
    (himm : e.immutable = false) (hsup : e.supported dst) (hroom : w + e.outSize dst ≤ out.length) :
    writeEntry dst e.kvp out w = writeAt out w (e.out dst) := by
  obtain ⟨used, vl, hr⟩ := h.reads
  have hout := out_plain himm dst
  have hlen := h.length_out hd hsup
  obtain ⟨hdelta, hsecond⟩ := (supported_plain himm hd).mp hsup
  have h1 := (code dst).length_write hdelta
  have h2 := (code dst).length_write hsecond
  rw [hout, length_append, length_append] at hlen
  have hw1 : w ≤ out.length := by omega
  unfold writeEntry
  dsimp only
  rw [intWrite_eq hd (by omega), intWrite_eq hd (by rw [intLen_eq hd]; omega), intLen_eq hd,
    intLen_eq hd, ← h1, writeAt_writeAt _ _ hw1, ← h2]
  split
  · rename_i heven
    have hb : e.kvp.bytes = [] := by simp [hr.bytes, hr.even heven]
    rw [hout, hb, append_nil]
  · rw [hout, Nat.add_assoc, ← length_append, writeAt_writeAt _ _ hw1]

/-- **One round of a pass** over a valid entry.  The pass that writes has met only entries it can
carry, and has room for them. -/
theorem EntryAt.passFrom_cons (h : EntryAt src p prev e) (hd : codecValid dst) (n : ℕ)
    {u : Bool} {out : Option Bytes} (hw : w + 2 * p.length ≤ sizeMax)
    (hv : e.valid src) (hroom : ∀ buf, out = some buf →
      u = false ∧ e.supported dst ∧ w + e.outSize dst ≤ buf.length) :
    passFrom src dst (n + 1) prev p u w out = passFrom src dst n e.kvp.type (p.drop e.kvp.size)
      (u || !e.supported dst) (w + e.outSize dst) (out.map (writeAt · w (e.out dst))) := by
  have hle := h.outSize_le hd
  have hsize := h.size_le
  rw [passFrom, h.kvpRead_eq]
  dsimp only
  cases himm : e.immutable with
  | true =>
    have ht : e.kvp.type = immutableType := by simpa [Entry.immutable] using himm
    have hb : blockValid src e.kvp.bytes := by simpa [Entry.valid, himm, blockValid_eq] using hv
    have hsz : e.outSize dst = e.kvp.size := if_pos himm
    have hout : e.out dst = p.take e.kvp.size := (if_pos himm).trans h.raw_eq
    have hsup : e.supported dst = immutableAlike dst p prev e.kvp :=
      (if_pos himm).trans (h.immutableAlike_eq himm dst).symm
    rw [if_pos ht, if_neg (by simp [hb]), if_neg (by omega), hsz, hout, hsup]
  | false =>
    have ht : ¬ e.kvp.type = immutableType := by simpa [Entry.immutable] using himm
    have hsz : e.outSize dst = intLen dst e.kvp.delta + intLen dst e.kvp.second +
        if e.kvp.type % 2 = 0 then 0 else e.kvp.length := if_neg (by simp [himm])
    have hsup : (!(decide (intLen dst e.kvp.delta = 0) || decide (intLen dst e.kvp.second = 0))) =
        e.supported dst := by
      rw [Bool.eq_iff_iff, supported_plain himm hd, intLen_eq hd, intLen_eq hd]
      simp
    rw [if_neg ht, ← hsz, if_neg (by omega), ← hsup, Bool.not_not, Bool.or_assoc]
    cases out with
    | none => rw [Option.map_none, ite_self, Option.map_none]
    | some buf =>
      obtain ⟨rfl, hs, hbuf⟩ := hroom buf rfl
      rw [hs, Bool.not_eq_true'] at hsup
      rw [hsup, if_neg (by simp), Option.map_some, Option.map_some, h.writeEntry_eq hd himm hs hbuf]

theorem EntryAt.passFrom_invalid (h : EntryAt src p prev e) (hv : e.valid src = false) (n : ℕ)
    (u : Bool) (w : ℕ) (out : Option Bytes) :
    passFrom src dst (n + 1) prev p u w out = .error .malformed := by
  simp only [Entry.valid, Entry.immutable, Bool.or_eq_false_iff, Bool.not_eq_false',
    decide_eq_true_eq] at hv
  rw [passFrom, h.kvpRead_eq]
  dsimp only
  rw [if_pos hv.1, blockValid_eq, hv.2]
  rfl

theorem passFrom_malformed (hd : codecValid dst) : ∀ n prev p u w, p.length < n →
    w + 2 * p.length ≤ sizeMax →
    ((entriesFrom src n prev p).filter fun es => es.all (Entry.valid src)) = none →
    passFrom src dst n prev p u w none = .error .malformed
  | 0, _, _, _, _, hn, _, _ => absurd hn (Nat.not_lt_zero _)
  | n + 1, prev, p, u, w, hn, hw, h => by
      rw [entriesFrom] at h
      cases hk : kvpRead src p prev with
      | malformed => rw [passFrom, hk]
      | done => simp [hk, Option.filter] at h
      | read k =>
        have he : EntryAt src p prev ⟨prev, p.take k.size, k⟩ :=
          ⟨kvpRead_eq_read_iff.mp hk, rfl, rfl⟩
        have hle : Entry.outSize dst ⟨prev, p.take k.size, k⟩ ≤ 2 * k.size := he.outSize_le hd
        have hsize := he.size_le
        have hdrop : (p.drop k.size).length = p.length - k.size := length_drop
        dsimp only at hsize
        cases hv : Entry.valid src ⟨prev, p.take k.size, k⟩ with
        | false => exact he.passFrom_invalid hv n u w none
        | true =>
          rw [he.passFrom_cons hd n hw hv (by simp)]
          refine passFrom_malformed hd n k.type (p.drop k.size) _ _ (by omega) (by omega) ?_
          cases hes : entriesFrom src n k.type (p.drop k.size) with
          | none => rfl
          | some es => simpa [hk, hes, hv, Option.filter] using h

/-- The size both passes arrive at. -/
def need (dst : ℕ) (es : List Entry) : ℕ := (es.map (Entry.outSize dst)).sum

theorem need_cons (dst : ℕ) (e : Entry) (es : List Entry) :
    need dst (e :: es) = e.outSize dst + need dst es := rfl

/-- **A pass over a valid block**, told from its entries. -/
theorem Block.passFrom_eq (hd : codecValid dst) (hb : Block src prev p es) :
    ∀ n u w out, p.length < n → w + 2 * p.length ≤ sizeMax → (∀ e ∈ es, e.valid src) →
    (∀ buf, out = some buf →
      u = false ∧ (∀ e ∈ es, e.supported dst) ∧ w + need dst es ≤ buf.length) →
    passFrom src dst n prev p u w out = .ok (u || !es.all (Entry.supported dst), w + need dst es,
      out.map (writeAt · w (es.flatMap (Entry.out dst)))) := by
  induction hb with
  | nil =>
    intro n u w out hn hw hvalid hroom
    obtain ⟨n, rfl⟩ : ∃ m, n = m + 1 := ⟨n - 1, by omega⟩
    rw [passFrom, kvpRead_eq_done_iff.mpr rfl]
    simp [need, writeAt_nil]
  | @cons prev p e es he _ ih =>
    intro n u w out hn hw hvalid hroom
    obtain ⟨n, rfl⟩ : ∃ m, n = m + 1 := ⟨n - 1, by omega⟩
    obtain ⟨hev, hfv⟩ := forall_mem_cons.mp hvalid
    have hle := he.outSize_le hd
    have hsize := he.size_le
    have hdrop : (p.drop e.kvp.size).length = p.length - e.kvp.size := length_drop
    simp only [need_cons, forall_mem_cons] at hroom ⊢
    rw [he.passFrom_cons hd n hw hev fun b hb => ⟨(hroom b hb).1, (hroom b hb).2.1.1,
      by have := hroom b hb; omega⟩]
    -- The rest of the block is written behind this entry.
    cases out with
    | none =>
      rw [ih n _ _ _ (by omega) (by omega) hfv (by simp), all_cons, Bool.not_and,
        Bool.or_assoc, Nat.add_assoc]
      rfl
    | some buf =>
      obtain ⟨rfl, ⟨hes, hfs⟩, hbuf⟩ := hroom buf rfl
      have hlen := he.length_out hd hes
      rw [ih n _ _ _ (by omega) (by omega) hfv fun b hb => by
        cases hb
        exact ⟨by simp [hes], hfs, by rw [length_writeAt (by omega)]; omega⟩]
      rw [all_cons, Bool.not_and, Nat.add_assoc, Option.map_some, Option.map_some,
        ← hlen, writeAt_writeAt _ _ (by omega)]
      rfl

/-! ## The output reads as the input did -/

/-- A carried entry reads back as the pair it was, whatever follows. -/
theorem EntryAt.kvpRead_out (h : EntryAt src p prev e) (hd : codecValid dst)
    (hsup : e.supported dst) (q : Bytes) :
    ∃ k, kvpRead dst (e.out dst ++ q) prev = .read k ∧ k.pair = e.pair ∧
      k.size = (e.out dst).length := by
  obtain ⟨used, vl, hr⟩ := h.reads
  cases himm : e.immutable with
  | true =>
    rw [Entry.supported, himm, if_pos rfl, Bool.and_eq_true, Entry.rawAlike, h.prev_eq] at hsup
    have hout : e.out dst = e.raw := if_pos himm
    obtain ⟨halike, -⟩ := hsup
    split at halike
    · rename_i d hread
      simp only [Bool.and_eq_true, decide_eq_true_eq] at halike
      obtain ⟨u, l, hrd⟩ := kvpRead_eq_read_iff.mp hread
      have htake := hrd.take q
      rw [halike.2, take_length] at htake
      rw [hout]
      exact ⟨d, kvpRead_eq_read_iff.mpr ⟨u, l, htake⟩, halike.1, halike.2⟩
    · cases halike
  | false =>
    obtain ⟨hdelta, hsecond⟩ := (supported_plain himm hd).mp hsup
    have hback := reads_write hdelta hsecond ((code src).read_le hr.delta)
      ((code src).read_le hr.second) hr.type hr.type_le hr.even hr.odd hr.length_bytes q
    rw [out_plain himm]
    refine ⟨_, kvpRead_eq_read_iff.mpr ⟨_, _, hback⟩, rfl, ?_⟩
    simp only [length_append, (code dst).length_write hdelta, (code dst).length_write hsecond,
      hr.length_bytes]

/-- A body that reads alike is valid in either codec. -/
theorem bodyValid_of_readsAlike (hd : codecValid dst) (h : readsAlike b) : bodyValid dst b := by
  unfold readsAlike at h
  unfold bodyValid
  cases hes : entries propsCodecQuicVarint b with
  | none => simp [hes, alike] at h
  | some es =>
    cases hfs : entries propsCodecVi64 b with
    | none => simp [hes, hfs, alike] at h
    | some fs =>
      rw [hes, hfs, alike_some_iff] at h
      obtain ⟨hmap, hall⟩ := h
      have htypes : es.map Entry.immutable = fs.map Entry.immutable := by
        have := congrArg (map fun x : Bytes × ℕ × Value => decide (x.2.1 = immutableType)) hmap
        rwa [map_map, map_map] at this
      rcases codecValid_iff.mp hd with rfl | rfl
      · simpa [hes] using hall
      · have hfall : ∀ f ∈ fs, f.immutable = false := fun f hf => by
          have hm : f.immutable ∈ es.map Entry.immutable := htypes ▸ mem_map_of_mem hf
          obtain ⟨e, he, heq⟩ := mem_map.mp hm
          rw [← heq, hall e he]
        simpa [hfs] using hfall

theorem Block.entriesFrom_out (hd : codecValid dst) (hb : Block src prev p es) :
    (∀ e ∈ es, e.supported dst) → ∀ m, (es.flatMap (Entry.out dst)).length < m →
      ∃ fs, entriesFrom dst m prev (es.flatMap (Entry.out dst)) = some fs ∧
        fs.map Entry.pair = es.map Entry.pair ∧ ∀ f ∈ fs, f.valid dst := by
  induction hb with
  | nil =>
    intro _ m hm
    obtain ⟨m, rfl⟩ : ∃ m', m = m' + 1 := ⟨m - 1, by omega⟩
    exact ⟨[], by simp [entriesFrom, kvpRead], rfl, by simp⟩
  | @cons prev p e es he _ ih =>
    intro hsup m hm
    obtain ⟨m, rfl⟩ : ∃ m', m = m' + 1 := ⟨m - 1, by omega⟩
    obtain ⟨hes, hfs⟩ := forall_mem_cons.mp hsup
    obtain ⟨k', hread, hpair, hsize⟩ := he.kvpRead_out hd hes (es.flatMap (Entry.out dst))
    have htype : k'.type = e.kvp.type := congrArg Prod.fst hpair
    rw [flatMap_cons, length_append] at hm
    obtain ⟨u, l, hr⟩ := kvpRead_eq_read_iff.mp hread
    have hpos := hr.used_pos
    have hks := hr.size
    obtain ⟨gs, hgs, hmap, hval⟩ := ih hfs m (by omega)
    rw [entriesFrom, flatMap_cons, hread]
    dsimp only
    rw [htype, drop_left' hsize.symm, hgs]
    refine ⟨_, rfl, by rw [map_cons, map_cons, hmap, ← hpair]; rfl, forall_mem_cons.mpr ⟨?_, hval⟩⟩
    -- Immutable Properties keep their body, which is valid at the destination too.
    cases himm : e.immutable with
    | true =>
      have ht : e.kvp.type = immutableType := by simpa [Entry.immutable] using himm
      have hodd : ¬ e.kvp.type % 2 = 0 := by rw [ht]; decide
      have hbytes : k'.bytes = e.kvp.bytes := by
        simpa [Kvp.pair, Entry.pair, htype, hodd] using hpair
      rw [Entry.supported, himm, if_pos rfl, Bool.and_eq_true] at hes
      simp [Entry.valid, hbytes, bodyValid_of_readsAlike hd hes.2]
    | false =>
      have ht : ¬ e.kvp.type = immutableType := by simpa [Entry.immutable] using himm
      simp [Entry.valid, Entry.immutable, htype, ht]

/-- The bytes written are as many as were counted. -/
theorem Block.length_flatMap_out (hd : codecValid dst) (hb : Block src prev p es)
    (hsup : ∀ e ∈ es, e.supported dst) : (es.flatMap (Entry.out dst)).length = need dst es := by
  induction hb with
  | nil => rfl
  | cons he _ ih =>
    obtain ⟨hes, hfs⟩ := forall_mem_cons.mp hsup
    rw [flatMap_cons, length_append, he.length_out hd hes, ih hfs, need_cons]

/-! ## The conversion -/

/-- `PTRDIFF_MAX`, the size of the largest object. -/
def objectMax : ℕ := 2 ^ 63 - 1

theorem parse_eq_some_iff : parse codec p = some es ↔
    entries codec p = some es ∧ ∀ e ∈ es, e.valid codec := by
  simp [parse, Option.filter_eq_some_iff]

/-- The call on a nonempty block of another codec. -/
theorem propsConvert_eq (hs : codecValid src) (hd : codecValid dst) (hne : src ≠ dst)
    (hp : p ≠ []) (out : Option Bytes) :
    propsConvert src dst p out = convertPasses src dst p out := by
  have hunk : src ≠ propsCodecUnknown := by
    rcases codecValid_iff.mp hs with rfl | rfl <;> decide
  unfold propsConvert
  rw [if_neg (by simp [hs, hd]), if_neg (by simp [hp, hne]), if_neg hunk]

section Outcome

variable {out : Option Bytes} (hd : codecValid dst) (hlen : p.length ≤ objectMax)
include hd hlen

theorem pass_malformed (h : parse src p = none) : pass src dst p none = .error .malformed :=
  passFrom_malformed hd _ 0 p false 0 (Nat.lt_succ_self _)
    (by unfold objectMax at hlen; unfold sizeMax u64Max; omega) h

theorem pass_eq (h : parse src p = some es) (hroom : ∀ buf, out = some buf →
    (∀ e ∈ es, e.supported dst) ∧ need dst es ≤ buf.length) :
    pass src dst p out = .ok (!es.all (Entry.supported dst), need dst es,
      out.map (writeAt · 0 (es.flatMap (Entry.out dst)))) := by
  obtain ⟨hent, hvalid⟩ := parse_eq_some_iff.mp h
  have := (block_of_entriesFrom _ 0 p es hent).passFrom_eq hd _ false 0 out (Nat.lt_succ_self _)
    (by unfold objectMax at hlen; unfold sizeMax u64Max; omega) hvalid
    fun buf hbuf => ⟨rfl, by rw [Nat.zero_add]; exact hroom buf hbuf⟩
  rwa [Nat.zero_add] at this

theorem convertPasses_unsupported (h : parse src p = some es) (hsup : ¬ ∀ e ∈ es, e.supported dst) :
    convertPasses src dst p out = (.unsupported, none, out) := by
  have hall : es.all (Entry.supported dst) = false :=
    Bool.eq_false_iff.mpr fun hall => hsup (all_eq_true.mp hall)
  rw [convertPasses, pass_eq hd hlen h (by simp), hall]
  rfl

variable (h : parse src p = some es) (hsup : ∀ e ∈ es, e.supported dst)
include h hsup

/-- A block whose entries can all be carried is measured, and converted unless the buffer is
short. -/
theorem convertPasses_carried : convertPasses src dst p out = match out with
    | none => (.converted, some (need dst es), none)
    | some buf =>
      if buf.length < need dst es then (.buffer, some (need dst es), some buf)
      else (.converted, some (need dst es),
        some (es.flatMap (Entry.out dst) ++ buf.drop (es.flatMap (Entry.out dst)).length)) := by
  have hall := all_eq_true.mpr hsup
  rw [convertPasses, pass_eq hd hlen h (by simp), hall]
  cases out with
  | none => rfl
  | some buf =>
    by_cases hroom : buf.length < need dst es
    · exact (if_pos hroom).trans (if_pos hroom).symm
    · refine (if_neg hroom).trans (Eq.trans ?_ (if_neg hroom).symm)
      rw [pass_eq hd hlen h fun _ hb => by cases hb; exact ⟨hsup, Nat.not_lt.mp hroom⟩, hall]
      simp [writeAt]

theorem convertPasses_carried_fst : (convertPasses src dst p out).1 = .converted ∨
    (convertPasses src dst p out).1 = .buffer := by
  rw [convertPasses_carried hd hlen h hsup]
  cases out with
  | none => exact .inl rfl
  | some buf =>
    dsimp only
    split
    · exact .inr rfl
    · exact .inl rfl

end Outcome

/-- **The conversion of a property block.**  Between two different codecs a nonempty block is
`MALFORMED` exactly when it does not parse in its own; otherwise it is `CONVERTED` exactly when
every entry can be carried, Immutable Properties header and body as they stand, and `UNSUPPORTED` if
not.  The output has the size that was measured, and parses at the destination as the same pairs. -/
theorem convert_carries (src dst : ℕ) (hs : codecValid src) (hd : codecValid dst)
    (hne : src ≠ dst) (p : Bytes) (hp : p ≠ []) (hlen : p.length ≤ objectMax) :
    (∀ out, (propsConvert src dst p out).1 = .malformed ↔ parse src p = none) ∧
    ∀ es, parse src p = some es →
      ((propsConvert src dst p none).1 = .converted ↔ ∀ e ∈ es, e.supported dst) ∧
      (∀ out, (propsConvert src dst p out).1 = .unsupported ↔ ¬ ∀ e ∈ es, e.supported dst) ∧
      ∀ size, propsConvert src dst p none = (.converted, some size, none) → ∀ buf,
        (buf.length < size → propsConvert src dst p (some buf) = (.buffer, some size, some buf)) ∧
        (size ≤ buf.length → ∃ o fs,
          propsConvert src dst p (some buf) = (.converted, some size, some (o ++ buf.drop size)) ∧
          o.length = size ∧ parse dst o = some fs ∧ fs.map Entry.pair = es.map Entry.pair) := by
  simp only [propsConvert_eq hs hd hne hp]
  refine ⟨fun out => ⟨fun h => ?_, fun h => by
    rw [convertPasses, pass_malformed hd hlen h]⟩, fun es hes => ?_⟩
  · by_contra hsome
    obtain ⟨es, hes⟩ := Option.ne_none_iff_exists'.mp hsome
    by_cases hsup : ∀ e ∈ es, e.supported dst
    · rcases convertPasses_carried_fst hd hlen hes hsup with hok | hok
      all_goals exact absurd (hok.symm.trans h) (by decide)
    · simp [convertPasses_unsupported hd hlen hes hsup] at h
  · by_cases hsup : ∀ e ∈ es, e.supported dst
    · refine ⟨iff_of_true (by rw [convertPasses_carried hd hlen hes hsup]) hsup,
        fun out => iff_of_false ?_ (not_not.mpr hsup), fun size hsize buf => ?_⟩
      · intro h
        rcases convertPasses_carried_fst hd hlen hes hsup with hok | hok
        all_goals exact absurd (hok.symm.trans h) (by decide)
      · rw [convertPasses_carried hd hlen hes hsup] at hsize
        obtain rfl : need dst es = size := by simpa using hsize
        obtain ⟨hent, -⟩ := parse_eq_some_iff.mp hes
        have hblock := block_of_entriesFrom _ 0 p es hent
        have hsz := hblock.length_flatMap_out hd hsup
        obtain ⟨fs, hfs, hmap, hvalid⟩ := hblock.entriesFrom_out hd hsup _ (Nat.lt_succ_self _)
        rw [convertPasses_carried hd hlen hes hsup]
        refine ⟨fun hroom => if_pos hroom, fun hroom => ⟨_, fs, ?_, hsz, ?_, hmap⟩⟩
        · rw [← hsz]
          exact if_neg (by omega)
        · exact parse_eq_some_iff.mpr ⟨hfs, hvalid⟩
    · refine ⟨iff_of_false ?_ hsup, fun out => iff_of_true ?_ hsup, fun size hsize => ?_⟩
      · simp [convertPasses_unsupported hd hlen hes hsup]
      · rw [convertPasses_unsupported hd hlen hes hsup]
      · simp [convertPasses_unsupported hd hlen hes hsup] at hsize

/-- A block of one integer property and one of Immutable Properties is carried to the other
codec. -/
theorem convert_carries_small :
    (propsConvert propsCodecQuicVarint propsCodecVi64 [0x02, 0x40, 0x64, 0x09, 0x02, 0x02, 0x05]
      none).1 = .converted :=
  (((convert_carries propsCodecQuicVarint propsCodecVi64 (by decide) (by decide) (by decide)
    [0x02, 0x40, 0x64, 0x09, 0x02, 0x02, 0x05] (by decide) (by decide)).2
      ((parse propsCodecQuicVarint [0x02, 0x40, 0x64, 0x09, 0x02, 0x02, 0x05]).getD [])
      (by decide +kernel)).1).mpr (by decide +kernel)

/-- Immutable Properties of 64 zero bytes, with a length of two bytes in the QUIC varint. -/
def longImmutable : Bytes := [0x0B, 0x40, 0x40] ++ replicate 64 0

/-- **Two results that the entries alone do not tell.**  A block that does not parse is `SAME` when
the codecs are equal: nothing is read.  And Immutable Properties whose integers all have a code, and
whose body reads alike, are still `UNSUPPORTED` when their own length is not written the same in
both. -/
theorem convert_differs :
    (parse propsCodecQuicVarint [0xFF] = none ∧
      (propsConvert propsCodecQuicVarint propsCodecQuicVarint [0xFF] none).1 = .same) ∧
    ∃ es, parse propsCodecQuicVarint longImmutable = some es ∧
      (∀ e ∈ es, representable propsCodecVi64 e.kvp.delta ∧
        representable propsCodecVi64 e.kvp.second ∧ readsAlike e.kvp.bytes) ∧
      (propsConvert propsCodecQuicVarint propsCodecVi64 longImmutable none).1 = .unsupported := by
  refine ⟨by decide +kernel,
    (parse propsCodecQuicVarint longImmutable).getD [], by decide +kernel, by decide +kernel,
    by decide +kernel⟩

end Props

end MoqRelay
