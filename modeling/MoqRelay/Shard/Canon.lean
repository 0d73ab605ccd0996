import MoqRelay.Lib.IntCode
import MoqRelay.Lib.Trace
import MoqRelay.Shard.Bits

/-!
# Shard/Canon — canonical namespace keys

`canon_build`, `canon_to_ns`, `canon2_build`, `canon2_decode` and `canon_cmp` of `placement.c`.  A
key is the number of the parts, their lengths and then their bytes; both builders lay these out the
same way, so one reader serves both keys (`readParts_layout`).  The order of the keys is the one
that the journal is sorted by, which therefore has one entry for a namespace at most
(`canon_journal`).
-/

namespace MoqRelay

open List

/-- `wr32`: little-endian. -/
def wr32 (v : ℕ) : Bytes := (beBytes 4 v).reverse

/-- `rd32`. -/
def rd32 (p : Bytes) : ℕ := beValue 0 (p.take 4).reverse

/-- `R_NS_MAX_PARTS`. -/
def nsMaxParts : ℕ := 32

/-- What the writes of `canon_build` fill a buffer with. -/
def canonLayout (parts : List Bytes) : Canon :=
  wr32 parts.length ++ parts.flatMap (fun p => wr32 p.length) ++ parts.flatten

/-- The parts as far as their `uint32_t` lengths reach. -/
def clip (parts : List Bytes) : List Bytes := parts.map fun p => p.take (p.length % 2 ^ 32)

/-- A buffer of a `uint32_t` length; what does not fit is written behind its end. -/
def filled (c : Canon) : Option Canon := if c.length < 2 ^ 32 then some c else none

/-- `canon_build`. -/
def canonBuild (parts : List Bytes) : Option Canon :=
  if nsMaxParts < parts.length then none else filled (canonLayout (clip parts))

/-- `canon2_build`. -/
def canon2Build (parts : List Bytes) (name : Bytes) : Option Canon :=
  if nsMaxParts < parts.length then none
  else filled (canonLayout (clip parts) ++ (wr32 (name.length % 2 ^ 32) ++ name))

/-- The loop of `canon_to_ns`, at a place of the lengths and one of the bytes. -/
def readParts : ℕ → Bytes → Bytes → List Bytes
  | 0, _, _ => []
  | n + 1, lens, bytes =>
    bytes.take (rd32 lens) :: readParts n (lens.drop 4) (bytes.drop (rd32 lens))

/-- `canon_to_ns`. -/
def canonToNs (c : Canon) : List Bytes := readParts (rd32 c) (c.drop 4) (c.drop (4 + 4 * rd32 c))

/-- The loop of `canon2_ns_len`. -/
def sumLens : ℕ → Bytes → ℕ
  | 0, _ => 0
  | n + 1, lens => rd32 lens + sumLens n (lens.drop 4)

/-- `canon2_ns_len`. -/
def canon2NsLen (c : Canon) : ℕ := 4 + 4 * rd32 c + sumLens (rd32 c) (c.drop 4)

/-- `canon2_decode`. -/
def canon2Decode (c : Canon) : List Bytes × Bytes :=
  (canonToNs c, (c.drop (canon2NsLen c + 4)).take (rd32 (c.drop (canon2NsLen c))))

/-- `canon_cmp`: `memcmp` of what both have, then the lengths. -/
def canonCmp (a b : Canon) : Ordering :=
  (compare (a.take (min a.length b.length)) (b.take (min a.length b.length))).then
    (compare a.length b.length)

/-! ## Reading back -/

theorem rd32_wr32 {v : ℕ} (h : v < 2 ^ 32) (r : Bytes) : rd32 (wr32 v ++ r) = v := by
  have hv := beValue_beBytes 4 v
  rw [Nat.shiftRight_eq_zero _ _ h] at hv
  rw [rd32, wr32, take_left' (by simp), reverse_reverse, hv]

theorem length_wr32 (v : ℕ) : (wr32 v).length = 4 := by simp [wr32]

/-- **The lengths and the bytes of some parts are read back**, whatever follows them. -/
theorem readParts_layout (parts : List Bytes) (h : parts.flatten.length < 2 ^ 32) (r s : Bytes) :
    readParts parts.length (parts.flatMap (fun p => wr32 p.length) ++ r) (parts.flatten ++ s) =
        parts ∧
      sumLens parts.length (parts.flatMap (fun p => wr32 p.length) ++ r) =
        parts.flatten.length := by
  induction parts with
  | nil => exact ⟨rfl, rfl⟩
  | cons p parts ih =>
    rw [flatten_cons, length_append] at h
    rw [flatMap_cons, flatten_cons, length_cons, append_assoc, append_assoc, readParts, sumLens,
      rd32_wr32 (by omega), take_left, drop_left, drop_left' (length_wr32 _)]
    obtain ⟨hparts, hsum⟩ := ih (by omega)
    rw [hparts, hsum, length_append]
    exact ⟨rfl, rfl⟩

/-- **A namespace whose key has a `uint32_t` length.** -/
structure Ns where
  parts : List Bytes
  count_le : parts.length ≤ nsMaxParts
  fits : 4 + 4 * parts.length + parts.flatten.length < 2 ^ 32

theorem length_canonLayout (parts : List Bytes) :
    (canonLayout parts).length = 4 + 4 * parts.length + parts.flatten.length := by
  simp [canonLayout, length_wr32, Nat.mul_comm, Nat.add_assoc]

variable (ns : Ns)

/-- **The namespace in front of a key.** -/
theorem canonToNs_layout (r : Bytes) :
    canonToNs (canonLayout ns.parts ++ r) = ns.parts ∧
      canon2NsLen (canonLayout ns.parts ++ r) = (canonLayout ns.parts).length := by
  have hfits := ns.fits
  have hcount : rd32 (canonLayout ns.parts ++ r) = ns.parts.length := by
    rw [canonLayout, append_assoc, append_assoc, rd32_wr32 (by omega)]
  have hlens : (canonLayout ns.parts ++ r).drop 4 =
      ns.parts.flatMap (fun p => wr32 p.length) ++ (ns.parts.flatten ++ r) := by
    rw [canonLayout, append_assoc, append_assoc, drop_left' (length_wr32 _)]
  have hbytes : (canonLayout ns.parts ++ r).drop (4 + 4 * ns.parts.length) =
      ns.parts.flatten ++ r := by
    rw [canonLayout, append_assoc, drop_left']
    simp [length_wr32, Nat.mul_comm]
  obtain ⟨hparts, hsum⟩ := readParts_layout ns.parts (by omega) (ns.parts.flatten ++ r) r
  rw [canonToNs, canon2NsLen, hcount, hlens, hbytes, hparts, hsum, length_canonLayout]
  exact ⟨rfl, rfl⟩

theorem clip_parts : clip ns.parts = ns.parts := by
  have hfits := ns.fits
  conv_rhs => rw [← map_id ns.parts]
  refine map_congr_left fun p hp => ?_
  have hle := (sublist_flatten_of_mem hp).length_le
  rw [Nat.mod_eq_of_lt (by omega), take_length]
  rfl

theorem canonBuild_parts : canonBuild ns.parts = some (canonLayout ns.parts) := by
  rw [canonBuild, if_neg (not_lt.mpr ns.count_le), clip_parts, filled,
    if_pos ((length_canonLayout _).trans_lt ns.fits)]

/-! ## The order -/

theorem canonCmp_eq (a b : Canon) : canonCmp a b = compare a b := by
  induction a generalizing b with
  | nil => cases b <;> rfl
  | cons x a ih =>
    cases b with
    | nil => rfl
    | cons y b =>
      have hmin : min (x :: a).length (y :: b).length = min a.length b.length + 1 :=
        Nat.add_min_add_right ..
      have hlen : compare (x :: a).length (y :: b).length = compare a.length b.length := by
        simp [compare, compareOfLessAndEq]
      rw [List.compare_cons_cons, ← ih, canonCmp, canonCmp, hmin, take_succ_cons, take_succ_cons,
        List.compare_cons_cons, hlen, Ordering.then_assoc]

/-- A call on the journal: an entry found or inserted, or one removed. -/
inductive JournalOp
  | get (canon : Canon)
  | remove (i : ℕ)

/-- The journal after a call. -/
def Mgr.journalStep (m : Mgr) : JournalOp → Mgr
  | .get canon => ((m.jrnGet canon).map Prod.snd).getD m
  | .remove i => m.jrnRemove i

theorem Mgr.Wf.journalStep (m : Mgr) (op : JournalOp) (h : m.Wf) : (m.journalStep op).Wf := by
  cases op with
  | get canon =>
    rw [Mgr.journalStep]
    cases hg : m.jrnGet canon with
    | none => exact h
    | some x => exact (h.jrnGet_view id hg).2.2.1
  | remove i => exact h.jrnRemove i

/-- The journal of a shard after some calls. -/
def journalRun (shard jrnCap : ℕ) (ops : List JournalOp) : Mgr :=
  ops.foldl Mgr.journalStep { shard := shard, jrnCap := jrnCap }

/-- **Keys and the journal.**  The key of a namespace decodes to it, and so no other namespace has
it; it is the front of the combined key with any name that fits, which decodes to both.  Keys
compare as a total order, whose equality is that of the bytes, and the journal is strictly sorted by
it after any calls: it has one entry for a namespace at most, and the search finds it just if it is
there. -/
theorem canon_journal (ns : Ns) :
    canonBuild ns.parts = some (canonLayout ns.parts) ∧
      canonToNs (canonLayout ns.parts) = ns.parts ∧
      (∀ ns' : Ns, canonLayout ns'.parts = canonLayout ns.parts ↔ ns'.parts = ns.parts) ∧
      (∀ name : Bytes, (canonLayout ns.parts).length + 4 + name.length < 2 ^ 32 →
        ∃ c, canon2Build ns.parts name = some c ∧ c.take (canon2NsLen c) = canonLayout ns.parts ∧
          canon2Decode c = (ns.parts, name)) ∧
      (∀ a b c : Canon, (canonCmp a b = .eq ↔ a = b) ∧ canonCmp b a = (canonCmp a b).swap ∧
        (canonCmp a b = .lt → canonCmp b c = .lt → canonCmp a c = .lt)) ∧
      ∀ shard jrnCap ops, let m := journalRun shard jrnCap ops
        (m.jrn.Pairwise fun e e' => canonCmp e.canon e'.canon = .lt) ∧
        (m.jrn.map JEntry.canon).count (canonLayout ns.parts) ≤ 1 ∧
        ((m.jrnFind (canonLayout ns.parts)).1 ↔
          ∃ e ∈ m.jrn, e.canon = canonLayout ns.parts) := by
  have hdecode := fun ns : Ns => (canonToNs_layout ns []).1
  simp only [append_nil] at hdecode
  refine ⟨canonBuild_parts ns, hdecode ns, fun ns' => ⟨fun h => ?_, fun h => by rw [h]⟩,
    fun name hfits => ?_, fun a b c => ?_, fun shard jrnCap ops => ?_⟩
  · rw [← hdecode ns', h, hdecode ns]
  · have hname : name.length % 2 ^ 32 = name.length := Nat.mod_eq_of_lt (by omega)
    obtain ⟨hns, hlen⟩ := canonToNs_layout ns (wr32 name.length ++ name)
    refine ⟨canonLayout ns.parts ++ (wr32 name.length ++ name), ?_, ?_, ?_⟩
    · rw [canon2Build, if_neg (not_lt.mpr ns.count_le), clip_parts, hname, filled, if_pos]
      rw [length_append, length_append, length_wr32]
      omega
    · rw [hlen, take_left]
    · rw [canon2Decode, hns, hlen, ← drop_drop, drop_left, rd32_wr32 (by omega),
        drop_left' (length_wr32 _), take_length]
  · simp only [canonCmp_eq]
    exact ⟨Std.compare_eq_iff_eq, Std.OrientedOrd.eq_swap, compare_trans⟩
  · intro m
    have hw : m.Wf := run_inv Mgr.Wf.journalStep ops ⟨.nil, nofun⟩
    refine ⟨?_, ?_, fun hf => ?_, fun ⟨e, he, hc⟩ => ?_⟩
    · simp only [canonCmp_eq]
      exact hw.sorted
    · exact nodup_iff_count_le_one.mp (pairwise_map.mpr hw.sorted.ne) _
    · obtain ⟨e, he, hc⟩ := hw.jrnFind_some hf
      exact ⟨e, mem_of_getElem? he, hc⟩
    · by_contra hf
      exact keyed_eq_none.mp (hw.keyed_none (Bool.eq_false_iff.mpr hf)) e he hc

/-- A namespace of two parts, and its key. -/
example : ∃ ns : Ns, ns.parts = [[104], [105, 106]] ∧
    canonLayout ns.parts = [2, 0, 0, 0, 1, 0, 0, 0, 2, 0, 0, 0, 104, 105, 106] :=
  ⟨⟨[[104], [105, 106]], by decide, by decide⟩, rfl, by decide⟩

/-- **A tuple whose parts fit in 32 bits and whose key does not**: its bytes are written past the
end of the buffer. -/
theorem long_key_overflows : ∃ parts, parts.length ≤ nsMaxParts ∧ parts.flatten.length < 2 ^ 32 ∧
    canonBuild parts = none := by
  refine ⟨[replicate (2 ^ 32 - 1) 0], by decide, ?_, ?_⟩
  · rw [flatten_cons, flatten_nil, append_nil, length_replicate]
    decide
  · rw [canonBuild, filled]
    rw [length_canonLayout, clip, map_singleton, length_replicate, Nat.mod_eq_of_lt (by decide),
      take_of_length_le (by rw [length_replicate]), flatten_cons, flatten_nil, append_nil,
      length_replicate]
    decide

end MoqRelay
