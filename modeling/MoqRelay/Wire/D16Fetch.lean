import Mathlib.Data.UInt
import MoqRelay.Wire.D16Buf

/-!
# Wire/D16Fetch — the items of a draft-16 fetch stream

`moq_d16_encode_fetch_object` and `moq_d16_decode_fetch_object`: an object is coded against the item
before it, an end-of-range marker takes its subgroup and priority from there.  An item is decoded to
itself behind the item it was encoded against (`coded_encodeFetchObject`), and the induction over a
stream carries that item on both sides.  The decoder adds one to the id before without a check, so
an id decoded from a stream can be past what a varint holds (`idsFit_iff`).
-/

namespace MoqRelay.D16

open List

open MoqRelay.Parser (Reads)

/-- `moq_d16_fetch_object_t`; `endOfRange` is `range_kind` where `is_end_of_range`. -/
structure FetchItem where
  endOfRange : Option UInt32 := none
  groupId : UInt64 := 0
  subgroupId : UInt64 := 0
  objectId : UInt64 := 0
  publisherPriority : UInt8 := 0
  extensions : Bytes := []
  payload : Bytes := []
  deriving DecidableEq, Repr

/-- `MOQ_D16_FETCH_END_NON_EXISTENT`. -/
def fetchEndNonExistent : UInt64 := 0x8C

/-- `MOQ_D16_FETCH_END_UNKNOWN`. -/
def fetchEndUnknown : UInt64 := 0x10C

section

variable (flags : ℕ)

/-- `MOQ_D16_FETCH_FLAG_OBJECT_ID`. -/
def flagObjectId : Bool := flags &&& 0x04 ≠ 0

/-- `MOQ_D16_FETCH_FLAG_GROUP_ID`. -/
def flagGroupId : Bool := flags &&& 0x08 ≠ 0

/-- `MOQ_D16_FETCH_FLAG_PRIORITY`. -/
def flagPriority : Bool := flags &&& 0x10 ≠ 0

/-- `MOQ_D16_FETCH_FLAG_EXTENSIONS`. -/
def flagExtensions : Bool := flags &&& 0x20 ≠ 0

/-- `MOQ_D16_FETCH_FLAG_DATAGRAM`. -/
def flagDatagram : Bool := flags &&& 0x40 ≠ 0

/-- `MOQ_D16_FETCH_FLAG_SUBGROUP_MASK`. -/
def subgroupMode : ℕ := flags &&& 0x03

end

/-! ## Decoding -/

/-- A field that is on the wire, or comes from the item before. -/
def readOr {α : Type} (c : Bool) (p : Read α) (prior : Option α) : Read α :=
  if c then p
  else match prior with
    | some a => pure a
    | none => throw .proto

/-- The subgroup of an object. -/
def readSubgroup (flags : ℕ) (prev : Option FetchItem) : Read UInt64 :=
  if flagDatagram flags || subgroupMode flags = 0 then pure 0
  else if subgroupMode flags = 1 then readOr false (pure 0) (prev.map (·.subgroupId))
  else if subgroupMode flags = 2 then readOr false (pure 0) (prev.map (·.subgroupId + 1))
  else readVarint

/-- The fields of an object behind its flags. -/
def decodeObject (flags : ℕ) (prev : Option FetchItem) : Read FetchItem := do
  failWhen (flags ≥ 128) .proto
  failWhen (prev.isNone && !(flagGroupId flags && flagObjectId flags && flagPriority flags)) .proto
  let groupId ← readOr (flagGroupId flags) readVarint (prev.map (·.groupId))
  let subgroupId ← readSubgroup flags prev
  let objectId ← readOr (flagObjectId flags) readVarint (prev.map (·.objectId + 1))
  let publisherPriority ← readOr (flagPriority flags) readByte (prev.map (·.publisherPriority))
  let extensions ← readWhen (flagExtensions flags) readSpan16 []
  let payload ← readSpan16
  return { groupId, subgroupId, objectId, publisherPriority, extensions, payload }

/-- The fields of a marker behind its kind. -/
def decodeEndOfRange (kind : UInt64) (prev : Option FetchItem) : Read FetchItem := do
  let groupId ← readVarint
  let objectId ← readVarint
  return { endOfRange := some kind.toUInt32, groupId, objectId
           subgroupId := prev.elim 0 (·.subgroupId)
           publisherPriority := prev.elim 0 (·.publisherPriority) }

/-- Whether the flags of an item are those of a marker. -/
def isMarker (flags : UInt64) : Bool := flags = fetchEndNonExistent || flags = fetchEndUnknown

/-- `moq_d16_decode_fetch_object`. -/
def decodeFetchObject (prev : Option FetchItem) : Read FetchItem := do
  let flags ← readVarint
  if isMarker flags then decodeEndOfRange flags prev
  else decodeObject flags.toNat prev

/-- One item after another, each with the one before it as context. -/
def decodeItems : ℕ → Option FetchItem → Bytes → Except D22Error (List FetchItem)
  | _, _, [] => .ok []
  | 0, _, _ :: _ => .error .buffer
  | n + 1, prev, b :: d => do
    let x ← decodeFetchObject prev (b :: d)
    let items ← decodeItems n (some x.1) x.2
    return x.1 :: items

/-- All items of a stream; each has an octet at least. -/
def decodeStream (d : Bytes) : Except D22Error (List FetchItem) := decodeItems d.length none d

/-! ## Encoding -/

/-- The subgroup mode of an object behind another item. -/
def priorSubgroupMode (obj p : FetchItem) : ℕ :=
  if obj.subgroupId = 0 then 0
  else if obj.subgroupId = p.subgroupId then 1
  else if obj.subgroupId = p.subgroupId + 1 then 2
  else 3

/-- The flags of `moq_d16_encode_fetch_object`. -/
def fetchFlags (obj : FetchItem) (prev : Option FetchItem) : ℕ :=
  let fields := match prev with
    | none => 0x08 ||| 0x04 ||| 0x10 ||| (if obj.subgroupId ≠ 0 then 3 else 0)
    | some p =>
      (if obj.groupId ≠ p.groupId then 0x08 else 0) |||
        (if obj.objectId ≠ p.objectId + 1 then 0x04 else 0) |||
        (if obj.publisherPriority ≠ p.publisherPriority then 0x10 else 0) |||
        priorSubgroupMode obj p
  fields ||| (if obj.extensions.length > 0 then 0x20 else 0)

/-- `moq_d16_encode_fetch_end_of_range`. -/
def encodeFetchEndOfRange (kind : UInt32) (groupId objectId : UInt64) : Write Unit := do
  refuse16 (kind ≠ fetchEndNonExistent.toUInt32 && kind ≠ fetchEndUnknown.toUInt32) .inval
  let saved ← writerPos
  writeVarint kind.toNat
  rewind saved (writeVarint groupId.toNat)
  rewind saved (writeVarint objectId.toNat)

/-- The part of `moq_d16_encode_fetch_object` behind its flags. -/
def encodeFields (flags : ℕ) (obj : FetchItem) (saved : ℕ) : Write Unit := do
  putWhen (flagGroupId flags) (rewind saved (writeVarint obj.groupId.toNat))
  putWhen (subgroupMode flags = 3) (rewind saved (writeVarint obj.subgroupId.toNat))
  putWhen (flagObjectId flags) (rewind saved (writeVarint obj.objectId.toNat))
  putWhen (flagPriority flags) (rewind saved (writeOctets [obj.publisherPriority]))
  putWhen (flagExtensions flags) do
    rewind saved (writeVarint obj.extensions.length)
    putWhen (obj.extensions.length > 0) (rewind saved (writeOctets obj.extensions))
  rewind saved (writeVarint obj.payload.length)
  putWhen (obj.payload.length > 0) (rewind saved (writeOctets obj.payload))

/-- `moq_d16_encode_fetch_object`. -/
def encodeFetchObject (obj : FetchItem) (prev : Option FetchItem) : Write Unit :=
  match obj.endOfRange with
  | some kind => encodeFetchEndOfRange kind obj.groupId obj.objectId
  | none => do
    let saved ← writerPos
    writeVarint (fetchFlags obj prev)
    encodeFields (fetchFlags obj prev) obj saved

/-- One item after another, each with the one before it as context. -/
def encodeItems : Option FetchItem → List FetchItem → Write Unit
  | _, [] => pure ()
  | prev, x :: items => do
    encodeFetchObject x prev
    encodeItems (some x) items

/-! ## What an item is decoded to -/

section Item

variable {prev : Option FetchItem} {x : FetchItem}

/-- Flags by their bits. -/
def flagBits (g o p e : Bool) (m : ℕ) : ℕ :=
  (if g then 0x08 else 0) ||| (if o then 0x04 else 0) ||| (if p then 0x10 else 0) ||| m |||
    (if e then 0x20 else 0)

theorem flagBits_spec : ∀ g o p e : Bool, ∀ m < 4, flagBits g o p e m < 128 ∧
    flagDatagram (flagBits g o p e m) = false ∧ flagGroupId (flagBits g o p e m) = g ∧
    flagObjectId (flagBits g o p e m) = o ∧ flagPriority (flagBits g o p e m) = p ∧
    flagExtensions (flagBits g o p e m) = e ∧ subgroupMode (flagBits g o p e m) = m := by
  decide

/-- The mode the encoder chooses for a subgroup. -/
def itemMode (obj : FetchItem) (prev : Option FetchItem) : ℕ :=
  prev.elim (if obj.subgroupId ≠ 0 then 3 else 0) (priorSubgroupMode obj)

/-- A mode stands for what it says. -/
theorem itemMode_cases (obj : FetchItem) (prev : Option FetchItem) :
    itemMode obj prev = 0 ∧ obj.subgroupId = 0 ∨
      itemMode obj prev = 1 ∧ prev.map (·.subgroupId) = some obj.subgroupId ∨
      itemMode obj prev = 2 ∧ prev.map (·.subgroupId + 1) = some obj.subgroupId ∨
      itemMode obj prev = 3 := by
  cases prev with
  | none =>
    rw [itemMode]
    split_ifs with h
    · exact .inr (.inr (.inr rfl))
    · exact .inl ⟨rfl, not_not.mp h⟩
  | some p =>
    rw [itemMode, Option.elim_some, priorSubgroupMode]
    split_ifs with h0 h1 h2
    · exact .inl ⟨rfl, h0⟩
    · exact .inr (.inl ⟨rfl, congrArg some h1.symm⟩)
    · exact .inr (.inr (.inl ⟨rfl, congrArg some h2.symm⟩))
    · exact .inr (.inr (.inr rfl))

/-- **The flags of an object say which fields are there**: those that do not follow from the item
before. -/
theorem fetchFlags_eq (obj : FetchItem) (prev : Option FetchItem) :
    fetchFlags obj prev = flagBits (some obj.groupId ≠ prev.map (·.groupId))
      (some obj.objectId ≠ prev.map (·.objectId + 1))
      (some obj.publisherPriority ≠ prev.map (·.publisherPriority))
      (obj.extensions.length > 0) (itemMode obj prev) := by
  cases prev with
  | none | some p => simp [fetchFlags, flagBits, itemMode]

variable {c : Bool} {b : Bytes} {flags : ℕ}

theorem coded_or {α : Type} {m : Write Unit} {p : Read α} {o : Option α} {a : α}
    (hm : Coded m p a) (hprior : c = false → o = some a) :
    Coded (putWhen c m) (readOr c p o) a := by
  cases c with
  | false =>
    rw [hprior rfl]
    exact CodedOn.pure a
  | true => exact hm

/-- The subgroup is read back in every mode. -/
theorem coded_subgroup (saved : ℕ) (hdatagram : flagDatagram flags = false)
    (hmode : subgroupMode flags = itemMode x prev) :
    Coded (putWhen (subgroupMode flags = 3) (rewind saved (writeVarint x.subgroupId.toNat)))
      (readSubgroup flags prev) x.subgroupId := by
  rw [readSubgroup, hdatagram, hmode]
  rcases itemMode_cases x prev with ⟨hm, hs⟩ | ⟨hm, hs⟩ | ⟨hm, hs⟩ | hm
  · rw [hm, hs]
    exact CodedOn.pure 0
  · rw [hm, hs]
    exact CodedOn.pure _
  · rw [hm, hs]
    exact CodedOn.pure _
  · rw [hm]
    exact (coded_writeVarint _).rewind saved

/-- Octets behind their number. -/
theorem coded_span (saved : ℕ) (b : Bytes) :
    Coded (do
      rewind saved (writeVarint b.length)
      putWhen (b.length > 0) (rewind saved (writeOctets b))) readSpan16 b := by
  intro w w' h
  obtain ⟨_, w₁, hlen, h⟩ := write_bind_eq_ok h
  obtain ⟨hmax, hw⟩ := writeVarint_eq_ok (rewind_eq_ok hlen)
  refine ⟨_, hw.trans ?_, fun r _ => readSpan16_reads hmax r⟩
  have hb := ((puts_writeOctets b).rewind saved).when (b.length > 0) w₁ w' h
  cases b with
  | nil | cons a b => exact hb

theorem itemMode_lt (obj : FetchItem) (prev : Option FetchItem) : itemMode obj prev < 4 := by
  rcases itemMode_cases obj prev with ⟨hm, -⟩ | ⟨hm, -⟩ | ⟨hm, -⟩ | hm <;> omega

/-- **An object is decoded to itself** behind the item it was encoded against. -/
theorem coded_encodeFields (hobj : x.endOfRange = none) (saved : ℕ) :
    Coded (encodeFields (fetchFlags x prev) x saved)
      (decodeObject (fetchFlags x prev) prev) x := by
  obtain ⟨hlt, hdatagram, hg, ho, hp, he, hm⟩ :=
    flagBits_spec (some x.groupId ≠ prev.map (·.groupId))
      (some x.objectId ≠ prev.map (·.objectId + 1))
      (some x.publisherPriority ≠ prev.map (·.publisherPriority))
      (x.extensions.length > 0) (itemMode x prev) (itemMode_lt x prev)
  rw [← fetchFlags_eq] at hlt hdatagram hg ho hp he hm
  refine CodedOn.check (failWhen_reads (by simpa using hlt) _) ?_
  refine CodedOn.check (failWhen_reads ?_ _) ?_
  · cases prev with
    | none => rw [hg, ho, hp]; rfl
    | some p => rfl
  refine (coded_or ((coded_writeVarint x.groupId).rewind saved) fun hc => ?_).bind ?_
  · rw [hg] at hc
    exact (not_not.mp (of_decide_eq_false hc)).symm
  refine (coded_subgroup saved hdatagram hm).bind ?_
  refine (coded_or ((coded_writeVarint x.objectId).rewind saved) fun hc => ?_).bind ?_
  · rw [ho] at hc
    exact (not_not.mp (of_decide_eq_false hc)).symm
  refine (coded_or ((coded_writeOctet x.publisherPriority).rewind saved) fun hc => ?_).bind ?_
  · rw [hp] at hc
    exact (not_not.mp (of_decide_eq_false hc)).symm
  refine (coded_or (o := some []) (coded_span saved x.extensions) fun hc => ?_).bind ?_
  · rw [he] at hc
    exact congrArg some
      (length_eq_zero_iff.mp (Nat.le_zero.mp (not_lt.mp (of_decide_eq_false hc)))).symm
  refine (coded_span saved x.payload).map ?_
  have hitem : x = ⟨none, x.groupId, x.subgroupId, x.objectId, x.publisherPriority, x.extensions,
      x.payload⟩ := by
    rw [← hobj]
  rw [hitem]
  exact fun _ => rfl

/-- **A marker holds the subgroup and the priority of the item before it**, and nothing else but its
location. -/
def Inherits (prev : Option FetchItem) (x : FetchItem) : Prop :=
  x.endOfRange.isSome → x.subgroupId = prev.elim 0 (·.subgroupId) ∧
    x.publisherPriority = prev.elim 0 (·.publisherPriority) ∧ x.extensions = [] ∧ x.payload = []

/-- A marker is decoded to itself if it inherits. -/
theorem coded_encodeFetchEndOfRange {kind : UInt32} (hkind : x.endOfRange = some kind)
    (hinherit : Inherits prev x) :
    Coded (encodeFetchEndOfRange kind x.groupId x.objectId) (decodeFetchObject prev) x := by
  refine CodedOn.refuse fun hbad => CodedOn.saved fun saved =>
    coded_writeVarint_length kind.toNat fun c hc => ?_
  -- Only two kinds are written, and neither reads as the flags of an object.
  have hkinds : kind = fetchEndNonExistent.toUInt32 ∨ kind = fetchEndUnknown.toUInt32 := by
    by_contra hne
    rw [not_or] at hne
    simp [hne.1, hne.2] at hbad
  have hmarker : isMarker c ∧ c.toUInt32 = kind := by
    rcases hkinds with rfl | rfl
    · obtain rfl : c = fetchEndNonExistent := UInt64.toNat_inj.mp hc
      decide
    · obtain rfl : c = fetchEndUnknown := UInt64.toNat_inj.mp hc
      decide
  rw [if_pos hmarker.1]
  refine ((coded_writeVarint x.groupId).rewind saved).bind
    (((coded_writeVarint x.objectId).rewind saved).map ?_)
  obtain ⟨hsub, hprio, hext, hpay⟩ := hinherit (by rw [hkind]; rfl)
  have hitem : (⟨some kind, x.groupId, prev.elim 0 (·.subgroupId), x.objectId,
      prev.elim 0 (·.publisherPriority), [], []⟩ : FetchItem) = x := by
    rw [← hkind, ← hsub, ← hprio]
    nth_rewrite 1 [← hext]
    rw [← hpay]
  rw [hmarker.2, hitem]
  exact fun _ => rfl

/-- **An item is decoded to itself** behind the item it was encoded against. -/
theorem coded_encodeFetchObject (hinherit : Inherits prev x) :
    Coded (encodeFetchObject x prev) (decodeFetchObject prev) x := by
  rw [encodeFetchObject]
  cases hkind : x.endOfRange with
  | some kind => exact coded_encodeFetchEndOfRange hkind hinherit
  | none =>
    refine CodedOn.saved fun saved => coded_writeVarint_length _ fun c hc => ?_
    have hlt : fetchFlags x prev < 128 := by
      rw [fetchFlags_eq]
      exact (flagBits_spec _ _ _ _ _ (itemMode_lt x prev)).1
    have hobject : ¬ isMarker c := by
      rw [isMarker, Bool.or_eq_true, decide_eq_true_eq, decide_eq_true_eq]
      rintro (rfl | rfl)
      · rw [← hc] at hlt
        exact absurd hlt (by decide)
      · rw [← hc] at hlt
        exact absurd hlt (by decide)
    rw [if_neg hobject, hc]
    exact coded_encodeFields hkind saved

/-- No item is decoded from nothing. -/
theorem ne_nil_of_reads (h : Reads (decodeFetchObject prev) b x) : b ≠ [] := by
  rintro rfl
  have hnone : decodeFetchObject prev [] = .error .buffer := rfl
  exact absurd (hnone.symm.trans (h [])) nofun

end Item

/-! ## An encoding only appends -/

/-- Whatever a marker holds beyond its location, it is written as one that inherits. -/
theorem encodeFetchObject_grown {x : FetchItem} {prev : Option FetchItem} {w w' : BufWriter}
    (h : encodeFetchObject x prev w = .ok () w') : Grown w w' := by
  cases hkind : x.endOfRange with
  | none =>
    obtain ⟨b, hb, -⟩ := coded_encodeFetchObject (by simp [Inherits, hkind]) w w' h
    exact ⟨b, hb⟩
  | some kind =>
    rw [encodeFetchObject, hkind] at h
    obtain ⟨b, hb, -⟩ := coded_encodeFetchEndOfRange (x := ⟨some kind, x.groupId,
      prev.elim 0 (·.subgroupId), x.objectId, prev.elim 0 (·.publisherPriority), [], []⟩) rfl
      (fun _ => ⟨rfl, rfl, rfl, rfl⟩) w w' h
    exact ⟨b, hb⟩

theorem encodeItems_grown (items : List FetchItem) : ∀ (prev : Option FetchItem) (w w' : BufWriter),
    encodeItems prev items w = .ok () w' → Grown w w' := by
  induction items with
  | nil =>
    intro prev w w' h
    cases h
    exact Grown.refl w
  | cons x items ih =>
    intro prev w w' h
    obtain ⟨_, w₁, hx, hitems⟩ := write_bind_eq_ok h
    exact (encodeFetchObject_grown hx).trans (ih _ _ _ hitems)

/-! ## Streams of items -/

/-- Every marker of a list inherits. -/
def MarkersInherit : Option FetchItem → List FetchItem → Prop
  | _, [] => True
  | prev, x :: items => Inherits prev x ∧ MarkersInherit (some x) items

variable {n : ℕ} {prev : Option FetchItem} {d r : Bytes} {x : FetchItem}
  {items : List FetchItem}

/-- The decoder on a stream that starts with an item it decodes. -/
theorem decodeItems_cons (hne : d ≠ []) (h : decodeFetchObject prev d = .ok (x, r)) :
    decodeItems (n + 1) prev d = (decodeItems n (some x) r).map (x :: ·) := by
  cases d with
  | nil => exact absurd rfl hne
  | cons b d =>
    rw [decodeItems, h]
    cases hr : decodeItems n (some x) r with
    | ok items | error e => simp only [bind, Except.bind, hr]; rfl

theorem decodeItems_eq_ok (h : decodeItems (n + 1) prev d = .ok items) :
    d = [] ∧ items = [] ∨ ∃ x r rest, d ≠ [] ∧ decodeFetchObject prev d = .ok (x, r) ∧
      decodeItems n (some x) r = .ok rest ∧ items = x :: rest := by
  cases d with
  | nil => exact .inl ⟨rfl, (Except.ok.inj h).symm⟩
  | cons b d =>
    obtain ⟨⟨x, r⟩, hx, h⟩ := except_bind_eq_ok h
    obtain ⟨rest, hrest, h⟩ := except_bind_eq_ok h
    exact .inr ⟨x, r, rest, cons_ne_nil _ _, hx, hrest, (Except.ok.inj h).symm⟩

/-- Without fuel only the empty stream is decoded. -/
theorem decodeItems_zero (h : decodeItems 0 prev d = .ok items) : items = [] := by
  cases d with
  | nil => exact (Except.ok.inj h).symm
  | cons b d => cases h

/-- **What was encoded is decoded**, the induction carrying the item before on both sides. -/
theorem decodeItems_encodeItems (items : List FetchItem) :
    ∀ (prev : Option FetchItem) (w w' : BufWriter), MarkersInherit prev items →
      encodeItems prev items w = .ok () w' →
      ∃ b, Wrote w w' b ∧ ∀ n, b.length ≤ n → decodeItems n prev b = .ok items := by
  induction items with
  | nil =>
    intro prev w w' _ h
    cases h
    exact ⟨[], Wrote.refl w, fun n _ => by cases n <;> rfl⟩
  | cons x items ih =>
    intro prev w w' hinherit h
    obtain ⟨_, w₁, hx, hitems⟩ := write_bind_eq_ok h
    obtain ⟨b, hb, hreads⟩ := coded_encodeFetchObject hinherit.1 w w₁ hx
    have hne := ne_nil_of_reads fun r => hreads r trivial
    obtain ⟨c, hc, hdecode⟩ := ih (some x) w₁ w' hinherit.2 hitems
    refine ⟨b ++ c, hb.trans hc, fun n hn => ?_⟩
    have hpos := length_pos_iff.mpr hne
    rw [length_append] at hn
    obtain ⟨m, rfl⟩ : ∃ m, n = m + 1 := ⟨n - 1, by omega⟩
    rw [decodeItems_cons (by simp [hne]) (hreads c trivial), hdecode m (by omega)]
    rfl

/-! ## What a decoded item is -/

/-- A field is read, or comes from the item before. -/
theorem readOr_eq_ok {α : Type} {c : Bool} {p : Read α} {prior : Option α}
    {a : α} (h : readOr c p prior d = .ok (a, r)) :
    c ∧ p d = .ok (a, r) ∨ c = false ∧ prior = some a := by
  cases c with
  | true => exact .inl ⟨rfl, h⟩
  | false =>
    cases prior with
    | none => cases h
    | some b =>
      obtain ⟨rfl, -⟩ := Prod.mk.inj (Except.ok.inj h)
      exact .inr ⟨rfl, rfl⟩

variable {flags : ℕ} {v : UInt64}

/-- The subgroup is one past the one before in one mode only. -/
theorem readSubgroup_eq_ok (h : readSubgroup flags prev d = .ok (v, r)) :
    flagDatagram flags = false ∧ subgroupMode flags = 2 ∧
        prev.map (·.subgroupId + 1) = some v ∨
      ¬ (flagDatagram flags = false ∧ subgroupMode flags = 2) ∧
        (v.toNat ≤ quicVarintMax ∨ prev.map (·.subgroupId) = some v) := by
  rw [readSubgroup] at h
  split_ifs at h with hzero h1 h2
  · obtain ⟨rfl, -⟩ := Prod.mk.inj (Except.ok.inj h)
    refine .inr ⟨fun hm => ?_, .inl (Nat.zero_le _)⟩
    simp [hm.1, hm.2] at hzero
  · obtain ⟨hc, -⟩ | ⟨-, hprior⟩ := readOr_eq_ok h
    · cases hc
    · exact .inr ⟨by omega, .inr hprior⟩
  · obtain ⟨hc, -⟩ | ⟨-, hprior⟩ := readOr_eq_ok h
    · cases hc
    · exact .inl ⟨by simp_all, h2, hprior⟩
  · exact .inr ⟨fun hm => h2 hm.2, .inl (readVarint_eq_ok h).1⟩

/-- What an object is decoded to. -/
theorem decodeObject_eq_ok (h : decodeObject flags prev d = .ok (x, r)) :
    x.endOfRange = none ∧
      (flagObjectId flags ∧ x.objectId.toNat ≤ quicVarintMax ∨
        flagObjectId flags = false ∧ prev.map (·.objectId + 1) = some x.objectId) ∧
      ∃ d' r', readSubgroup flags prev d' = .ok (x.subgroupId, r') := by
  obtain ⟨_, s₁, -, h₁⟩ := Parser.bind_eq_ok h
  obtain ⟨_, s₂, -, h₂⟩ := Parser.bind_eq_ok h₁
  obtain ⟨_, s₃, -, h₃⟩ := Parser.bind_eq_ok h₂
  obtain ⟨_, s₄, hsub, h₄⟩ := Parser.bind_eq_ok h₃
  obtain ⟨_, s₅, hobject, h₅⟩ := Parser.bind_eq_ok h₄
  obtain ⟨_, s₆, -, h₆⟩ := Parser.bind_eq_ok h₅
  obtain ⟨_, s₇, -, h₇⟩ := Parser.bind_eq_ok h₆
  obtain ⟨_, s₈, -, h₈⟩ := Parser.bind_eq_ok h₇
  obtain ⟨rfl, -⟩ := Prod.mk.inj (Except.ok.inj h₈)
  refine ⟨rfl, ?_, _, _, hsub⟩
  obtain ⟨hc, hread⟩ | ⟨hc, hprior⟩ := readOr_eq_ok hobject
  · exact .inl ⟨hc, (readVarint_eq_ok hread).1⟩
  · exact .inr ⟨hc, hprior⟩

/-- What an item is decoded to: a marker that inherits, or an object. -/
theorem decodeFetchObject_eq_ok (h : decodeFetchObject prev d = .ok (x, r)) :
    ∃ flags s, readVarint d = .ok (flags, s) ∧
      (isMarker flags ∧ x.objectId.toNat ≤ quicVarintMax ∧
          x.subgroupId = prev.elim 0 (·.subgroupId) ∧ Inherits prev x ∨
        isMarker flags = false ∧ decodeObject flags.toNat prev s = .ok (x, r)) := by
  obtain ⟨flags, s, hflags, hx⟩ := Parser.bind_eq_ok h
  refine ⟨flags, s, hflags, ?_⟩
  by_cases hmarker : isMarker flags
  · rw [if_pos hmarker] at hx
    obtain ⟨g, s₁, -, hx₁⟩ := Parser.bind_eq_ok hx
    obtain ⟨o, s₂, ho, hx₂⟩ := Parser.bind_eq_ok hx₁
    obtain ⟨rfl, -⟩ := Prod.mk.inj (Except.ok.inj hx₂)
    exact .inl ⟨hmarker, (readVarint_eq_ok ho).1, rfl, fun _ => ⟨rfl, rfl, rfl, rfl⟩⟩
  · rw [if_neg hmarker] at hx
    exact .inr ⟨Bool.not_eq_true _ ▸ hmarker, hx⟩

/-- A decoded marker takes what it inherits from the item before. -/
theorem inherits_of_decode (h : decodeFetchObject prev d = .ok (x, r)) : Inherits prev x := by
  obtain ⟨flags, s, -, ⟨-, -, -, hinherit⟩ | ⟨-, hobject⟩⟩ := decodeFetchObject_eq_ok h
  · exact hinherit
  · intro hsome
    rw [(decodeObject_eq_ok hobject).1] at hsome
    cases hsome

theorem markersInherit_of_decode (n : ℕ) : ∀ (prev : Option FetchItem) (d : Bytes)
    (items : List FetchItem), decodeItems n prev d = .ok items → MarkersInherit prev items := by
  induction n with
  | zero =>
    intro prev d items h
    rw [decodeItems_zero h]
    trivial
  | succ n ih =>
    intro prev d items h
    obtain ⟨-, rfl⟩ | ⟨x, r, rest, -, hx, hrest, rfl⟩ := decodeItems_eq_ok h
    · trivial
    · exact ⟨inherits_of_decode hx, ih _ _ _ hrest⟩

/-! ## Ids past a varint -/

/-- The ids of an item are what a varint can hold. -/
def IdsFit (x : FetchItem) : Prop :=
  x.objectId.toNat ≤ quicVarintMax ∧ x.subgroupId.toNat ≤ quicVarintMax

/-- The flags of an object say one past an id that is the largest already. -/
def codedPastMax (flags : ℕ) (prev : Option FetchItem) : Bool :=
  prev.any fun p =>
    !flagObjectId flags && p.objectId.toNat = quicVarintMax ||
      !flagDatagram flags && subgroupMode flags = 2 && p.subgroupId.toNat = quicVarintMax

/-- The next item of a stream is an object coded past the largest id. -/
def itemPastMax (prev : Option FetchItem) (d : Bytes) : Bool :=
  match readVarint d with
  | .ok (flags, _) => !isMarker flags && codedPastMax flags.toNat prev
  | .error _ => false

/-- No item of a stream is. -/
def streamInside : ℕ → Option FetchItem → Bytes → Bool
  | 0, _, _ => true
  | n + 1, prev, d =>
    match decodeFetchObject prev d with
    | .ok (x, r) => !itemPastMax prev d && streamInside n (some x) r
    | .error _ => true

/-- One past an id that fits. -/
theorem succ_fits (h : v.toNat ≤ quicVarintMax) :
    (v + 1).toNat ≤ quicVarintMax ↔ v.toNat ≠ quicVarintMax := by
  rw [UInt64.toNat_add, quicVarintMax] at *
  have hone : (1 : UInt64).toNat = 1 := rfl
  omega

theorem idsFit_iff
    (hprev : ∀ p, prev = some p → IdsFit p) (h : decodeFetchObject prev d = .ok (x, r)) :
    IdsFit x ↔ itemPastMax prev d = false := by
  obtain ⟨flags, s, hflags, ⟨hmarker, homax, hsub, -⟩ | ⟨hmarker, hobject⟩⟩ :=
    decodeFetchObject_eq_ok h
  · rw [itemPastMax, hflags]
    simp only [hmarker, Bool.not_true, Bool.false_and, iff_true]
    refine ⟨homax, ?_⟩
    rw [hsub]
    cases prev with
    | none => exact Nat.zero_le _
    | some p => exact (hprev p rfl).2
  · rw [itemPastMax, hflags]
    obtain ⟨-, hobj, d', r', hsubgroup⟩ := decodeObject_eq_ok hobject
    have hsub := readSubgroup_eq_ok hsubgroup
    simp only [hmarker, Bool.not_false, Bool.true_and, IdsFit]
    cases prev with
    | none =>
      simp only [Option.map_none, reduceCtorEq, and_false, or_false, false_or] at hobj hsub
      simp only [codedPastMax, Option.any_none, iff_true]
      exact ⟨hobj.2, hsub.2⟩
    | some p =>
      obtain ⟨hpo, hps⟩ := hprev p rfl
      simp only [Option.map_some, Option.some.injEq] at hobj hsub
      have hobjIff : x.objectId.toNat ≤ quicVarintMax ↔
          (!flagObjectId flags.toNat && decide (p.objectId.toNat = quicVarintMax)) = false := by
        obtain ⟨hc, hmax⟩ | ⟨hc, hnext⟩ := hobj
        · simp [hc, hmax]
        · rw [← hnext, succ_fits hpo, hc]
          simp
      have hsubIff : x.subgroupId.toNat ≤ quicVarintMax ↔
          (!flagDatagram flags.toNat && decide (subgroupMode flags.toNat = 2) &&
            decide (p.subgroupId.toNat = quicVarintMax)) = false := by
        obtain ⟨hd, hm, hnext⟩ | ⟨hother, hfits⟩ := hsub
        · rw [← hnext, succ_fits hps, hd, hm]
          simp
        · have hle : x.subgroupId.toNat ≤ quicVarintMax := by
            obtain hmax | hsame := hfits
            · exact hmax
            · rwa [← hsame]
          have hmode : (!flagDatagram flags.toNat && decide (subgroupMode flags.toNat = 2)) =
              false := by
            by_contra hne
            refine hother ?_
            simpa using hne
          rw [hmode]
          simpa using hle
      rw [hobjIff, hsubIff, codedPastMax, Option.any_some, Bool.or_eq_false_iff]

theorem idsFit_items_iff (n : ℕ) : ∀ (prev : Option FetchItem) (d : Bytes)
    (items : List FetchItem), (∀ p, prev = some p → IdsFit p) →
    decodeItems n prev d = .ok items →
    ((∀ x ∈ items, IdsFit x) ↔ streamInside n prev d) := by
  induction n with
  | zero =>
    intro prev d items _ h
    rw [decodeItems_zero h]
    simp [streamInside]
  | succ n ih =>
    intro prev d items hprev h
    obtain ⟨rfl, rfl⟩ | ⟨x, r, rest, -, hx, hrest, rfl⟩ := decodeItems_eq_ok h
    · have hnone : decodeFetchObject prev [] = .error .buffer := rfl
      simp [streamInside, hnone]
    · rw [forall_mem_cons, idsFit_iff hprev hx, streamInside, hx]
      simp only [Bool.and_eq_true, Bool.not_eq_true']
      refine and_congr_right fun hinside => ?_
      have hfit : IdsFit x := (idsFit_iff hprev hx).mpr hinside
      exact ih (some x) r rest (fun p hp => by rw [← Option.some.inj hp]; exact hfit) hrest

/-- **Draft-16 fetch items, both ways.**  What the encoder accepts item by item is decoded item by
item to the same list, to the last octet, exactly when every marker of the list holds the subgroup
and the priority of the item before it.  And the object and subgroup ids decoded from any stream are
what a varint can hold exactly when no object of the stream is coded as one past the largest id: the
decoder adds one without a check. -/
theorem decodeStream_encodeItems (items : List FetchItem) (w : BufWriter) (d : Bytes) :
    (∀ w', encodeItems none items w = .ok () w' →
      ∃ b, Wrote w w' b ∧ (decodeStream b = .ok items ↔ MarkersInherit none items)) ∧
    ∀ decoded, decodeStream d = .ok decoded →
      ((∀ x ∈ decoded, x.objectId.toNat ≤ quicVarintMax ∧ x.subgroupId.toNat ≤ quicVarintMax) ↔
        streamInside d.length none d) := by
  refine ⟨fun w' h => ?_, fun decoded h => ?_⟩
  · by_cases hinherit : MarkersInherit none items
    · obtain ⟨b, hb, hdecode⟩ := decodeItems_encodeItems items none w w' hinherit h
      exact ⟨b, hb, iff_of_true (hdecode _ le_rfl) hinherit⟩
    · obtain ⟨b, hb⟩ := encodeItems_grown items none w w' h
      refine ⟨b, hb, iff_of_false (fun hdecode => hinherit ?_) hinherit⟩
      exact markersInherit_of_decode _ _ _ _ hdecode
  · exact idsFit_items_iff d.length none d decoded (fun p hp => by cases hp) h

/-- An object with the largest id, and one behind it without an id of its own. -/
theorem decodeStream_past_max : ∃ x y,
    decodeStream [0x1C, 0x00, 0xFF, 0xFF, 0xFF, 0xFF, 0xFF, 0xFF, 0xFF, 0xFF, 0x80, 0x00,
      0x00, 0x00] = .ok [x, y] ∧ x.objectId.toNat = quicVarintMax ∧
      y.objectId.toNat = quicVarintMax + 1 := by
  refine ⟨{ objectId := 0x3FFFFFFFFFFFFFFF, publisherPriority := 0x80 },
    { objectId := 0x4000000000000000, publisherPriority := 0x80 }, ?_, ?_, ?_⟩
  iterate 3 decide +kernel

end MoqRelay.D16
