import MoqRelay.Wire.D22Params

/-!
# Wire/D22ParamTrip — draft-22 parameters, written and read back

Every reader of a parameter is self-delimiting.  A value is written as octets that do not depend on
the writer, and the reader makes of these octets the value again, as far as the value's type carries
it; so a block of parameters that decodes yields, one by one, the parameters it was written from.
-/

namespace MoqRelay

open MoqRelay.Parser List

/-! ## Readers do not depend on what follows -/

theorem decodeLocationFilter_stable : Stable decodeLocationFilter := by
  refine readVi64_stable.bind fun code => (failWhen_stable _ _).bind fun _ => ?_
  refine (readWhen_stable _ readVi64_stable _).bind fun _ => ?_
  refine (readWhen_stable _ readVi64_stable _).bind fun _ => ?_
  refine (readWhen_stable _ readVi64_stable _).bind fun _ => ?_
  refine (failWhen_stable _ _).bind fun _ => ?_
  refine (readWhen_stable _ readVi64_stable _).bind fun _ => ?_
  cases D22FilterType.ofCode code with
  | none => exact .throw _
  | some type => exact .pure _

theorem readNsFields_stable (n valueBytes : ℕ) : Stable (readNsFields n valueBytes) := by
  induction n generalizing valueBytes with
  | zero => exact .pure _
  | succ n ih => exact (readSpan_stable _).bind fun _ => (failWhen_stable _ _).bind fun _ => ih _

theorem decodeNamespace_stable : Stable decodeNamespace := by
  have hbody : Stable readNsBody :=
    readVi64_stable.bind fun _ => (failWhen_stable _ _).bind fun _ =>
      (withSpan_stable (readNsFields_stable _ _)).bind fun _ => .pure _
  exact (withSpan_stable hbody).bind fun _ => .pure _

theorem scanValue_stable (type : UInt64) : Stable (scanValue type) := by
  rw [scanValue]
  have hspan := readSpan_stable uint16Max
  cases paramKind type with
  | none => exact .throw _
  | some kind =>
    cases kind with
    | integer => exact readVi64_stable.bind fun _ => .pure _
    | hopPath | token => exact hspan.bind fun _ => (Stable.ofExcept _).bind fun _ => .pure _
    | location => exact readVi64_stable.bind fun _ => readVi64_stable.bind fun _ => .pure _
    | byte => exact readByte_stable.bind fun _ => (failWhen_stable _ _).bind fun _ => .pure _
    | filter => exact decodeLocationFilter_stable.bind fun _ => .pure _
    | fill => exact hspan.bind fun _ => .pure _
    | ranges => exact hspan.bind fun _ => (Stable.ofExcept _).bind fun _ => .pure _
    | ns => exact decodeNamespace_stable.bind fun _ => .pure _

theorem scanParam_stable (legal : ℕ) (previous : UInt64) : Stable (scanParam legal previous) :=
  readVi64_stable.bind fun _ => (failWhen_stable _ _).bind fun _ =>
    (failWhen_stable _ _).bind fun _ => scanValue_stable _

theorem sequenceLoop_stable (fill : Bytes → Except D22Error Bool) (legal : ℕ) (max : UInt64)
    (n : ℕ) : ∀ previous v invalid, Stable (sequenceLoop fill legal max n previous v invalid) := by
  induction n with
  | zero => exact fun _ _ _ => .pure _
  | succ n ih =>
    exact fun _ _ _ => (withSpan_stable (scanParam_stable _ _)).bind fun _ =>
      (Stable.ofExcept _).bind fun _ => ih _ _ _

/-! ## Location filters -/

/-- An integer that some values go without. -/
def octetsWhen (c : Bool) (v : UInt64) : Bytes := if c then vi64Encode v.toNat else []

theorem readWhenVi64_reads (c : Bool) (v : UInt64) :
    Reads (readWhen c readVi64 0) (octetsWhen c v) (if c then v else 0) := by
  cases c with
  | false => exact .pure 0
  | true => exact readVi64_vi64Encode v

variable {w w' : BufWriter}

theorem writeWhenVi64_wrote {c : Bool} {v : UInt64}
    (h : writeWhen c (writeVi64 · v) w = .ok w') : Wrote w w' (octetsWhen c v) :=
  writeWhen_wrote (fun _ => writeVi64_wrote) h

theorem ofCode_code (t : D22FilterType) : D22FilterType.ofCode t.code = some t := by
  cases t <;> decide

/-- A location filter with the members its type does not select at zero. -/
def D22LocationFilter.active (f : D22LocationFilter) : D22LocationFilter where
  type := f.type
  startGroup := if 1 ≤ f.type.code && f.type.code ≤ 4 then f.startGroup else 0
  startObject := if 2 ≤ f.type.code && f.type.code ≤ 4 then f.startObject else 0
  endGroupDelta := if 3 ≤ f.type.code && f.type.code ≤ 4 then f.endGroupDelta else 0
  endObject := if f.type.code = 4 then f.endObject else 0

theorem writeWhenVi64_writes (c : Bool) (v : UInt64) : Writes (writeWhen c (writeVi64 · v)) fun b =>
    Reads (readWhen c readVi64 0) b (if c then v else 0) :=
  fun _ _ h => ⟨_, writeWhenVi64_wrote h, readWhenVi64_reads c v⟩

/-- **A location filter is read back** with the members its type selects. -/
theorem encodeLocationFilter_writes (f : D22LocationFilter) :
    Writes (encodeLocationFilter · f) fun b => Reads decodeLocationFilter b f.active := by
  refine .check fun _ hfits => (writeVi64_writes _).bind fun _ hcode => ?_
  refine (writeWhenVi64_writes _ _).bind fun _ hsg => ?_
  refine (writeWhenVi64_writes _ _).bind fun _ hso => ?_
  refine (writeWhenVi64_writes _ _).bind fun _ heg => ?_
  refine (writeWhenVi64_writes _ _).mono fun _ heo => ?_
  refine hcode.bind (.check (failWhen_reads ?_ _) ?_)
  · cases f.type <;> rfl
  refine hsg.bind (hso.bind (heg.bind (.check (failWhen_reads ?_ _) (heo.last ?_))))
  · revert hfits
    cases f.type <;> simp [D22FilterType.code]
  · rw [ofCode_code]
    simp only [D22LocationFilter.active, decide_eq_true_eq]
    exact .pure _

/-! ## Spans -/

/-- The octets of a span. -/
def spanOctets (b : Bytes) : Bytes := vi64Encode b.length ++ b

variable {n : ℕ} {b : Bytes}

theorem writeLength_wrote (hn : n ≤ uint16Max)
    (h : writeVi64 w (UInt64.ofNat n) = .ok w') : Wrote w w' (vi64Encode n) := by
  have := writeVi64_wrote h
  rwa [toNat_ofNat_of_le hn] at this

/-- A span that is written fits its limit. -/
theorem writeSpan_wrote {limit : ℕ} (hlim : limit ≤ uint16Max)
    (h : writeSpan w b limit = .ok w') : b.length ≤ limit ∧ Wrote w w' (spanOctets b) := by
  obtain ⟨_, hb, h⟩ := except_bind_eq_ok h
  obtain ⟨w₁, h₁, h⟩ := except_bind_eq_ok h
  have hle : b.length ≤ limit := by simpa using refuse_eq_ok hb
  exact ⟨hle, (writeLength_wrote (hle.trans hlim) h₁).trans (writeRaw_wrote h)⟩

/-! ## Namespaces -/

variable {ns : D22Namespace}

/-- The octets a namespace reports are those it was read from. -/
theorem decodeNamespace_encoded (h : decodeNamespace b = .ok (ns, [])) : ns.encoded = b := by
  obtain ⟨⟨x, octets⟩, s, hx, hns⟩ := bind_eq_ok h
  cases hns
  simp [(withSpan_eq_ok hx).2]

/-- **What a namespace carries**: its octets, and what they are read as. -/
structure D22Namespace.Carries (ns got : D22Namespace) : Prop where
  encoded : got.encoded = ns.encoded
  read : decodeNamespace ns.encoded = .ok (got, [])

theorem writeNamespace_writes (ns : D22Namespace) :
    Writes (writeNamespace · ns) fun b => Gives decodeNamespace b ns.Carries := by
  intro w w' (h : writeNamespace w ns = _)
  rw [writeNamespace] at h
  split_ifs at h
  split at h
  · next got hgot =>
    refine ⟨_, writeRaw_wrote h, (decodeNamespace_stable.gives hgot).mono ?_⟩
    rintro _ rfl
    exact ⟨decodeNamespace_encoded hgot, hgot⟩
  · cases h

/-! ## Tokens -/

/-- A token with the members its alias type does not select at zero. -/
def D22Token.active (t : D22Token) : D22Token where
  aliasType := t.aliasType
  aliasId := if t.aliasType ≠ 3 then t.aliasId else 0
  type := if tokenHasValue t.aliasType then t.type else 0
  value := if tokenHasValue t.aliasType then t.value else []

/-- The octets of a token. -/
def tokenOctets (t : D22Token) : Bytes :=
  vi64Encode t.aliasType.toNat ++ (octetsWhen (t.aliasType ≠ 3) t.aliasId ++
    (octetsWhen (tokenHasValue t.aliasType) t.type ++
      if tokenHasValue t.aliasType then t.value else []))

theorem vi64Len_le_nine (v : ℕ) : vi64Len v ≤ 9 := by
  rw [vi64Len]
  split_ifs <;> omega

theorem length_octetsWhen (c : Bool) (v : UInt64) :
    (octetsWhen c v).length = if c then vi64Len v.toNat else 0 := by
  cases c with
  | false => rfl
  | true => exact length_vi64Encode _

theorem length_tokenOctets (t : D22Token) : (tokenOctets t).length =
    tokenHead t + if tokenHasValue t.aliasType then t.value.length else 0 := by
  have hvalue : (if tokenHasValue t.aliasType then t.value else []).length =
      if tokenHasValue t.aliasType then t.value.length else 0 := by split_ifs <;> rfl
  simp only [tokenOctets, tokenHead, length_append, length_vi64Encode, length_octetsWhen,
    decide_eq_true_eq, hvalue]
  omega

theorem tokenHead_le (t : D22Token) : tokenHead t ≤ 27 := by
  have h₁ := vi64Len_le_nine t.aliasType.toNat
  have h₂ := vi64Len_le_nine t.aliasId.toNat
  have h₃ := vi64Len_le_nine t.type.toNat
  rw [tokenHead]
  split_ifs <;> omega

variable {t : D22Token}

theorem encodeToken_wrote (h : encodeToken w t = .ok w') :
    (tokenOctets t).length ≤ uint16Max ∧ Wrote w w' (spanOctets (tokenOctets t)) := by
  obtain ⟨_, _, h⟩ := except_bind_eq_ok h
  obtain ⟨_, hsize, h⟩ := except_bind_eq_ok h
  obtain ⟨w₁, h₁, h⟩ := except_bind_eq_ok h
  obtain ⟨w₂, h₂, h⟩ := except_bind_eq_ok h
  obtain ⟨w₃, h₃, h⟩ := except_bind_eq_ok h
  obtain ⟨w₄, h₄, h⟩ := except_bind_eq_ok h
  have hle : (tokenOctets t).length ≤ uint16Max := by
    have hhead := tokenHead_le t
    have hval := refuse_eq_ok hsize
    rw [length_tokenOctets, uint16Max] at *
    cases hv : tokenHasValue t.aliasType with
    | false => simp; omega
    | true =>
      rw [hv] at hval
      simp at hval ⊢
      omega
  rw [← length_tokenOctets] at h₁
  have hvalue : Wrote w₄ w' (if tokenHasValue t.aliasType then t.value else []) :=
    writeWhen_wrote (fun _ => writeRaw_wrote) h
  exact ⟨hle, (writeLength_wrote hle h₁).trans <| (writeVi64_wrote h₂).trans <|
    (writeWhenVi64_wrote h₃).trans <| (writeWhenVi64_wrote h₄).trans hvalue⟩

theorem readToken_ends (t : D22Token) : Ends readToken (tokenOctets t) (· = t.active) := by
  refine (readVi64_gives _).ends fun aliasType ha => ?_
  subst ha
  refine (failWhen_gives _ _).ends fun _ _ => ?_
  refine (Gives.of_eq (readWhenVi64_reads _ _)).ends fun aliasId hi => ?_
  refine (Gives.of_eq (readWhenVi64_reads _ _)).ends fun type ht => ?_
  subst hi ht
  -- Only what remains is left, and the value is all of it.
  intro a r h
  rw [D22Token.active]
  cases hv : tokenHasValue t.aliasType <;> rw [hv] at h <;>
    rw [← (Prod.mk.inj (Except.ok.inj h)).1] <;> simp

theorem decodeToken_tokenOctets {q : D22Token} (h : decodeToken (tokenOctets t) = .ok q) :
    q = t.active := by
  rw [decodeToken] at h
  cases hr : readToken (tokenOctets t) with
  | error e => rw [hr] at h; cases h
  | ok x =>
    rw [hr] at h
    exact Except.ok.inj h ▸ readToken_ends t x.1 x.2 hr

/-! ## Range filters -/

/-- The octets of a range filter; one that is cleared has none. -/
def rangeOctets (type : UInt64) (f : D22RangeFilter) : Bytes :=
  if f.clear then []
  else f.setId :: (octetsWhen (isPropertyRange type) f.propertyType ++ f.ranges)

/-- **What a range filter carries**: nothing but itself when cleared, else its set and its ranges,
and its property where the type has one. -/
structure D22RangeFilter.Carries (type : UInt64) (f g : D22RangeFilter) : Prop where
  clear : g.clear = f.clear
  setId : f.clear = false → g.setId = f.setId
  propertyType : f.clear = false → isPropertyRange type → g.propertyType = f.propertyType
  ranges : f.clear = false → g.ranges = f.ranges

variable {type : UInt64} {f : D22RangeFilter}

theorem encodeRanges_wrote (h : encodeRanges w type f = .ok w') :
    (rangeOctets type f).length ≤ uint16Max ∧ Wrote w w' (spanOctets (rangeOctets type f)) := by
  rw [encodeRanges] at h
  rw [rangeOctets]
  by_cases hclear : f.clear
  · rw [if_pos hclear] at h ⊢
    exact ⟨Nat.zero_le _, by simpa [spanOctets] using writeVi64_wrote h⟩
  · rw [if_neg hclear] at h ⊢
    obtain ⟨_, hsize, h⟩ := except_bind_eq_ok h
    obtain ⟨w₁, h₁, h⟩ := except_bind_eq_ok h
    obtain ⟨w₂, h₂, h⟩ := except_bind_eq_ok h
    obtain ⟨w₃, h₃, h⟩ := except_bind_eq_ok h
    have hlen : (f.setId :: (octetsWhen (isPropertyRange type) f.propertyType ++ f.ranges)).length =
        1 + (if isPropertyRange type then vi64Len f.propertyType.toNat else 0) +
          f.ranges.length := by
      rw [length_cons, length_append, length_octetsWhen]
      omega
    have hhead : (if isPropertyRange type then vi64Len f.propertyType.toNat else 0) ≤ 9 := by
      have := vi64Len_le_nine f.propertyType.toNat
      split_ifs <;> omega
    have hfits := of_decide_eq_false (refuse_eq_ok hsize)
    have hle := hlen.trans_le (c := uint16Max) (by rw [uint16Max] at hfits ⊢; omega)
    rw [← hlen] at h₁
    exact ⟨hle, (writeLength_wrote hle h₁).trans <| (writeRaw_wrote h₂).trans <|
      (writeWhenVi64_wrote h₃).trans (writeRaw_wrote h)⟩

theorem decodeRanges_rangeOctets {x : D22RangeFilter × Bool}
    (h : decodeRanges type (rangeOctets type f) = .ok x) : f.Carries type x.1 := by
  rw [rangeOctets] at h
  cases hclear : f.clear with
  | true =>
    rw [hclear] at h
    cases h
    exact ⟨hclear.symm, by simp [hclear], by simp [hclear], by simp [hclear]⟩
  | false =>
    rw [hclear] at h
    simp only [Bool.false_eq_true, if_false, decodeRanges] at h
    cases hp : readWhen (isPropertyRange type) readVi64 0
        (octetsWhen (isPropertyRange type) f.propertyType ++ f.ranges) with
    | error e => rw [hp] at h; cases h
    | ok y =>
      obtain ⟨hrest, hprop⟩ := Gives.of_eq (readWhenVi64_reads _ _) _ y.1 y.2 hp
      rw [hp] at h
      dsimp only at h
      cases hs : scanRanges type y.2.length 0 y.2 with
      | error e => rw [hs] at h; cases h
      | ok z =>
        rw [hs] at h
        cases h
        exact ⟨hclear.symm, fun _ => rfl, fun _ ht => by simp [hprop, ht], fun _ => hrest⟩

/-! ## Hop paths and octets -/

/-- The octets of a hop path, from its identifiers if they are given. -/
def D22Param.hopOctets (p : D22Param) : Bytes :=
  match p.hopIds with
  | none => p.hopPath
  | some ids => ids.flatMap fun id => vi64Encode id.toNat

theorem writeHopIds_wrote (ids : List UInt64) : ∀ {w w' : BufWriter},
    writeHopIds ids w = .ok w' → Wrote w w' (ids.flatMap fun id => vi64Encode id.toNat) := by
  induction ids with
  | nil =>
    intro w w' h
    cases h
    exact Wrote.refl w
  | cons id ids ih =>
    intro w w' h
    obtain ⟨w₁, h₁, h⟩ := except_bind_eq_ok h
    exact (writeVi64_wrote h₁).trans (ih h)

variable {p : D22Param}

theorem encodeHopPath_wrote (h : encodeHopPath w p = .ok w') :
    p.hopOctets.length ≤ uint16Max ∧ Wrote w w' (spanOctets p.hopOctets) := by
  rw [encodeHopPath] at h
  rw [D22Param.hopOctets]
  cases hids : p.hopIds with
  | none =>
    rw [hids] at h
    exact writeSpan_wrote le_rfl h
  | some ids =>
    rw [hids] at h
    obtain ⟨_, _, h⟩ := except_bind_eq_ok h
    obtain ⟨_, hsize, h⟩ := except_bind_eq_ok h
    obtain ⟨w₁, h₁, h⟩ := except_bind_eq_ok h
    have hlen : (ids.flatMap fun id => vi64Encode id.toNat).length =
        (ids.map fun id => vi64Len id.toNat).sum := by
      simp [length_vi64Encode]
    rw [← hlen] at h₁ hsize
    have hle : (ids.flatMap fun id => vi64Encode id.toNat).length ≤ uint16Max :=
      Nat.le_of_not_lt (of_decide_eq_false (refuse_eq_ok hsize))
    exact ⟨hle, (writeLength_wrote hle h₁).trans (writeHopIds_wrote ids h)⟩

theorem encodeByte_wrote (h : encodeByte w p = .ok w') :
    p.integer.toUInt8.toUInt64 = p.integer ∧ Wrote w w' [p.integer.toUInt8] := by
  obtain ⟨_, hle, h⟩ := except_bind_eq_ok h
  refine ⟨?_, writeRaw_wrote h⟩
  have hbad := refuse_eq_ok hle
  simp only [Bool.or_eq_false_iff, decide_eq_false_iff_not, gt_iff_lt, UInt64.not_lt] at hbad
  have h255 : p.integer.toNat ≤ (255 : UInt64).toNat := UInt64.le_iff_toNat_le.mp hbad.1.1
  have hsmall : p.integer.toNat < 256 := Nat.lt_succ_of_le h255
  apply UInt64.toNat_inj.mp
  simp
  omega

/-! ## Values -/

/-- What the kind of a parameter carries of it. -/
def D22Param.SameValue (p q : D22Param) : D22ParamKind → Prop
  | .integer | .byte => q.integer = p.integer
  | .location => q.location = p.location
  | .filter => q.filter = p.filter.active
  | .hopPath => q.hopPath = p.hopOctets
  | .fill => q.fill = p.fill
  | .ns => p.ns.Carries q.ns
  | .token => q.token = p.token.active
  | .ranges => p.ranges.Carries p.type q.ranges

/-- **The parameter that was written, read back**: of the same type, with the same value as far as
the type carries one. -/
structure D22Param.Carries (p q : D22Param) : Prop where
  type : q.type = p.type
  value : ∀ kind, paramKind p.type = some kind → p.SameValue q kind

/-- **A value that was written is read back.** -/
theorem encodeValue_writes (p : D22Param) :
    Writes (encodeValue · p) fun b => Gives (scanValue p.type) b fun x => p.Carries x.1 := by
  intro w w' (h : encodeValue w p = _)
  rw [encodeValue] at h
  rw [scanValue]
  cases hk : paramKind p.type with
  | none => rw [hk] at h; cases h
  | some kind =>
    rw [hk] at h
    have carries : ∀ q : D22Param, q.type = p.type → p.SameValue q kind → p.Carries q := by
      intro q htype hvalue
      refine ⟨htype, fun kind' hk' => ?_⟩
      cases hk.symm.trans hk'
      exact hvalue
    cases kind with
    | integer =>
      refine ⟨_, writeVi64_wrote h, (readVi64_gives _).last fun v hv => .pure ?_⟩
      exact carries _ rfl hv
    | byte =>
      obtain ⟨hbyte, hw⟩ := encodeByte_wrote h
      refine ⟨_, hw, (readByte_gives _).last fun v hv => Gives.check (failWhen_gives _ _)
        fun _ _ => .pure ?_⟩
      exact carries _ rfl (by subst hv; exact hbyte)
    | location =>
      obtain ⟨w₁, h₁, h⟩ := except_bind_eq_ok h
      refine ⟨_, (writeVi64_wrote h₁).trans (writeVi64_wrote h), (readVi64_gives _).bind
        fun group hg => (readVi64_gives _).last fun object ho => .pure ?_⟩
      subst hg ho
      exact carries _ rfl rfl
    | filter =>
      obtain ⟨b, hw, hread⟩ := encodeLocationFilter_writes _ _ _ h
      exact ⟨b, hw, (Gives.of_eq hread).last fun f hf => .pure (carries _ rfl hf)⟩
    | hopPath =>
      obtain ⟨hle, hw⟩ := encodeHopPath_wrote h
      refine ⟨_, hw, (readSpan_gives hle _).last fun path hpath => Gives.check
        (Gives.ofExcept fun _ _ => trivial) fun _ _ => .pure ?_⟩
      exact carries _ rfl hpath
    | fill =>
      obtain ⟨hle, hw⟩ := writeSpan_wrote le_rfl h
      exact ⟨_, hw, (readSpan_gives hle _).last fun fill hfill => .pure (carries _ rfl hfill)⟩
    | ns =>
      obtain ⟨b, hw, hns⟩ := writeNamespace_writes _ _ _ h
      exact ⟨b, hw, hns.last fun ns hns => .pure (carries _ rfl hns)⟩
    | token =>
      obtain ⟨hle, hw⟩ := encodeToken_wrote h
      refine ⟨_, hw, (readSpan_gives hle _).last fun span hspan => Gives.check
        (Gives.ofExcept fun _ ht => ht) fun token ht => .pure ?_⟩
      subst hspan
      exact carries _ rfl (decodeToken_tokenOctets ht)
    | ranges =>
      obtain ⟨hle, hw⟩ := encodeRanges_wrote h
      refine ⟨_, hw, (readSpan_gives hle _).last fun span hspan => Gives.check
        (Gives.ofExcept fun _ hr => hr) fun ranges hr => .pure ?_⟩
      subst hspan
      exact carries _ rfl (decodeRanges_rangeOctets hr)

/-! ## Blocks -/

variable {previous max : UInt64} {legal : ℕ} {d : Bytes}
  {fill : Bytes → Except D22Error Bool} {v : D22Params} {invalid : Bool}

theorem paramLegal_anyParam (h : paramLegal legal type) : paramLegal anyParam type := by
  have hany : ∀ i < 64, anyParam.testBit i := by
    intro i hi
    have hall : anyParam = 2 ^ 64 - 1 := by decide +kernel
    rw [hall, Nat.testBit_two_pow_sub_one]
    exact decide_eq_true hi
  rw [paramLegal] at h ⊢
  split_ifs at h ⊢
  · exact hany 63 (by decide)
  · simp only [Bool.and_eq_true, decide_eq_true_eq] at h ⊢
    have hlt : type.toNat < 63 := UInt64.lt_iff_toNat_lt.mp h.1
    exact ⟨h.1, hany _ (by omega)⟩

/-- What a scope lets through, the iteration reads as well. -/
theorem scanParam_anyParam {r : Bytes}
    {x : D22Param × Bool} (h : scanParam legal previous d = .ok (x, r)) :
    scanParam anyParam previous d = .ok (x, r) := by
  obtain ⟨delta, s, hdelta, h⟩ := bind_eq_ok h
  obtain ⟨_, s₁, hover, h⟩ := bind_eq_ok h
  obtain ⟨_, s₂, hlegal, h⟩ := bind_eq_ok h
  have hl : paramLegal legal (previous + delta) := by
    cases hp : paramLegal legal (previous + delta) with
    | true => rfl
    | false => rw [hp] at hlegal; cases hlegal
  rw [hl] at hlegal
  rwa [scanParam, bind_of_ok hdelta, bind_of_ok hover, paramLegal_anyParam hl, bind_of_ok hlegal]

/-- A parameter that a sequence took and found valid, the iteration takes in front of anything. -/
theorem paramNext_of_withSpan {q : D22Param}
    {s : Bytes} (h : withSpan (scanParam legal previous) (b ++ d) = .ok (((q, false), s), d))
    (r : Bytes) : paramNext previous (b ++ r) = .ok (q, r) := by
  obtain ⟨hscan, -⟩ := withSpan_eq_ok h
  obtain ⟨used, hused, hall⟩ := scanParam_stable anyParam previous _ _ _ (scanParam_anyParam hscan)
  obtain rfl := append_cancel_right hused
  rw [paramNext, bind_of_ok (hall r)]
  rfl

/-- A filter that is not valid is not forgotten. -/
theorem stepVerdict_eq_false
    (h : stepVerdict fill max v invalid p = .ok false) : invalid = false := by
  cases invalid with
  | false => rfl
  | true =>
    rw [stepVerdict] at h
    split_ifs at h
    · simp [rangeVerdict] at h
    · cases hf : fill p.fill with
      | error e | ok b => rw [hf] at h; cases h
    · cases h

/-- **What one parameter adds to a sequence.** -/
theorem sequenceStep_spec {bytes : Bytes} {s : D22Params × Bool}
    (h : sequenceStep fill max v invalid p bytes = .ok s) :
    s.1.encoded = v.encoded ++ bytes ∧ s.1.count = v.count + 1 ∧
      (s.2 = false → invalid = false) := by
  obtain ⟨_, _, h⟩ := except_bind_eq_ok h
  obtain ⟨verdict, hverdict, h⟩ := except_bind_eq_ok h
  obtain ⟨_, _, h⟩ := except_bind_eq_ok h
  cases h
  refine ⟨rfl, rfl, fun hs => stepVerdict_eq_false (hverdict.trans ?_)⟩
  exact congrArg Except.ok hs

/-- The parameters of a block, one by one. -/
inductive Iterates : UInt64 → Bytes → List D22Param → Prop
  | nil (previous : UInt64) : Iterates previous [] []
  | cons {previous : UInt64} {b d : Bytes} {q : D22Param} {qs : List D22Param}
      (hq : ∀ r, paramNext previous (b ++ r) = .ok (q, r)) (hqs : Iterates q.type d qs) :
      Iterates previous (b ++ d) (q :: qs)

theorem paramList_of_iterates {qs : List D22Param}
    (h : Iterates previous d qs) : ∀ n, d.length ≤ n → paramList n previous d = .ok qs := by
  induction h with
  | nil previous =>
    intro n _
    cases n <;> rfl
  | @cons previous b d q qs hq _ ih =>
    intro n hn
    have hb : b ≠ [] := by
      rintro rfl
      cases hq []
    have hpos := length_pos_iff.mpr hb
    rw [length_append] at hn
    cases n with
    | zero => omega
    | succ n =>
      rw [paramList, if_neg (by simp [hb]), hq]
      simp only [ih n (by omega), Except.map]

/-- **A block is read back**: if it decodes, just its octets are read, and if no filter of it is
invalid the iteration yields what was written, in order. -/
def BlockOf (previous : UInt64) (ps : List D22Param) (b : Bytes) : Prop :=
  ∀ fill legal max v invalid,
    Gives (sequenceLoop fill legal max ps.length previous v invalid) b fun s =>
      s.1.encoded = v.encoded ++ b ∧ s.1.count = v.count + ps.length ∧
        (s.2 = false → invalid = false ∧
          ∃ qs, Iterates previous b qs ∧ List.Forall₂ D22Param.Carries ps qs)

theorem BlockOf.cons {ps : List D22Param} {c : Bytes}
    (hscan : ∀ legal, Gives (scanParam legal previous) b fun x => p.Carries x.1)
    (hrest : BlockOf p.type ps c) : BlockOf previous (p :: ps) (b ++ c) := by
  intro fill legal max v invalid r s r' h
  rw [append_assoc] at h
  obtain ⟨x, t, hx, h⟩ := bind_eq_ok h
  obtain ⟨rfl, hcarries, hspan⟩ := withSpan_gives (hscan legal) _ x t hx
  obtain ⟨step, t, htake, h⟩ := bind_eq_ok h
  obtain ⟨hstep, rfl⟩ := ofExcept_eq_ok htake
  obtain ⟨henc, hcount, hvalid⟩ := sequenceStep_spec hstep
  rw [hcarries.type] at h
  obtain ⟨rfl, henc', hcount', hvalid'⟩ := hrest fill legal max step.1 step.2 r s r' h
  refine ⟨rfl, ?_, ?_, fun hs => ?_⟩
  · rw [henc', henc, hspan, append_assoc]
  · rw [length_cons]
    omega
  · obtain ⟨hs₂, qs, hqs, hall⟩ := hvalid' hs
    have hinv := hvalid hs₂
    rw [Bool.or_eq_false_iff] at hinv
    refine ⟨hinv.1, x.1.1 :: qs, ?_, .cons hcarries hall⟩
    obtain ⟨⟨q, bad⟩, span⟩ := x
    obtain rfl : bad = false := hinv.2
    refine .cons (paramNext_of_withSpan hx) ?_
    rwa [hcarries.type]

theorem encodeParamLoop_writes {start : ℕ} (ps : List D22Param) :
    ∀ previous, Writes (encodeParamLoop legal start ps previous) (BlockOf previous ps) := by
  induction ps with
  | nil =>
    rintro previous w _ ⟨⟩
    exact ⟨[], .refl w, fun _ _ _ _ _ =>
      .pure ⟨(append_nil _).symm, rfl, fun h => ⟨h, [], .nil previous, .nil⟩⟩⟩
  | cons p ps ih =>
    intro previous
    refine .check fun _ _ => .check fun _ _ => (writeVi64_writes _).bind fun _ hdelta => ?_
    refine (encodeValue_writes p).bind fun _ hvalue => .check fun _ _ =>
      (ih p.type).mono fun _ hps => ?_
    rw [← append_assoc]
    refine .cons (fun legal => (Gives.of_eq hdelta).bind fun delta hd => ?_) hps
    have htype : previous + (p.type - previous) = p.type := by
      rw [UInt64.add_comm, UInt64.sub_add_cancel]
    rw [hd, htype]
    exact Gives.check (failWhen_gives _ _) fun _ _ => Gives.check (failWhen_gives _ _) fun _ _ =>
      hvalue

end MoqRelay
