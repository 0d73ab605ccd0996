import MoqRelay.Wire.D16Control

/-!
# Wire/D16RoundTrip — what a draft-16 encoder writes is decoded

`Coded` goes through sequences of writes and of reads at once, so the round trip of a message is the
list of its fields.  The checks a decoder makes on the way hold by the checks of the encoder; for a
FETCH, whose own check wraps, by those of the namespace writer.
-/

namespace MoqRelay.D16

open List

open MoqRelay.Parser (Reads)

section Fields

/-! ## Namespaces -/

theorem coded_nsWriteParts (saved : ℕ) (ns : List Bytes) : ∀ total, nsValidateFields total ns →
      Coded (nsWriteParts saved ns) (nsReadFields ns.length total) ns := by
  induction ns with
  | nil => exact fun _ _ => CodedOn.pure []
  | cons part ns ih =>
    intro total h
    simp only [nsValidateFields, Bool.and_eq_true, decide_eq_true_eq] at h
    obtain ⟨⟨hne, hle⟩, hns⟩ := h
    refine ((coded_writeSpan16 part).rewind saved).bind ?_
    refine CodedOn.check (failWhen_reads (decide_eq_false hne) _) ?_
    refine CodedOn.check (failWhen_reads (decide_eq_false (not_lt.mpr hle)) _) ?_
    exact (ih _ hns).map (Reads.pure _)

variable {ns : List Bytes} {cap nsCap : ℕ} {w w' : BufWriter} {trackName : Bytes}

theorem coded_writeNamespace (h : ns.length ≤ cap) :
    Coded (writeNamespace ns) (readNamespace cap) ns := by
  intro w w' hw
  obtain ⟨_, w₁, hcount, hw₁⟩ := write_bind_eq_ok hw
  obtain ⟨hparts, rfl⟩ := refuse16_eq_ok hcount
  obtain ⟨_, w₂, hfields, hw₂⟩ := write_bind_eq_ok hw₁
  obtain ⟨hvalid, rfl⟩ := refuse16_eq_ok hfields
  obtain ⟨_, w₃, hpos, hw₃⟩ := write_bind_eq_ok hw₂
  cases hpos
  have hvalid' : nsValidateFields 0 ns := by simpa using hvalid
  refine coded_writeVarint_length ns.length (fun c hc => ?_) _ _ hw₃
  rw [hc]
  refine CodedOn.check (failWhen_reads hparts _) ?_
  refine CodedOn.check (failWhen_reads (decide_eq_false (not_lt.mpr h)) _) ?_
  exact coded_nsWriteParts _ ns 0 hvalid'

theorem namespaceByteLen_of_validate (ns : List Bytes) : ∀ total,
    total ≤ 4096 → nsValidateFields total ns → total + namespaceByteLen ns ≤ 4096 := by
  induction ns with
  | nil => exact fun total htotal _ => by simpa [namespaceByteLen] using htotal
  | cons part ns ih =>
    intro total htotal h
    simp only [nsValidateFields, Bool.and_eq_true, decide_eq_true_eq] at h
    obtain ⟨⟨-, hle⟩, hns⟩ := h
    have hrest := ih (total + part.length) (by omega) hns
    simp only [namespaceByteLen, map_cons, sum_cons] at hrest ⊢
    omega

/-- The writer of namespaces knows the limit of their octets. -/
theorem writeNamespace_le (h : writeNamespace ns w = .ok () w') : namespaceByteLen ns ≤ 4096 := by
  obtain ⟨_, w₁, hcount, h₁⟩ := write_bind_eq_ok h
  obtain ⟨_, w₂, hfields, -⟩ := write_bind_eq_ok h₁
  obtain ⟨hvalid, -⟩ := refuse16_eq_ok hfields
  have := namespaceByteLen_of_validate ns 0 (by omega) (by simpa using hvalid)
  omega

/-- A full track name within the limit. -/
theorem coded_trackName (saved : ℕ) (hcap : ns.length ≤ nsCap)
    (hmax : namespaceByteLen ns ≤ 4096 → namespaceByteLen ns + trackName.length ≤ 4096) :
    Coded (do rewind saved (writeNamespace ns); rewind saved (writeSpan16 trackName))
      (readTrackName nsCap) (ns, trackName) := by
  intro w w' h
  obtain ⟨_, w₁, hns, -⟩ := write_bind_eq_ok h
  have hle := hmax (writeNamespace_le (rewind_eq_ok hns))
  refine CodedOn.bind ((coded_writeNamespace hcap).rewind saved).orProto
    (((coded_writeSpan16 trackName).rewind saved).orProto.map ?_) w w' h
  refine Reads.check (failWhen_reads (decide_eq_false ?_) _) (Reads.pure _)
  rw [fullTrackNameMax]
  omega

/-! ## Parameters -/

/-- An entry as it is decoded: with its own octets. -/
def KvpEntry.withRaw (prevType : UInt64) (e : KvpEntry) : KvpEntry :=
  { e with raw := kvpOctets prevType e }

/-- Entries as they are decoded. -/
def entriesWithRaw : UInt64 → List KvpEntry → List KvpEntry
  | _, [] => []
  | prev, e :: entries => e.withRaw prev :: entriesWithRaw e.type entries

variable {prevType : UInt64} {e : KvpEntry} {prev : Option UInt64} {params : List KvpEntry}
  {ext : Bytes}

/-- An entry that has a length can be written. -/
theorem kvpEntryEncodedLen_ne_zero (h : kvpEntryEncodedLen prevType e ≠ 0) :
    ¬ e.type < prevType ∧ kvpEntryValidForEncode e ∧
      (e.type - prevType).toNat ≤ quicVarintMax := by
  rw [kvpEntryEncodedLen] at h
  split_ifs at h with hlt hvalid hlen
  iterate 3 exact absurd rfl h
  all_goals exact ⟨hlt, by simpa using hvalid, le_of_quicVarintLen hlen⟩

theorem kvpEncodeEntry_eq_ok (h : kvpEncodeEntry prevType e w = .ok () w') :
    kvpEntryEncodedLen prevType e ≠ 0 ∧ Wrote w w' (kvpOctets prevType e) := by
  have hf := liftWrite_eq_ok h
  dsimp only at hf
  split_ifs at hf with hbad
  cases hf
  rw [Bool.or_eq_true, not_or, decide_eq_true_eq] at hbad
  exact ⟨hbad.1, rfl, rfl⟩

/-- The value of an entry is read back. -/
theorem kvpValue_reads (h : kvpEntryValidForEncode e) :
    e.isVarint = evenType e.type ∧
      Reads (kvpValue e.type)
        ((if e.isVarint then [] else quicVarintEncode e.value.length) ++ e.value) e.value := by
  rw [kvpEntryValidForEncode] at h
  by_cases hparity : e.isVarint ≠ evenType e.type
  · rw [if_pos hparity] at h
    cases h
  rw [if_neg hparity] at h
  rw [not_not] at hparity
  refine ⟨hparity, ?_⟩
  rw [kvpValue, ← hparity]
  cases hv : e.isVarint with
  | true =>
    -- The value is one varint: reading it gives back its octets.
    rw [hv, if_pos rfl, Bool.and_eq_true, decide_eq_true_eq, decide_eq_true_eq] at h
    cases hd : quicVarintDecode e.value with
    | none =>
      rw [hd] at h
      exact absurd h.2.symm h.1
    | some x =>
      obtain ⟨v, n⟩ := x
      rw [hd] at h
      have hn : n = e.value.length := h.2
      have hread : Reads readVarint e.value (UInt64.ofNat v) := by
        intro r
        have hall := quicVarint.read_take hd r
        rw [hn, take_length] at hall
        have hdecode : quicVarintDecode (e.value ++ r) = some (v, e.value.length) := hall
        simp [readVarint, hdecode]
      have hspan : Reads (withSpan readVarint) e.value (UInt64.ofNat v, e.value) := by
        intro r
        rw [withSpan, hread r]
        simp [Except.map]
      exact hspan.last (Reads.pure _)
  | false =>
    rw [hv, if_neg (by decide), decide_eq_true_eq] at h
    obtain ⟨hread, hn⟩ := @readVarint_reads_length e.value.length (by rw [quicVarintMax]; omega)
    refine hread.bind ?_
    refine Reads.check (failWhen_reads (decide_eq_false ?_) _) ?_
    · rw [gt_iff_lt, UInt64.lt_iff_toNat_lt, hn]
      exact not_lt.mpr h
    · rw [hn]
      exact readRaw_reads e.value

/-- The type an entry is coded against, for its decoder. -/
def CodedAgainst (prev : Option UInt64) (prevType : UInt64) : Prop := prev.getD 0 = prevType

theorem absType_sub {type : UInt64} (hprev : CodedAgainst prev prevType) (h : ¬ type < prevType) :
    absType prev (type - prevType) = .ok type := by
  cases prev with
  | none =>
    obtain rfl : 0 = prevType := hprev
    rw [absType, UInt64.sub_zero]
  | some p =>
    obtain rfl : p = prevType := hprev
    rw [UInt64.lt_iff_toNat_lt, not_lt] at h
    have hle : ¬ type - p > uint64Max - p := by
      rw [gt_iff_lt, UInt64.lt_iff_toNat_lt, UInt64.toNat_sub_of_le _ _
        (UInt64.le_iff_toNat_le.mpr h),
        UInt64.toNat_sub_of_le _ _ (UInt64.le_iff_toNat_le.mpr _)]
      · have := type.toNat_lt
        have hmax : uint64Max.toNat = 2 ^ 64 - 1 := rfl
        omega
      · have := p.toNat_lt
        have hmax : uint64Max.toNat = 2 ^ 64 - 1 := rfl
        omega
    rw [absType, if_neg hle, UInt64.add_comm, UInt64.sub_add_cancel]

theorem kvpFields_reads
    (hprev : CodedAgainst prev prevType) (h : kvpEntryEncodedLen prevType e ≠ 0) :
    Reads (kvpFields prev) (kvpOctets prevType e) (e.type, e.value) := by
  obtain ⟨hlt, hvalid, hmax⟩ := kvpEntryEncodedLen_ne_zero h
  refine (readVarint_reads hmax).bind ?_
  have htype : Reads (Parser.ofExcept (absType prev (e.type - prevType)) : Read UInt64) []
      e.type := by
    intro r
    rw [absType_sub hprev hlt]
    rfl
  exact htype.check ((kvpValue_reads hvalid).2.last (Reads.pure _))

theorem kvpOctets_ne_nil (h : kvpEntryEncodedLen prevType e ≠ 0) : kvpOctets prevType e ≠ [] := by
  obtain ⟨-, -, hmax⟩ := kvpEntryEncodedLen_ne_zero h
  have hlen := quicVarintLen_ne_zero hmax
  intro hnil
  have := congrArg List.length hnil
  rw [kvpOctets, length_append, length_quicVarintEncode hlen, length_nil] at this
  omega

/-- **An entry is decoded behind the one it was coded against.** -/
theorem kvpDecodeNext_reads
    (hprev : CodedAgainst prev prevType) (h : kvpEntryEncodedLen prevType e ≠ 0) :
    Reads (kvpDecodeNext prev) (kvpOctets prevType e) (some (e.withRaw prevType)) := by
  obtain ⟨-, hvalid, -⟩ := kvpEntryEncodedLen_ne_zero h
  intro r
  have hne : kvpOctets prevType e ++ r ≠ [] := by simp [kvpOctets_ne_nil h]
  have hspan : withSpan (kvpFields prev) (kvpOctets prevType e ++ r) =
      .ok (((e.type, e.value), kvpOctets prevType e), r) := by
    rw [withSpan, kvpFields_reads hprev h r]
    simp [Except.map]
  rw [kvpDecodeNext, if_neg hne, orProto, hspan]
  simp only [Except.mapError, Except.map, KvpEntry.withRaw, (kvpValue_reads hvalid).1]

/-- **Parameters are decoded one behind the other**, the induction carrying the type of the one
before. -/
theorem coded_kvpEncodeEntries (saved : ℕ) (entries : List KvpEntry) :
    ∀ prev prevType, CodedAgainst prev prevType →
      Coded (kvpEncodeEntries saved prevType entries) (kvpDecodeEntries entries.length prev)
        (entriesWithRaw prevType entries) := by
  induction entries with
  | nil => exact fun _ _ _ => CodedOn.pure []
  | cons e entries ih =>
    intro prev prevType hprev
    have hentry : Coded (kvpEncodeEntry prevType e) (kvpDecodeNext prev)
        (some (e.withRaw prevType)) := by
      intro w w' h
      obtain ⟨hlen, hw⟩ := kvpEncodeEntry_eq_ok h
      exact ⟨_, hw, fun r _ => kvpDecodeNext_reads hprev hlen r⟩
    exact (hentry.rewind saved).bind ((ih (some e.type) e.type rfl).map (Reads.pure _))

theorem coded_encodeCountedParams (h : params.length ≤ cap) (saved : ℕ) :
    Coded (encodeCountedParams params saved) (decodeParams cap) (entriesWithRaw 0 params) := by
  intro w w'' hw
  obtain ⟨_, w', h₁, h₂⟩ := write_bind_eq_ok hw
  obtain ⟨hmax, hw'⟩ := writeVarint_eq_ok (rewind_eq_ok h₁)
  obtain ⟨hread, hn⟩ := readVarint_reads_length hmax
  obtain ⟨c, hc, hg⟩ := coded_kvpEncodeEntries saved params none 0 rfl w' w'' h₂
  refine ⟨_, hw'.trans hc, fun r _ => (orProto_reads hread).bind ?_ r⟩
  rw [hn]
  exact Reads.check (failWhen_reads (decide_eq_false (not_lt.mpr h)) _) fun r => hg r trivial

theorem codedEnd_encodeCountedParams (h : params.length ≤ cap) (saved : ℕ) :
    CodedEnd (encodeCountedParams params saved) (decodeCountedParams cap)
      (entriesWithRaw 0 params) := (coded_encodeCountedParams h saved).mapEnd trivial rfl

/-- Parameters, and an unframed tail. -/
theorem codedEnd_extensions (saved : ℕ) : CodedEnd (writeExtensions saved ext) readRest ext := by
  intro w w' h
  have hw := ((puts_writeOctets ext).rewind saved).when (ext.length > 0) w w' h
  cases ext with
  | nil => exact ⟨[], hw, by rintro _ rfl; rfl⟩
  | cons b ext => exact ⟨b :: ext, hw, by rintro _ rfl; rw [append_nil]; rfl⟩

/-! ## The envelope -/

variable {msgType : ℕ} {body : ℕ → Write Unit}

theorem controlWriteHeader_eq_ok {offset : ℕ} (h : controlWriteHeader msgType w = .ok offset w') :
    offset = (w.written ++ quicVarintEncode msgType).length ∧
      Wrote w w' (quicVarintEncode msgType ++ [0, 0]) := by
  obtain ⟨_, w₁, hpos, h₁⟩ := write_bind_eq_ok h
  cases hpos
  obtain ⟨_, w₂, htype, h₂⟩ := write_bind_eq_ok h₁
  have hw := puts_writeVarint msgType _ _ htype
  obtain ⟨_, w₃, hpos, h₃⟩ := write_bind_eq_ok h₂
  cases hpos
  obtain ⟨_, w₄, hreserve, h₄⟩ := write_bind_eq_ok h₃
  cases h₄
  refine ⟨by rw [hw.written], hw.trans ?_⟩
  exact writeRaw_wrote (liftWrite_eq_ok (rewind_eq_ok hreserve))

/-- **An envelope is its type, the exact length of its payload, and the payload.** -/
theorem encodeEnvelope_eq_ok (h : encodeEnvelope msgType body w = .ok () w') :
    ∃ w₁ w₂, body w.written.length w₁ = .ok () w₂ ∧ ∀ payload, Wrote w₁ w₂ payload →
      payload.length ≤ 0xFFFF ∧
        Wrote w w' (quicVarintEncode msgType ++ (uint16Octets payload.length ++ payload)) := by
  obtain ⟨_, w₀, hpos, h₀⟩ := write_bind_eq_ok h
  cases hpos
  obtain ⟨offset, w₁, hheader, h₁⟩ := write_bind_eq_ok h₀
  obtain ⟨hoffset, hw₁⟩ := controlWriteHeader_eq_ok hheader
  obtain ⟨_, w₁', hpos, h₂⟩ := write_bind_eq_ok h₁
  cases hpos
  obtain ⟨_, w₂, hbody, h₃⟩ := write_bind_eq_ok h₂
  obtain ⟨_, w₂', hpos, h₄⟩ := write_bind_eq_ok h₃
  cases hpos
  obtain ⟨_, w₃, hfits, h₅⟩ := write_bind_eq_ok h₄
  obtain ⟨hsmall, rfl⟩ := refuse16_eq_ok (rewind_eq_ok hfits)
  refine ⟨w₁, w₃, hbody, fun payload hpayload => ?_⟩
  have hlen : w₃.written.length - w₁.written.length = payload.length := by
    rw [hpayload.written, length_append, Nat.add_sub_cancel_left]
  rw [hlen] at hsmall h₅
  have hpatch := liftWrite_eq_ok (rewind_eq_ok h₅)
  rw [patchUint16] at hpatch
  split_ifs at hpatch
  cases hpatch
  refine ⟨by simpa using hsmall, ?_, (hpayload.cap.trans hw₁.cap)⟩
  rw [hpayload.written, hw₁.written, hoffset, ← append_assoc, append_assoc _ [0, 0],
    take_left, ← drop_drop, drop_left]
  simp only [append_assoc]
  rfl

theorem undoneAt_controlWriteHeader {base : BufWriter} (msgType : ℕ) :
    UndoneAt base (controlWriteHeader msgType) := by
  have hreserve : Grows (liftWrite reserveUint16) := grows_of_undoneAt fun _ =>
    undoneAt_liftWrite fun _ _ h => ⟨_, writeRaw_wrote h⟩
  exact undoes_saved <| (undoneAt_writeVarint msgType).bind fun _ =>
    keeps_writerPos.bind fun offset => hreserve.keeps.bind fun _ => Keeps.pure offset

/-- **An envelope that cannot be written leaves the writer as it was.** -/
theorem undoes_encodeEnvelope (hbody : Keeps w (body w.written.length)) :
    Undoes (fun _ => True) w w (encodeEnvelope msgType body) := by
  have hfits (bad : Bool) (e : D22Error) : Grows (refuse16 bad e) := grows_of_undoneAt fun _ =>
    ⟨fun _ _ h => (refuse16_eq_ok h).2 ▸ Grown.refl _, fun _ _ h => refuse16_eq_error h⟩
  refine undoes_saved <| Undoes.bind (undoneAt_controlWriteHeader msgType) fun offset w₁ h₁ => ?_
  refine (keeps_writerPos w₁ h₁).bind fun start w₂ h₂ => (hbody w₂ h₂).bind fun _ w₃ h₃ => ?_
  refine (keeps_writerPos w₃ h₃).bind fun fin w₄ h₄ => ?_
  refine ((hfits _ _).keeps w₄ h₄).bind fun _ w₅ h₅ => ⟨fun _ _ _ => trivial, fun e w' h => ?_⟩
  obtain ⟨v, hv, rfl⟩ := rewind_eq_error h
  rw [liftWrite_eq_error hv]
  exact h₅.rewind

end Fields

/-! ## What a failed field leaves -/

section Failure

variable {base : BufWriter}

theorem keeps_nsWriteParts (ns : List Bytes) :
    Keeps base (nsWriteParts base.written.length ns) := by
  induction ns with
  | nil => exact Keeps.pure ()
  | cons part ns ih => exact (keeps_writeSpan16 part).bind fun _ => ih

theorem keeps_writeNamespace (ns : List Bytes) :
    Keeps base (rewind base.written.length (writeNamespace ns)) :=
  (grows_of_undoneAt fun _ => Undoes.refuse <| Undoes.refuse <| undoes_saved <|
    Undoes.bind (undoneAt_writeVarint _) fun _ => keeps_nsWriteParts ns).keeps

theorem keeps_kvpEncodeEntries (entries : List KvpEntry) : ∀ prev,
    Keeps base (kvpEncodeEntries base.written.length prev entries) := by
  have hentry : ∀ prev e, Grows (kvpEncodeEntry prev e) := fun prev e =>
    grows_of_undoneAt fun _ => undoneAt_liftWrite fun _ _ h => by
      dsimp only at h
      split_ifs at h
      cases h
      exact ⟨_, rfl, rfl⟩
  induction entries with
  | nil => exact fun _ => Keeps.pure ()
  | cons e entries ih => exact fun prev => (hentry prev e).keeps.bind fun _ => ih e.type

theorem keeps_encodeCountedParams (params : List KvpEntry) :
    Keeps base (encodeCountedParams params base.written.length) :=
  (keeps_writeVarint _).bind fun _ => keeps_kvpEncodeEntries params 0

theorem keeps_writeExtensions (ext : Bytes) :
    Keeps base (writeExtensions base.written.length ext) := keeps_putWhen (keeps_writeOctets ext)

theorem Keeps.seq {m n : Write Unit} (hm : Keeps base m) (hn : Keeps base n) :
    Keeps base (m >>= fun _ => n) := hm.bind fun _ => hn

theorem keeps_writeFetchBody (f : D16Fetch) :
    Keeps base (writeFetchBody f base.written.length) := by
  rw [writeFetchBody]
  split_ifs
  · exact (keeps_writeNamespace _).seq <| (keeps_writeSpan16 _).seq <|
      (keeps_writeVarint _).seq <| (keeps_writeVarint _).seq <|
      (keeps_writeVarint _).seq <| keeps_writeVarint _
  · exact (keeps_writeVarint _).seq <| keeps_writeVarint _

/-- **An encoder that fails leaves the writer as it was.** -/
theorem undoes_encodeD16 (m : D16Message) : Undoes (fun _ => True) base base (encodeD16 m) := by
  cases m with
  | setup server params =>
    cases server <;> exact undoes_encodeEnvelope (keeps_encodeCountedParams params)
  | subscribe requestId ns trackName params =>
    refine Undoes.refuse (Undoes.refuse (undoes_encodeEnvelope ?_))
    exact (keeps_writeVarint _).seq <| (keeps_writeNamespace _).seq <|
      (keeps_writeSpan16 _).seq <| keeps_encodeCountedParams params
  | subscribeOk requestId trackAlias params ext =>
    refine undoes_encodeEnvelope ?_
    exact (keeps_writeVarint _).seq <| (keeps_writeVarint _).seq <|
      (keeps_encodeCountedParams params).seq <| keeps_writeExtensions ext
  | requestOk requestId params | publishOk requestId params =>
    refine undoes_encodeEnvelope ?_
    exact (keeps_writeVarint _).seq <| keeps_encodeCountedParams params
  | fetch f =>
    refine Undoes.refuse (Undoes.refuse (undoes_encodeEnvelope ?_))
    exact (keeps_writeVarint _).seq <| (keeps_writeVarint _).seq <|
      (keeps_writeFetchBody f).seq <| keeps_encodeCountedParams f.params
  | fetchOk ok =>
    refine Undoes.refuse (undoes_encodeEnvelope ?_)
    exact (keeps_writeVarint _).seq <| (keeps_writeOctets _).seq <|
      (keeps_writeVarint _).seq <| (keeps_writeVarint _).seq <|
      (keeps_encodeCountedParams ok.params).seq <| keeps_writeExtensions _
  | publish p =>
    refine Undoes.refuse (Undoes.refuse (undoes_encodeEnvelope ?_))
    exact (keeps_writeVarint _).seq <| (keeps_writeNamespace _).seq <|
      (keeps_writeSpan16 _).seq <| (keeps_writeVarint _).seq <|
      (keeps_encodeCountedParams p.params).seq <| keeps_writeExtensions _
  | publishDone requestId statusCode streamCount reason =>
    refine Undoes.refuse (undoes_encodeEnvelope ?_)
    exact (keeps_writeVarint _).seq <| (keeps_writeVarint _).seq <|
      (keeps_writeVarint _).seq <| keeps_writeSpan16 reason

end Failure

/-! ## Messages -/

/-- The parts of the namespace of a message. -/
def D16Message.ns : D16Message → List Bytes
  | .subscribe _ ns _ _ => ns
  | .fetch f => f.ns
  | .publish p => p.ns
  | _ => []

/-- The parameters of a message. -/
def D16Message.params : D16Message → List KvpEntry
  | .setup _ params => params
  | .subscribe _ _ _ params => params
  | .subscribeOk _ _ params _ => params
  | .requestOk _ params => params
  | .fetch f => f.params
  | .fetchOk ok => ok.params
  | .publish p => p.params
  | .publishOk _ params => params
  | .publishDone .. => []

/-- A message with other parameters. -/
def D16Message.withParams (params : List KvpEntry) : D16Message → D16Message
  | .setup server _ => .setup server params
  | .subscribe requestId ns trackName _ => .subscribe requestId ns trackName params
  | .subscribeOk requestId trackAlias _ ext => .subscribeOk requestId trackAlias params ext
  | .requestOk requestId _ => .requestOk requestId params
  | .fetch f => .fetch { f with params }
  | .fetchOk ok => .fetchOk { ok with params }
  | .publish p => .publish { p with params }
  | .publishOk requestId _ => .publishOk requestId params
  | .publishDone requestId statusCode streamCount reason =>
    .publishDone requestId statusCode streamCount reason

/-- The fields of a FETCH that its type has. -/
def D16Fetch.carried (f : D16Fetch) : D16Fetch :=
  if f.fetchType = 1 then { f with joiningRequestId := 0, joiningStart := 0 }
  else { f with
    ns := []
    trackName := []
    startGroup := 0
    startObject := 0
    endGroup := 0
    endObject := 0 }

/-- The fields of a message that are on the wire. -/
def D16Message.carried : D16Message → D16Message
  | .fetch f => .fetch f.carried
  | m => m

/-- **What a message says**: the fields on the wire, and the parameters without the octets they were
read from. -/
def D16Message.says (m : D16Message) : D16Message :=
  m.carried.withParams (m.params.map fun e => { e with raw := [] })

/-- What a message is decoded to. -/
def D16Message.decoded (m : D16Message) : D16Message :=
  m.carried.withParams (entriesWithRaw 0 m.params)

theorem map_raw_entriesWithRaw (entries : List KvpEntry) : ∀ prev,
    (entriesWithRaw prev entries).map (fun e => { e with raw := [] }) =
      entries.map fun e => { e with raw := [] } := by
  induction entries with
  | nil => exact fun _ => rfl
  | cons e entries ih =>
    intro prev
    rw [entriesWithRaw, map_cons, ih]
    rfl

/-- The parameters of a FETCH have no say in its fields. -/
theorem carried_withParams (f : D16Fetch) (params : List KvpEntry) :
    ({ f.carried with params } : D16Fetch).carried = { f.carried with params } := by
  by_cases h : f.fetchType = 1
  iterate 2 simp [D16Fetch.carried, h]

/-- **A message is decoded to what it says.** -/
theorem says_decoded (m : D16Message) : m.decoded.says = m.says := by
  have hparams := map_raw_entriesWithRaw m.params 0
  cases m with
  | fetch f =>
    simp only [D16Message.decoded, D16Message.says, D16Message.carried, D16Message.withParams,
      D16Message.params, carried_withParams] at hparams ⊢
    rw [hparams]
  | setup | subscribe | subscribeOk | requestOk | fetchOk | publish | publishOk =>
    simp only [D16Message.decoded, D16Message.says, D16Message.carried, D16Message.withParams,
      D16Message.params] at hparams ⊢
    rw [hparams]
  | publishDone => rfl

theorem write_seq_assoc (m n k : Write Unit) :
    ((m >>= fun _ => n) >>= fun _ => k) = m >>= fun _ => n >>= fun _ => k := bind_assoc m _ _

/-- The octets of an envelope. -/
def envelopeOctets (msgType : ℕ) (payload : Bytes) : Bytes :=
  quicVarintEncode msgType ++ (uint16Octets payload.length ++ payload)

variable {msgType cap nsCap : ℕ} {body : ℕ → Write Unit} {w w' : BufWriter}
  {ns : List Bytes} {trackName : Bytes} {f : D16Fetch}

/-- An envelope around a payload that is decoded. -/
theorem envelope_coded {α : Type} {p : Read α} {a : α} (hbody : ∀ saved, CodedEnd (body saved) p a)
    (h : encodeEnvelope msgType body w = .ok () w') :
    ∃ payload, payload.length ≤ 0xFFFF ∧ Wrote w w' (envelopeOctets msgType payload) ∧
      p payload = .ok (a, []) := by
  obtain ⟨w₁, w₂, hwrite, henvelope⟩ := encodeEnvelope_eq_ok h
  obtain ⟨payload, hw, hread⟩ := hbody _ w₁ w₂ hwrite
  obtain ⟨hlen, henv⟩ := henvelope payload hw
  exact ⟨payload, hlen, henv, append_nil payload ▸ hread [] rfl⟩

section Varint

variable {α : Type} {a : α} {n : Write Unit} {g : UInt64 → Read α} {v : UInt64} {saved : ℕ}
  {T : Bytes → Prop}

/-- An integer in front of the rest. -/
theorem coded_varint (hn : CodedOn T n (g v) a) :
    CodedOn T (rewind saved (writeVarint v.toNat) >>= fun _ => n) (orProto readVarint >>= g) a :=
  ((coded_writeVarint v).rewind saved).orProto.bind hn

end Varint

/-- A check that was passed. -/
theorem refuse16_bind_eq_ok {bad : Bool} {e : D22Error} {m : Write Unit}
    (h : (refuse16 bad e >>= fun _ => m) w = .ok () w') : bad = false ∧ m w = .ok () w' := by
  obtain ⟨_, v, hok, hrest⟩ := write_bind_eq_ok h
  obtain ⟨hbad, rfl⟩ := refuse16_eq_ok hok
  exact ⟨hbad, hrest⟩

theorem name_le_of_not_bad (h : trackNameBad ns trackName = false) :
    namespaceByteLen ns + trackName.length ≤ 4096 := by
  rw [trackNameBad, Bool.or_eq_false_iff, decide_eq_false_iff_not, decide_eq_false_iff_not] at h
  rw [fullTrackNameMax] at h
  omega

/-- The part of a FETCH that its type decides, read into a FETCH that has none of it. -/
theorem coded_writeFetchBody (hns : f.ns.length ≤ nsCap)
    (hname : f.fetchType = 1 → fetchNameBad f.ns f.trackName = false) (saved : ℕ) :
    Coded (writeFetchBody f saved)
      (readFetchBody nsCap { requestId := f.requestId, fetchType := f.fetchType, params := [] })
      { f.carried with params := [] } := by
  rw [writeFetchBody, readFetchBody, D16Fetch.carried]
  by_cases htype : f.fetchType = 1
  · rw [if_pos htype, if_pos htype, if_pos htype, ← write_seq_assoc
      (rewind saved (writeNamespace f.ns))]
    -- within the limit for namespaces the subtraction does not wrap
    have hmax := of_decide_eq_false (hname htype)
    rw [fullTrackNameMax] at hmax
    refine (coded_trackName saved hns (by omega)).bind ?_
    refine coded_varint ?_
    refine coded_varint ?_
    refine coded_varint ?_
    exact ((coded_writeVarint f.endObject).rewind saved).orProto.map (Reads.pure _)
  · rw [if_neg htype, if_neg htype, if_neg htype]
    refine coded_varint ?_
    exact ((coded_writeVarint f.joiningStart).rewind saved).orProto.map (Reads.pure _)

/-- **What an encoder writes is an envelope whose payload is decoded**, into arrays that have room:
the fields of each message, one by one. -/
theorem encodeD16_eq_ok {m : D16Message} (h : encodeD16 m w = .ok () w')
    (hns : m.ns.length ≤ nsCap) (hcap : m.params.length ≤ cap) :
    ∃ payload, payload.length ≤ 0xFFFF ∧ Wrote w w' (envelopeOctets m.type payload) ∧
      decodeD16 m.type nsCap cap payload = .ok (m.decoded, []) := by
  cases m with
  | setup server params =>
    cases server <;>
      exact envelope_coded (fun saved => (codedEnd_encodeCountedParams hcap saved).mapEnd rfl rfl) h
  | subscribe requestId ns trackName params =>
    obtain ⟨-, h₁⟩ := refuse16_bind_eq_ok h
    obtain ⟨hname, h₂⟩ := refuse16_bind_eq_ok h₁
    refine envelope_coded (p := decodeSubscribe nsCap cap) (fun saved => ?_) h₂
    rw [← write_seq_assoc (rewind saved (writeNamespace ns))]
    refine coded_varint ?_
    refine (coded_trackName saved hns fun _ => name_le_of_not_bad hname).bind ?_
    exact (codedEnd_encodeCountedParams hcap saved).mapEnd rfl rfl
  | subscribeOk requestId trackAlias params ext =>
    refine envelope_coded (p := decodeSubscribeOk cap) (fun saved => ?_) h
    refine coded_varint (coded_varint ?_)
    refine (coded_encodeCountedParams hcap saved).bind ?_
    exact (codedEnd_extensions saved).mapEnd rfl rfl
  | requestOk requestId params | publishOk requestId params =>
    exact envelope_coded (fun saved =>
      CodedOn.mapEnd (p := decodeOk cap) (a := (requestId, entriesWithRaw 0 params))
        (coded_varint ((codedEnd_encodeCountedParams hcap saved).mapEnd rfl rfl)) rfl rfl) h
  | fetch f =>
    obtain ⟨htype, h₁⟩ := refuse16_bind_eq_ok h
    obtain ⟨hname, h₂⟩ := refuse16_bind_eq_ok h₁
    refine envelope_coded (p := decodeFetch nsCap cap) (fun saved => ?_) h₂
    have hwide : f.fetchType.toUInt64.toNat = f.fetchType.toNat := UInt32.toNat_toUInt64 _
    have hread : Coded (writeVarint f.fetchType.toNat) readVarint f.fetchType.toUInt64 :=
      hwide ▸ coded_writeVarint f.fetchType.toUInt64
    refine coded_varint ?_
    refine (hread.rewind saved).orProto.bind ?_
    refine CodedOn.check (failWhen_reads ?_ _) ?_
    · rw [← htype]
      rfl
    rw [UInt32.toUInt32_toUInt64]
    refine (coded_writeFetchBody hns (fun hone => ?_) saved).bind ?_
    · rw [decide_eq_true hone, Bool.true_and, Bool.or_eq_false_iff] at hname
      exact hname.2
    · exact (codedEnd_encodeCountedParams hcap saved).mapEnd rfl rfl
  | fetchOk ok =>
    obtain ⟨hend, h₁⟩ := refuse16_bind_eq_ok h
    refine envelope_coded (p := decodeFetchOk cap) (fun saved => ?_) h₁
    refine coded_varint ?_
    refine ((coded_writeOctet ok.endOfTrack).rewind saved).orProto.bind ?_
    refine CodedOn.check (failWhen_reads hend _) ?_
    refine coded_varint (coded_varint ?_)
    refine (coded_encodeCountedParams hcap saved).bind ?_
    exact (codedEnd_extensions saved).mapEnd rfl rfl
  | publish p =>
    obtain ⟨-, h₁⟩ := refuse16_bind_eq_ok h
    obtain ⟨hname, h₂⟩ := refuse16_bind_eq_ok h₁
    refine envelope_coded (p := decodePublish nsCap cap) (fun saved => ?_) h₂
    rw [← write_seq_assoc (rewind saved (writeNamespace p.ns))]
    refine coded_varint ?_
    refine (coded_trackName saved hns fun _ => name_le_of_not_bad hname).bind ?_
    refine coded_varint ?_
    refine (coded_encodeCountedParams hcap saved).bind ?_
    exact (codedEnd_extensions saved).mapEnd rfl rfl
  | publishDone requestId statusCode streamCount reason =>
    obtain ⟨hreason, h₁⟩ := refuse16_bind_eq_ok h
    refine envelope_coded (p := decodePublishDone) (fun saved => ?_) h₁
    refine coded_varint (coded_varint (coded_varint ?_))
    have hcoded : Coded (rewind saved (writeSpan16 reason)) decodeReason reason :=
      ((coded_writeSpan16 reason).rewind saved).orProto.map <|
        Reads.check (failWhen_reads hreason _) (Reads.pure _)
    exact hcoded.mapEnd trivial rfl

/-- The type of a message is one octet. -/
theorem type_le (m : D16Message) : m.type ≤ 0x21 := by
  cases m with
  | setup server params =>
    rw [D16Message.type]
    split_ifs <;> omega
  | _ => exact Nat.le_of_ble_eq_true rfl

theorem readUint16_reads {n : ℕ} (h : n ≤ 0xFFFF) : Reads readUint16 (uint16Octets n) n := by
  have hvalue : (UInt8.ofNat (n / 256)).toNat * 256 + (UInt8.ofNat n).toNat = n := by
    rw [UInt8.toNat_ofNat', UInt8.toNat_ofNat']
    omega
  have hread : Reads readUint16 ([UInt8.ofNat (n / 256)] ++ [UInt8.ofNat n])
      ((UInt8.ofNat (n / 256)).toNat * 256 + (UInt8.ofNat n).toNat) :=
    (readByte_reads _).bind ((readByte_reads _).last (Reads.pure _))
  rwa [hvalue] at hread

/-- An envelope is taken apart again. -/
theorem controlDecodeEnvelope_reads {payload : Bytes} (htype : msgType ≤ 0x21)
    (hlen : payload.length ≤ 0xFFFF) :
    Reads controlDecodeEnvelope (envelopeOctets msgType payload)
      (UInt64.ofNat msgType, payload) := by
  obtain ⟨hread, -⟩ := @readVarint_reads_length msgType (by rw [quicVarintMax]; omega)
  exact hread.bind ((readUint16_reads hlen).bind ((readRaw_reads payload).last (Reads.pure _)))

/-- **Draft-16 control messages make the round trip.**  What an encoder accepts is written as one
envelope with the exact length of its payload, and every decoder with room for it reads the same
message; what an encoder refuses leaves the writer as it was. -/
theorem encodeD16_roundTrip (m : D16Message) (w : BufWriter) :
    (∀ w', encodeD16 m w = .ok () w' →
      ∃ payload, payload.length ≤ 0xFFFF ∧ Wrote w w' (envelopeOctets m.type payload) ∧
        Reads controlDecodeEnvelope (envelopeOctets m.type payload)
          (UInt64.ofNat m.type, payload) ∧
        ∀ nsCap cap, m.ns.length ≤ nsCap → m.params.length ≤ cap →
          ∃ m', decodeD16 m.type nsCap cap payload = .ok (m', []) ∧ m'.says = m.says) ∧
    ∀ e w', encodeD16 m w = .error e w' → w' = w := by
  refine ⟨fun w' h => ?_, (undoes_encodeD16 m).2⟩
  obtain ⟨payload, hlen, hw, -⟩ := encodeD16_eq_ok h le_rfl le_rfl
  refine ⟨payload, hlen, hw, controlDecodeEnvelope_reads (type_le m) hlen, ?_⟩
  intro nsCap cap hns hcap
  obtain ⟨payload', -, hw', hdecode⟩ := encodeD16_eq_ok h hns hcap
  have hsame : envelopeOctets m.type payload' = envelopeOctets m.type payload :=
    append_cancel_left (hw'.written.symm.trans hw.written)
  obtain ⟨-, rfl⟩ := append_inj (append_cancel_left hsame) rfl
  exact ⟨m.decoded, hdecode, says_decoded m⟩

end MoqRelay.D16
