import MoqRelay.Wire.D22Messages
import MoqRelay.Wire.D22ParamTrip

/-!
# Wire/D22RoundTrip — draft-22 messages, written and read back

Each stage of the writer comes with what the same stage of the reader makes of its octets, for every
layout at once.  The encoder only commits a body that decodes, so the stages say what it decodes to:
the message, on the fields its layout has, and the parameters it was given.
-/

namespace MoqRelay

open MoqRelay.Parser List

/-! ## No strict prefix is a message -/

theorem readFields_stable (l : D22Layout) (ctx : D22Context) (type : UInt64) :
    Stable (readFields l ctx type) := by
  have hend : Stable readFetchEnd :=
    readByte_stable.bind fun _ => (failWhen_stable _ _).bind fun _ =>
      readVi64_stable.bind fun _ => readVi64_stable.bind fun _ => .pure _
  have hredirect : Stable (readRedirect ctx) :=
    (readSpan_stable _).bind fun _ => decodeNamespace_stable.bind fun _ =>
      (readSpan_stable _).bind fun _ => (failWhen_stable _ _).bind fun _ => .pure _
  have hstatus : Stable (readStatus ctx type) :=
    readVi64_stable.bind fun _ => (readWhen_stable _ readVi64_stable _).bind fun _ =>
      (readWhen_stable _ readVi64_stable _).bind fun _ => (readSpan_stable _).bind fun _ =>
        (readWhen_stable _ hredirect _).bind fun _ => .pure _
  have hparams : Stable (readParams l.scope ctx.maxFilterRanges) :=
    readVi64_stable.bind fun _ => sequenceLoop_stable _ _ _ _ _ _ _
  refine (readWhen_stable _ readVi64_stable _).bind fun _ => ?_
  refine (readWhen_stable _ decodeNamespace_stable _).bind fun _ => ?_
  refine (readWhen_stable _ (readSpan_stable _) _).bind fun _ => ?_
  refine (readWhen_stable _ readVi64_stable _).bind fun _ => ?_
  refine (readWhen_stable _ hend _).bind fun _ => ?_
  refine (readWhen_stable _ hstatus _).bind fun _ => ?_
  exact (readWhen_stable _ hparams _).bind fun _ => .pure _

/-! ## Stages -/

variable {w w' : BufWriter} {m : D22Message} {ps : List D22Param} {l : D22Layout}
  {ctx : D22Context}

theorem writeVi64_trip (v : UInt64) : Writes (writeVi64 · v) fun b => Gives readVi64 b (· = v) :=
  (writeVi64_writes v).mono fun _ h => .of_eq h

theorem writeSpan_trip {limit : ℕ} (hlim : limit ≤ uint16Max) (bytes : Bytes) :
    Writes (writeSpan · bytes limit) fun b => ∀ n, Gives (readSpan n) b (· = bytes) := by
  intro w w' h
  obtain ⟨hle, hw⟩ := writeSpan_wrote hlim h
  exact ⟨_, hw, readSpan_gives (hle.trans hlim)⟩

theorem writeFetchEnd_trip (m : D22Message) : Writes (writeFetchEnd m) fun b =>
    Gives readFetchEnd b (· = (m.endOfTrack, m.endLocation)) := by
  have hbyte : Writes (writeRaw · [m.endOfTrack]) fun b => Gives readByte b (· = m.endOfTrack) :=
    fun _ _ h => ⟨_, writeRaw_wrote h, readByte_gives _⟩
  refine .check fun _ _ => hbyte.bind fun _ he => (writeVi64_trip _).bind fun _ hg => ?_
  refine (writeVi64_trip _).mono fun _ ho => he.bind fun endOfTrack he => ?_
  refine Gives.check (failWhen_gives _ _) fun _ _ => hg.bind fun group hg => ?_
  refine ho.last fun object ho => .pure ?_
  rw [he, hg, ho]

/-- Whether a message has a redirect. -/
def D22Message.redirects (m : D22Message) : Bool :=
  m.type = d22RequestError && m.code = d22ErrorRedirect

/-- What a redirect carries. -/
structure D22Redirect.Of (m : D22Message) (r : D22Redirect) : Prop where
  uri : r.uri = m.redirectUri
  ns : m.ns.Carries r.ns
  trackName : r.trackName = m.trackName

theorem writeRedirect_trip (ctx : D22Context) (m : D22Message) : Writes (writeRedirect m) fun b =>
    Gives (readRedirect ctx) b fun x => ∃ r, x = some r ∧ r.Of m := by
  refine (writeSpan_trip le_rfl _).bind fun _ hu => (writeNamespace_writes _).bind fun _ hn => ?_
  refine (writeSpan_trip (by decide) _).mono fun _ hm => (hu _).bind fun uri hu => ?_
  refine hn.bind fun ns hn => (hm _).last fun name hm => ?_
  exact Gives.check (failWhen_gives _ _) fun _ _ => .pure ⟨_, rfl, hu, hn, hm⟩

/-- What a status carries. -/
structure D22Status.Of (m : D22Message) (s : D22Status) : Prop where
  code : s.code = m.code
  streamCount : m.type = d22PublishDone → s.streamCount = m.streamCount
  retryInterval : m.type ≠ d22PublishDone → s.retryInterval = m.retryInterval
  reason : s.reason = m.reason
  redirect : m.redirects → ∃ r, s.redirect = some r ∧ r.Of m
  noRedirect : m.redirects = false → s.redirect = none

theorem writeStatus_trip (ctx : D22Context) (m : D22Message) :
    Writes (writeStatus m) fun b => Gives (readStatus ctx m.type) b (D22Status.Of m) := by
  -- The source writes one integer here, and which one it is depends on the type.
  have hcount : Writes (writeVi64 · (if m.type = d22PublishDone then m.streamCount
      else m.retryInterval)) (· = octetsWhen (m.type = d22PublishDone) m.streamCount ++
        octetsWhen (m.type ≠ d22PublishDone) m.retryInterval) := by
    refine fun w w' h => ⟨_, ?_, rfl⟩
    have hw := writeVi64_wrote h
    by_cases hd : m.type = d22PublishDone
    iterate 2 simpa [octetsWhen, hd] using hw
  refine (writeVi64_trip _).bind fun _ hcode => hcount.bind fun _ hoctets => ?_
  refine (writeSpan_trip (by decide) _).bind fun _ hreason => ?_
  refine (writeRedirect_trip ctx m).when.mono fun _ hredirect => ?_
  refine hcode.bind fun code hcode => ?_
  subst hcode hoctets
  rw [append_assoc]
  refine (Gives.of_eq (readWhenVi64_reads _ _)).bind fun streamCount hs => ?_
  refine (Gives.of_eq (readWhenVi64_reads _ _)).bind fun retryInterval hr => ?_
  refine (hreason _).bind fun reason hrs => ?_
  refine (readWhen_gives hredirect none).last fun redirect hx => .pure ?_
  exact ⟨rfl, fun hd => by simp [hs, hd], fun hd => by simp [hr, hd], hrs, hx.1, hx.2⟩

/-- **The block of a message yields the parameters it was given**: as many, in order, and if no
filter is invalid the iteration reads them all. -/
def YieldsParams (ps : List D22Param) (x : D22Params × Bool) : Prop :=
  x.1.count = ps.length ∧ (x.2 = false →
    ∃ qs, Iterates 0 x.1.encoded qs ∧ List.Forall₂ D22Param.Carries ps qs)

theorem encodeParams_writes (ps : List D22Param) (scope : D22Scope) (max : UInt64) :
    Writes (encodeParams · ps scope max) fun b => ps.length ≤ uint16Max ∧ BlockOf 0 ps b := by
  intro w w' h
  obtain ⟨_, hle, h⟩ := except_bind_eq_ok h
  obtain ⟨w₁, h₁, h⟩ := except_bind_eq_ok h
  have hcount := (Bool.or_eq_false_iff.mp (refuse_eq_ok hle)).2
  have hw : w₁ = w' := by
    split at h
    · exact Except.ok.inj h
    · cases h
  subst hw
  obtain ⟨b, hwrote, hblock⟩ := encodeParamLoop_writes ps 0 w w₁ h₁
  have hhalf : ps.length ≤ uint16Max / 2 := Nat.le_of_not_lt (of_decide_eq_false hcount)
  exact ⟨b, hwrote, hhalf.trans (Nat.div_le_self _ _), hblock⟩

theorem writeParams_trip (l : D22Layout) (ctx : D22Context) (ps : List D22Param) :
    Writes (writeParams l ctx ps) fun b => (l.params = false → ps = []) ∧
      Gives (readWhen l.params (readParams l.scope ctx.maxFilterRanges) ({}, false)) b fun x =>
        l.params → YieldsParams ps x := by
  unfold writeParams
  cases hp : l.params with
  | false =>
    intro w w' h
    simp only [Bool.false_eq_true, if_false] at h
    split_ifs at h with hlen
    cases h
    exact ⟨[], .refl w, fun _ => length_eq_zero_iff.mp (not_not.mp hlen), .pure nofun⟩
  | true =>
    refine (writeVi64_trip _).bind fun _ hvi => (encodeParams_writes ps _ _).mono fun b hb => ?_
    obtain ⟨hle, hblock⟩ := hb
    refine ⟨nofun, hvi.bind fun count hc => ?_⟩
    subst hc
    rw [toNat_ofNat_of_le hle]
    refine (hblock _ _ _ {} false).mono fun x hx _ => ?_
    obtain ⟨henc, hnum, hvalid⟩ := hx
    refine ⟨hnum.trans (Nat.zero_add _), fun hx₂ => ?_⟩
    rw [henc]
    exact (hvalid hx₂).2

/-! ## The body -/

/-- **Two messages agree on every field that a layout and a message type carry.**  A namespace is
carried as its octets, the parameters as their own list. -/
structure D22Message.Agrees (l : D22Layout) (m v : D22Message) : Prop where
  type : v.type = m.type
  requestId : l.id → v.requestId = m.requestId
  ns : l.ns ∨ m.redirects → m.ns.Carries v.ns
  trackName : l.name ∨ m.redirects → v.trackName = m.trackName
  trackAlias : l.aliasId → v.trackAlias = m.trackAlias
  fetchEnd : m.type = d22FetchOk →
    v.endOfTrack = m.endOfTrack ∧ v.endLocation = m.endLocation
  code : hasStatus m.type → v.code = m.code
  reason : hasStatus m.type → v.reason = m.reason
  streamCount : m.type = d22PublishDone → v.streamCount = m.streamCount
  retryInterval : m.type = d22RequestError → v.retryInterval = m.retryInterval
  redirectUri : m.redirects → v.redirectUri = m.redirectUri

theorem hasStatus_of_redirects (h : m.redirects) : hasStatus m.type := by
  rw [D22Message.redirects, Bool.and_eq_true] at h
  rw [hasStatus, h.1, Bool.or_true]

/-- The stages of a body, put together. -/
theorem agrees_of_stages {requestId trackAlias : UInt64}
    {ns : D22Namespace} {name : Bytes} {fetchEnd : UInt8 × D22Location} {status : D22Status}
    {params : D22Params} (hi : l.id → requestId = m.requestId)
    (hn : l.ns → m.ns.Carries ns) (hm : l.name → name = m.trackName)
    (ha : l.aliasId → trackAlias = m.trackAlias)
    (he : m.type = d22FetchOk → fetchEnd = (m.endOfTrack, m.endLocation))
    (hst : (hasStatus m.type → D22Status.Of m status) ∧
      (hasStatus m.type = false → status = {})) :
    D22Message.Agrees l m
      { type := m.type, requestId, trackAlias
        ns := (status.redirect.map D22Redirect.ns).getD ns
        trackName := (status.redirect.map D22Redirect.trackName).getD name
        params
        code := status.code
        retryInterval := status.retryInterval
        streamCount := status.streamCount
        reason := status.reason
        redirectUri := (status.redirect.map D22Redirect.uri).getD []
        endOfTrack := fetchEnd.1
        endLocation := fetchEnd.2 } := by
  -- Only a redirect overrides the namespace and the name, and it was written from the same ones.
  have hredirect : m.redirects → ∃ r, status.redirect = some r ∧ r.Of m :=
    fun h => (hst.1 (hasStatus_of_redirects h)).redirect h
  have hplain : m.redirects = false → status.redirect = none := by
    intro h
    cases hs : hasStatus m.type with
    | true => exact (hst.1 hs).noRedirect h
    | false => rw [hst.2 hs]
  have hdone : m.type = d22PublishDone → hasStatus m.type := fun h => by simp [hasStatus, h]
  have herror : m.type = d22RequestError → hasStatus m.type := fun h => by simp [hasStatus, h]
  have hdiffer : d22RequestError ≠ d22PublishDone := by decide
  constructor
  case type => rfl
  case requestId => exact hi
  case trackAlias => exact ha
  case code => exact fun h => (hst.1 h).code
  case reason => exact fun h => (hst.1 h).reason
  case streamCount => exact fun h => (hst.1 (hdone h)).streamCount h
  case retryInterval => exact fun h => (hst.1 (herror h)).retryInterval (h ▸ hdiffer)
  case fetchEnd =>
    intro h
    rw [he h]
    exact ⟨rfl, rfl⟩
  case redirectUri =>
    intro h
    obtain ⟨r, hr, hof⟩ := hredirect h
    rw [hr]
    exact hof.uri
  case ns =>
    intro h
    cases hx : m.redirects with
    | true =>
      obtain ⟨r, hr, hof⟩ := hredirect hx
      rw [hr]
      exact hof.ns
    | false =>
      rw [hplain hx]
      exact hn (h.resolve_right (by simp [hx]))
  case trackName =>
    intro h
    cases hx : m.redirects with
    | true =>
      obtain ⟨r, hr, hof⟩ := hredirect hx
      rw [hr]
      exact hof.trackName
    | false =>
      rw [hplain hx]
      exact hm (h.resolve_right (by simp [hx]))

theorem writeProperties_writes (l : D22Layout) (m : D22Message) :
    Writes (writeProperties l m) fun b => l.properties → b = m.properties := by
  intro w w' h
  rw [writeProperties] at h
  split_ifs at h with hl
  · split at h
    · cases h
    · exact ⟨_, writeRaw_wrote h, fun _ => rfl⟩
  · cases h
    exact ⟨[], .refl w, fun hp => absurd hp hl⟩

/-- **The fields of a body that was written are read back.** -/
theorem encodeBody_trip (l : D22Layout) (ctx : D22Context) (m : D22Message) (ps : List D22Param) :
    Writes (encodeBody l ctx m ps) fun b => (l.params = false → ps = []) ∧
      ∀ x s, readFields l ctx m.type b = .ok (x, s) → (l.properties → s = m.properties) ∧
        D22Message.Agrees l m x.1 ∧ (l.params → YieldsParams ps (x.1.params, x.2)) := by
  refine (writeVi64_trip _).when.bind fun _ hid => ?_
  refine (writeNamespace_writes _).when.bind fun _ hns => ?_
  refine (writeSpan_trip (by decide) _).when.bind fun _ hname => ?_
  refine (writeVi64_trip _).when.bind fun _ halias => ?_
  refine (writeFetchEnd_trip m).when.bind fun _ hend => ?_
  refine (writeStatus_trip ctx m).when.bind fun _ hstatus => ?_
  refine (writeParams_trip l ctx ps).bind fun _ ⟨hnone, hparams⟩ => ?_
  refine (writeProperties_writes l m).mono fun properties hp => ⟨hnone, fun x s h => ?_⟩
  simp only [← append_assoc] at h
  suffices hfields : Gives (readFields l ctx m.type) _ fun x =>
      D22Message.Agrees l m x.1 ∧ (l.params → YieldsParams ps (x.1.params, x.2)) by
    obtain ⟨rfl, hx⟩ := hfields properties x s h
    exact ⟨hp, hx⟩
  simp only [append_assoc]
  refine (readWhen_gives hid 0).bind fun requestId hi => ?_
  refine (readWhen_gives hns {}).bind fun ns hn => ?_
  refine (readWhen_gives ⟨fun hl => hname.1 hl _, hname.2⟩ []).bind fun name hm => ?_
  refine (readWhen_gives halias 0).bind fun aliasId ha => ?_
  refine (readWhen_gives hend (0, {})).bind fun fetchEnd he => ?_
  refine (readWhen_gives hstatus {}).bind fun status hst => ?_
  refine hparams.last fun params hp => .pure ⟨?_, hp⟩
  exact agrees_of_stages hi.1 hn.1 hm.1 ha.1 (fun ht => he.1 (decide_eq_true ht)) hst

variable {type : UInt64}

/-- **What a decoded body is made of**: its fields, then the properties if the layout has them, and
nothing else. -/
theorem decodeBody_eq_ok {d r : Bytes}
    {x : D22Message × Bool} (h : decodeBody l ctx type d = .ok (x, r)) :
    r = [] ∧ ∃ y s properties mandatory, readFields l ctx type d = .ok (y, s) ∧
      (l.properties → properties = s) ∧ (l.properties = false → s = []) ∧
      x = ({ y.1 with properties, mandatoryTrackProperty := mandatory }, y.2) := by
  obtain ⟨y, s, hy, h⟩ := bind_eq_ok h
  obtain ⟨props, t, hprops, h⟩ := bind_eq_ok h
  obtain ⟨_, u, hend, h⟩ := bind_eq_ok h
  cases h
  rw [readEnd] at hend
  split_ifs at hend with ht
  obtain ⟨-, rfl⟩ := Prod.mk.inj (Except.ok.inj hend)
  refine ⟨rfl, y, s, props.1, props.2, hy, fun hl => ?_, fun hl => ?_, rfl⟩
  · rw [hl] at hprops
    obtain ⟨rest, s₁, hrest, hprops⟩ := bind_eq_ok hprops
    obtain ⟨_, s₂, _, hprops⟩ := bind_eq_ok hprops
    obtain ⟨rfl, -⟩ := Prod.mk.inj (Except.ok.inj hprops)
    exact (Prod.mk.inj (Except.ok.inj hrest)).1.symm
  · rw [hl] at hprops
    exact (Prod.mk.inj (Except.ok.inj hprops)).2.trans ht

/-! ## Messages -/

variable {body : Bytes} {v : D22Message}

theorem decodeMessage_eq_ok (hl : layout type ctx = .ok l)
    (h : decodeMessage type body ctx = .ok v) :
    decodeBody l ctx type body = .ok ((v, false), []) := by
  obtain ⟨x, hx, h⟩ := except_bind_eq_ok h
  obtain ⟨_, hvalid, h⟩ := except_bind_eq_ok h
  cases h
  obtain ⟨_, _, hx⟩ := except_bind_eq_ok hx
  obtain ⟨l', hl', hx⟩ := except_bind_eq_ok hx
  cases hl.symm.trans hl'
  cases hd : decodeBody l ctx type body with
  | error e => rw [hd] at hx; cases hx
  | ok y =>
    obtain ⟨y, r⟩ := y
    rw [hd] at hx
    obtain rfl := Except.ok.inj hx
    obtain ⟨rfl, -⟩ := decodeBody_eq_ok hd
    obtain ⟨m, bad⟩ := y
    obtain rfl : bad = false := refuse_eq_ok hvalid
    rfl

/-- Without an open tail, a decoded body ends with its fields. -/
theorem readFields_of_decodeMessage (hl : layout type ctx = .ok l) (ht : l.properties = false)
    (h : decodeMessage type body ctx = .ok v) : ∃ y, readFields l ctx type body = .ok (y, []) := by
  obtain ⟨-, y, s, _, _, hy, -, hs, -⟩ := decodeBody_eq_ok (decodeMessage_eq_ok hl h)
  rw [hs ht] at hy
  exact ⟨y, hy⟩

/-- The octets of an envelope. -/
def envelopeOctets (type : UInt64) (body : Bytes) : Bytes :=
  vi64Encode type.toNat ++ (uint16Octets body.length ++ body)

/-- **What a successful encoder has done**: it wrote an envelope around a body that decodes. -/
theorem encodeOnCursor_eq_ok {c : BufWriter} (h : encodeOnCursor w m ps ctx = .ok c) :
    ∃ l w₁ w₂ v, layout m.type ctx = .ok l ∧ encodeBody l ctx m ps w₁ = .ok w₂ ∧
      ∀ body, Wrote w₁ w₂ body → decodeMessage m.type body ctx = .ok v ∧
        c.written = w.written ++ envelopeOctets m.type body := by
  obtain ⟨_, _, h⟩ := except_bind_eq_ok h
  cases hl : layout m.type ctx with
  | error e => rw [hl] at h; cases h
  | ok l =>
    rw [hl] at h
    obtain ⟨w₀, h₀, h⟩ := except_bind_eq_ok h
    obtain ⟨w₁, h₁, h⟩ := except_bind_eq_ok h
    obtain ⟨w₂, h₂, h⟩ := except_bind_eq_ok h
    obtain ⟨_, _, h⟩ := except_bind_eq_ok h
    cases hd : decodeMessage m.type (w₂.written.drop w₁.written.length) ctx with
    | error e => rw [hd] at h; cases h
    | ok v =>
      rw [hd] at h
      refine ⟨l, w₁, w₂, v, rfl, h₂, fun body hwrote => ?_⟩
      rw [hwrote.written, drop_left] at h hd
      refine ⟨hd, ?_⟩
      rw [patchUint16] at h
      split_ifs at h
      cases h
      have hw : w₂.written = w₀.written ++ ([0, 0] ++ body) :=
        ((writeRaw_wrote h₁).trans hwrote).written
      rw [hw, take_left, ← drop_drop, drop_left, (writeVi64_wrote h₀).written]
      simp only [append_assoc]
      rfl

/-- **Draft-22 messages round trip.**  For every message type, context and value: what the encoder
accepts it writes as an envelope around a body that decodes in the same context, to its last octet,
to a message that agrees on every field of the layout, with the parameters that were given, in
order; without an open tail no strict prefix of the body decodes.  What it refuses leaves the writer
as it was. -/
theorem encodeMessage_roundTrip (w : BufWriter) (m : D22Message) (ps : List D22Param)
    (ctx : D22Context) :
    ((encodeMessage w m ps ctx).1 = .ok () → ∃ l body v, layout m.type ctx = .ok l ∧
      (encodeMessage w m ps ctx).2.written = w.written ++ envelopeOctets m.type body ∧
      decodeMessage m.type body ctx = .ok v ∧
      decodeBody l ctx m.type body = .ok ((v, false), []) ∧
      D22Message.Agrees l m v ∧
      (l.properties → v.properties = m.properties) ∧
      (l.params → v.params.count = ps.length ∧
        ∃ qs, paramList v.params.encoded.length 0 v.params.encoded = .ok qs ∧
          List.Forall₂ D22Param.Carries ps qs) ∧
      (l.params = false → ps = []) ∧
      (l.properties = false → ∀ d, d <+: body → d ≠ body →
        ∀ v', decodeMessage m.type d ctx ≠ .ok v')) ∧
    ((encodeMessage w m ps ctx).1 ≠ .ok () → (encodeMessage w m ps ctx).2 = w) := by
  rw [encodeMessage]
  cases hc : encodeOnCursor w m ps ctx with
  | error e => exact ⟨fun h => (by cases h), fun _ => rfl⟩
  | ok c =>
    refine ⟨fun _ => ?_, fun h => absurd rfl h⟩
    obtain ⟨l, w₁, w₂, v, hl, hbody, hout⟩ := encodeOnCursor_eq_ok hc
    obtain ⟨body, hwrote, hnone, hfields⟩ := encodeBody_trip l ctx m ps w₁ w₂ hbody
    obtain ⟨hdec, hwritten⟩ := hout body hwrote
    have hd := decodeMessage_eq_ok hl hdec
    obtain ⟨-, y, s, properties, mandatory, hy, hprops, -, hv⟩ := decodeBody_eq_ok hd
    obtain ⟨rfl, hvalid⟩ := Prod.mk.inj hv
    obtain ⟨hs, hagrees, hyields⟩ := hfields y s hy
    refine ⟨l, _, _, hl, hwritten, hdec, hd, { hagrees with }, fun ht => ?_, fun hp => ?_, hnone,
      fun ht => ?_⟩
    · exact (hprops ht).trans (hs ht)
    · obtain ⟨hcount, hiter⟩ := hyields hp
      obtain ⟨qs, hqs, hall⟩ := hiter hvalid.symm
      exact ⟨hcount, qs, paramList_of_iterates hqs _ le_rfl, hall⟩
    · intro d hpre hne v' hd'
      obtain ⟨z, hz⟩ := readFields_of_decodeMessage hl ht hdec
      obtain ⟨z', hz'⟩ := readFields_of_decodeMessage hl ht hd'
      exact (readFields_stable l ctx m.type).not_ok_of_shorter hz hpre hne z' hz'

/-- A `SUBSCRIBE` with a namespace, a name and two parameters is accepted. -/
example : (encodeMessage ⟨[], 64⟩
    { type := d22Subscribe, requestId := 2, ns := { encoded := [1, 1, 97] }, trackName := [98] }
    [{ type := 4, integer := 500 },
    { type := 33, filter := { type := .relative, startGroup := 1 } }]
    {}).1.toBool := by decide +kernel

end MoqRelay
