import MoqRelay.Ts.Packet

/-!
# Ts/Psi — sections, program tables, and random access points

The section reassembly of `mpeg2ts.c` (`sec_push`, `sec_next`), the checks of a PAT and a PMT, the
tracking of one program that the packetizer shares with the receiver (`psi_feed`), and the random
access detection on top of it (`rap_step`).
-/

namespace MoqRelay

/-! ## Section reassembly -/

/-- The last packet with a payload that a reassembly saw. -/
structure LastPayload where
  (pid cc : ℕ)
  pusi : Bool
  payload : Bytes
  deriving DecidableEq, Repr

/-- `moq_mpeg2ts_section_state_t`, with the octets collected in `store`. -/
structure SectionState where
  store : Bytes := []
  /-- The full length of the section in progress, `0` until known. -/
  need : ℕ := 0
  pid : ℕ := 0
  active : Bool := false
  last : Option LastPayload := none
  /-- `_in`: the payload being read, from `pos` on. -/
  input : Option Bytes := none
  pos : ℕ := 0
  contEnd : ℕ := 0
  pusi : Bool := false
  started : Bool := false
  deriving DecidableEq, Repr

namespace SectionState

section

variable (s : SectionState)

/-- `sec_reset`. -/
def reset : SectionState := { s with store := [], need := 0, active := false }

/-- Whether a payload repeats the last one: its counter, start indicator and octets. -/
def repeats (p : TsPacket) : Bool :=
  s.last = some ⟨p.pid, p.continuityCounter, p.payloadUnitStart, p.payload⟩

/-- Whether a payload cannot continue the section in progress: the counter is repeated with other
octets, or not the next one, or the packet is foreign. -/
def breaks (p : TsPacket) : Bool :=
  match s.last with
  | none => false
  | some l =>
    if l.pid = p.pid && l.cc = p.continuityCounter then true
    else s.active && (s.pid ≠ p.pid || p.continuityCounter ≠ (l.cc + 1) % 16)

/-- `sec_push`: load one packet. -/
def push (p : TsPacket) : MoqResult × SectionState :=
  let s := { s with
    input := none, pos := 0, contEnd := 0, pusi := false, started := false }
  if p.payload = [] then (.ok, s)
  else if s.repeats p then (.ok, s)
  else
    let s := if s.breaks p then s.reset else s
    let s := { s with
      last := some ⟨p.pid, p.continuityCounter, p.payloadUnitStart, p.payload⟩ }
    if p.payloadUnitStart then
      let ptr := (octet p.payload 0).toNat
      if 1 + ptr > p.payload.length then (.proto, s.reset)
      else (.ok, { s with input := some p.payload, pusi := true, pos := 1, contEnd := 1 + ptr })
    else if !s.active then (.ok, s)
    else (.ok, { s with input := some p.payload, pos := 0, contEnd := p.payload.length })

end

/-- What `sec_collect` returns. -/
inductive Collected
  | complete | more | abandon
  deriving DecidableEq, Repr

/-- The `section_length` in the first three octets. -/
def sectionLength (d : Bytes) : ℕ := (octet d 1 &&& 0x0F).toNat * 256 + (octet d 2).toNat

section

variable (s : SectionState)

/-- The second part of `sec_collect`: up to the length that is known. -/
def collectBody (d : Bytes) : Collected × SectionState :=
  let s := { s with store := s.store ++ d.take (s.need - s.store.length) }
  (if s.store.length = s.need then .complete else .more, s)

/-- `sec_collect`, into storage of `sectionMax` octets. -/
def collect (d : Bytes) : Collected × SectionState :=
  if s.need = 0 then
    let take := 3 - s.store.length
    let s := { s with store := s.store ++ d.take take }
    if s.store.length < 3 then (.more, s)
    else if sectionLength s.store > sectionMax - 3 then (.abandon, s)
    else collectBody { s with need := 3 + sectionLength s.store } (d.drop take)
  else collectBody s d

/-- The part of `sec_next` that continues the section in progress: the section, if it is complete,
and the state. -/
def continueSection (inp : Bytes) : Option Bytes × SectionState :=
  if s.started then (none, s)
  else if s.active then
    let (r, s) := if s.pos < s.contEnd
      then s.collect ((inp.take s.contEnd).drop s.pos) else (.more, s)
    let s := { s with pos := s.contEnd, started := true }
    match r with
    | .complete =>
      (some (s.store.take s.need),
        { s with active := false, input := if s.pusi then s.input else none })
    | .abandon => (none, s.reset)
    | .more => (none, if s.pusi then s.reset else s)
  else (none, { s with pos := s.contEnd, started := true })

/-- The part of `sec_next` after the pointer: the next whole section, or the start of one that goes
on in the next packet. -/
def newSection (inp : Bytes) : Option Bytes × SectionState :=
  let d := inp.drop s.pos
  let stop := { s with input := none }
  if d = [] || octet d 0 = 0xFF then (none, stop)
  else if 3 ≤ d.length && sectionLength d > sectionMax - 3 then (none, stop)
  else if 3 ≤ d.length && 3 + sectionLength d ≤ d.length then
    (some (d.take (3 + sectionLength d)), { s with pos := s.pos + (3 + sectionLength d) })
  else
    let s := { s.reset with
      active := true, pid := (s.last.map LastPayload.pid).getD 0, input := none }
    match s.collect d with
    | (.abandon, s) => (none, s.reset)
    | (_, s) => (none, s)

/-- `sec_next`: the next complete section of the loaded packet. -/
def next : Option Bytes × SectionState :=
  match s.input with
  | none => (none, s)
  | some inp =>
    match s.continueSection inp with
    | (some sec, s) => (some sec, s)
    | (none, s) => if s.pusi then s.newSection inp else (none, { s with input := none })

end

/-- The loop over `sec_next`; every section but the first takes three octets of the packet, so a
fuel of its payload's length and one is enough. -/
def sections : ℕ → SectionState → List Bytes × SectionState
  | 0, s => ([], s)
  | n + 1, s =>
    match s.next with
    | (none, s) => ([], s)
    | (some sec, s) => let (secs, s) := sections n s; (sec :: secs, s)

/-- `sec_push` and the loop over `sec_next`: the sections a packet completes. -/
def feed (s : SectionState) (p : TsPacket) : List Bytes × SectionState :=
  match s.push p with
  | (.ok, s) => sections (p.payload.length + 1) s
  | (_, s) => ([], s)

end SectionState

/-! ## Program tables -/

section

variable (sec : Bytes)

/-- `section_check`. -/
def sectionCheck (tableId : UInt8) : Bool :=
  12 ≤ sec.length && octet sec 0 = tableId && octet sec 1 &&& 0x80 ≠ 0 &&
    octet sec 1 &&& 0x40 = 0 && SectionState.sectionLength sec ≤ sectionMax - 3 &&
    9 ≤ SectionState.sectionLength sec &&
    3 + SectionState.sectionLength sec = sec.length && octet sec 6 ≤ octet sec 7 && crc32 sec = 0

/-- The octets between the header and the CRC_32. -/
def sectionBody : Bytes := (sec.take (sec.length - 4)).drop 8

/-- The version of a section. -/
def sectionVersion : ℕ := (octet sec 5).toNat / 2 % 32

/-- `current_next_indicator`. -/
def sectionCurrent : Bool := octet sec 5 &&& 1 ≠ 0

/-- The checks of `moq_mpeg2ts_parse_pat`. -/
def patOk : Bool := sectionCheck sec 0x00 && (sectionBody sec).length % 4 = 0

end

/-- The entries of a PAT body, in order: program number and PID. -/
def patEntries : Bytes → List (ℕ × ℕ)
  | a :: b :: c :: d :: rest =>
    (a.toNat * 256 + b.toNat, (c.toNat * 256 + d.toNat) % 0x2000) :: patEntries rest
  | _ => []

/-- `desc_loop_ok`, on fuel for the length of the loop. -/
def descLoopOk : ℕ → Bytes → Bool
  | 0, d => d = []
  | n + 1, d =>
    d = [] || (2 ≤ d.length && (octet d 1).toNat ≤ d.length - 2 &&
      descLoopOk n (d.drop (2 + (octet d 1).toNat)))

/-- One entry of a PMT: its stream type, its PID and the length of its descriptors. -/
structure PmtEntry where
  streamType : UInt8
  (pid infoLength : ℕ)
  deriving DecidableEq, Repr

/-- The entries of a PMT after the program descriptors, on fuel for their octets; `none` for one
that does not fit. -/
def pmtEntries : ℕ → Bytes → Option (List PmtEntry)
  | 0, d => if d = [] then some [] else none
  | n + 1, d =>
    if d = [] then some []
    else if d.length < 5 then none
    else
      let eil := rd16 d 3 % 0x1000
      if eil > d.length - 5 || !descLoopOk eil ((d.drop 5).take eil) then none
      else (pmtEntries n (d.drop (5 + eil))).map (⟨octet d 0, rd16 d 1 % 0x2000, eil⟩ :: ·)

/-- `moq_mpeg2ts_parse_pmt`: the entries, if every check passes. -/
def parsePmt (sec : Bytes) : Option (List PmtEntry) :=
  let body := sectionBody sec
  let pil := rd16 body 2 % 0x1000
  if !sectionCheck sec 0x02 || body.length < 4 || octet sec 6 ≠ 0 || octet sec 7 ≠ 0 then none
  else if 4 + pil > body.length || !descLoopOk pil ((body.drop 4).take pil) then none
  else pmtEntries body.length (body.drop (4 + pil))

/-- `moq_mpeg2ts_stream_type_is_video`. -/
def streamTypeIsVideo (t : UInt8) : Bool :=
  t ∈ [0x01, 0x02, 0x10, 0x1B, 0x1F, 0x20, 0x21, 0x24, 0x25, 0x32, 0x33, 0x34]

/-- `pmt_first_video`. -/
def pmtFirstVideo (entries : List PmtEntry) : ℕ :=
  match entries.find? fun e => streamTypeIsVideo e.streamType with
  | some e => e.pid
  | none => pidNone

/-! ## The program followed -/

/-- The fields `psi_view_t` points to, of the packetizer. -/
structure PsiState where
  pmtPid : ℕ := pidNone
  havePmt : Bool := false
  videoPid : ℕ := pidNone
  /-- `_sel_have`: the version and the number of the section the program came from. -/
  selFrom : Option (ℕ × ℕ) := none
  selProgram : ℕ := 0
  pat : SectionState := {}
  pmt : SectionState := {}
  deriving DecidableEq, Repr

namespace PsiState

/-- A PAT section of `psi_feed`. -/
def onPat (v : PsiState) (wantProgram : ℕ) (sec : Bytes) : PsiState :=
  if !patOk sec || !sectionCurrent sec then v
  else if wantProgram = 0 && v.selFrom.any fun sel =>
      sectionVersion sec = sel.1 && (octet sec 6).toNat > sel.2 then v
  else
    match (patEntries (sectionBody sec)).find? fun e =>
      e.1 ≠ 0 && (wantProgram = 0 || e.1 = wantProgram) with
    | none => v
    | some (num, pid) =>
      let v := if wantProgram = 0
        then { v with selFrom := some (sectionVersion sec, (octet sec 6).toNat) } else v
      if pid ≠ v.pmtPid || num ≠ v.selProgram then
        { v with
          pmtPid := pid, selProgram := num, havePmt := false, videoPid := pidNone, pmt := {} }
      else v

/-- A PMT section of `psi_feed`. -/
def onPmt (v : PsiState) (sec : Bytes) : PsiState :=
  if octet sec 0 ≠ 0x02 then v
  else
    match parsePmt sec with
    | none => v
    | some entries =>
      if !sectionCurrent sec || rd16 sec 3 ≠ v.selProgram then v
      else { v with havePmt := true, videoPid := pmtFirstVideo entries }

/-- `psi_feed`. -/
def feed (v : PsiState) (wantProgram : ℕ) (p : TsPacket) : PsiState :=
  if p.pid = pidPat then
    let (secs, pat) := v.pat.feed p
    secs.foldl (fun v sec => v.onPat wantProgram sec) { v with pat := pat }
  else if v.pmtPid > pidMax || p.pid ≠ v.pmtPid then v
  else
    let (secs, pmt) := v.pmt.feed p
    secs.foldl onPmt { v with pmt := pmt }

end PsiState

/-! ## Random access points -/

/-- `ra_resolve`. -/
def raResolve (sel : ℕ) (havePmt : Bool) (videoPid : ℕ) : ℕ :=
  if sel ≠ pidAuto || !havePmt then sel else videoPid

/-- `rap_step`: whether the packet starts at a random access point, and the announcements left. -/
def rapStep (armed : ℕ → Bool) (p : TsPacket) (sel : ℕ) : Bool × (ℕ → Bool) :=
  if p.pid = pidNull then (false, armed)
  else
    let pidOk := sel = pidNone || sel = pidAuto || sel = p.pid
    if !p.payloadUnitStart then
      (false, if p.randomAccess && pidOk then Function.update armed p.pid true else armed)
    else
      let signalled := p.randomAccess || armed p.pid
      (signalled && pidOk && pesStart p && (sel ≠ pidAuto || pesIsVideo p),
        Function.update armed p.pid false)

end MoqRelay
