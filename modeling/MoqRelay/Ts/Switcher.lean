import MoqRelay.Lib.SortedKeys
import MoqRelay.Ts.Psi

/-!
# Ts/Switcher — program tables re-versioned across track switches

`moq_mpeg2ts_switcher_*`: the PAT and the PMTs of each new track are given versions that follow the
ones emitted before, octet by octet as the packets pass, with the `CRC_32` of each section patched
by the difference of two running checksums.  The used slots of the PID and table arrays are a list
each, in slot order: slots are only ever filled from the front, and only the PMT PIDs are ever
cleared, all at once.
-/

namespace MoqRelay

/-- `MOQ_MPEG2TS_SWITCHER_MAX_PMT`. -/
def switcherMaxPmt : ℕ := 8

/-- The last payload of a PID, as received and as emitted. -/
structure LastSwitched where
  cc : ℕ
  pusi : Bool
  (input output : Bytes)
  deriving DecidableEq, Repr

/-- `moq_mpeg2ts_switch_pid_t`, in use.  `hdr` holds the octets of the section in progress, up to
eight. -/
structure SwitchPid where
  pid : ℕ
  inSection : Bool := false
  rewrite : Bool := false
  patCopy : Bool := false
  /-- `3 + section_length`, `0` until known. -/
  secLen : ℕ := 0
  secPos : ℕ := 0
  hdr : Bytes := []
  crcOrig : UInt32 := 0
  crcNew : UInt32 := 0
  last : Option LastSwitched := none
  deriving DecidableEq, Repr

/-- `moq_mpeg2ts_switch_table_t`, in use. -/
structure SwitchTable where
  tableId : UInt8
  ext : ℕ
  /-- `have_out` and the last current version emitted. -/
  outVersion : Option ℕ := none
  /-- `offset_set` and the offset. -/
  offset : Option ℕ := none
  deriving DecidableEq, Repr

/-- What names a table. -/
def SwitchTable.key (t : SwitchTable) : UInt8 × ℕ := (t.tableId, t.ext)

/-- `moq_mpeg2ts_switcher_t`. -/
structure Switcher where
  packetSize : ℕ
  switched : Bool := false
  pcrPending : Bool := false
  pids : List SwitchPid := [{ pid := pidPat }]
  tables : List SwitchTable := []
  seen : ℕ → Bool := fun _ => false
  /-- The PAT section in progress, as received. -/
  patSec : Bytes := []

/-- `moq_mpeg2ts_switcher_init`. -/
def switcherInit (packetSize : ℕ) : Option Switcher :=
  if packetSizeOk packetSize then some { packetSize := packetSize } else none

namespace Switcher

variable (sw : Switcher)

/-- `sw_pid`. -/
def findPid (pid : ℕ) : Option SwitchPid := keyed SwitchPid.pid sw.pids pid

/-- `sw_track_pmt`. -/
def trackPmt (pid : ℕ) : Switcher :=
  if pid = pidPat || pid > pidMax || pid = pidNull || (sw.findPid pid).isSome then sw
  else if sw.pids.length < 1 + switcherMaxPmt then { sw with pids := sw.pids ++ [{ pid := pid }] }
  else sw

/-- `moq_mpeg2ts_switcher_switch`. -/
def switch (pmtPids : List ℕ) : Switcher :=
  let sw := { sw with
    switched := true
    pcrPending := true
    seen := fun _ => false
    pids := (sw.pids.take 1).map fun sp => { sp with inSection := false, last := none }
    tables := sw.tables.map fun t => { t with offset := none } }
  pmtPids.foldl trackPmt sw

/-- `sw_learn_pat`. -/
def learnPat : Switcher :=
  if !patOk sw.patSec || !sectionCurrent sw.patSec then sw
  else
    (patEntries (sectionBody sw.patSec)).foldl
      (fun sw e => if e.1 = 0 then sw else sw.trackPmt e.2) sw

end Switcher

/-! ## Versions -/

/-- `sw_version`: the version a section is emitted with, and its table. -/
def swVersion (switched : Bool) (t : SwitchTable) (v : ℕ) (cur : Bool) : ℕ × SwitchTable :=
  if switched then
    if cur then
      let offset := t.offset.getD ((t.outVersion.map fun out => (out + 1 + 32 - v) % 32).getD 0)
      let nv := (v + offset) % 32
      (nv, { t with offset := some offset, outVersion := some nv })
    else
      match t.offset, t.outVersion with
      | some offset, _ => ((v + offset) % 32, t)
      | none, some out => ((out + 2) % 32, t)
      | none, none => (v, t)
  else (v, if cur then { t with outVersion := some v } else t)

/-- `sw_table`: the table of a section, a new one while there is room. -/
def swTable (tables : List SwitchTable) (tableId : UInt8) (ext : ℕ) :
    Option (List SwitchTable × SwitchTable) :=
  match keyed SwitchTable.key tables (tableId, ext) with
  | some t => some (tables, t)
  | none =>
    if tables.length < 1 + switcherMaxPmt then
      let t : SwitchTable := { tableId := tableId, ext := ext }
      some (tables ++ [t], t)
    else none

/-- A table is written back. -/
def setTable (tables : List SwitchTable) (t : SwitchTable) : List SwitchTable :=
  tables.map fun u => if u.key = t.key then t else u

/-- The version of a section of a table, with the tables after it. -/
def bumpVersion (switched : Bool) (tables : List SwitchTable) (tableId : UInt8) (ext v : ℕ)
    (cur : Bool) : ℕ × List SwitchTable :=
  match swTable tables tableId ext with
  | none => (v, tables)
  | some (tables, t) => let (nv, t) := swVersion switched t v cur; (nv, setTable tables t)

/-! ## Octets -/

/-- The `table_id` looked for on a PID. -/
def wantedTable (pid : ℕ) : UInt8 := if pid = pidPat then 0x00 else 0x02

/-- A version octet with another version. -/
def withVersion (orig : UInt8) (nv : ℕ) : UInt8 := (orig &&& 0xC1) ||| UInt8.ofNat (nv * 2)

/-- The version octet of `sw_feed`. -/
def versionOctet (sw : Switcher) (sp : SwitchPid) (orig : UInt8) : UInt8 × Switcher × SwitchPid :=
  let want := wantedTable sp.pid
  if octet sp.hdr 0 = want && (octet sp.hdr 1 &&& 0x80 ≠ 0) && 12 ≤ sp.secLen then
    let ext := if want = 0x02 then rd16 sp.hdr 3 else 0
    let v := orig.toNat / 2 % 32
    let (nv, tables) := bumpVersion sw.switched sw.tables want ext v (orig &&& 1 ≠ 0)
    let d := if nv ≠ v then withVersion orig nv else orig
    let patCopy := want = 0x00
    (d, { sw with tables := tables, patSec := if patCopy then sp.hdr.take 5 else sw.patSec },
      { sp with rewrite := sp.rewrite || nv ≠ v, patCopy := patCopy })
  else (orig, sw, sp)

/-- The octet `i` of a word, most significant first. -/
def wordOctet (w : UInt32) (i : ℕ) : UInt8 := (w >>> UInt32.ofNat (24 - 8 * i)).toUInt8

/-- The checksum part of `sw_feed`: an octet of the `CRC_32` field is patched, any other one runs
through both checksums. -/
def checksumOctet (sp : SwitchPid) (k : ℕ) (orig d : UInt8) : UInt8 × SwitchPid :=
  if sp.secLen ≠ 0 && sp.secLen ≤ k + 4 then
    if sp.rewrite then
      (orig ^^^ wordOctet sp.crcOrig (k + 4 - sp.secLen) ^^^
        wordOctet sp.crcNew (k + 4 - sp.secLen), sp)
    else (d, sp)
  else (d, { sp with crcOrig := crcStep sp.crcOrig orig, crcNew := crcStep sp.crcNew d })

/-- The end of the loop body of `sw_feed`: the PAT's copy, the position, the end of the section. -/
def advance (sw : Switcher) (sp : SwitchPid) (orig : UInt8) : Switcher × SwitchPid :=
  let sw := if sp.patCopy && 5 ≤ sp.secPos && sp.secPos < sectionMax
    then { sw with patSec := sw.patSec ++ [orig] } else sw
  let sp := { sp with secPos := sp.secPos + 1 }
  if sp.secLen ≠ 0 && sp.secPos = sp.secLen then
    (if sp.patCopy then sw.learnPat else sw, { sp with inSection := false })
  else (sw, sp)

/-- The loop body of `sw_feed`; `none` for a section whose end cannot be found. -/
def feedOctet (sw : Switcher) (sp : SwitchPid) (orig : UInt8) :
    Option (UInt8 × Switcher × SwitchPid) :=
  let k := sp.secPos
  let sp := if k < 8 then { sp with hdr := sp.hdr ++ [orig] } else sp
  if k = 2 && SectionState.sectionLength sp.hdr > sectionMax - 3 then none
  else
    let sp := if k = 2 then { sp with secLen := 3 + SectionState.sectionLength sp.hdr } else sp
    let (d, sw, sp) := if k = 5 then versionOctet sw sp orig else (orig, sw, sp)
    let (d, sp) := checksumOctet sp k orig d
    let (sw, sp) := advance sw sp orig
    some (d, sw, sp)

/-- `sw_feed`: the octets emitted, and those after the end of the section, if it comes first. -/
def swFeed : Switcher → SwitchPid → Bytes → Bytes × Bytes × Switcher × SwitchPid
  | sw, sp, [] => ([], [], sw, sp)
  | sw, sp, orig :: d =>
    if sp.inSection then
      match feedOctet sw sp orig with
      | none => (orig :: d, [], sw, { sp with inSection := false, secLen := 0 })
      | some (b, sw, sp) =>
        let (out, rest, sw, sp) := swFeed sw sp d
        (b :: out, rest, sw, sp)
    else ([], orig :: d, sw, sp)

/-- `sw_section_start`. -/
def sectionStart (sp : SwitchPid) : SwitchPid :=
  { sp with
    inSection := true, rewrite := false, patCopy := false, secLen := 0, secPos := 0, hdr := []
    crcOrig := 0xFFFFFFFF, crcNew := 0xFFFFFFFF }

/-- The loop of `sw_psi` over the sections that start in a packet; each one that ends there takes an
octet at least, so a fuel of their number is enough. -/
def newSections : ℕ → Switcher → SwitchPid → Bytes → Bytes × Switcher × SwitchPid
  | 0, sw, sp, d => (d, sw, sp)
  | n + 1, sw, sp, d =>
    if d = [] || octet d 0 = 0xFF then (d, sw, sp)
    else
      let (out, rest, sw, sp) := swFeed sw (sectionStart sp) d
      if sp.inSection || sp.secLen = 0 then (out ++ rest, sw, sp)
      else
        let (out', sw, sp) := newSections n sw sp rest
        (out ++ out', sw, sp)

/-- The section in progress goes on in these octets. -/
def continueSection (sw : Switcher) (sp : SwitchPid) (d : Bytes) : Bytes × Switcher × SwitchPid :=
  if sp.inSection then let (out, rest, sw, sp) := swFeed sw sp d; (out ++ rest, sw, sp)
  else (d, sw, sp)

/-- The payload of `sw_psi`, if it is not a repetition. -/
def psiPayload (sw : Switcher) (sp : SwitchPid) (pusi : Bool) (d : Bytes) :
    Bytes × Switcher × SwitchPid :=
  if pusi then
    let ptr := (octet d 0).toNat
    let (cont, sw, sp) := continueSection sw sp ((d.drop 1).take ptr)
    let sp := { sp with inSection := false }
    let new := (d.drop 1).drop ptr
    let (out, sw, sp) := newSections new.length sw sp new
    (d.take 1 ++ cont ++ out, sw, sp)
  else continueSection sw sp d

/-- `sw_psi`. -/
def swPsi (sw : Switcher) (sp : SwitchPid) (p : TsPacket) : Bytes × Switcher × SwitchPid :=
  match sp.last.filter fun l =>
    l.cc = p.continuityCounter && l.pusi = p.payloadUnitStart && l.input = p.payload with
  | some l => (l.output, sw, sp)
  | none =>
    let next := sp.last.any fun l => p.continuityCounter = (l.cc + 1) % 16
    let sp := { sp with inSection := sp.inSection && next }
    let (out, sw, sp) := psiPayload sw sp p.payloadUnitStart p.payload
    (out, sw, { sp with
      last := some ⟨p.continuityCounter, p.payloadUnitStart, p.payload, out⟩ })

/-! ## Packets -/

namespace Switcher

variable (sw : Switcher)

/-- A PID's state is written back. -/
def setPid (sp : SwitchPid) : Switcher :=
  { sw with pids := sw.pids.map fun u => if u.pid = sp.pid then sp else u }

section

variable (p : TsPacket)

/-- The sections of a packet on a tracked PID: the payload emitted. -/
def processPsi : Bytes × Switcher :=
  match sw.findPid p.pid with
  | none => (p.payload, sw)
  | some sp =>
    if p.payload = [] then (p.payload, sw)
    else let (out, sw, sp) := swPsi sw sp p; (out, sw.setPid sp)

/-- Whether the packet is the first of its PID since a switch. -/
def firstSince : Bool := sw.switched && p.pid ≠ pidNull && !sw.seen p.pid

/-- Whether the `discontinuity_indicator` is set: the first packet of a PID, if it has where, and
the first PCR. -/
def setsDiscontinuity : Bool :=
  (sw.firstSince p && p.adaptationField.any (1 ≤ ·)) || (p.pcr.isSome && sw.pcrPending)

/-- What the packet leaves of both marks. -/
def markSeen : Switcher :=
  { sw with
    seen := if sw.firstSince p then Function.update sw.seen p.pid true else sw.seen
    pcrPending := sw.pcrPending && p.pcr.isNone }

/-- A packet whose pointer overruns its payload, on a tracked PID. -/
def badPointer : Bool :=
  (sw.findPid p.pid).isSome && p.payload ≠ [] && p.payloadUnitStart &&
    1 + (octet p.payload 0).toNat > p.payload.length

end

/-- The packet with another payload, and the `discontinuity_indicator` set or not. -/
def rebuild (pkt : Bytes) (off : ℕ) (payload : Bytes) (di : Bool) : Bytes :=
  let out := pkt.take (off + tsPacketSize - payload.length) ++ payload ++
    pkt.drop (off + tsPacketSize)
  if di then out.modify (off + 5) (· ||| 0x80) else out

/-- `moq_mpeg2ts_switcher_process`: the result, the packet as it is left, and the switcher. -/
def process (pkt : Bytes) : MoqResult × Bytes × Switcher :=
  match parsePacket pkt sw.packetSize with
  | .error _ => (.proto, pkt, sw)
  | .ok p =>
    if sw.badPointer p then (.proto, pkt, sw)
    else
      let (payload, sw) := sw.processPsi p
      (.ok, rebuild pkt (tsOffset sw.packetSize) payload (sw.setsDiscontinuity p), sw.markSeen p)

end Switcher

end MoqRelay
