import MoqRelay.Lib.Trace
import MoqRelay.Ts.Psi

/-!
# Ts/Packetizer — Groups and Objects out of a transport stream

`moq_mpeg2ts_packetizer_*`: source packets gather in an open Object, which is handed out when it is
full or its Group ends; a Group starts at a random access point, and the PAT/PMT run before that
point waits in the lead-in so that it can open the Group.  Both buffers are lists of whole packets;
what the caller's `emit` received is kept in `emitted`.  Rates and durations of the statistics are
left out: nothing reads them.
-/

namespace MoqRelay

/-- `moq_mpeg2ts_packetizer_cfg_t`; a pointer is whether it is there. -/
structure PacketizerCfg where
  packetSize : ℕ := tsPacketSize
  objectPackets : ℕ := 64
  groupAtRandomAccess : Bool := true
  randomAccessPid : ℕ := pidAuto
  programNumber : ℕ := 0
  minGroupMs : ℕ := 0
  waitForRandomAccess : Bool := true
  pcrPid : ℕ := pidNone
  objectBuf : Bool := true
  objectCap : ℕ
  leadBuf : Bool := false
  leadCap : ℕ := 0
  emit : Bool := true
  deriving DecidableEq, Repr

/-- `moq_mpeg2ts_emitted_object_t`. -/
structure EmittedObject where
  payload : List Bytes
  (group object : ℕ)
  (newGroup randomAccess : Bool)
  packetCount : ℕ
  deriving DecidableEq, Repr

/-- `moq_mpeg2ts_packetizer_t`. -/
structure Packetizer where
  cfg : PacketizerCfg
  /-- `_lead_cap`, in packets. -/
  leadPackets : ℕ
  groups : ℕ := 0
  objects : ℕ := 0
  packetsIn : ℕ := 0
  packetsDroppedBeforeRandomAccess : ℕ := 0
  started : Bool := false
  groupOpen : Bool := false
  objRap : Bool := false
  group : ℕ := 0
  object : ℕ := 0
  /-- The packets in `object_buf`. -/
  obj : List Bytes := []
  /-- The packets in `lead_buf`. -/
  lead : List Bytes := []
  leadActive : Bool := false
  /-- `_have_pcr_pid` and `_pcr_pid`. -/
  pcrPid : Option ℕ
  curPcr : Option ℕ := none
  groupStartPcr : Option ℕ := none
  armed : ℕ → Bool := fun _ => false
  psi : PsiState := {}
  /-- What `emit` was given, oldest first. -/
  emitted : List EmittedObject := []

/-- `SIZE_MAX`, for the product a configuration must not overflow. -/
def packetizerSizeMax : ℕ := 2 ^ 64 - 1

/-- `moq_mpeg2ts_packetizer_init`. -/
def packetizerInit (c : PacketizerCfg) : Option Packetizer :=
  if !packetSizeOk c.packetSize || c.objectPackets = 0 || !c.emit || !c.objectBuf then none
  else if c.objectPackets > packetizerSizeMax / c.packetSize ||
      c.objectCap < c.objectPackets * c.packetSize then none
  else if c.leadCap ≠ 0 && !c.leadBuf then none
  else if !pidSelOk c.randomAccessPid || (c.pcrPid > pidMax && c.pcrPid ≠ pidNone) then none
  else
    some
      { cfg := c
        leadPackets := min (c.leadCap / c.packetSize) (c.objectPackets - 1)
        pcrPid := if c.pcrPid ≠ pidNone then some c.pcrPid else none }

namespace Packetizer

variable (pz : Packetizer)

/-- `pz_emit_object`. -/
def emitObject : Packetizer :=
  if pz.obj = [] then pz
  else
    { pz with
      emitted := pz.emitted ++
        [{ payload := pz.obj
           group := pz.group
           object := pz.object
           newGroup := pz.object = 0
           randomAccess := pz.objRap
           packetCount := pz.obj.length }]
      objects := pz.objects + 1
      object := pz.object + 1
      obj := []
      objRap := false }

/-- `pz_append`. -/
def append (pkt : Bytes) (rap : Bool) : Packetizer :=
  let pz := { pz with obj := pz.obj ++ [pkt], objRap := pz.objRap || rap }
  if pz.obj.length ≥ pz.cfg.objectPackets then pz.emitObject else pz

/-- The loop that appends a run of lead-in packets. -/
def appendAll (pkts : List Bytes) : Packetizer := pkts.foldl (fun pz pkt => pz.append pkt false) pz

/-- Packets given up before the first random access point. -/
def drop (n : ℕ) : Packetizer :=
  { pz with packetsDroppedBeforeRandomAccess := pz.packetsDroppedBeforeRandomAccess + n }

/-- `pz_flush_lead`. -/
def flushLead : Packetizer :=
  let lead := pz.lead
  let pz := if pz.groupOpen then pz.appendAll lead else pz.drop lead.length
  { pz with lead := [], leadActive := false }

/-- `pz_close_group`. -/
def closeGroup : Packetizer := if pz.groupOpen then pz.emitObject else pz

/-- `pz_open_group`. -/
def openGroup : Packetizer :=
  let pz := if pz.groupOpen then let pz := pz.closeGroup; { pz with group := pz.group + 1 } else pz
  { pz with groupOpen := true, object := 0, groupStartPcr := none, groups := pz.groups + 1 }

/-- The PCR a packet carries on a PID, if the clock does not break there. -/
def pcrOn (p : TsPacket) (pid : Option ℕ) : Option ℕ :=
  if pid = some p.pid && !p.discontinuity then p.pcr.map fun pcr => pcr27mhz pcr.1 pcr.2 else none

/-- What the packet says, before it is placed: the tables, the clock, the random access
announcements; and whether it is a random access point. -/
def observe (p : TsPacket) : Bool × Packetizer :=
  let psi := pz.psi.feed pz.cfg.programNumber p
  let pcrPid := if p.pcr.isSome && pz.pcrPid.isNone then some p.pid else pz.pcrPid
  let curPcr := (pcrOn p pcrPid).or pz.curPcr
  let sel := raResolve pz.cfg.randomAccessPid psi.havePmt psi.videoPid
  let (rap, armed) := rapStep pz.armed p sel
  (rap, { pz with
    packetsIn := pz.packetsIn + 1, psi := psi, pcrPid := pcrPid, curPcr := curPcr, armed := armed })

/-- The first packet of the stream opens a Group unless it waits for a random access point. -/
def start : Packetizer :=
  if pz.started then pz
  else
    let pz := { pz with started := true }
    if pz.cfg.waitForRandomAccess then pz else pz.openGroup

/-- `start_group`. -/
def startsGroup (rap : Bool) : Bool :=
  if rap && (!pz.groupOpen || pz.cfg.groupAtRandomAccess) then
    if !pz.groupOpen then true
    else
      match pz.groupStartPcr, pz.curPcr with
      | some startPcr, some curPcr => pcrDelta startPcr curPcr ≥ pz.cfg.minGroupMs * 27000
      | _, _ => pz.cfg.minGroupMs = 0
  else false

/-- A random access point opens a Group, after its lead-in. -/
def openAt (pkt : Bytes) : Packetizer :=
  let pz := if pz.groupOpen then pz.emitObject else pz
  let lead := pz.lead
  let pz := { pz with lead := [], leadActive := false }
  (pz.openGroup.appendAll lead).append pkt true

/-- A packet that goes to the open Group, or is given up if there is none. -/
def carry (pkt : Bytes) (rap : Bool) : Packetizer :=
  if pz.groupOpen then pz.append pkt rap else pz.drop 1

/-- The branches that place a packet. -/
def place (p : TsPacket) (pkt : Bytes) (rap : Bool) : Packetizer :=
  if pz.startsGroup rap then pz.openAt pkt
  else if rap && pz.leadActive then pz.flushLead.carry pkt true
  else if (1 ≤ pz.leadPackets && pz.cfg.groupAtRandomAccess) && p.pid = pidPat &&
      p.payloadUnitStart then
    let pz := if pz.leadActive then pz.flushLead else pz
    { pz with leadActive := true, lead := [pkt] }
  else if pz.leadActive then
    if pz.lead.length + 1 > pz.leadPackets then pz.flushLead.carry pkt rap
    else { pz with lead := pz.lead ++ [pkt] }
  else pz.carry pkt rap

/-- The PCR the Group starts at, after the packet is placed. -/
def markPcr (p : TsPacket) : Packetizer :=
  if pz.groupOpen then { pz with groupStartPcr := pz.groupStartPcr.or (pcrOn p pz.pcrPid) } else pz

/-- The packet as `moq_mpeg2ts_packetizer_push` reads it: one whose adaptation field is damaged is
still carried. -/
def readPacket (ps : ℕ) (pkt : Bytes) : Except MoqResult TsPacket :=
  if pkt.length ≠ ps then .error .inval
  else
    match parsePacket pkt ps with
    | .ok p => .ok p
    | .error _ =>
      let ts := pkt.drop (tsOffset ps)
      if octet ts 0 ≠ syncByte then .error .proto else .ok { pid := pktPid ts }

/-- `moq_mpeg2ts_packetizer_push`. -/
def push (pkt : Bytes) : MoqResult × Packetizer :=
  match readPacket pz.cfg.packetSize pkt with
  | .error e => (e, pz)
  | .ok p =>
    let (rap, pz) := pz.observe p
    (.ok, (pz.start.place p pkt rap).markPcr p)

/-- `moq_mpeg2ts_packetizer_flush`. -/
def flush : Packetizer :=
  let pz := if pz.leadActive then pz.flushLead else pz
  pz.closeGroup

end Packetizer

/-! ## Runs -/

/-- The calls on a packetizer; `endObject` is `moq_mpeg2ts_packetizer_end_object`. -/
inductive PacketizerCall
  | push (pkt : Bytes)
  | endObject
  | flush
  deriving DecidableEq, Repr

/-- One call. -/
def Packetizer.step (pz : Packetizer) : PacketizerCall → Packetizer
  | .push pkt => (pz.push pkt).2
  | .endObject => pz.emitObject
  | .flush => pz.flush

/-- The packets a call accepts. -/
def Packetizer.accepted (pz : Packetizer) : PacketizerCall → List Bytes
  | .push pkt => if (pz.push pkt).1 = .ok then [pkt] else []
  | _ => []

/-- A packetizer after some calls. -/
def Packetizer.run (pz : Packetizer) (calls : List PacketizerCall) : Packetizer :=
  calls.foldl Packetizer.step pz

end MoqRelay
