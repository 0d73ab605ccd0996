import MoqRelay.Core.Scan

/-!
# Core/Deliver — one call of `next_delivery`

`core_next_delivery` of `delivery.c`.  A held delivery is replayed or dropped; then the sweep looks
for an object begun in an evicted group; then one pass over the binding's subscriptions lets each
take its turn, and the best notice or record of the pass is handed out:

    held ──▸ evict-reset ──▸ turn of each subscription ──▸ notice or record

A turn scans the subscription and makes one `Choice`.  What a turn decides is a function of the scan
(`ScanOut.choice`); what it does to the core is another (`PassState.take`).
-/

namespace MoqRelay

/-! ## Begun in an evicted group -/

/-- An entry whose begun object lost its group. -/
def GposTable.orphan (t : GposTable) (log : Log) (i : ℕ) : Bool :=
  (t.entries i).occupied && (t.entries i).begun t.lists && log.groupGone (t.entries i).groupId

/-- `sub_evicted_begun_group`. -/
def Sub.evictedBegunGroup (s : Sub) (log : Log) : Option ℕ :=
  s.gpos.bind fun t =>
    ((List.range t.groups).find? (t.orphan log)).map fun i => (t.entries i).groupId

/-! ## Finished at the end of the track -/

namespace Sub

variable (s : Sub)

/-- The positions entry of a group. -/
def entry? (g : ℕ) : Option Gpos := s.gpos.bind fun t => (t.find g).map t.entries

/-- `gpos_lists`, zero before the positions are allocated. -/
def gposLists : ℕ := (s.gpos.map GposTable.lists).getD 0

/-- A list of a group is consumed, and a subgroup list sealed or final.  The source asks for the
final object with the index of the last record consumed. -/
def eotList (log : Log) (g : ℕ) (e : Gpos) (slot : ℕ) : Bool :=
  let l := listRef (log.listCount g) slot
  let pos := posSlot s.gposLists (log.listCount g) slot
  !(log.readRec g l (e.idx pos)).isOk &&
    (l = .datagram || (log.subgroupSealed g slot).isSome ||
      log.subgroupIsFinal g slot (e.idx pos - 1))

/-- Every list of a group the subscription has an entry for. -/
def eotGroup (log : Log) (g : ℕ) : Bool :=
  (s.entry? g).any fun e => (List.range (log.listCount g + 1)).all (s.eotList log g e)

/-- The walk of `sub_eot_complete` over the retained groups, from the id it expects next. -/
def eotFrom (log : Log) : ℕ → List ℕ → Bool
  | _, [] => true
  | expect, g :: gs =>
    if g < expect then eotFrom log expect gs
    else if s.hasEnd && s.endGroup < g then true
    else g = expect && s.eotGroup log g && eotFrom log ((g + 1) % 2 ^ 64) gs

/-- The first group id the walk expects. -/
def eotStart (log : Log) : ℕ := max s.startGroup log.evictedFloor

/-- `sub_eot_complete`. -/
def eotComplete (log : Log) : Bool :=
  log.endOfTrack && !log.groups.isEmpty &&
    s.eotFrom log (s.eotStart log) (log.groups.map Group.groupId)

end Sub

/-! ## What a turn decides -/

/-- What a subscription contributes to a pass: nothing, a notice (a seal, or the eviction
watermark), its end, or a record. -/
inductive Choice
  | idle
  | notice (note : Option SealNote)
  | finish (errorCode : ℕ) (pd : PdDesc)
  | offer (cand : Cand)

/-- The branches after a scan, in their order.  `space` says the ring takes one more intent. -/
def ScanOut.choice (o : ScanOut) (log : Log) (space : Bool) : Choice :=
  let s := o.sub
  if s.pendingSkip then .notice none
  else match o.note, o.best with
    | some note, _ => .notice (some note)
    | none, none =>
      if o.capacityBlocked then .idle
      else if o.rangeDone && !s.rangeEndHolds && s.forward then
        .finish doneSubEnded (coreLocalDone pdSubscriptionEnded)
      else if s.srcDone then .finish 0 s.srcDonePd
      else if s.forward && s.eotComplete log && space then
        .finish doneTrackEnded (coreLocalDone pdTrackEnded)
      else .idle
    | none, some cand =>
      if !s.forward && cand.view.objState ≠ .abandoned then
        if s.srcDone then .finish 0 s.srcDonePd else .idle
      else .offer cand

namespace Core

variable (c : Core)

/-! ## The evict-reset sweep -/

/-- The subscriptions a pass considers: live, of this binding, active, on a live track. -/
def considers (b i : ℕ) : Bool :=
  c.subOfBinding i b && (c.subs i).state = .active &&
    c.trackCurrent (c.subs i).track (c.subs i).trackGenSlot

/-- The group the sweep finds for a subscription. -/
def evictedBegun (b i : ℕ) : Option ℕ :=
  if c.considers b i && (c.subs i).begunCount ≠ 0 then
    (c.subs i).evictedBegunGroup (c.tracks (c.subs i).track).log
  else none

/-- The sweep: the lowest slot with such a group, and the group. -/
def evictPick (b : ℕ) : Option (ℕ × ℕ) :=
  if (c.bindings b).begunSubs = 0 then none
  else (c.bindings b).subs.foldl
    (fun pick i => match c.evictedBegun b i with
      | none => pick
      | some g => if pick.all fun p => i < p.1 then some (i, g) else pick) none

/-! ## The end of a subscription -/

/-- `SUB_DONE`, then `sub_retire`. -/
def subDone (b i errorCode : ℕ) (pd : PdDesc) (nowUs : ℕ) : Core :=
  (c.intentPush
    { kind := .subDone
      errorCode := errorCode
      pd := pd
      cookie := (c.subs i).cookie
      bindingCookie := (c.bindings b).cookie
      sub := c.subHandle i }).subRetire i nowUs

/-- The end of a subscription, on a later scan when the ring is full. -/
def subFinish (b i errorCode : ℕ) (pd : PdDesc) (nowUs : ℕ) : Core :=
  if c.intentSpace 1 then c.subDone b i errorCode pd nowUs else c.readyMark b

end Core

/-! ## The pass -/

/-- The state of the loop over the binding's subscriptions; a notice without a seal is the eviction
watermark. -/
structure PassState where
  core : Core
  best : Option (ℕ × Cand)
  ntc : Option (ℕ × Option SealNote)

/-- `NTC_BETTER`. -/
def Core.ntcBetter (c : Core) (i : ℕ) : Option (ℕ × Option SealNote) → Bool
  | none => true
  | some (n, _) =>
    (c.subs i).subscriberPriority < (c.subs n).subscriberPriority ||
      ((c.subs i).subscriberPriority = (c.subs n).subscriberPriority && i < n)

/-- The ranking of records across subscriptions. -/
def Core.offerBetter (c : Core) (i : ℕ) (cand : Cand) : Option (ℕ × Cand) → Bool
  | none => true
  | some (n, best) =>
    if (c.subs i).subscriberPriority ≠ (c.subs n).subscriberPriority then
      (c.subs i).subscriberPriority < (c.subs n).subscriberPriority
    else if cand.view.publisherPriority ≠ best.view.publisherPriority then
      cand.view.publisherPriority < best.view.publisherPriority
    else if cand.view.groupId ≠ best.view.groupId then cand.view.groupId < best.view.groupId
    else if cand.view.arrivalSeq ≠ best.view.arrivalSeq then
      cand.view.arrivalSeq < best.view.arrivalSeq
    else i < n

namespace PassState

variable (p : PassState)

/-- A choice taken. -/
def take (b i nowUs : ℕ) : Choice → PassState
  | .idle => p
  | .notice note => if p.core.ntcBetter i p.ntc then { p with ntc := some (i, note) } else p
  | .finish errorCode pd => { p with core := p.core.subFinish b i errorCode pd nowUs }
  | .offer cand => if p.core.offerBetter i cand p.best then { p with best := some (i, cand) } else p

/-- The scan a turn makes. -/
def scan (i nowUs : ℕ) (eligible : ℕ → Rec → Bool) : ScanOut :=
  (p.core.subs i).bestCandidate (p.core.tracks (p.core.subs i).track) nowUs eligible

/-- The state after the scan of a turn: new positions, and a mark when an entry was reclaimed. -/
def scanned (i nowUs : ℕ) (eligible : ℕ → Rec → Bool) : PassState :=
  let o := p.scan i nowUs eligible
  let c := p.core.setSub i fun _ => o.sub
  { p with core := if o.reclaimed then c.readyMark o.sub.binding else c }

/-- The log a subscription of the pass reads. -/
def logOf (i : ℕ) : Log := (p.core.tracks (p.core.subs i).track).log

/-- One turn of the loop. -/
def turn (b nowUs : ℕ) (eligible : ℕ → Rec → Bool) (i : ℕ) : PassState :=
  if !p.core.considers b i then p
  else if (p.core.subs i).srcAbort then p.take b i nowUs (.finish 0 (p.core.subs i).srcDonePd)
  else if (p.core.subs i).pendingSkip then p.take b i nowUs (.notice none)
  else
    (p.scanned i nowUs eligible).take b i nowUs
      ((p.scan i nowUs eligible).choice (p.logOf i) (p.core.intentSpace 1))

end PassState

namespace Core

variable (c : Core)

/-- The loop over the binding's subscriptions.  The list is the one at its start: the source saves
each successor before a turn may unlink its subscription. -/
def pass (b nowUs : ℕ) (eligible : ℕ → Rec → Bool) : PassState :=
  (c.bindings b).subs.foldl (fun p i => p.turn b nowUs eligible i) ⟨c, none, none⟩

/-! ## Handing out -/

/-- A delivery held by the binding and handed out. -/
def hold (b : ℕ) (f : Binding → Binding) (d : Delivery) : Core × Except Result Delivery :=
  (c.setBinding b fun x => { f x with outActive := true, outView := d }, .ok d)

/-- The synthetic reset of a group; its cause is always defined. -/
def holdEvict (b i g : ℕ) : Core × Except Result Delivery :=
  c.hold b
    (fun x => { x with
      outSub := i
      outGroup := g
      outList := 0
      outAbandoned := true
      outEvictReset := true
      outChunked := false
      outChunkBase := 0
      outNotice := .none
      pinPayload := none
      pinProperties := none })
    { Delivery.cleared with
      sub := c.subHandle i
      subCookie := (c.subs i).cookie
      oldestGroup := u64Max
      record := { Rec.blank with
        groupId := g
        objState := .abandoned
        reset := (resetDescInternal resetCodeEvicted).getD resetDescNone }
      evictedReset := true }

/-- A notice. -/
def holdNotice (b i : ℕ) (note : Option SealNote) : Core × Except Result Delivery :=
  let kind : Notice := if note.isSome then .seal else .evictWatermark
  let base := { Delivery.cleared with
    sub := c.subHandle i
    subCookie := (c.subs i).cookie
    notice := kind
    oldestGroup := u64Max }
  c.hold b
    (fun x => { x with
      outSub := i
      outGroup := (note.map SealNote.group).getD 0
      outList := (note.map SealNote.list).getD 0
      outChunked := false
      outAbandoned := false
      outEvictReset := false
      outChunkBase := 0
      outNotice := kind
      pinPayload := none
      pinProperties := none })
    (match note with
    | some n => { base with
        record := { Rec.blank with groupId := n.group, subgroupId := n.subgroupId }
        subgroupEnd := !n.reset
        sealReset := n.reset
        sealResetDesc := n.resetDesc }
    | none => { base with oldestGroup := (c.tracks (c.subs i).track).log.oldestGroupId })

/-- `binding_pin_chunks`: the pinned batch; `none` when the array cannot grow or a chunk is
missing. -/
def pinChunks (b : ℕ) (log : Log) (v : Rec) (base : ℕ) (mem : Bool) :
    Option (List (Option Rcbuf × UInt64)) :=
  if (c.bindings b).pinChunksCap < v.chunkCount - base && !mem then none
  else (List.range (v.chunkCount - base)).mapM fun k => (log.viewChunk v (base + k)).toOption

/-- A record. -/
def holdRecord (b i : ℕ) (cand : Cand) (mem : Bool) : Core × Except Result Delivery :=
  let log := (c.tracks (c.subs i).track).log
  let v := cand.view
  let aim (x : Binding) : Binding :=
    { x with
      outSub := i
      outGroup := v.groupId
      outList := cand.list
      outChunked := false
      outAbandoned := false
      outChunkBase := 0 }
  let flags (x : Binding) : Binding :=
    { x with
      outSubgroupProperties := cand.subgroupProperties
      outFollowsGap := cand.followsGap
      outGapReset := cand.gapReset
      outNotice := .none }
  let d : Delivery := { Delivery.cleared with
    sub := c.subHandle i
    subCookie := (c.subs i).cookie
    record := v
    oldestGroup := u64Max
    subgroupEnd := !v.datagramPref && log.subgroupIsFinal v.groupId cand.list v.objectId }
  if v.objState = .abandoned then
    c.hold b (fun x => flags
      { aim x with outAbandoned := true, pinPayload := none, pinProperties := none }) d
  else if v.chunkCount ≠ 0 then
    let grown := if mem then max (c.bindings b).pinChunksCap (v.chunkCount - cand.emitted)
      else (c.bindings b).pinChunksCap
    match c.pinChunks b log v cand.emitted mem with
    | none =>
      (c.setBinding b fun x => { aim x with outChunkBase := cand.emitted, pinChunksCap := grown },
        .error .capacity)
    | some chunks =>
      c.hold b (fun x => flags
        { aim x with
          outChunked := true
          outChunkBase := cand.emitted
          pinChunks := chunks
          pinChunksCap := grown
          pinPayload := none
          pinProperties := v.properties }) d
  else
    c.hold b (fun x =>
      flags { aim x with pinPayload := v.payload, pinProperties := v.properties }) d

/-- The pick between the best notice and the best record of a pass. -/
def handOut (p : PassState) (b : ℕ) (mem : Bool) : Core × Except Result Delivery :=
  match p.ntc, p.best with
  | none, none => (p.core, .error .done)
  | none, some (i, cand) => p.core.holdRecord b i cand mem
  | some (n, note), none => p.core.holdNotice b n note
  | some (n, note), some (i, cand) =>
    if (p.core.subs i).subscriberPriority < (p.core.subs n).subscriberPriority then
      p.core.holdRecord b i cand mem
    else p.core.holdNotice b n note

/-- A held delivery that a pause releases: an ordinary record of a paused subscription. -/
def pausedHold (b : ℕ) : Bool :=
  let x := c.bindings b
  c.subLive x.outSub && !(c.subs x.outSub).forward && x.outNotice = .none && !x.outAbandoned

/-- New work for a binding that holds nothing. -/
def selectNew (b nowUs : ℕ) (eligible : ℕ → Rec → Bool) (mem : Bool) :
    Core × Except Result Delivery :=
  match c.evictPick b with
  | some (i, g) => c.holdEvict b i g
  | none => handOut (c.pass b nowUs eligible) b mem

/-- `core_next_delivery`. -/
def nextDelivery (h : Handle) (nowUs : ℕ) (eligible : ℕ → Rec → Bool) (mem : Bool) :
    Core × Except Result Delivery :=
  match c.bindingResolve h with
  | none => (c, .error .staleHandle)
  | some b =>
    let x := c.bindings b
    if !x.outActive then c.selectNew b nowUs eligible mem
    else if c.pausedHold b then
      (c.setBinding b Binding.dropHeld).selectNew b nowUs eligible mem
    else if x.outChunked || x.outAbandoned || x.outNotice ≠ .none then (c, .ok x.outView)
    else (c, .error .wrongState)

end Core

end MoqRelay
