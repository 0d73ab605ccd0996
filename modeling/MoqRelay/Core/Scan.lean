import MoqRelay.Core.Window

/-!
# Core/Scan — the scan of one subscription: its best record, its lowest owed close, its range end

`sub_best_candidate` of `delivery.c`.  The scan reads the record at the position of every retained
list and moves the position past each record that is never to start downstream:

    head ──pass──▸ next head        out of the window, abandoned, expired, or paused at the end
         ──hold──▸ stop             an open object with nothing new
         ──refuse─▸ stop            no stream slot
         ──take──▸ a candidate

A list whose records are all consumed may owe a close, which the scan collects on the way.
-/

namespace MoqRelay

/-! ## Candidates -/

/-- `r_cand_t`, when there is one. -/
structure Cand where
  (list emitted : ℕ)
  view : Rec
  subgroupProperties : Bool
  gapReset : ResetDesc
  followsGap : Bool

/-- `r_seal_note_t`, when there is one. -/
structure SealNote where
  (group list subgroupId : ℕ)
  reset : Bool
  resetDesc : ResetDesc
  deriving DecidableEq

/-- `group_cmp`. -/
def Sub.groupCmp (s : Sub) (a b : ℕ) : Ordering :=
  if a = b then .eq
  else if decide (a < b) = decide (s.groupOrder ≠ .descending) then .lt
  else .gt

/-- The subgroup a record ranks under: datagrams come last. -/
def Rec.rankSubgroup (r : Rec) : ℕ := if r.datagramPref then u64Max else r.subgroupId

/-- `cand_better`. -/
def Sub.candBetter (s : Sub) (cand : Cand) : Option Cand → Bool
  | none => true
  | some best =>
    let a := cand.view
    let b := best.view
    if a.publisherPriority ≠ b.publisherPriority then a.publisherPriority < b.publisherPriority
    else match s.groupCmp a.groupId b.groupId with
      | .lt => true
      | .gt => false
      | .eq =>
        if a.rankSubgroup ≠ b.rankSubgroup then a.rankSubgroup < b.rankSubgroup
        else a.arrivalSeq < b.arrivalSeq

/-! ## One head -/

/-- What the scan does with the record at a list's position; `pass true` leaves a hole. -/
inductive Verdict
  | pass (hole : Bool) | hold | refuse | take
  deriving DecidableEq

/-- The branches of the scan, in their order, for a record at position `pos` of an entry. -/
def Sub.verdict (s : Sub) (t : Track) (nowUs : ℕ) (eligible : ℕ → Rec → Bool) (e : Gpos) (pos : ℕ)
    (v : Rec) : Verdict :=
  let begun : Bool := e.emitted pos ≠ 0
  if s.barred v && !begun then .pass false
  else if v.objState = .open && v.chunkCount ≤ (e.emitted pos &&& gposEmitMask) then .hold
  else if v.objState = .abandoned && !begun then .pass false
  else if !begun && t.recExpired v.arrivalUs nowUs then .pass true
  else if !begun && s.srcDone && !s.forward then .pass true
  else if !eligible s.cookie v then .refuse
  else .take

/-- Past the record at a position without starting it.  A record that opens a new upstream lifetime
is remembered; a hole is a gap of the stream only while no such boundary was passed over. -/
def Gpos.passBy (e : Gpos) (log : Log) (g : ℕ) (l : ListSlot) (pos : ℕ) (hole : Bool) : Gpos :=
  match l with
  | .datagram => e.advance pos
  | .subgroup _ =>
    let later := e.renew pos || (log.recFlags g l (e.idx pos)).2.1
    let e' := e.passOver log g l pos
    (if hole && !later then e'.setGap pos true else e').advance pos

/-! ## One list -/

/-- Why the scan of a list stopped. -/
inductive ListEnd
  | drained (rc : Result) | held | refused | taken (v : Rec)

/-- The inner loop of the scan. -/
def Sub.scanList (s : Sub) (log : Log) (t : Track) (nowUs : ℕ) (eligible : ℕ → Rec → Bool)
    (g : ℕ) (l : ListSlot) (pos : ℕ) : ℕ → Gpos → Gpos × ListEnd
  | 0, e => (e, .drained .done)
  | fuel + 1, e =>
    match log.readRec g l (e.idx pos) with
    | .error rc => (e, .drained rc)
    | .ok v =>
      match s.verdict t nowUs eligible e pos v with
      | .pass hole => s.scanList log t nowUs eligible g l pos fuel (e.passBy log g l pos hole)
      | .hold => (e, .held)
      | .refuse => (e, .refused)
      | .take => (e, .taken v)

/-- The records retained in a list. -/
def Log.listLength (log : Log) (g : ℕ) (l : ListSlot) : ℕ :=
  (((log.groupFind g).bind fun x => x.list? l).map fun v => v.recs.length).getD 0

/-- The close a consumed, sealed list owes: that of the lifetime the subscription last had open,
else that of the list, and never a clean one after a hole. -/
def Sub.sealNote (s : Sub) (log : Log) (e : Gpos) (g slot pos sgid : ℕ) : SealNote :=
  let (reset, desc) := match e.owedCause log g (.subgroup slot) pos with
    | some owed => (decide (owed.tag ≠ .none), owed)
    | none => match log.subgroupReset g slot with
      | some d => (true, d)
      | none => (false, resetDescNone)
  let cause := if s.srcDone && !s.forward then resetDescLocal resetCancelled
    else resetDescInternal resetCodeEvicted
  match !reset && e.gap pos, cause with
  | true, some d => ⟨g, pos, sgid, true, d⟩
  | _, _ => ⟨g, pos, sgid, reset, desc⟩

/-- The candidate a taken head becomes. -/
def Gpos.cand (e : Gpos) (log : Log) (g : ℕ) (l : ListSlot) (pos : ℕ) (v : Rec) : Cand :=
  let (props, follows, gapReset) := log.recFlags g l (e.idx pos)
  let emitted := e.emitted pos &&& gposEmitMask
  match l with
  | .datagram => ⟨pos, emitted, v, props, gapReset, follows⟩
  | .subgroup _ =>
    ⟨pos, emitted, v, props, (e.owedCause log g l pos).getD gapReset,
      follows || e.gap pos || e.renew pos⟩

/-! ## All lists -/

/-- What the scan has gathered. -/
structure ScanAcc where
  table : GposTable
  best : Option Cand
  note : Option SealNote
  (blockedOpen capacityBlocked : Bool)

/-- The seal kept at a consumed list: the first group with one wins, and in it the lowest
subgroup. -/
def Sub.sealStep (s : Sub) (log : Log) (e : Gpos) (g slot pos : ℕ) (note : Option SealNote) :
    Option SealNote :=
  if note.all (fun n => n.group = g) && !e.acked pos then
    match log.subgroupSealed g slot with
    | none => note
    | some sgid =>
      if note.all (fun n => sgid < n.subgroupId) then some (s.sealNote log e g slot pos sgid)
      else note
  else note

/-- The list at a slot of a group, and its place in an entry; the last slot is the datagrams'. -/
def listRef (lists slot : ℕ) : ListSlot := if slot = lists then .datagram else .subgroup slot
def posSlot (gposLists lists slot : ℕ) : ℕ := if slot = lists then gposLists - 1 else slot

/-- What the end of a list's loop adds. -/
def Sub.listDone (s : Sub) (log : Log) (g slot : ℕ) (l : ListSlot) (pos : ℕ) (e : Gpos)
    (acc : ScanAcc) : ListEnd → ScanAcc
  | .drained rc =>
    if rc = .done && l ≠ .datagram then { acc with note := s.sealStep log e g slot pos acc.note }
    else acc
  | .held => { acc with blockedOpen := true }
  | .refused => { acc with capacityBlocked := true }
  | .taken v =>
    let cand := e.cand log g l pos v
    if s.candBetter cand acc.best then { acc with best := some cand } else acc

/-- One list of a group, at entry `i`. -/
def Sub.scanSlot (s : Sub) (log : Log) (t : Track) (nowUs : ℕ) (eligible : ℕ → Rec → Bool)
    (g i : ℕ) (acc : ScanAcc) (slot : ℕ) : ScanAcc :=
  let l := listRef (log.listCount g) slot
  let pos := posSlot acc.table.lists (log.listCount g) slot
  let r := s.scanList log t nowUs eligible g l pos (log.listLength g l + 1) (acc.table.entries i)
  s.listDone log g slot l pos r.1 { acc with table := acc.table.setEntry i fun _ => r.1 } r.2

/-- One group: find or claim its entry, then every list of it. -/
def Sub.scanGroup (s : Sub) (log : Log) (t : Track) (nowUs : ℕ) (eligible : ℕ → Rec → Bool)
    (acc : ScanAcc) (g : ℕ) : ScanAcc :=
  match acc.table.entry g with
  | none => acc
  | some (i, table) =>
    (List.range (log.listCount g + 1)).foldl (s.scanSlot log t nowUs eligible g i)
      { acc with table := table }

/-- The groups the scan enters: with no exclusion bits and a window, those of the window. -/
def Sub.scanGroups (s : Sub) (log : Log) : List ℕ :=
  let ids := log.groups.map Group.groupId
  if s.excluded.isNone && !s.locationEmpty then
    (ids.filter fun g => !decide (g < s.startGroup)).takeWhile
      fun g => !(s.hasEnd && s.endGroup < g)
  else ids

/-- The live edge is past the range end. -/
def Sub.rangePassed (s : Sub) (log : Log) (t : Track) : Bool :=
  if s.excluded.isSome then
    t.hasLargest && (s.endGroup < t.largestGroup ||
      (t.largestGroup = s.endGroup && s.endObject < t.largestObject))
  else (log.groups.getLast?).any fun g => s.endGroup < g.groupId

/-- What `sub_best_candidate` leaves: the subscription with its positions, whether an entry was
reclaimed, and its results. -/
structure ScanOut where
  sub : Sub
  reclaimed : Bool
  best : Option Cand
  rangeDone : Bool
  note : Option SealNote
  capacityBlocked : Bool

/-- `sub_best_candidate`. -/
def Sub.bestCandidate (s : Sub) (t : Track) (nowUs : ℕ) (eligible : ℕ → Rec → Bool) : ScanOut :=
  match s.gpos with
  | none => ⟨s, false, none, s.hasEnd && s.rangePassed t.log t, none, false⟩
  | some table =>
    let (table, reclaimed) := table.gc t.log
    let s := { s with pendingSkip := s.pendingSkip || reclaimed }
    let acc := (s.scanGroups t.log).foldl (s.scanGroup t.log t nowUs eligible)
      ⟨table, none, none, false, false⟩
    { sub := { s with gpos := some acc.table }
      reclaimed := reclaimed
      best := acc.best
      rangeDone := acc.best.isNone && s.hasEnd && !acc.blockedOpen && !acc.capacityBlocked &&
        s.rangePassed t.log t
      note := acc.note
      capacityBlocked := acc.capacityBlocked }

end MoqRelay
