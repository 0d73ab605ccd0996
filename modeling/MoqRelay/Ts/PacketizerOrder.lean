import MoqRelay.Ts.Packetizer

/-!
# Ts/PacketizerOrder — no packet is lost, doubled or misplaced

    accepted  =  dropped ++ emitted Objects ++ open Object ++ lead-in

Two invariants over whole runs.  `Kept` says what one operation does to the packets held: it takes
new ones at the end and gives up old ones at the front, and only while no Group is open.  `Numbered`
says how the Objects are numbered and what stands first in a Group opened at a random access point.
The numbers begin with Group 0 unless a push skips it (`SkipsGroup`).
-/

namespace MoqRelay

open List

namespace Packetizer

variable {pz pz' pz'' : Packetizer} {p : TsPacket} {pkt : Bytes}
  {pkts xs ys : List Bytes} {rap : Bool}

/-- The packets handed out or in the open Object, in order. -/
def placed (pz : Packetizer) : List Bytes := pz.emitted.flatMap EmittedObject.payload ++ pz.obj

/-- The packets handed out or held. -/
def held (pz : Packetizer) : List Bytes := pz.placed ++ pz.lead

/-! ## Filling Objects -/

/-- **What filling an Object does**: the packets go to the end of those placed, and only the Object
and what was handed out change. -/
structure Fills (pz : Packetizer) (pkts : List Bytes) (pz' : Packetizer) : Prop where
  placed : pz'.placed = pz.placed ++ pkts
  cfg : pz'.cfg = pz.cfg
  leadPackets : pz'.leadPackets = pz.leadPackets
  lead : pz'.lead = pz.lead
  leadActive : pz'.leadActive = pz.leadActive
  groupOpen : pz'.groupOpen = pz.groupOpen
  started : pz'.started = pz.started
  dropped : pz'.packetsDroppedBeforeRandomAccess = pz.packetsDroppedBeforeRandomAccess

theorem Fills.refl (pz : Packetizer) : pz.Fills [] pz :=
  ⟨by simp, rfl, rfl, rfl, rfl, rfl, rfl, rfl⟩

theorem Fills.trans (h : pz.Fills xs pz') (h' : pz'.Fills ys pz'') : pz.Fills (xs ++ ys) pz'' where
  placed := by rw [h'.placed, h.placed, append_assoc]
  cfg := h'.cfg.trans h.cfg
  leadPackets := h'.leadPackets.trans h.leadPackets
  lead := h'.lead.trans h.lead
  leadActive := h'.leadActive.trans h.leadActive
  groupOpen := h'.groupOpen.trans h.groupOpen
  started := h'.started.trans h.started
  dropped := h'.dropped.trans h.dropped

theorem emitObject_fills (pz : Packetizer) : pz.Fills [] pz.emitObject := by
  unfold emitObject
  split_ifs
  · exact .refl pz
  · exact ⟨by simp [Packetizer.placed], rfl, rfl, rfl, rfl, rfl, rfl, rfl⟩

theorem emitObject_obj (pz : Packetizer) : pz.emitObject.obj = [] := by
  unfold emitObject
  split_ifs with hobj
  · exact hobj
  · rfl

theorem append_fills (pz : Packetizer) (pkt : Bytes) (rap : Bool) :
    pz.Fills [pkt] (pz.append pkt rap) := by
  have hput : pz.Fills [pkt] { pz with obj := pz.obj ++ [pkt], objRap := pz.objRap || rap } :=
    ⟨by simp [Packetizer.placed], rfl, rfl, rfl, rfl, rfl, rfl, rfl⟩
  unfold append
  dsimp only
  split_ifs
  · exact hput.trans (emitObject_fills _)
  · exact hput

theorem appendAll_fills (pkts : List Bytes) (pz : Packetizer) :
    pz.Fills pkts (pz.appendAll pkts) := by
  induction pkts generalizing pz with
  | nil => exact .refl pz
  | cons pkt pkts ih => exact (append_fills pz pkt false).trans (ih _)

theorem closeGroup_fills (pz : Packetizer) : pz.Fills [] pz.closeGroup := by
  unfold closeGroup
  split_ifs
  · exact emitObject_fills pz
  · exact .refl pz

/-! ## What is held -/

/-- **What an operation does to the packets held**: new ones come last, and the first of all are
given up, counted, and only while the first Group is still waited for. -/
def Kept (pz : Packetizer) (pkts : List Bytes) (pz' : Packetizer) : Prop :=
  pz'.cfg = pz.cfg ∧ (pz.groupOpen → pz'.groupOpen) ∧
    ∃ n ≤ (pz.held ++ pkts).length,
      pz'.packetsDroppedBeforeRandomAccess = pz.packetsDroppedBeforeRandomAccess + n ∧
        pz'.held = (pz.held ++ pkts).drop n ∧
        (pz.groupOpen ∨ pz.cfg.waitForRandomAccess = false → n = 0)

theorem Kept.trans (h : pz.Kept xs pz') (h' : pz'.Kept ys pz'') : pz.Kept (xs ++ ys) pz'' := by
  obtain ⟨hcfg, hopen, n, hn, hdrop, hheld, hzero⟩ := h
  obtain ⟨hcfg', hopen', m, hm, hdrop', hheld', hzero'⟩ := h'
  refine ⟨hcfg'.trans hcfg, hopen' ∘ hopen, n + m, ?_, by omega, ?_, fun ho => ?_⟩
  · rw [hheld] at hm
    simp only [length_append, length_drop] at hm hn ⊢
    omega
  · rw [hheld', hheld, ← append_assoc, ← drop_drop, drop_append_of_le_length hn]
  · rw [hzero ho, hzero' (ho.imp hopen fun hwait => hcfg ▸ hwait)]

/-- Nothing is given up. -/
theorem Kept.of_held (hcfg : pz'.cfg = pz.cfg) (hopen : pz.groupOpen → pz'.groupOpen)
    (hdropped : pz'.packetsDroppedBeforeRandomAccess = pz.packetsDroppedBeforeRandomAccess)
    (hheld : pz'.held = pz.held ++ pkts) : pz.Kept pkts pz' :=
  ⟨hcfg, hopen, 0, Nat.zero_le _, hdropped, hheld, fun _ => rfl⟩

/-! ## How Objects are numbered -/

/-- A Group opened at a random access point: its lead-in, the point's packet, and whether the Group
before it was open and still empty. -/
structure Opening where
  group : ℕ
  lead : List Bytes
  point : Bytes
  overEmpty : Bool
  deriving DecidableEq, Repr

/-- The Group a packet opens if it is a random access point. -/
def openingAt (pz : Packetizer) (pkt : Bytes) (rap : Bool) : List Opening :=
  if pz.startsGroup rap then
    [{ group := if pz.groupOpen then pz.group + 1 else pz.group
       lead := pz.lead
       point := pkt
       overEmpty := pz.groupOpen && pz.object = 0 && pz.obj = [] }]
  else []

/-- The Group a call opens at a random access point. -/
def opening (pz : Packetizer) : PacketizerCall → List Opening
  | .push pkt =>
    match readPacket pz.cfg.packetSize pkt with
    | .error _ => []
    | .ok p => (pz.observe p).2.start.openingAt pkt (pz.observe p).1
  | _ => []

/-- The next Object of the Group, or the first of the next one. -/
def FollowsAt (o : EmittedObject) (group object : ℕ) : Prop :=
  group = o.group ∧ object = o.object + 1 ∨ group = o.group + 1 ∧ object = 0

/-- The first Object of a Group opened at a random access point: the lead-in, then the point. -/
def StartsWith (payload : List Bytes) (op : Opening) : Prop := op.lead ++ [op.point] <+: payload

/-- The Groups skipped: an empty one that a random access point closed. -/
def skipped (ops : List Opening) : ℕ := if ops.any (·.overEmpty) then 1 else 0

/-- **The numbering of Objects** against the Groups opened at random access points so far. -/
structure Numbered (pz : Packetizer) (ops : List Opening) : Prop where
  full : pz.obj.length ≤ pz.cfg.objectPackets
  sized : ∀ o ∈ pz.emitted, o.payload.length ≤ pz.cfg.objectPackets
  chain : pz.emitted.IsChain fun a b => FollowsAt a b.group b.object
  first : pz.emitted = [] → pz.object = 0 ∧ pz.group = skipped ops
  head : ∀ o ∈ pz.emitted.head?, o.object = 0 ∧ o.group = skipped ops
  last : ∀ o ∈ pz.emitted.getLast?, FollowsAt o pz.group pz.object
  fresh : pz.groupOpen → pz.object = 0 → pz.obj = [] → pz.emitted = [] ∧ ops = []
  closed : pz.groupOpen = false → pz.emitted = [] ∧ pz.obj = [] ∧ ops = []
  opened : ∀ op ∈ ops,
    (∃ o ∈ pz.emitted, o.group = op.group ∧ o.object = 0 ∧ StartsWith o.payload op) ∨
      pz.group = op.group ∧ pz.object = 0 ∧ StartsWith pz.obj op

namespace Numbered

variable {ops : List Opening}

section

variable (h : pz.Numbered ops)
include h

theorem emitObject : pz.emitObject.Numbered ops := by
  unfold Packetizer.emitObject
  split_ifs with hobj
  · exact h
  · refine ⟨Nat.zero_le _, ?_, ?_, ?_, ?_, ?_, ?_, ?_, ?_⟩
    · rw [forall_mem_append, forall_mem_singleton]
      exact ⟨h.sized, h.full⟩
    · refine isChain_append.mpr ⟨h.chain, isChain_singleton _, ?_⟩
      rintro a ha b hb
      obtain rfl := by simpa using hb
      exact h.last a ha
    · intro hnil
      exact absurd hnil (by simp)
    · intro o ho
      cases hem : pz.emitted with
      | nil =>
        obtain rfl := by simpa [hem] using ho
        exact h.first hem
      | cons o' os => exact h.head o (by simpa [hem] using ho)
    · intro o ho
      obtain rfl := by simpa using ho
      exact .inl ⟨rfl, rfl⟩
    · exact fun _ hzero => absurd hzero (by simp)
    · intro hopen
      exact absurd (h.closed hopen).2.1 hobj
    · intro op hop
      obtain ⟨o, ho, hfirst⟩ | ⟨hgroup, hobject, hstart⟩ := h.opened op hop
      · exact .inl ⟨o, mem_append_left _ ho, hfirst⟩
      · exact .inl ⟨_, mem_append_right _ (mem_singleton_self _), hgroup, hobject, hstart⟩

/-- An Object that may be full is handed out, or has room. -/
theorem settle (hpos : 0 < pz.cfg.objectPackets) :
    let q := if pz.obj.length ≥ pz.cfg.objectPackets then pz.emitObject else pz
    pz.Fills [] q ∧ q.Numbered ops ∧ q.obj.length < q.cfg.objectPackets := by
  split_ifs with hfull
  · refine ⟨emitObject_fills pz, h.emitObject, ?_⟩
    rwa [emitObject_obj, (emitObject_fills pz).cfg]
  · exact ⟨.refl pz, h, Nat.lt_of_not_le hfull⟩

/-- A packet goes to the end of the open Object. -/
theorem put (hopen : pz.groupOpen)
    (hroom : pz.obj.length < pz.cfg.objectPackets) (pkt : Bytes) (rap : Bool) :
    Numbered { pz with obj := pz.obj ++ [pkt], objRap := rap } ops :=
  { h with
    full := by simpa using hroom
    fresh := fun _ _ hnil => absurd hnil (by simp)
    closed := fun hclosed => absurd (hopen.symm.trans hclosed) (by simp)
    opened := fun op hop => by
      obtain hfirst | ⟨hgroup, hobject, hstart⟩ := h.opened op hop
      · exact .inl hfirst
      · exact .inr ⟨hgroup, hobject, hstart.trans (prefix_append _ _)⟩ }

theorem append (hopen : pz.groupOpen)
    (hroom : pz.obj.length < pz.cfg.objectPackets) (pkt : Bytes) (rap : Bool) :
    (pz.append pkt rap).Numbered ops ∧
      (pz.append pkt rap).obj.length < (pz.append pkt rap).cfg.objectPackets := by
  have hput := h.put hopen hroom pkt (pz.objRap || rap)
  exact (hput.settle (Nat.zero_lt_of_lt hroom)).2

end

theorem appendAll (pkts : List Bytes) : ∀ {pz : Packetizer}, pz.Numbered ops →
    pz.groupOpen → pz.obj.length < pz.cfg.objectPackets →
    (pz.appendAll pkts).Numbered ops ∧
      (pz.appendAll pkts).obj.length < (pz.appendAll pkts).cfg.objectPackets := by
  induction pkts with
  | nil => exact fun h _ hroom => ⟨h, hroom⟩
  | cons pkt pkts ih =>
    intro pz h hopen hroom
    obtain ⟨h', hroom'⟩ := h.append hopen hroom pkt false
    exact ih h' ((append_fills pz pkt false).groupOpen.trans hopen) hroom'

end Numbered

/-! ## Opening a Group -/

theorem emitObject_of_empty (h : pz.obj = []) : pz.emitObject = pz := if_pos h

theorem openGroup_of_empty (h : pz.obj = []) : pz.openGroup = { pz with
      group := if pz.groupOpen then pz.group + 1 else pz.group
      groupOpen := true, object := 0, groupStartPcr := none, groups := pz.groups + 1 } := by
  unfold openGroup closeGroup
  cases hopen : pz.groupOpen <;> simp [emitObject_of_empty h]

/-- A run that leaves the Object room is only put there. -/
theorem appendAll_of_room (pkts : List Bytes) : ∀ {pz : Packetizer},
    pz.obj.length + pkts.length < pz.cfg.objectPackets →
    pz.appendAll pkts = { pz with obj := pz.obj ++ pkts } := by
  induction pkts with
  | nil => simp [appendAll]
  | cons pkt pkts ih =>
    intro pz hroom
    rw [length_cons] at hroom
    have hput : pz.append pkt false = { pz with obj := pz.obj ++ [pkt] } := by
      simp only [append, Bool.or_false]
      rw [if_neg (by simp; omega)]
    have hnext := @ih (pz.append pkt false) (by rw [hput]; simp; omega)
    have hstep : pz.appendAll (pkt :: pkts) = (pz.append pkt false).appendAll pkts := rfl
    rw [hstep, hnext, hput]
    simp

/-- The Object that a random access point begins, before it is checked for being full. -/
def beginAt (pz : Packetizer) (pkt : Bytes) : Packetizer :=
  { pz with
    group := if pz.groupOpen then pz.group + 1 else pz.group
    groupOpen := true, object := 0, groupStartPcr := none, groups := pz.groups + 1
    lead := [], leadActive := false, obj := pz.lead ++ [pkt], objRap := true }

theorem openAt_eq (hlead : pz.lead.length < pz.cfg.objectPackets)
    (hclosed : pz.groupOpen = false → pz.obj = []) (pkt : Bytes) :
    pz.openAt pkt =
      let q := pz.emitObject.beginAt pkt
      if q.obj.length ≥ q.cfg.objectPackets then q.emitObject else q := by
  have hq : (if pz.groupOpen then pz.emitObject else pz) = pz.emitObject := by
    split_ifs with hopen
    · rfl
    · exact (emitObject_of_empty (hclosed (by simpa using hopen))).symm
  have hobj := emitObject_obj pz
  rw [← (emitObject_fills pz).lead, ← (emitObject_fills pz).cfg] at hlead
  simp only [openAt, hq]
  generalize pz.emitObject = q at hobj hlead
  have hopen := @openGroup_of_empty { q with lead := [], leadActive := false } hobj
  rw [hopen, appendAll_of_room _ (by simpa [hobj] using hlead)]
  simp only [append, beginAt, hobj, nil_append, Bool.or_true]
  rfl

theorem skipped_concat (ops : List Opening) (op : Opening) :
    skipped (ops ++ [op]) = if op.overEmpty then 1 else skipped ops := by
  cases hop : op.overEmpty <;> simp [skipped, hop]

/-- **A random access point opens a Group**: the Objects so far end, and its own begins with the
lead-in. -/
theorem Numbered.beginAt {ops : List Opening} (h : pz.Numbered ops) (hobj : pz.obj = [])
    (hlead : pz.lead.length < pz.cfg.objectPackets) {op : Opening}
    (hgroup : op.group = if pz.groupOpen then pz.group + 1 else pz.group)
    (hopLead : op.lead = pz.lead) (hempty : op.overEmpty = (pz.groupOpen && pz.object = 0)) :
    (pz.beginAt op.point).Numbered (ops ++ [op]) := by
  -- a Group that is open and still empty is the first one, with nothing handed out
  have hfirst : pz.emitted = [] → op.group = skipped (ops ++ [op]) := by
    intro hnil
    obtain ⟨hobject, hnum⟩ := h.first hnil
    rw [skipped_concat, hempty, hgroup]
    cases hopen : pz.groupOpen with
    | false => simpa [(h.closed hopen).2.2, skipped] using hnum
    | true =>
      obtain ⟨-, hops⟩ := h.fresh hopen hobject hobj
      simpa [hobject, hops, skipped] using hnum
  have hkeep : ∀ o ∈ pz.emitted, pz.groupOpen ∧ pz.object ≠ 0 := by
    intro o ho
    have hopen : pz.groupOpen := by
      by_contra hclosed
      exact ne_nil_of_mem ho (h.closed (by simpa using hclosed)).1
    exact ⟨hopen, fun hzero => ne_nil_of_mem ho (h.fresh hopen hzero hobj).1⟩
  refine ⟨?_, h.sized, h.chain, ?_, ?_, ?_, ?_, ?_, ?_⟩
  · simpa [Packetizer.beginAt] using hlead
  · exact fun hnil => ⟨rfl, hgroup.symm.trans (hfirst hnil)⟩
  · intro o ho
    obtain ⟨-, hobject⟩ := hkeep o (mem_of_mem_head? ho)
    rw [skipped_concat, hempty]
    simpa [hobject] using h.head o ho
  · intro o ho
    obtain ⟨hopen, hobject⟩ := hkeep o (mem_of_mem_getLast? ho)
    obtain ⟨hg, -⟩ | ⟨-, hzero⟩ := h.last o ho
    · exact .inr ⟨by simp [Packetizer.beginAt, hopen, hg], rfl⟩
    · exact absurd hzero hobject
  · exact fun _ _ hnil => absurd hnil (by simp [Packetizer.beginAt])
  · exact fun hclosed => absurd hclosed (by simp [Packetizer.beginAt])
  · intro op' hop'
    obtain hold | hnew := mem_append.mp hop'
    · obtain hemitted | ⟨-, -, hstart⟩ := h.opened op' hold
      · exact .inl hemitted
      · exact absurd (hobj ▸ hstart) (by simp [StartsWith])
    · obtain rfl := mem_singleton.mp hnew
      refine .inr ⟨hgroup.symm, rfl, ?_⟩
      rw [StartsWith, hopLead]
      exact prefix_rfl

/-! ## What every reachable packetizer satisfies -/

/-- **The invariant of a run** that opened these Groups at random access points. -/
structure Wf (pz : Packetizer) (ops : List Opening) : Prop where
  numbered : pz.Numbered ops
  room : pz.obj.length < pz.cfg.objectPackets
  leadRoom : pz.leadPackets < pz.cfg.objectPackets
  lead : pz.lead.length ≤ pz.leadPackets
  idle : pz.leadActive = false → pz.lead = []
  unstarted : pz.started = false → pz.groupOpen = false ∧ pz.leadActive = false
  forwards : pz.started → pz.cfg.waitForRandomAccess = false → pz.groupOpen
  waits : pz.groupOpen → pz.cfg.waitForRandomAccess → ops ≠ []

namespace Wf

variable {ops : List Opening}

variable (h : pz.Wf ops)
include h

theorem placed_nil (hclosed : pz.groupOpen = false) : pz.placed = [] := by
  obtain ⟨hemitted, hobj, -⟩ := h.numbered.closed hclosed
  simp [placed, hemitted, hobj]

/-- A stream that forwards everything has no Group only until it starts. -/
theorem not_started (hclosed : pz.groupOpen = false)
    (hwait : pz.cfg.waitForRandomAccess = false) : pz.started = false := by
  by_contra hs
  exact absurd (hclosed.symm.trans (h.forwards (by simpa using hs) hwait)) (by simp)

/-- Filling Objects keeps everything but their numbering, which it extends. -/
theorem fill (hf : pz.Fills pkts pz') (hn : pz'.Numbered ops)
    (hroom : pz'.obj.length < pz'.cfg.objectPackets) : pz'.Wf ops where
  numbered := hn
  room := hroom
  leadRoom := by rw [hf.leadPackets, hf.cfg]; exact h.leadRoom
  lead := by rw [hf.lead, hf.leadPackets]; exact h.lead
  idle := by rw [hf.leadActive, hf.lead]; exact h.idle
  unstarted := by rw [hf.started, hf.groupOpen, hf.leadActive]; exact h.unstarted
  forwards := by rw [hf.started, hf.cfg, hf.groupOpen]; exact h.forwards
  waits := by rw [hf.cfg, hf.groupOpen]; exact h.waits

/-- The lead-in changes and packets are given up. -/
theorem relead {lead : List Bytes} {active : Bool} (n : ℕ)
    (hlead : lead.length ≤ pz.leadPackets) (hidle : active = false → lead = [])
    (hstarted : active → pz.started) :
    Wf { pz with
      lead := lead, leadActive := active
      packetsDroppedBeforeRandomAccess := pz.packetsDroppedBeforeRandomAccess + n } ops where
  numbered := { h.numbered with }
  room := h.room
  leadRoom := h.leadRoom
  lead := hlead
  idle := hidle
  unstarted hs := by
    refine ⟨(h.unstarted hs).1, ?_⟩
    by_contra hactive
    exact absurd (hs.symm.trans (hstarted (by simpa using hactive))) (by simp)
  forwards := h.forwards
  waits := h.waits

theorem emitObject : pz.emitObject.Wf ops := by
  refine h.fill (emitObject_fills pz) h.numbered.emitObject ?_
  rw [emitObject_obj, (emitObject_fills pz).cfg]
  exact Nat.zero_lt_of_lt h.room

theorem closeGroup : pz.closeGroup.Wf ops := by
  unfold Packetizer.closeGroup
  split_ifs
  · exact h.emitObject
  · exact h

end Wf

/-- Filling the open Group from anywhere but the lead-in gives nothing up. -/
theorem Fills.kept (h : pz.Fills pkts pz') (hlead : pkts = [] ∨ pz.lead = []) :
    pz.Kept pkts pz' := by
  refine .of_held h.cfg (fun ho => h.groupOpen.trans ho) h.dropped ?_
  obtain rfl | hnil := hlead
  · simp [held, h.placed, h.lead]
  · simp [held, h.placed, h.lead, hnil]

section Operations

variable {ops : List Opening}

variable (h : pz.Wf ops)
include h

/-- **Flushing the lead-in** into the open Group, or giving it up. -/
theorem flushLead_spec :
    pz.flushLead.Wf ops ∧ pz.Kept [] pz.flushLead ∧ pz.flushLead.lead = [] ∧
      pz.flushLead.started = pz.started ∧ pz.flushLead.leadPackets = pz.leadPackets := by
  unfold flushLead
  cases hopen : pz.groupOpen with
  | true =>
    have hf := appendAll_fills pz.lead pz
    obtain ⟨hn, hroom⟩ := h.numbered.appendAll pz.lead hopen h.room
    have hw := h.fill hf hn hroom
    refine ⟨hw.relead 0 (Nat.zero_le _) (fun _ => rfl) (by simp), ?_, rfl, hf.started,
      hf.leadPackets⟩
    have hheld : (pz.appendAll pz.lead).placed ++ [] = pz.placed ++ pz.lead ++ [] := by
      rw [append_nil, append_nil]
      exact hf.placed
    exact .of_held hf.cfg (fun _ => hf.groupOpen.trans hopen) hf.dropped hheld
  | false =>
    refine ⟨h.relead pz.lead.length (Nat.zero_le _) (fun _ => rfl) (by simp), ?_, rfl, rfl, rfl⟩
    have hheld : pz.held = pz.lead := by rw [held, h.placed_nil hopen, nil_append]
    refine ⟨rfl, fun ho => absurd (hopen.symm.trans ho) (by simp), pz.lead.length, ?_, rfl, ?_, ?_⟩
    · rw [hheld, append_nil]
    · rw [hheld, append_nil, drop_length]
      exact (append_nil _).trans (h.placed_nil hopen)
    · rintro (ho | hwait)
      · exact absurd (hopen.symm.trans ho) (by simp)
      · rw [h.idle (h.unstarted (h.not_started hopen hwait)).2, length_nil]

/-- **A packet that is not lead-in** goes to the open Group, or is given up. -/
theorem carry_spec (hstarted : pz.started) (hlead : pz.lead = []) (pkt : Bytes) (rap : Bool) :
    (pz.carry pkt rap).Wf ops ∧ pz.Kept [pkt] (pz.carry pkt rap) := by
  unfold carry
  split_ifs with hopen
  · have hf := append_fills pz pkt rap
    obtain ⟨hn, hroom⟩ := h.numbered.append hopen h.room pkt rap
    exact ⟨h.fill hf hn hroom, hf.kept (.inr hlead)⟩
  · have hclosed : pz.groupOpen = false := by simpa using hopen
    have hheld : pz.held = [] := by simp [held, h.placed_nil hclosed, hlead]
    refine ⟨h.relead 1 h.lead h.idle fun _ => hstarted, rfl, id, 1, by simp, rfl, ?_, ?_⟩
    · rwa [hheld]
    · rintro (ho | hwait)
      · exact absurd ho hopen
      · exact absurd (hstarted.symm.trans (h.not_started hclosed hwait)) (by simp)

/-- **A random access point that opens a Group.** -/
theorem openAt_spec (hstarted : pz.started) {op : Opening}
    (hgroup : op.group = if pz.groupOpen then pz.group + 1 else pz.group)
    (hopLead : op.lead = pz.lead)
    (hempty : op.overEmpty = (pz.groupOpen && pz.object = 0 && pz.obj = [])) :
    (pz.openAt op.point).Wf (ops ++ [op]) ∧ pz.Kept [op.point] (pz.openAt op.point) := by
  have hlead : pz.lead.length < pz.cfg.objectPackets := Nat.lt_of_le_of_lt h.lead h.leadRoom
  have hf := emitObject_fills pz
  have hzero : (pz.emitObject.object = 0) = (pz.object = 0 ∧ pz.obj = []) := by
    unfold emitObject
    split_ifs with hobj <;> simp [hobj]
  have hgroup' : pz.emitObject.group = pz.group := by
    unfold emitObject
    split_ifs <;> rfl
  have hn : (pz.emitObject.beginAt op.point).Numbered (ops ++ [op]) :=
    h.numbered.emitObject.beginAt (emitObject_obj pz) (by rwa [hf.lead, hf.cfg])
      (by rw [hgroup, hf.groupOpen, hgroup']) (hopLead.trans hf.lead.symm)
      (by rw [hempty, hf.groupOpen]; simp [hzero, Bool.and_assoc])
  obtain ⟨hfill, hnum, hroom⟩ := hn.settle (Nat.zero_lt_of_lt h.emitObject.room)
  rw [openAt_eq hlead (fun hclosed => (h.numbered.closed hclosed).2.1)]
  refine ⟨⟨hnum, hroom, ?_, ?_, ?_, ?_, ?_, fun _ _ => append_ne_nil_of_right_ne_nil _ (by simp)⟩,
    ?_⟩
  · rw [hfill.leadPackets, hfill.cfg]
    exact h.emitObject.leadRoom
  · rw [hfill.lead]
    exact Nat.zero_le _
  · exact fun _ => hfill.lead
  · intro hs
    have hs' := (hf.started.trans hstarted).symm.trans (hfill.started.symm.trans hs)
    cases hs'
  · exact fun _ _ => hfill.groupOpen
  · refine .of_held (hfill.cfg.trans hf.cfg) (fun _ => hfill.groupOpen)
      (hfill.dropped.trans hf.dropped) ?_
    have hplaced : pz.emitObject.emitted.flatMap EmittedObject.payload = pz.placed := by
      rw [← append_nil pz.placed, ← hf.placed, placed, emitObject_obj, append_nil]
    rw [held, hfill.placed, hfill.lead, held, ← hplaced, ← hf.lead]
    simp [placed, beginAt]

/-- A lead-in is flushed if there is one. -/
theorem drained_spec : let q := if pz.leadActive then pz.flushLead else pz
    q.Wf ops ∧ pz.Kept [] q ∧ q.lead = [] ∧ q.started = pz.started ∧
      q.leadPackets = pz.leadPackets := by
  split_ifs with hactive
  · exact flushLead_spec h
  · exact ⟨h, (Fills.refl pz).kept (.inl rfl), h.idle (by simpa using hactive), rfl, rfl⟩

/-- A packet goes to the end of the lead-in. -/
theorem holdLead_spec (hstarted : pz.started)
    (hroom : pz.lead.length < pz.leadPackets) (pkt : Bytes) :
    Wf { pz with lead := pz.lead ++ [pkt], leadActive := true } ops ∧
      pz.Kept [pkt] { pz with lead := pz.lead ++ [pkt], leadActive := true } := by
  have hlen : (pz.lead ++ [pkt]).length ≤ pz.leadPackets := by simpa using hroom
  refine ⟨h.relead 0 hlen (by simp) (fun _ => hstarted), .of_held rfl id rfl ?_⟩
  exact (append_assoc ..).symm

/-- **Placing a packet**, whatever the branch. -/
theorem place_spec (hstarted : pz.started) (p : TsPacket) (pkt : Bytes) (rap : Bool) :
    (pz.place p pkt rap).Wf (ops ++ pz.openingAt pkt rap) ∧ pz.Kept [pkt] (pz.place p pkt rap) := by
  obtain ⟨hflush, hkept, hnil, hfs, -⟩ := flushLead_spec h
  rw [hstarted] at hfs
  unfold place openingAt
  by_cases hstart : pz.startsGroup rap
  · rw [if_pos hstart, if_pos hstart]
    exact @openAt_spec pz ops h hstarted
      ⟨_, pz.lead, pkt, pz.groupOpen && pz.object = 0 && pz.obj = []⟩ rfl rfl rfl
  rw [if_neg hstart, if_neg hstart, append_nil]
  by_cases hrap : (rap && pz.leadActive)
  · rw [if_pos hrap]
    obtain ⟨hw, hk⟩ := carry_spec hflush hfs hnil pkt true
    exact ⟨hw, hkept.trans hk⟩
  rw [if_neg hrap]
  by_cases hpat : ((1 ≤ pz.leadPackets && pz.cfg.groupAtRandomAccess) && p.pid = pidPat &&
      p.payloadUnitStart)
  · rw [if_pos hpat]
    obtain ⟨hq, hkept, hlead, hs, hcap⟩ := drained_spec h
    generalize (if pz.leadActive then pz.flushLead else pz) = q at hq hkept hlead hs hcap ⊢
    have hroom : q.lead.length < q.leadPackets := by
      simp only [Bool.and_eq_true, decide_eq_true_eq] at hpat
      rw [hlead, hcap]
      exact hpat.1.1.1
    obtain ⟨hw, hk⟩ := holdLead_spec hq (hs.trans hstarted) hroom pkt
    rw [hlead] at hw hk
    exact ⟨hw, hkept.trans hk⟩
  rw [if_neg hpat]
  by_cases hactive : pz.leadActive
  · split_ifs with hfull
    · obtain ⟨hw, hk⟩ := carry_spec hflush hfs hnil pkt rap
      exact ⟨hw, hkept.trans hk⟩
    · have hhold := holdLead_spec h hstarted (Nat.lt_of_succ_le (Nat.le_of_not_lt hfull)) pkt
      rwa [← hactive] at hhold
  · rw [if_neg hactive]
    exact carry_spec h hstarted (h.idle (by simpa using hactive)) pkt rap

/-- What the packet says changes nothing that is held or numbered. -/
theorem observe_spec (p : TsPacket) : (pz.observe p).2.Wf ops ∧ pz.Kept [] (pz.observe p).2 :=
  ⟨{ h with numbered := { h.numbered with } }, .of_held rfl id rfl (append_nil _).symm⟩

theorem markPcr_spec (p : TsPacket) : (pz.markPcr p).Wf ops ∧ pz.Kept [] (pz.markPcr p) := by
  unfold markPcr
  split_ifs
  · exact ⟨{ h with numbered := { h.numbered with } }, .of_held rfl id rfl (append_nil _).symm⟩
  · exact ⟨h, (Fills.refl pz).kept (.inl rfl)⟩

/-- A stream that forwards everything opens a Group before anything is placed. -/
theorem openGroup_spec (hclosed : pz.groupOpen = false)
    (hwait : pz.cfg.waitForRandomAccess = false) : Wf { pz with started := true }.openGroup ops ∧
      pz.Kept [] { pz with started := true }.openGroup := by
  obtain ⟨hemitted, hobj, hops⟩ := h.numbered.closed hclosed
  have hopen := @openGroup_of_empty { pz with started := true } hobj
  rw [hopen]
  refine ⟨{ h with
    numbered := { h.numbered with
      first := fun hnil => ⟨rfl, by simpa [hclosed] using (h.numbered.first hnil).2⟩
      last := fun o ho => by simp [hemitted] at ho
      fresh := fun _ _ _ => ⟨hemitted, hops⟩
      closed := nofun
      opened := fun op hop => by simp [hops] at hop }
    unstarted := nofun
    forwards := fun _ _ => rfl
    waits := fun _ h => absurd (hwait.symm.trans h) (by simp) }, ?_⟩
  exact .of_held rfl (fun _ => rfl) rfl (append_nil _).symm

/-- **The first packet** opens the first Group, or waits. -/
theorem start_spec : pz.start.Wf ops ∧ pz.Kept [] pz.start ∧ pz.start.started := by
  cases hstarted : pz.started with
  | true =>
    rw [start, if_pos hstarted]
    exact ⟨h, (Fills.refl pz).kept (.inl rfl), hstarted⟩
  | false =>
    obtain ⟨hclosed, -⟩ := h.unstarted hstarted
    rw [start, if_neg (by simp [hstarted])]
    dsimp only
    split_ifs with hwait
    · refine ⟨{ h with numbered := { h.numbered with }, unstarted := ?_, forwards := ?_ },
        .of_held rfl id rfl (append_nil _).symm, rfl⟩
      · exact fun hfalse => absurd hfalse (by simp)
      · exact fun _ hfalse => absurd (hwait.symm.trans hfalse) (by simp)
    · obtain ⟨hw, hk⟩ := openGroup_spec h hclosed (by simpa using hwait)
      have hopen := @openGroup_of_empty { pz with started := true } (h.numbered.closed hclosed).2.1
      exact ⟨hw, hk, by rw [hopen]⟩

end Operations

/-! ## Runs -/

variable {ops : List Opening}

theorem readPacket_error_ne {ps : ℕ} {e : MoqResult} (h : readPacket ps pkt = .error e) :
    e ≠ .ok := by
  unfold readPacket at h
  split_ifs at h
  · obtain rfl := Except.error.inj h
    simp
  · split at h
    · cases h
    · dsimp only at h
      split_ifs at h
      obtain rfl := Except.error.inj h
      simp

theorem push_spec (h : pz.Wf ops) (pkt : Bytes) :
    (pz.push pkt).2.Wf (ops ++ pz.opening (.push pkt)) ∧
      pz.Kept (pz.accepted (.push pkt)) (pz.push pkt).2 := by
  cases hread : readPacket pz.cfg.packetSize pkt with
  | error e =>
    have hpush : pz.push pkt = (e, pz) := by simp [push, hread]
    have hopening : pz.opening (.push pkt) = [] := by simp [opening, hread]
    have haccepted : pz.accepted (.push pkt) = [] := by
      simp [accepted, hpush, readPacket_error_ne hread]
    rw [hpush, hopening, haccepted, append_nil]
    exact ⟨h, (Fills.refl pz).kept (.inl rfl)⟩
  | ok p =>
    obtain ⟨hobserved, hk₁⟩ := observe_spec h p
    obtain ⟨hq, hk₂, hstarted⟩ := start_spec hobserved
    obtain ⟨hplaced, hk₃⟩ := place_spec hq hstarted p pkt (pz.observe p).1
    obtain ⟨hmarked, hk₄⟩ := markPcr_spec hplaced p
    have hpush : pz.push pkt =
        (.ok, ((pz.observe p).2.start.place p pkt (pz.observe p).1).markPcr p) := by
      simp [push, hread]
    have hopening : pz.opening (.push pkt) =
        (pz.observe p).2.start.openingAt pkt (pz.observe p).1 := by simp [opening, hread]
    have haccepted : pz.accepted (.push pkt) = [pkt] := by simp [accepted, hpush]
    rw [hpush, hopening, haccepted]
    exact ⟨hmarked, ((hk₁.trans hk₂).trans hk₃).trans hk₄⟩

/-- Two clock values are a shortest Group apart, or unknown where there is no such length. -/
def FarEnough (minGroupMs : ℕ) : Option ℕ → Option ℕ → Prop
  | some startPcr, some curPcr => pcrDelta startPcr curPcr ≥ minGroupMs * 27000
  | _, _ => minGroupMs = 0

theorem startsGroup_iff (hopen : pz.groupOpen) : pz.startsGroup rap ↔
    (rap ∧ pz.cfg.groupAtRandomAccess) ∧
      FarEnough pz.cfg.minGroupMs pz.groupStartPcr pz.curPcr := by
  rw [startsGroup, hopen]
  cases rap <;> cases pz.cfg.groupAtRandomAccess <;> cases pz.groupStartPcr <;>
    cases pz.curPcr <;> simp [FarEnough]

/-- **A push that skips a Group**: the stream waits for nothing and opens Groups at random access
points, its Group is still empty, and the packet is such a point, far enough from where that Group
began. -/
def SkipsGroup (pz : Packetizer) (pkt : Bytes) : Prop :=
  pz.cfg.waitForRandomAccess = false ∧ pz.cfg.groupAtRandomAccess ∧
    pz.object = 0 ∧ pz.obj = [] ∧ ∃ p, readPacket pz.cfg.packetSize pkt = .ok p ∧
      (pz.observe p).1 ∧ FarEnough pz.cfg.minGroupMs
        (if pz.started then pz.groupStartPcr else none) (pz.observe p).2.curPcr

theorem start_eq (h : pz.Wf ops) : pz.start =
    if pz.started then pz
    else if pz.cfg.waitForRandomAccess then { pz with started := true }
    else { pz with
      started := true, groupOpen := true, object := 0, groupStartPcr := none
      groups := pz.groups + 1 } := by
  unfold start
  dsimp only
  split_ifs with hstarted hwait
  · rfl
  · rfl
  · have hclosed := (h.unstarted (by simpa using hstarted)).1
    rw [@openGroup_of_empty { pz with started := true } (h.numbered.closed hclosed).2.1]
    simp [hclosed]

/-- **A random access point opens a Group over an empty one just if its push skips one.** -/
theorem overEmpty_iff (h : pz.Wf ops) (pkt : Bytes) :
    (∃ op ∈ pz.opening (.push pkt), op.overEmpty) ↔ pz.SkipsGroup pkt := by
  unfold SkipsGroup
  cases hread : readPacket pz.cfg.packetSize pkt with
  | error e => simp [opening, hread]
  | ok p =>
    have hobs : (pz.observe p).2.Wf ops := (observe_spec h p).1
    obtain ⟨hq, -, hstarted⟩ := start_spec hobs
    have hcfg : (pz.observe p).2.start.cfg = pz.cfg := by
      rw [start_eq hobs]
      split_ifs <;> rfl
    have hkept : (pz.observe p).2.start.emitted = pz.emitted ∧
        (pz.observe p).2.start.obj = pz.obj ∧
        (pz.observe p).2.start.curPcr = (pz.observe p).2.curPcr ∧
        (pz.object = 0 → (pz.observe p).2.start.object = 0) := by
      rw [start_eq hobs]
      split_ifs
      exacts [⟨rfl, rfl, rfl, id⟩, ⟨rfl, rfl, rfl, id⟩, ⟨rfl, rfl, rfl, fun _ => rfl⟩]
    have hpcr : pz.cfg.waitForRandomAccess = false → (pz.observe p).2.start.groupStartPcr =
        if pz.started then pz.groupStartPcr else none := by
      intro hwait
      have hw : (pz.observe p).2.cfg.waitForRandomAccess = false := hwait
      rw [start_eq hobs, hw]
      split_ifs <;> first | rfl | contradiction
    have hread' : pz.opening (.push pkt) =
        (pz.observe p).2.start.openingAt pkt (pz.observe p).1 := by simp [opening, hread]
    generalize (pz.observe p).2.start = q at *
    obtain ⟨hemitted, hobj, hcur, hobject⟩ := hkept
    rw [hread']
    have hopening : (∃ op ∈ q.openingAt pkt (pz.observe p).1, op.overEmpty) ↔
        q.startsGroup (pz.observe p).1 ∧ q.groupOpen ∧ q.object = 0 ∧ q.obj = [] := by
      unfold openingAt
      split_ifs with hstart <;> simp [hstart, and_assoc]
    rw [hopening]
    constructor
    · rintro ⟨hstart, hopen, hzero, hnil⟩
      obtain ⟨hnone, hops⟩ := hq.numbered.fresh hopen hzero hnil
      have hwait : pz.cfg.waitForRandomAccess = false := by
        rw [← hcfg, ← Bool.not_eq_true]
        exact fun hwait => hq.waits hopen hwait hops
      rw [startsGroup_iff hopen, hcur, hpcr hwait, hcfg] at hstart
      exact ⟨hwait, hstart.1.2, (h.numbered.first (hemitted ▸ hnone)).1, hobj ▸ hnil, p, rfl,
        hstart.1.1, hstart.2⟩
    · rintro ⟨hwait, hgroups, hzero, hnil, p', hp', hrap, hfar⟩
      cases hp'
      have hopen := hq.forwards hstarted (by rwa [hcfg])
      refine ⟨?_, hopen, hobject hzero, hobj.trans hnil⟩
      rw [startsGroup_iff hopen, hcur, hpcr hwait, hcfg]
      exact ⟨⟨hrap, hgroups⟩, hfar⟩

theorem flush_spec (h : pz.Wf ops) : pz.flush.Wf ops ∧ pz.Kept [] pz.flush := by
  obtain ⟨hq, hkept, -, -, -⟩ := drained_spec h
  exact ⟨hq.closeGroup, hkept.trans ((closeGroup_fills _).kept (.inl rfl))⟩

/-- A flush leaves no open Object. -/
theorem flush_obj (h : pz.Wf ops) : pz.flush.obj = [] := by
  have hq := (drained_spec h).1
  unfold flush
  dsimp only at hq ⊢
  generalize (if pz.leadActive then pz.flushLead else pz) = q at hq ⊢
  unfold Packetizer.closeGroup
  split_ifs with hopen
  · exact emitObject_obj _
  · exact (hq.numbered.closed (by simpa using hopen)).2.1

/-- **One call** keeps the invariant, and holds what it accepted. -/
theorem step_spec (h : pz.Wf ops) (call : PacketizerCall) :
    (pz.step call).Wf (ops ++ pz.opening call) ∧ pz.Kept (pz.accepted call) (pz.step call) := by
  cases call with
  | push pkt => exact push_spec h pkt
  | endObject => exact ⟨(append_nil ops).symm ▸ h.emitObject, (emitObject_fills pz).kept (.inl rfl)⟩
  | flush => exact ⟨(append_nil ops).symm ▸ (flush_spec h).1, (flush_spec h).2⟩

/-- **A fresh packetizer** holds nothing. -/
theorem init_wf {c : PacketizerCfg} (h : packetizerInit c = some pz) :
    pz.Wf [] ∧ pz.cfg = c ∧ pz.held = [] ∧ pz.packetsDroppedBeforeRandomAccess = 0 := by
  unfold packetizerInit at h
  generalize (if c.pcrPid ≠ pidNone then some c.pcrPid else none) = pcrPid at h
  split_ifs at h with h1 h2 h3 h4
  cases h
  have hpos : 0 < c.objectPackets := by
    simp only [Bool.or_eq_true, decide_eq_true_eq, not_or] at h1
    omega
  refine ⟨⟨⟨Nat.zero_le _, by simp, .nil, fun _ => ⟨rfl, rfl⟩, by simp, by simp, by simp, ?_,
    by simp⟩, hpos, ?_, Nat.zero_le _, fun _ => rfl, fun _ => ⟨rfl, rfl⟩, by simp, by simp⟩, rfl,
    rfl, rfl⟩
  · exact fun _ => ⟨rfl, rfl, rfl⟩
  · exact (Nat.min_le_right _ _).trans_lt (Nat.sub_one_lt_of_lt hpos)

/-- The accepted packets of a run. -/
def acceptedPackets (pz : Packetizer) (calls : List PacketizerCall) : List Bytes :=
  trace Packetizer.step Packetizer.accepted pz calls

/-- The Groups a run opens at random access points. -/
def openings (pz : Packetizer) (calls : List PacketizerCall) : List Opening :=
  trace Packetizer.step Packetizer.opening pz calls

/-- **A run** keeps the invariant. -/
theorem run_wf (h : pz.Wf ops) (calls : List PacketizerCall) :
    (pz.run calls).Wf (ops ++ pz.openings calls) :=
  trace_inv (J := Wf) (fun _ _ call h => (step_spec h call).1) calls h

theorem openings_flush (pz : Packetizer) (calls : List PacketizerCall) :
    pz.openings (calls ++ [.flush]) = pz.openings calls := by
  induction calls generalizing pz with
  | nil => rfl
  | cons call calls ih => exact congrArg (pz.opening call ++ ·) (ih (pz.step call))

/-- A run opens a Group over an empty one just if one of its pushes skips a Group. -/
theorem skips_iff (h : pz.Wf ops) (calls : List PacketizerCall) :
    (∃ op ∈ pz.openings calls, op.overEmpty) ↔
      ∃ before pkt after, calls = before ++ .push pkt :: after ∧
        (pz.run before).SkipsGroup pkt := by
  constructor
  · rintro ⟨op, hop, hover⟩
    obtain ⟨before, call, after, heq, hin⟩ := (mem_trace calls).mp hop
    cases call with
    | push pkt =>
      exact ⟨before, pkt, after, heq, (overEmpty_iff (run_wf h before) pkt).mp ⟨op, hin, hover⟩⟩
    | endObject | flush => cases hin
  · rintro ⟨before, pkt, after, rfl, hskips⟩
    obtain ⟨op, hop, hover⟩ := (overEmpty_iff (run_wf h before) pkt).mpr hskips
    exact ⟨op, (mem_trace _).mpr ⟨before, .push pkt, after, rfl, hop⟩, hover⟩

/-- What a run accepted is held, but for what it gave up first. -/
def Holds (c : PacketizerCfg) (pz : Packetizer) (acc : List Bytes) : Prop :=
  pz.cfg = c ∧ pz.packetsDroppedBeforeRandomAccess ≤ acc.length ∧
    pz.held = acc.drop pz.packetsDroppedBeforeRandomAccess ∧
    (c.waitForRandomAccess = false → pz.packetsDroppedBeforeRandomAccess = 0)

variable {c : PacketizerCfg} {acc : List Bytes}

theorem Kept.holds (h : pz.Kept pkts pz') (hacc : Holds c pz acc) : Holds c pz' (acc ++ pkts) := by
  obtain ⟨hcfg, -, n, hn, hdropped, hheld, hzero⟩ := h
  obtain ⟨rfl, hle, hacc, hall⟩ := hacc
  rw [hacc, ← drop_append_of_le_length hle] at hn hheld
  refine ⟨hcfg, ?_, ?_, fun hwait => ?_⟩
  · rw [length_drop] at hn
    rw [length_append] at hn ⊢
    omega
  · rw [hheld, hdropped, drop_drop]
  · rw [hdropped, hall hwait, hzero (.inr hwait)]

theorem run_holds (h : pz.Wf ops) (hacc : Holds c pz acc) (calls : List PacketizerCall) :
    Holds c (pz.run calls) (acc ++ pz.acceptedPackets calls) := by
  refine (trace_inv (J := fun (pz : Packetizer) acc => (∃ ops, pz.Wf ops) ∧ Holds c pz acc) ?_ calls
    ⟨⟨ops, h⟩, hacc⟩).2
  rintro pz acc call ⟨⟨ops, h⟩, hacc⟩
  obtain ⟨hw, hk⟩ := step_spec h call
  exact ⟨⟨_, hw⟩, hk.holds hacc⟩

end Packetizer

/-! ## The law of a packetizer -/

open Packetizer

/-- **What a packetizer promises** about the packets it accepted and the Groups it opened at random
access points. -/
structure PacketizerLaw (c : PacketizerCfg) (pz : Packetizer) (acc : List Bytes)
    (ops : List Opening) : Prop where
  /-- Objects handed out, open Object and lead-in are what was accepted, but for what was given up
  first. -/
  order : pz.emitted.flatMap EmittedObject.payload ++ pz.obj ++ pz.lead =
    acc.drop pz.packetsDroppedBeforeRandomAccess
  dropped : pz.packetsDroppedBeforeRandomAccess ≤ acc.length
  forwards : c.waitForRandomAccess = false → pz.packetsDroppedBeforeRandomAccess = 0
  sized : ∀ o ∈ pz.emitted, o.payload.length ≤ c.objectPackets
  first : ∀ o ∈ pz.emitted.head?, o.group = 0 ∧ o.object = 0
  next : pz.emitted.IsChain fun a b => FollowsAt a b.group b.object
  /-- The first Object of such a Group begins with the lead-in and the point. -/
  opened : ∀ op ∈ ops,
    (∃ o ∈ pz.emitted, o.group = op.group ∧ o.object = 0 ∧ StartsWith o.payload op) ∨
      pz.group = op.group ∧ pz.object = 0 ∧ StartsWith pz.obj op

/-- **The law holds unless a push skips a Group**; after a flush, which hands out all there is, it
holds just if none did.  So it always holds for a stream that waits for a random access point or
opens no Groups at such points. -/
theorem packetizerLaw_iff {c : PacketizerCfg} {pz : Packetizer} (h : packetizerInit c = some pz)
    (calls : List PacketizerCall) :
    let law calls := PacketizerLaw c (pz.run calls) (pz.acceptedPackets calls) (pz.openings calls)
    let skips := ∃ before pkt after, calls = before ++ .push pkt :: after ∧
      (pz.run before).SkipsGroup pkt
    (¬ skips → law calls) ∧ (law (calls ++ [.flush]) ↔ ¬ skips) ∧
      (c.waitForRandomAccess ∨ c.groupAtRandomAccess = false → law calls) := by
  intro law skips
  obtain ⟨hwf, hcfg, hheld, hdropped⟩ := init_wf h
  have hempty : Holds c pz [] := ⟨hcfg, by omega, by rw [hheld, drop_nil], fun _ => hdropped⟩
  have hlaw (calls : List PacketizerCall) : law calls ↔
      ((pz.run calls).emitted = [] ∨ skipped (pz.openings calls) = 0) := by
    have hn := (run_wf hwf calls).numbered
    obtain ⟨hcfg, hle, horder, hforwards⟩ := run_holds hwf hempty calls
    constructor
    · intro hlaw
      cases hem : (pz.run calls).emitted with
      | nil => exact .inl rfl
      | cons o os =>
        have ho : o ∈ (pz.run calls).emitted.head? := by simp [hem]
        exact .inr ((hn.head o ho).2.symm.trans (hlaw.first o ho).1)
    · intro hcond
      refine ⟨horder, hle, hforwards, hcfg ▸ hn.sized, ?_, hn.chain, hn.opened⟩
      intro o ho
      obtain hnil | hzero := hcond
      · simp [hnil] at ho
      · exact ⟨(hn.head o ho).2.trans hzero, (hn.head o ho).1⟩
  have hskips : skipped (pz.openings calls) = 0 ↔ ¬ skips := by
    have hany : skipped (pz.openings calls) = 0 ↔
        ¬ ∃ op ∈ pz.openings calls, op.overEmpty := by simp [skipped]
    rw [hany, not_iff_not]
    exact pz.skips_iff hwf calls
  have hflushed : pz.openings (calls ++ [.flush]) = pz.openings calls := openings_flush ..
  have hcond : (c.waitForRandomAccess ∨ c.groupAtRandomAccess = false) → ¬ skips := by
    rintro hc ⟨before, pkt, after, -, hwait, hgroups, -⟩
    rw [(run_holds hwf hempty before).1] at hwait hgroups
    simp [hwait, hgroups] at hc
  refine ⟨fun hn => (hlaw calls).mpr (.inr (hskips.mpr hn)), ?_,
    fun hc => (hlaw calls).mpr (.inr (hskips.mpr (hcond hc)))⟩
  rw [hlaw, hflushed, hskips, or_iff_right_of_imp]
  -- an opening left its point's packet, and the flush handed that out
  intro hnil
  rw [← hskips]
  have hrun : pz.run (calls ++ [.flush]) = (pz.run calls).flush := foldl_concat ..
  have hn := (flush_spec (run_wf hwf calls)).1.numbered
  rw [hrun] at hnil
  have hnone : pz.openings calls = [] := eq_nil_iff_forall_not_mem.mpr fun op hop => by
    obtain ⟨o, ho, -⟩ | ⟨-, -, hstart⟩ := hn.opened op (by simpa using hop)
    · simp [hnil] at ho
    · simp [flush_obj (run_wf hwf calls), StartsWith] at hstart
  rw [hnone]
  rfl

/-- A packetizer of one-packet Objects, for any PID, that waits for nothing. -/
def forwardingCfg : PacketizerCfg :=
  { objectPackets := 1, randomAccessPid := pidNone, waitForRandomAccess := false, objectCap := 188 }

/-- A packet that starts a PES packet at a random access point of PID 256. -/
def pointPacket : Bytes :=
  [0x47, 0x41, 0x00, 0x30, 0x01, 0x40, 0x00, 0x00, 0x01, 0xE0] ++ replicate 178 0xFF

theorem packetizerLaw_of_waiting :
    ∃ c pz, packetizerInit c = some pz ∧ (pz.run [.push pointPacket]).emitted ≠ [] ∧
      PacketizerLaw c (pz.run [.push pointPacket]) (pz.acceptedPackets [.push pointPacket])
        (pz.openings [.push pointPacket]) := by
  refine ⟨{ forwardingCfg with waitForRandomAccess := true }, _, rfl, by decide +kernel, ?_⟩
  exact (packetizerLaw_iff rfl _).2.2 (.inl rfl)

/-- **A stream that waits for nothing and starts at a random access point** begins with Group 1. -/
theorem packetizerLaw_skips_group :
    ∃ c pz, packetizerInit c = some pz ∧
      (pz.run [.push pointPacket]).emitted.head?.map EmittedObject.group = some 1 ∧
      ¬ PacketizerLaw c (pz.run [.push pointPacket]) (pz.acceptedPackets [.push pointPacket])
        (pz.openings [.push pointPacket]) := by
  have hskip (pz : Packetizer) (h : pz.emitted.head?.map EmittedObject.group = some 1)
      {c : PacketizerCfg} {acc : List Bytes} {ops : List Opening} :
      ¬ PacketizerLaw c pz acc ops := by
    obtain ⟨o, ho, hone⟩ := Option.map_eq_some_iff.mp h
    exact fun hlaw => absurd (hone.symm.trans (hlaw.first o ho).1) (by simp)
  exact ⟨forwardingCfg, _, rfl, by decide +kernel, hskip _ (by decide +kernel)⟩

end MoqRelay
