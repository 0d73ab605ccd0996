import MoqRelay.Shard.Converge

/-!
# Shard/Echo — a manager tells its own mirror operations from local publishers

The core of a shard tells the manager's watcher of every namespace that is announced or withdrawn,
the manager's own mirrors included, and the intent does not say whose it was.  The manager counts
its own operations per namespace and drops as many events.  Here the core is its owner of every
namespace and the watcher's intents in their order; each intent carries a mark `mine` that nothing
reads.

What a journal entry says, the owner and the pending intents of one namespace stay consistent
(`Consistent`): of each kind, the manager's own intents come first and are as many as the counter
says, the other ones lead from the own candidate bit to the owner, and the mirror is the owner.  A
reconciliation keeps it because it starts from a drained ring.
-/

namespace MoqRelay

open List Function

/-! ## The core as the manager sees it -/

/-- Who owns an announcement: a real local binding, or the pseudo-binding of a shard. -/
inductive NsOwner
  | binding (slot : ℕ)
  | mirror (origin : ℕ)
  deriving DecidableEq

def NsOwner.isMirror : NsOwner → Bool
  | binding _ => false
  | mirror _ => true

/-- An NS_FOUND or NS_GONE of the watcher. -/
structure NsIntent where
  op : RouteOp
  canon : Canon
  mine : Bool

/-- The owners of the namespaces, and the watcher's intents. -/
structure NsCore where
  owner : Canon → Option NsOwner
  ring : List NsIntent

namespace NsCore

variable (c : NsCore)

/-- A new owner, and the intent that tells of it. -/
def change (canon : Canon) (owner : Option NsOwner) (op : RouteOp) (mine : Bool) : NsCore where
  owner := update c.owner canon owner
  ring := c.ring ++ [⟨op, canon, mine⟩]

/-- `moqr_core_announce_ex`; `checks` is what the intent ring and the room for nodes answer before
the node is looked at. -/
def announce (who : NsOwner) (canon : Canon) (checks : Result) : Result × NsCore :=
  if checks ≠ .ok then (checks, c)
  else if (c.owner canon).isSome then (.wrongState, c)
  else (.ok, c.change canon (some who) .announce who.isMirror)

/-- `moqr_core_unannounce`, and what a closing binding or a revoked grant does to one
announcement. -/
def unannounce (who : NsOwner) (canon : Canon) (space : Bool) : Result × NsCore :=
  if c.owner canon ≠ some who then (.wrongState, c)
  else if !space then (.wouldBlock, c)
  else (.ok, c.change canon none .unannounce who.isMirror)

/-- `moqr_core_force_withdraw`; `space` is room for every unit of the withdrawal. -/
def forceWithdraw (canon : Canon) (space : Bool) : Result × NsCore :=
  match c.owner canon with
  | none | some (.mirror _) => (.ok, c)
  | some (.binding _) =>
    if !space then (.wouldBlock, c) else (.ok, c.change canon none .unannounce false)

/-- The parts of the core's answers to a reconciliation that do not depend on the owner. -/
structure Checks where
  (forceSpace unannounceSpace : Bool)
  (announceRoom announce : Result)

/-- The install of a reconciliation. -/
def install (e : JEntry) (desired : Option ℕ) (k : Checks) : Result × NsCore :=
  match desired with
  | none => (.ok, c)
  | some winner =>
    if e.capBlocked && k.announceRoom = .capacity then (.ok, c)
    else c.announce (.mirror winner) e.canon k.announce

/-- The mirror operations of a reconciliation: the answers to the withdrawal and to the install. -/
def mirrorOps (m : Mgr) (e : JEntry) (k : Checks) : Result × Result × NsCore :=
  if m.desiredMirror e = e.mirror then (.ok, .ok, c)
  else
    match e.mirror with
    | none => (.ok, c.install e (m.desiredMirror e) k)
    | some origin =>
      match c.unannounce (.mirror origin) e.canon k.unannounceSpace with
      | (.ok, c) => (.ok, c.install e (m.desiredMirror e) k)
      | (r, c) => (r, .ok, c)

/-- What the core answers to `mgr_reconcile_entry`, and what becomes of it. -/
def reconcile (m : Mgr) (e : JEntry) (k : Checks) : CoreAnswers × NsCore :=
  if e.candidates.getLsbD m.shard && (m.remoteWinner e).isSome then
    match c.forceWithdraw e.canon k.forceSpace with
    | (.ok, c) =>
      let (u, a, c) := c.mirrorOps m { e with candidates := withBit e.candidates m.shard false } k
      (⟨.ok, u, k.announceRoom, a⟩, c)
    | (r, c) => (⟨r, .ok, k.announceRoom, .ok⟩, c)
  else
    let (u, a, c) := c.mirrorOps m e k
    (⟨.ok, u, k.announceRoom, a⟩, c)

end NsCore

/-! ## A shard -/

/-- The manager of a shard and its core. -/
structure NsShard where
  mgr : Mgr
  core : NsCore

/-- What happens before the ring is drained: a message of another shard is applied, a local binding
announces or withdraws, the router handles the oldest intent. -/
inductive Settling
  | inbound (mb : Mailbox) (slot : ℕ)
  | announce (binding : ℕ) (canon : Canon) (checks : Result)
  | withdraw (binding : ℕ) (canon : Canon) (space : Bool)
  | route (mem : Bool)

/-- What the outbound phase does to the journal: a destination was told an entry's own bit, an entry
is reclaimed. -/
inductive Outbound
  | told (i dst : ℕ)
  | reclaim (i : ℕ)

namespace NsShard

variable (s : NsShard)

/-- A shard as created. -/
def init (shard journalEntries : ℕ) : NsShard where
  mgr := { shard, jrnCap := journalEntries }
  core := { owner := fun _ => none, ring := [] }

def settle : Settling → NsShard
  | .inbound mb i =>
    -- a shard has no mailbox to itself
    if (mb.slots i).origin = s.mgr.shard then s
    else
      match applySlot s.mgr mb i with
      | none => s
      | some (m, _) => { s with mgr := m }
  | .announce b canon checks => { s with core := (s.core.announce (.binding b) canon checks).2 }
  | .withdraw b canon space => { s with core := (s.core.unannounce (.binding b) canon space).2 }
  | .route mem =>
    match s.core.ring with
    | [] => s
    | it :: ring =>
      { mgr := s.mgr.observe it.op (if mem then some it.canon else none)
        core := { s.core with ring } }

/-- One entry of `shard_reconcile`, with the core it asks. -/
def reconcileOne (i : ℕ) (k : NsCore.Checks) : NsShard :=
  match s.mgr.jrn[i]? with
  | none => s
  | some e =>
    if e.dirty then
      { mgr := s.mgr.reconcileAt i (s.core.reconcile s.mgr e k).1
        core := (s.core.reconcile s.mgr e k).2 }
    else s

/-- `shard_reconcile`. -/
def reconcile (roomEpoch : ℕ) (checks : ℕ → NsCore.Checks) : NsShard :=
  (range s.mgr.jrn.length).foldl (fun s i => s.reconcileOne i (checks i))
    { s with mgr := s.mgr.unpark roomEpoch }

def outboundOne : Outbound → NsShard
  | .told i d =>
    match s.mgr.jrn[i]? with
    | none => s
    | some e =>
      let sent := withBit e.sent d (e.candidates.getLsbD s.mgr.shard)
      { s with mgr := s.mgr.putEntry i { e with sent } }
  | .reclaim i =>
    match s.mgr.jrn[i]? with
    | none => s
    | some e => if Shards.quiesced e then { s with mgr := s.mgr.jrnRemove i } else s

/-- `shard_outbound`. -/
def outbound (moves : List Outbound) : NsShard := moves.foldl outboundOne s

/-- **The runs of a shard**: it reconciles once its ring is drained, and then exports. -/
inductive Reachable (shard journalEntries : ℕ) : NsShard → Prop
  | init (h : shard < shardsMax) : Reachable shard journalEntries (init shard journalEntries)
  | settle {s : NsShard} (h : Reachable shard journalEntries s) (mv : Settling) :
    Reachable shard journalEntries (s.settle mv)
  | turn {s : NsShard} (h : Reachable shard journalEntries s) (hring : s.core.ring = [])
    (roomEpoch : ℕ) (checks : ℕ → NsCore.Checks) (moves : List Outbound) :
    Reachable shard journalEntries ((s.reconcile roomEpoch checks).outbound moves)

end NsShard

/-! ## One namespace -/

/-- What a journal entry says about its namespace, the other shards apart. -/
structure Standing where
  own : Bool := false
  mirror : Option ℕ := none
  echo : RouteOp → ℕ := fun _ => 0

/-- What the router makes of an event. -/
def Standing.routed (st : Standing) (op : RouteOp) : Standing :=
  if 0 < st.echo op then { st with echo := update st.echo op (st.echo op - 1) }
  else { st with own := op.present }

/-- An intent of one namespace: what happened, and whether the manager did it. -/
abbrev NsEvent := RouteOp × Bool

/-- The marks of the events of one kind. -/
def marks (op : RouteOp) (pending : List NsEvent) : List Bool :=
  (pending.filter (·.1 = op)).map Prod.snd

theorem marks_append (op : RouteOp) (p q : List NsEvent) :
    marks op (p ++ q) = marks op p ++ marks op q := by
  rw [marks, filter_append, map_append]
  rfl

theorem marks_self (op : RouteOp) (mine : Bool) : marks op [(op, mine)] = [mine] := by simp [marks]

theorem marks_of_ne {op op' : RouteOp} (h : op' ≠ op) (mine : Bool) :
    marks op' [(op, mine)] = [] := by
  simp [marks, h.symm]

/-- **The entry, the owner and the pending events of a namespace agree.** -/
structure Consistent (st : Standing) (owner : Option NsOwner) (pending : List NsEvent) : Prop where
  mirror : ∀ k, st.mirror = some k ↔ owner = some (.mirror k)
  echo : ∀ op, ∃ r, marks op pending = replicate (st.echo op) true ++ replicate r false
  own : (pending.filter (!·.2)).foldl (fun _ x => x.1.present) st.own
    = owner.any fun o => !o.isMirror

namespace Consistent

variable {st : Standing} {owner owner' : Option NsOwner} {pending : List NsEvent} {op : RouteOp}

theorem default : Consistent {} none [] where
  mirror k := by simp
  echo op := ⟨0, rfl⟩
  own := rfl

section

variable (h : Consistent st owner pending)
include h

theorem echo_zero (hnone : marks op pending = []) : st.echo op = 0 := by
  obtain ⟨r, hr⟩ := h.echo op
  rw [hnone] at hr
  simpa using (append_eq_nil_iff.mp hr.symm).1

/-- A local event follows whatever is pending. -/
theorem real (hm : ∀ k, owner' = some (.mirror k) ↔ owner = some (.mirror k))
    (ho : (owner'.any fun o => !o.isMirror) = op.present) :
    Consistent st owner' (pending ++ [(op, false)]) where
  mirror k := (h.mirror k).trans (hm k).symm
  echo op' := by
    obtain ⟨r, hr⟩ := h.echo op'
    rw [marks_append, hr]
    rcases eq_or_ne op' op with rfl | hop
    · refine ⟨r + 1, ?_⟩
      rw [marks_self, append_assoc, replicate_succ']
    · exact ⟨r, by rw [marks_of_ne hop, append_nil]⟩
  own := by
    rw [filter_append, foldl_append, ho]
    rfl

/-- A mirror operation, with no local event of its kind pending. -/
theorem mirrored {k : Option ℕ} (hm : ∀ j, k = some j ↔ owner' = some (.mirror j))
    (ho : (owner'.any fun o => !o.isMirror) = owner.any fun o => !o.isMirror)
    (hnone : false ∉ marks op pending) :
    Consistent { st with mirror := k, echo := update st.echo op (st.echo op + 1) } owner'
      (pending ++ [(op, true)]) where
  mirror := hm
  echo op' := by
    obtain ⟨r, hr⟩ := h.echo op'
    dsimp only
    rcases eq_or_ne op' op with rfl | hop
    · have hzero : r = 0 := by
        by_contra hne
        exact hnone (hr ▸ mem_append_right _ (mem_replicate.mpr ⟨hne, rfl⟩))
      rw [marks_append, marks_self, hr, hzero, update_self, replicate_succ']
      simp
    · exact ⟨r, by rw [marks_append, marks_of_ne hop, hr, update_of_ne hop, append_nil]⟩
  own := by
    rw [filter_append, foldl_append, ho]
    exact h.own

end

/-- **The router drops exactly the manager's own events.** -/
theorem route {mine : Bool} (h : Consistent st owner ((op, mine) :: pending)) :
    (0 < st.echo op ↔ mine) ∧ Consistent (st.routed op) owner pending := by
  have hown := h.own
  have hother : ∀ op', op' ≠ op → ∃ r, marks op' pending
      = replicate (st.echo op') true ++ replicate r false := fun op' hop => by
    obtain ⟨r, hr⟩ := h.echo op'
    exact ⟨r, by rwa [← singleton_append, marks_append, marks_of_ne hop] at hr⟩
  obtain ⟨r, hr⟩ := h.echo op
  rw [← singleton_append, marks_append, marks_self] at hr
  unfold Standing.routed
  cases hn : st.echo op with
  | zero =>
    -- no echo is pending, so the event is somebody else's
    rw [hn] at hr
    cases r with
    | zero => cases hr
    | succ r =>
      obtain ⟨rfl, htail⟩ := cons.inj hr
      refine ⟨by simp, ?_⟩
      rw [if_neg (lt_irrefl 0)]
      refine ⟨h.mirror, fun op' => ?_, hown⟩
      rcases eq_or_ne op' op with rfl | hop
      · exact ⟨r, by rw [hn]; exact htail⟩
      · exact hother op' hop
  | succ n =>
    rw [hn] at hr
    obtain ⟨rfl, htail⟩ := cons.inj hr
    refine ⟨by simp, ?_⟩
    rw [if_pos n.succ_pos]
    refine ⟨h.mirror, fun op' => ?_, hown⟩
    dsimp only
    rcases eq_or_ne op' op with rfl | hop
    · exact ⟨r, by rw [update_self]; exact htail⟩
    · rw [update_of_ne hop]
      exact hother op' hop

end Consistent

/-! ## The journal's side -/

/-- What an entry says, to its shard. -/
def JEntry.standing (shard : ℕ) (e : JEntry) : Standing where
  own := e.candidates.getLsbD shard
  mirror := e.mirror
  echo := Mgr.echoes e

namespace Mgr

variable {m m' : Mgr} {e e' : JEntry} {i : ℕ} {c : Canon} {op : RouteOp}

/-- What the journal says about a namespace. -/
def standing (m : Mgr) : Canon → Standing := m.view (JEntry.standing m.shard) {}

variable {shard : ℕ}

/-- An entry that says nothing. -/
theorem standing_idle (hc : e.candidates = 0) (hm : e.mirror = none)
    (hann : e.echoAnn = 0) (hunann : e.echoUnann = 0) : e.standing shard = {} := by
  have hecho : echoes e = fun _ => 0 := by
    funext op
    cases op
    · exact hann
    · exact hunann
  rw [JEntry.standing, hc, hm, hecho]
  simp

theorem standing_consumeEcho (h : 0 < echoes e op) (shard : ℕ) :
    (consumeEcho e op).standing shard = (e.standing shard).routed op := by
  have hpos : 0 < (e.standing shard).echo op := h
  rw [Standing.routed, if_pos hpos]
  have hecho : echoes (consumeEcho e op) = update (echoes e) op (echoes e op - 1) := by
    funext op'
    cases op <;> cases op' <;> rfl
  cases op <;> simp only [JEntry.standing, hecho] <;> rfl

/-- A candidate bit of another shard is not this shard's business. -/
theorem standing_withBit {o : ℕ} (h : o ≠ shard) (b d : Bool) :
    JEntry.standing shard { e with candidates := withBit e.candidates o b, dirty := d }
      = e.standing shard := by
  rw [JEntry.standing, getLsbD_withBit_of_ne h]
  rfl

theorem standing_own (h : shard < 64) (b d : Bool) :
    JEntry.standing shard { e with candidates := withBit e.candidates shard b, dirty := d }
      = { e.standing shard with own := b } := by
  rw [JEntry.standing, getLsbD_withBit, if_pos ⟨rfl, h⟩]
  rfl

theorem Wf.standing_at (h : m.Wf) (he : m.jrn[i]? = some e) :
    m.standing e.canon = e.standing m.shard := h.view_at he

theorem Wf.standing_putEntry (h : m.Wf) (he : m.jrn[i]? = some e) (hc : e'.canon = e.canon) :
    (m.putEntry i e').standing = update m.standing e.canon (e'.standing m.shard) :=
  h.view_putEntry he hc

/-- A bit noted is the own one, or not this shard's business. -/
theorem Wf.standing_noted {o : ℕ} (h : m.Wf) (hs : m.shard < 64) (hn : m.noted c o op = some m') :
    m'.shard = m.shard ∧ m'.Wf ∧ m'.oom = m.oom ∧ m'.standing =
      if o = m.shard then update m.standing c { m.standing c with own := op.present }
      else m.standing := by
  obtain ⟨hs', ho, hw, e, he, hv⟩ := h.noted (f := JEntry.standing m.shard) (fun _ => rfl)
    (standing_idle rfl rfl rfl rfl) hn
  have he : m.standing c = e.standing m.shard := he
  refine ⟨hs', hw, ho, ?_⟩
  rw [standing, hs', hv]
  split_ifs with hown
  · rw [hown, he, ← standing_own hs op.present e.dirty]
    rfl
  · exact update_eq_self_iff.mpr ((standing_withBit hown op.present e.dirty).trans he.symm)

theorem Wf.standing_none (h : m.Wf) (hf : (m.jrnFind c).1 = false) : m.standing c = {} := by
  rw [standing, view, h.keyed_none hf]
  rfl

/-- The own bit recorded, unless the journal is full. -/
theorem Wf.standing_recordLocal (h : m.Wf) (hs : m.shard < 64) (c : Canon) (op : RouteOp) :
    (m.recordLocal c op).oom ∨ (m.recordLocal c op).oom = m.oom ∧
      (m.recordLocal c op).standing
        = update m.standing c { m.standing c with own := op.present } := by
  rw [recordLocal_eq]
  cases hn : m.noted c m.shard op with
  | none => exact .inl rfl
  | some m' =>
    obtain ⟨-, -, ho, hst⟩ := h.standing_noted hs hn
    exact .inr ⟨ho, hst.trans (if_pos rfl)⟩

/-- **The router's observation**, unless it fails. -/
theorem Wf.standing_observe (h : m.Wf) (hs : m.shard < 64) (op : RouteOp) (c : Canon) :
    (m.observe op (some c)).oom ∨ (m.observe op (some c)).oom = m.oom ∧
      (m.observe op (some c)).standing
        = update m.standing c ((m.standing c).routed op) := by
  have hrecord := h.standing_recordLocal hs c op
  rw [Mgr.observe]
  split_ifs with hf
  · obtain ⟨e, he, rfl⟩ := h.jrnFind_some hf
    rw [he]
    dsimp only
    split_ifs with hpos
    · refine .inr ⟨rfl, ?_⟩
      have hcanon : (consumeEcho e op).canon = e.canon := by cases op <;> rfl
      rw [h.standing_putEntry he hcanon, standing_consumeEcho hpos, h.standing_at he]
    · have hzero : ¬ 0 < (m.standing e.canon).echo op := by rwa [h.standing_at he]
      rwa [Standing.routed, if_neg hzero]
  · have hnone := h.standing_none (Bool.eq_false_iff.mpr hf)
    have hzero : ¬ 0 < (m.standing c).echo op := by
      rw [hnone]
      exact lt_irrefl 0
    rwa [Standing.routed, if_neg hzero]

/-- A message of another shard changes no standing. -/
theorem Wf.standing_applySlot {mb mb' : Mailbox} (h : m.Wf) (hs : m.shard < 64)
    (ho : (mb.slots i).origin ≠ m.shard) (ha : MoqRelay.applySlot m mb i = some (m', mb')) :
    m'.shard = m.shard ∧ m'.Wf ∧ m'.oom = m.oom ∧ m'.standing = m.standing := by
  rw [applySlot_eq] at ha
  obtain ⟨m₁, hn, heq⟩ := Option.map_eq_some_iff.mp ha
  obtain ⟨rfl, rfl⟩ := Prod.mk.inj heq
  obtain ⟨hs', hw, hoom, hst⟩ := h.standing_noted hs hn
  exact ⟨hs', hw, hoom, hst.trans (if_neg ho)⟩

end Mgr

/-! ## The core's side -/

namespace NsCore

variable {c : NsCore} {m : Mgr} {e : JEntry} {k : Checks}

/-- The pending events of a namespace. -/
def pending (c : NsCore) (canon : Canon) : List NsEvent :=
  (c.ring.filter (·.canon = canon)).map fun it => (it.op, it.mine)

/-- Two cores that differ in one namespace at most. -/
def SameBut (canon : Canon) (c c' : NsCore) : Prop :=
  ∀ x, x ≠ canon → c'.owner x = c.owner x ∧ c'.pending x = c.pending x

theorem SameBut.refl (canon : Canon) (c : NsCore) : SameBut canon c c := fun _ _ => ⟨rfl, rfl⟩

variable {c' : NsCore} {a : CoreAnswers} {shard : ℕ}

theorem SameBut.trans {canon : Canon} {c'' : NsCore} (h : SameBut canon c c')
    (h' : SameBut canon c' c'') : SameBut canon c c'' := fun x hx =>
  ⟨(h' x hx).1.trans (h x hx).1, (h' x hx).2.trans (h x hx).2⟩

theorem owner_change (canon : Canon) (o : Option NsOwner) (op : RouteOp) (mine : Bool) :
    (c.change canon o op mine).owner canon = o := update_self ..

theorem pending_change (canon : Canon) (o : Option NsOwner) (op : RouteOp) (mine : Bool) :
    (c.change canon o op mine).pending canon = c.pending canon ++ [(op, mine)] := by
  simp [pending, change, filter_append]

theorem sameBut_change (canon : Canon) (o : Option NsOwner) (op : RouteOp) (mine : Bool) :
    SameBut canon c (c.change canon o op mine) := fun x hx =>
  ⟨update_of_ne hx .., by simp [pending, change, filter_append, hx.symm]⟩

/-- The namespace of an entry, as the manager and the core have it. -/
def Agrees (shard : ℕ) (e : JEntry) (c : NsCore) : Prop :=
  Consistent (e.standing shard) (c.owner e.canon) (c.pending e.canon)

/-- One more echo expected of an operation. -/
def expecting (st : Standing) (mirror : Option ℕ) (op : RouteOp) : Standing :=
  { st with mirror, echo := update st.echo op (st.echo op + 1) }

theorem installMirror_standing (a : CoreAnswers) (winner shard : ℕ) (hzero : e.echoAnn = 0) :
    (m.installMirror e a (some winner)).2.canon = e.canon ∧
      (m.installMirror e a (some winner)).2.standing shard =
        if a.announce = .ok then expecting (e.standing shard) (some winner) .announce
        else e.standing shard := by
  rw [Mgr.installMirror]
  cases a.announce with
  | ok =>
    have hecho : Mgr.echoes { e with echoAnn := (e.echoAnn + 1) % 2 ^ 16 }
        = update (Mgr.echoes e) .announce (Mgr.echoes e .announce + 1) := by
      funext op
      cases op <;> simp [Mgr.echoes, hzero]
    refine ⟨rfl, ?_⟩
    exact congrArg (Standing.mk _ _) hecho
  | _ => exact ⟨rfl, rfl⟩

/-- An announcement by a mirror goes through on a free namespace, or changes nothing. -/
theorem announce_mirror_cases (c : NsCore) (winner : ℕ) (canon : Canon) (checks : Result) :
    (c.owner canon = none ∧ c.announce (.mirror winner) canon checks
        = (.ok, c.change canon (some (.mirror winner)) .announce true)) ∨
      ∃ r, r ≠ .ok ∧ c.announce (.mirror winner) canon checks = (r, c) := by
  unfold announce
  split_ifs with hchecks howner
  · exact .inr ⟨checks, hchecks, rfl⟩
  · exact .inr ⟨_, by decide, rfl⟩
  · exact .inl ⟨Option.not_isSome_iff_eq_none.mp howner, rfl⟩

/-- Installing a mirror over a namespace with no announcement pending. -/
theorem installMirror_agrees {winner : ℕ} (h : Agrees shard e c)
    (hann : marks .announce (c.pending e.canon) = []) (checks : Result)
    (ha : c.announce (.mirror winner) e.canon checks = (a.announce, c')) :
    Agrees shard (m.installMirror e a (some winner)).2 c' ∧ SameBut e.canon c c' := by
  have hzero : e.echoAnn = 0 := Consistent.echo_zero h hann
  obtain ⟨hcanon, hst⟩ := installMirror_standing (m := m) a winner shard hzero
  rw [Agrees, hcanon, hst]
  rcases announce_mirror_cases c winner e.canon checks with ⟨howner, heq⟩ | ⟨r, hr, heq⟩
  · obtain ⟨hok, rfl⟩ := Prod.mk.inj (heq.symm.trans ha)
    rw [if_pos hok.symm, owner_change, pending_change]
    refine ⟨Consistent.mirrored h (fun j => ?_) ?_ (by simp [hann]), sameBut_change _ _ _ _⟩
    · simp
    · rw [howner]
      rfl
  · obtain ⟨hok, rfl⟩ := Prod.mk.inj (heq.symm.trans ha)
    rw [if_neg (hok ▸ hr)]
    exact ⟨h, .refl _ _⟩

/-- An install keeps the namespace consistent if no announcement of it is pending. -/
theorem install_agrees {desired : Option ℕ} (h : Agrees shard e c)
    (hann : marks .announce (c.pending e.canon) = [])
    (ha : a.announce = (c.install e desired k).1) (hroom : a.announceRoom = k.announceRoom) :
    Agrees shard (m.reconcileInstall e a desired).2 (c.install e desired k).2 ∧
      SameBut e.canon c (c.install e desired k).2 := by
  unfold Mgr.reconcileInstall
  cases desired with
  | none =>
    refine ⟨?_, .refl _ _⟩
    split_ifs <;> exact h
  | some winner =>
    have hrun : ∀ (m' : Mgr) (e' : JEntry), e'.canon = e.canon →
        e'.standing shard = e.standing shard →
        ¬ (e.capBlocked && k.announceRoom = .capacity) →
        Agrees shard (m'.installMirror e' a (some winner)).2 (c.install e (some winner) k).2 ∧
          SameBut e.canon c (c.install e (some winner) k).2 := by
      intro m' e' hcanon hst hgo
      have hinstall : c.install e (some winner) k =
          c.announce (.mirror winner) e.canon k.announce := if_neg hgo
      have h' : Agrees shard e' c := by rw [Agrees, hcanon, hst]; exact h
      rw [hinstall] at ha ⊢
      rw [← hcanon]
      exact installMirror_agrees h' (hcanon.symm ▸ hann) k.announce (by rw [hcanon, ha])
    rw [hroom]
    split_ifs with hblocked hroom
    · have hstop : c.install e (some winner) k = (.ok, c) :=
        if_pos (by simpa [hblocked] using hroom)
      rw [hstop]
      exact ⟨h, .refl _ _⟩
    · exact hrun _ _ rfl rfl (by simpa [hblocked] using hroom)
    · exact hrun _ _ rfl rfl (by simp [hblocked])

theorem updateHoldout_entry (m : Mgr) (e : JEntry) (b : Bool) :
    (m.updateHoldout e b).2 = { e with holdout := b } := by
  unfold Mgr.updateHoldout
  cases b <;> cases e.holdout <;> rfl

/-- The mirror operations keep the namespace consistent if nothing of their kind is pending. -/
theorem mirrorOps_agrees (h : Agrees shard e c) (hann : marks .announce (c.pending e.canon) = [])
    (hun : e.mirror ≠ none → marks .unannounce (c.pending e.canon) = [])
    (hu : a.unannounce = (c.mirrorOps m e k).1) (ha : a.announce = (c.mirrorOps m e k).2.1)
    (hroom : a.announceRoom = k.announceRoom) :
    Agrees shard (m.reconcileMirror e a).2 (c.mirrorOps m e k).2.2 ∧
      SameBut e.canon c (c.mirrorOps m e k).2.2 := by
  have hentry := updateHoldout_entry m e (e.candidates.getLsbD m.shard && (m.remoteWinner e).isSome)
  unfold Mgr.reconcileMirror
  revert hentry
  generalize m.updateHoldout e (e.candidates.getLsbD m.shard && (m.remoteWinner e).isSome) = out
  generalize (e.candidates.getLsbD m.shard && (m.remoteWinner e).isSome) = b
  obtain ⟨m', e'⟩ := out
  rintro (rfl : e' = _)
  unfold mirrorOps at hu ha ⊢
  dsimp only
  by_cases hdone : m.desiredMirror e = e.mirror
  · rw [if_pos hdone, if_pos hdone]
    exact ⟨h, .refl _ _⟩
  rw [if_neg hdone] at hu ha ⊢
  rw [if_neg hdone]
  cases hmirror : e.mirror with
  | none =>
    rw [hmirror] at ha
    have h' : Agrees shard { e with holdout := b } c := h
    have hi := install_agrees (m := m') (k := k) h' hann ha hroom
    rwa [hmirror] at hi
  | some origin =>
    rw [hmirror] at hu ha
    dsimp only at hu ha ⊢
    have hsome : ¬ (some origin).isNone := by simp
    have howner : c.owner e.canon = some (.mirror origin) := (h.mirror origin).mp hmirror
    cases hspace : k.unannounceSpace with
    | false =>
      have hcall : c.unannounce (.mirror origin) e.canon false = (.wouldBlock, c) := by
        rw [unannounce, if_neg (not_not.mpr howner)]
        rfl
      rw [hspace, hcall] at hu ha
      have hval : a.unannounce = .wouldBlock := hu
      have hblock : a.unannounce ≠ .ok := by rw [hval]; decide
      rw [hcall, if_neg hsome, if_pos hblock, ← hmirror]
      exact ⟨h, .refl _ _⟩
    | true =>
      have hcall : c.unannounce (.mirror origin) e.canon true
          = (.ok, c.change e.canon none .unannounce true) := by
        rw [unannounce, if_neg (not_not.mpr howner)]
        rfl
      rw [hspace, hcall] at hu ha
      have hok : ¬ a.unannounce ≠ .ok := not_not.mpr hu
      rw [hcall, if_neg hok]
      have hun := hun (by rw [hmirror]; exact Option.some_ne_none _)
      let e₁ : JEntry :=
        { e with holdout := b, echoUnann := (e.echoUnann + 1) % 2 ^ 16, mirror := none }
      have hst : e₁.standing shard = expecting (e.standing shard) none .unannounce := by
        have hzero : e.echoUnann = 0 := Consistent.echo_zero h hun
        have hecho : Mgr.echoes e₁
            = update (Mgr.echoes e) .unannounce (Mgr.echoes e .unannounce + 1) := by
          funext op
          cases op <;> simp [Mgr.echoes, e₁, hzero]
        exact congrArg (Standing.mk _ _) hecho
      have h₁ : Agrees shard e₁ (c.change e.canon none .unannounce true) := by
        rw [Agrees, hst, owner_change, pending_change]
        refine Consistent.mirrored h (fun j => by simp) ?_ (by simp [hun])
        rw [howner]
        rfl
      have hann₁ : marks .announce ((c.change e.canon none .unannounce true).pending e₁.canon)
          = [] := by
        rw [pending_change, marks_append, hann]
        rfl
      have hi := install_agrees (k := k)
        (m := { m' with owedLocalDrain := true, journalEpoch := m'.journalEpoch + 1 })
        h₁ hann₁ ha hroom
      exact ⟨hi.1, (sameBut_change _ _ _ _).trans hi.2⟩

/-- **A reconciliation keeps the namespace consistent** if nothing of it is pending. -/
theorem reconcile_agrees (h : Agrees m.shard e c) (hp : c.pending e.canon = []) :
    Agrees m.shard (m.reconcileEntry e (c.reconcile m e k).1).2 (c.reconcile m e k).2 ∧
      SameBut e.canon c (c.reconcile m e k).2 := by
  have hmarks : ∀ op, marks op (c.pending e.canon) = [] := fun op => by
    rw [hp]
    rfl
  unfold Mgr.reconcileEntry reconcile
  by_cases hloser : (e.candidates.getLsbD m.shard && (m.remoteWinner e).isSome)
  · simp only [if_pos hloser]
    have hown : (e.standing m.shard).own := (Bool.and_eq_true _ _ ▸ hloser).1
    have howner : ∃ b, c.owner e.canon = some (.binding b) := by
      have hlocal := h.own
      rw [hp] at hlocal
      have hlocal : true = (c.owner e.canon).any fun o => !o.isMirror := hown.symm.trans hlocal
      cases ho : c.owner e.canon with
      | none => exact nomatch ho ▸ hlocal
      | some o =>
        cases o with
        | binding b => exact ⟨b, rfl⟩
        | mirror j => exact nomatch ho ▸ hlocal
    obtain ⟨b, howner⟩ := howner
    by_cases hspace : k.forceSpace
    swap
    · have hforce : c.forceWithdraw e.canon k.forceSpace = (.wouldBlock, c) := by
        rw [forceWithdraw, howner, Bool.eq_false_iff.mpr hspace]
        rfl
      rw [hforce]
      simp only [updateHoldout_entry]
      exact ⟨h, .refl _ _⟩
    · have hforce : c.forceWithdraw e.canon k.forceSpace
          = (.ok, c.change e.canon none .unannounce false) := by
        rw [forceWithdraw, howner, hspace]
        rfl
      rw [hforce]
      -- the loser is gone: its event is pending, and its bit is cleared already
      let e₁ : JEntry := { e with candidates := withBit e.candidates m.shard false }
      have hreal : Consistent (e.standing m.shard) none
          (c.pending e.canon ++ [(.unannounce, false)]) :=
        Consistent.real h (by simp [howner]) rfl
      have h₁ : Agrees m.shard e₁ (c.change e.canon none .unannounce false) := by
        rw [Agrees, owner_change, pending_change]
        refine ⟨hreal.mirror, hreal.echo, ?_⟩
        rw [hp]
        rfl
      have hnone : e₁.mirror = none := by
        refine Option.eq_none_iff_forall_ne_some.mpr fun j hj => ?_
        exact nomatch ((h.mirror j).mp hj).symm.trans howner
      have hann : marks .announce ((c.change e.canon none .unannounce false).pending e₁.canon)
          = [] := by
        rw [pending_change, marks_append, hmarks]
        rfl
      let out := (c.change e.canon none .unannounce false).mirrorOps m e₁ k
      have hi := mirrorOps_agrees (a := ⟨.ok, out.1, k.announceRoom, out.2.1⟩) (k := k)
        (m := { m with owedLocalDrain := true, journalEpoch := m.journalEpoch + 1 }) h₁ hann
        (fun hne => absurd hnone hne) rfl rfl rfl
      exact ⟨hi.1, (sameBut_change _ _ _ _).trans hi.2⟩
  · simp only [if_neg hloser]
    exact mirrorOps_agrees h (hmarks _) (fun _ => hmarks _) rfl rfl rfl

end NsCore

/-! ## Runs -/

namespace NsShard

variable {s : NsShard} {shard journalEntries i : ℕ}

/-- **The invariant of a shard**, as long as it has not failed. -/
structure Inv (shard : ℕ) (s : NsShard) : Prop where
  shard_eq : s.mgr.shard = shard
  lt : shard < 64
  wf : s.mgr.Wf
  ns : s.mgr.oom = false → ∀ c, Consistent (s.mgr.standing c) (s.core.owner c) (s.core.pending c)

theorem Inv.init (h : shard < shardsMax) : Inv shard (init shard journalEntries) where
  shard_eq := rfl
  lt := h
  wf := ⟨List.Pairwise.nil, nofun⟩
  ns _ _ := .default

/-- A change of one namespace by a local binding. -/
theorem Inv.real (h : Inv shard s) {canon : Canon} {o : Option NsOwner} {op : RouteOp}
    (hm : ∀ k, o = some (.mirror k) ↔ s.core.owner canon = some (.mirror k))
    (ho : (o.any fun o => !o.isMirror) = op.present) :
    Inv shard { s with core := s.core.change canon o op false } where
  shard_eq := h.shard_eq
  lt := h.lt
  wf := h.wf
  ns hoom c := by
    rcases eq_or_ne c canon with rfl | hne
    · rw [NsCore.owner_change, NsCore.pending_change]
      exact (h.ns hoom c).real hm ho
    · obtain ⟨howner, hpending⟩ := NsCore.sameBut_change canon o op false c hne
      rw [howner, hpending]
      exact h.ns hoom c

/-- The manager's journal moved without a change to any standing. -/
theorem Inv.mgr (h : Inv shard s) {m : Mgr} (hs : m.shard = s.mgr.shard) (hw : m.Wf)
    (ho : m.oom = false → s.mgr.oom = false ∧ m.standing = s.mgr.standing) :
    Inv shard { s with mgr := m } where
  shard_eq := hs.trans h.shard_eq
  lt := h.lt
  wf := hw
  ns hoom c := by
    obtain ⟨hoom, hst⟩ := ho hoom
    rw [hst]
    exact h.ns hoom c

variable {it : NsIntent} {ring : List NsIntent}

/-- The oldest intent is the next event of its namespace. -/
theorem pending_cons (hring : s.core.ring = it :: ring) :
    s.core.pending it.canon
        = (it.op, it.mine) :: { s.core with ring : NsCore }.pending it.canon ∧
      ∀ c, c ≠ it.canon → s.core.pending c = { s.core with ring : NsCore }.pending c := by
  refine ⟨?_, fun c hc => ?_⟩
  · simp [NsCore.pending, hring]
  · simp [NsCore.pending, hring, hc.symm]

/-- The router's part. -/
theorem Inv.route (h : Inv shard s) (hring : s.core.ring = it :: ring) (mem : Bool) :
    Inv shard { mgr := s.mgr.observe it.op (if mem then some it.canon else none)
                core := { s.core with ring } } := by
  have hlocal := h.wf.observe it.op (if mem then some it.canon else none)
  refine ⟨hlocal.shard.trans h.shard_eq, h.lt, hlocal.wf, fun hoom c => ?_⟩
  cases mem with
  | false => cases hoom
  | true =>
    rw [if_pos rfl] at hoom ⊢
    rcases h.wf.standing_observe (h.shard_eq ▸ h.lt) it.op it.canon with hfail | ⟨hsame, hst⟩
    · exact nomatch hfail.symm.trans hoom
    have hns := h.ns (hsame ▸ hoom)
    obtain ⟨hself, hother⟩ := pending_cons hring
    rw [hst]
    rcases eq_or_ne c it.canon with rfl | hne
    · rw [update_self]
      exact (hself ▸ hns it.canon).route.2
    · rw [update_of_ne hne, ← hother c hne]
      exact hns c

theorem Inv.settle (h : Inv shard s) (mv : Settling) : Inv shard (s.settle mv) := by
  cases mv with
  | inbound mb i =>
    rw [NsShard.settle]
    split_ifs with ho
    · exact h
    cases ha : applySlot s.mgr mb i with
    | none => exact h
    | some out =>
      obtain ⟨hs, hw, hoom, hst⟩ := h.wf.standing_applySlot (h.shard_eq ▸ h.lt) ho
        (show _ = some (out.1, out.2) from ha)
      exact h.mgr hs hw fun hfine => ⟨hoom ▸ hfine, hst⟩
  | announce b canon checks =>
    rw [NsShard.settle, NsCore.announce]
    split_ifs with hchecks howner
    · exact h
    · exact h
    · have hnone := Option.not_isSome_iff_eq_none.mp howner
      exact h.real (fun k => by rw [hnone]; simp) rfl
  | withdraw b canon space =>
    rw [NsShard.settle, NsCore.unannounce]
    split_ifs with howner hspace
    · exact h
    · exact h
    · exact h.real (fun k => by rw [not_not.mp howner]; simp) rfl
  | route mem =>
    rw [NsShard.settle]
    cases hring : s.core.ring with
    | nil => exact h
    | cons it ring => exact h.route hring mem

/-- One entry with nothing pending is reconciled: the others and their events stand. -/
theorem Inv.reconcileEntry (h : Inv shard s) {e : JEntry} (he : s.mgr.jrn[i]? = some e)
    (hp : s.mgr.oom = false → s.core.pending e.canon = []) (k : NsCore.Checks) :
    Inv shard (s.reconcileOne i k) ∧
      ((s.reconcileOne i k).mgr.oom = false → s.mgr.oom = false ∧
        NsCore.SameBut e.canon s.core (s.reconcileOne i k).core) ∧
      ∀ j, j ≠ i → (s.reconcileOne i k).mgr.jrn[j]? = s.mgr.jrn[j]? := by
  rw [NsShard.reconcileOne, he]
  dsimp only
  split_ifs with hdirty
  swap
  · exact ⟨h, fun hoom => ⟨hoom, .refl _ _⟩, fun _ _ => rfl⟩
  have hbefore : s.mgr.oom = false → NsCore.Agrees s.mgr.shard e s.core := fun hoom => by
    rw [NsCore.Agrees, ← h.wf.standing_at he]
    exact h.ns hoom e.canon
  have hagrees : s.mgr.oom = false → _ := fun hoom =>
    NsCore.reconcile_agrees (k := k) (hbefore hoom) (hp hoom)
  revert hagrees
  generalize s.core.reconcile s.mgr e k = out
  intro hagrees
  have hr := Mgr.reconciled_reconcileEntry s.mgr e out.1
  have hlocal := h.wf.reconcileAt i out.1
  have hat : s.mgr.reconcileAt i out.1
      = (s.mgr.reconcileEntry e out.1).1.putEntry i (s.mgr.reconcileEntry e out.1).2 := by
    rw [Mgr.reconcileAt, he]
    exact if_pos hdirty
  have hst : (s.mgr.reconcileAt i out.1).standing = update s.mgr.standing e.canon
      ((s.mgr.reconcileEntry e out.1).2.standing s.mgr.shard) := by
    have hsame : (s.mgr.reconcileEntry e out.1).1.standing = s.mgr.standing := by
      rw [Mgr.standing, Mgr.standing, hr.shard]
      unfold Mgr.view
      rw [hr.jrn]
    have hput := (h.wf.local hr.shard hr.jrn).wf.standing_putEntry (hr.jrn ▸ he) hr.entry.canon
    rw [hat, hput, hsame, hr.shard]
  have hfine : (s.mgr.reconcileAt i out.1).oom = false → s.mgr.oom = false := fun hoom => by
    refine Bool.eq_false_iff.mpr fun hbad => ?_
    rw [hat] at hoom
    exact Bool.noConfusion ((hr.oom hbad).symm.trans hoom)
  refine ⟨⟨hlocal.shard.trans h.shard_eq, h.lt, hlocal.wf, fun hoom c => ?_⟩,
    fun hoom => ⟨hfine hoom, (hagrees (hfine hoom)).2⟩, fun j hj => ?_⟩
  · obtain ⟨hself, hframe⟩ := hagrees (hfine hoom)
    rw [hst]
    rcases eq_or_ne c e.canon with rfl | hne
    · rw [update_self]
      rwa [NsCore.Agrees, hr.entry.canon] at hself
    · obtain ⟨howner, hpending⟩ := hframe c hne
      rw [update_of_ne hne, howner, hpending]
      exact h.ns (hfine hoom) c
  · rw [hat, Mgr.putEntry, getElem?_set_ne hj.symm, hr.jrn]

/-- The entries from an index on have nothing pending. -/
def Quiet (s : NsShard) (i : ℕ) : Prop :=
  s.mgr.oom = false → ∀ j e, i ≤ j → s.mgr.jrn[j]? = some e → s.core.pending e.canon = []

/-- **A reconciliation visits every entry once**, so each visit finds nothing pending. -/
theorem Inv.pass (checks : ℕ → NsCore.Checks) (n : ℕ) : ∀ {s : NsShard} (i : ℕ), Inv shard s →
    s.Quiet i → Inv shard ((range' i n).foldl (fun s i => s.reconcileOne i (checks i)) s) := by
  induction n with
  | zero => exact fun i h _ => h
  | succ n ih =>
    intro s i h hq
    rw [range'_succ, foldl_cons]
    cases he : s.mgr.jrn[i]? with
    | none =>
      have hsame : s.reconcileOne i (checks i) = s := by rw [NsShard.reconcileOne, he]
      rw [hsame]
      exact ih (i + 1) h fun hoom j e hj => hq hoom j e (by omega)
    | some e =>
      obtain ⟨hinv, hframe, hjrn⟩ :=
        h.reconcileEntry he (fun hoom => hq hoom i e le_rfl he) (checks i)
      refine ih (i + 1) hinv fun hoom j e' hj he' => ?_
      obtain ⟨hoom, hframe⟩ := hframe hoom
      rw [hjrn j (by omega)] at he'
      have hne : e'.canon ≠ e.canon := fun heq => by
        have hlt := h.wf.sorted.get (by omega : i < j) he he'
        rw [heq, Std.compare_self] at hlt
        cases hlt
      rw [(hframe e'.canon hne).2]
      exact hq hoom j e' (by omega) he'

theorem Inv.unpark (h : Inv shard s) (roomEpoch : ℕ) :
    Inv shard { s with mgr := s.mgr.unpark roomEpoch } := by
  have hlocal := h.wf.unpark roomEpoch
  refine h.mgr hlocal.shard hlocal.wf fun hoom => ⟨hoom, ?_⟩
  rcases s.mgr.unpark_jrn roomEpoch with hj | hj
  · unfold Mgr.standing Mgr.view
    rw [hj]
    rfl
  · exact Mgr.view_map (Mgr.retried_eq fun _ => rfl) (Mgr.retried_eq fun _ => rfl) hj

theorem Inv.outboundOne (h : Inv shard s) (mv : Outbound) : Inv shard (s.outboundOne mv) := by
  cases mv with
  | told i d =>
    rw [NsShard.outboundOne]
    cases he : s.mgr.jrn[i]? with
    | none => exact h
    | some e =>
      refine h.mgr rfl (h.wf.putEntry he rfl rfl) fun hoom => ⟨hoom, ?_⟩
      have hput : (s.mgr.putEntry i
          { e with sent := withBit e.sent d (e.candidates.getLsbD s.mgr.shard) }).standing
          = update s.mgr.standing e.canon (e.standing s.mgr.shard) :=
        h.wf.standing_putEntry he rfl
      exact hput.trans (update_eq_self_iff.mpr (h.wf.standing_at he).symm)
  | reclaim i =>
    rw [NsShard.outboundOne]
    cases he : s.mgr.jrn[i]? with
    | none => exact h
    | some e =>
      dsimp only
      split_ifs with hq
      · refine h.mgr rfl (h.wf.jrnRemove i) fun hoom => ⟨hoom, h.wf.view_jrnRemove he ?_⟩
        simp only [Shards.quiesced, Bool.and_eq_true, decide_eq_true_eq] at hq
        obtain ⟨⟨⟨⟨⟨hcand, hmirror⟩, -⟩, -⟩, hann⟩, hunann⟩ := hq
        exact Mgr.standing_idle hcand hmirror hann hunann
      · exact h

/-- **Every run keeps the invariant.** -/
theorem Reachable.inv (h : Reachable shard journalEntries s) : Inv shard s := by
  induction h with
  | init hlt => exact .init hlt
  | settle _ mv ih => exact ih.settle mv
  | turn _ hring roomEpoch checks moves ih =>
    refine run_inv (fun _ mv h => h.outboundOne mv) moves ?_
    have hpending : ∀ c, NsCore.pending _ c = [] := fun c => by rw [NsCore.pending, hring]; rfl
    rw [NsShard.reconcile, range_eq_range']
    exact (ih.unpark roomEpoch).pass checks _ 0 fun _ _ e _ _ => hpending e.canon

/-- The own bit of a namespace. -/
theorem own_eq_candBit (m : Mgr) (c : Canon) : (m.standing c).own = m.candBit c m.shard := by
  unfold Mgr.standing Mgr.view Mgr.candBit Mgr.bits
  cases keyed JEntry.canon m.jrn c with
  | none => exact BitVec.getLsbD_zero.symm
  | some e => rfl

theorem mirror_eq_view (m : Mgr) (c : Canon) :
    (m.standing c).mirror = m.view JEntry.mirror none c := by
  unfold Mgr.standing Mgr.view
  cases keyed JEntry.canon m.jrn c <;> rfl

/-- The echoes a namespace is owed. -/
def owed (s : NsShard) (it : NsIntent) : ℕ := s.mgr.view (fun e => Mgr.echoes e it.op) 0 it.canon

theorem echo_eq_owed (s : NsShard) (it : NsIntent) :
    (s.mgr.standing it.canon).echo it.op = s.owed it := by
  unfold owed Mgr.standing Mgr.view
  cases keyed JEntry.canon s.mgr.jrn it.canon <;> rfl

/-- **A shard that has not failed tells its own operations from local ones.**  Once the ring is
drained no echo is owed, the shard's own candidate bit of a namespace is set exactly when a real
local binding owns it, and the mirror index is `k` exactly when the pseudo-binding of shard `k`
does; and the router finds an echo owed exactly when the intent it handles is the manager's own. -/
theorem echoes_exact (h : Reachable shard journalEntries s) (hoom : s.mgr.oom = false) :
    (s.core.ring = [] →
      (∀ e ∈ s.mgr.jrn, e.echoAnn = 0 ∧ e.echoUnann = 0) ∧
      (∀ c, s.mgr.candBit c shard ↔ ∃ b, s.core.owner c = some (.binding b)) ∧
      ∀ c k, s.mgr.view JEntry.mirror none c = some k ↔ s.core.owner c = some (.mirror k)) ∧
    ∀ it ring, s.core.ring = it :: ring → (0 < s.owed it ↔ it.mine) := by
  have hinv := h.inv
  have hns := hinv.ns hoom
  refine ⟨fun hring => ⟨fun e he => ?_, fun c => ?_, fun c k => ?_⟩, fun it ring hring => ?_⟩
  · obtain ⟨i, hi⟩ := getElem?_of_mem he
    have hzero : ∀ op, Mgr.echoes e op = 0 := fun op => by
      have hnone : marks op (s.core.pending e.canon) = [] := by rw [NsCore.pending, hring]; rfl
      have := (hns e.canon).echo_zero hnone
      rwa [hinv.wf.standing_at hi] at this
    exact ⟨hzero .announce, hzero .unannounce⟩
  · have hown := (hns c).own
    rw [NsCore.pending, hring, own_eq_candBit, hinv.shard_eq] at hown
    have hown : s.mgr.candBit c shard = (s.core.owner c).any fun o => !o.isMirror := hown
    rw [hown]
    cases s.core.owner c with
    | none => simp
    | some o => cases o <;> simp [NsOwner.isMirror]
  · rw [← mirror_eq_view]
    exact (hns c).mirror k
  · rw [← echo_eq_owed]
    exact ((pending_cons hring).1 ▸ hns it.canon).route.1

/-- The manager mirrors a remote namespace, and the event of it is drained. -/
def mirroredShard : NsShard :=
  let slot : CtrlMsg := { used := true, op := .announce, origin := 1, canon := [7] }
  let mb : Mailbox := { slots := fun _ => slot, cap := 1, count := 1 }
  let checks : NsCore.Checks := ⟨true, true, .ok, .ok⟩
  ((((init 0 4).settle (.inbound mb 0)).reconcile 0 fun _ => checks).outbound []).settle
    (.route true)

theorem mirroredShard_mirror : mirroredShard.mgr.view JEntry.mirror none [7] = some 1 ∧
    mirroredShard.core.owner [7] = some (.mirror 1) := by
  have hinit : Reachable 0 4 (init 0 4) := .init (by decide)
  have hreach : Reachable 0 4 mirroredShard := by
    unfold mirroredShard
    exact .settle (.turn (hinit.settle _) (by decide +kernel) _ _ _) _
  have h := (echoes_exact hreach (by decide +kernel)).1 (by decide +kernel)
  have hmirror : mirroredShard.mgr.view JEntry.mirror none [7] = some 1 := by decide +kernel
  exact ⟨hmirror, (h.2.2 [7] 1).mp hmirror⟩

/-- Two local bindings announce, to a journal of one entry. -/
def crowdedShard : NsShard :=
  (((init 0 1).settle (.announce 0 [1] .ok)).settle (.announce 1 [2] .ok)).settle (.route true)
    |>.settle (.route true)

/-- **A journal that is full loses a local announcement**, and the shard fails. -/
theorem full_journal_loses : Reachable 0 1 crowdedShard ∧ crowdedShard.core.ring.isEmpty ∧
    crowdedShard.core.owner [2] = some (.binding 1) ∧ crowdedShard.mgr.candBit [2] 0 = false ∧
    crowdedShard.mgr.oom :=
  ⟨.settle (.settle (.settle (.settle (.init (by decide : 0 < shardsMax)) _) _) _) _,
    by decide +kernel⟩

end NsShard

end MoqRelay
