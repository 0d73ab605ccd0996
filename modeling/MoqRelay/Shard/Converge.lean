import MoqRelay.Lib.Trace
import MoqRelay.Shard.Bits
import MoqRelay.Shard.Mailbox

/-!
# Shard/Converge — the shards agree on the candidates once their mailboxes are empty

Between a source and a destination a namespace is in one of two conditions: a slot of the directed
mailbox holds the source's last-sent bit, or no slot does and the destination's candidate bit for
the source is the last-sent bit (`Synced`).  A push moves the last-sent bit and the slot together,
an application moves the slot's bit into the candidate set, and nothing else touches the three.  So
the condition holds throughout (`Shards.Inv`), and shards with nothing in flight and nothing left to
tell have the same candidate sets, hence the same winners.
-/

namespace MoqRelay

open Function List

/-! ## One directed mailbox -/

namespace Mailbox

variable {mb mb' : Mailbox} {i j src : ℕ} {c : Canon} {sent cand : Canon → Bool}

/-- A slot that holds a namespace. -/
def Holds (mb : Mailbox) (i : ℕ) (c : Canon) : Prop := (mb.slots i).used ∧ (mb.slots i).canon = c

theorem slotOf_some (h : mb.slotOf c = some i) : mb.Holds i c := by
  have := find?_some h
  rwa [Bool.and_eq_true, decide_eq_true_iff] at this

theorem freeSlot_some (h : mb.freeSlot = some i) : i < mb.cap ∧ (mb.slots i).used = false := by
  have hmem := mem_range.mp (mem_of_find?_eq_some h)
  have hp := find?_some h
  rw [Bool.not_eq_true'] at hp
  exact ⟨hmem, hp⟩

/-- **A mailbox in step with its two ends**: it holds a namespace at most once, as the source's
last-sent bit; a namespace it does not hold has reached the destination. -/
structure Synced (mb : Mailbox) (src : ℕ) (sent cand : Canon → Bool) : Prop where
  pool : KeyedPool CtrlMsg.used CtrlMsg.canon mb.cap
    (fun _ s => s.op.present = sent s.canon ∧ s.origin = src) mb.slots mb.count
  idle : ∀ c, (∀ i, ¬ mb.Holds i c) → cand c = sent c

/-- A namespace that no slot holds. -/
theorem Synced.slotOf_none (h : mb.Synced src sent cand) (hn : mb.slotOf c = none) (i : ℕ) :
    ¬ mb.Holds i c := by
  rintro ⟨hu, hc⟩
  have := find?_eq_none.mp hn i (mem_range.mpr (h.pool.lt i hu))
  rw [hu, hc, decide_eq_true rfl] at this
  exact this rfl

/-- A slot written: a namespace that no other slot holds is not held any more. -/
theorem idle_write {sent cand : Canon → Bool} {v : CtrlMsg} (hs : mb'.slots = update mb.slots i v)
    (hidle : ∀ c, (∀ j, j ≠ i → ¬ mb.Holds j c) → (v.used → v.canon ≠ c) →
      cand c = sent c) (c : Canon) (hc : ∀ j, ¬ mb'.Holds j c) : cand c = sent c := by
  refine hidle c (fun j hj hj' => hc j ?_) fun hu heq => hc i ?_
  · rwa [Holds, hs, update_of_ne hj]
  · rw [Holds, hs, update_self]
    exact ⟨hu, heq⟩

/-- **A push moves the last-sent bit into the mailbox.** -/
theorem Synced.push {round : ℕ} {op : RouteOp} {mem : Bool} (h : mb.Synced src sent cand)
    (hp : mb.push round op src c mem = some mb') :
    mb'.Synced src (update sent c op.present) cand := by
  unfold Mailbox.push at hp
  cases hslot : mb.slotOf c with
  | some i =>
    obtain ⟨hu, rfl⟩ := slotOf_some hslot
    rw [hslot] at hp
    cases hp
    have halone : ∀ j, j ≠ i → (mb.slots j).used → (mb.slots j).canon ≠ (mb.slots i).canon :=
      fun j hj hj' hc => hj (h.pool.one j i _ ⟨hj', hc⟩ ⟨hu, rfl⟩)
    refine ⟨h.pool.write (h.pool.lt i hu) rfl
      (fun _ => ⟨⟨by rw [update_self], (h.pool.all i hu).2⟩, halone⟩)
      fun j hj hj' hs => ⟨hs.1.trans (update_of_ne (halone j hj hj') ..).symm, hs.2⟩,
      idle_write rfl ?_⟩
    · intro c hc hne
      rw [update_of_ne (hne hu).symm]
      refine h.idle c fun j hj => ?_
      rcases eq_or_ne j i with rfl | hji
      · exact hne hu hj.2
      · exact hc j hji hj
  | none =>
    have habs := h.slotOf_none hslot
    rw [hslot] at hp
    cases hfree : mb.freeSlot with
    | none => exact nomatch hfree ▸ hp
    | some i =>
      obtain ⟨hi, hu⟩ := freeSlot_some hfree
      rw [hfree] at hp
      split_ifs at hp
      cases hp
      refine ⟨h.pool.write hi ?_
        (fun _ => ⟨⟨by rw [update_self], rfl⟩, fun j _ hj hc => habs j ⟨hj, hc⟩⟩)
        fun j _ hj hs => ⟨hs.1.trans (update_of_ne (fun hc => habs j ⟨hj, hc⟩) ..).symm, hs.2⟩,
        idle_write rfl ?_⟩
      · rw [hu]
        rfl
      · intro c' hc' hne
        rw [update_of_ne (hne rfl).symm]
        refine h.idle c' fun j hj => ?_
        rcases eq_or_ne j i with rfl | hji
        · exact Bool.false_ne_true (hu.symm.trans hj.1)
        · exact hc' j hji hj

/-- **A released slot's bit is the destination's.** -/
theorem Synced.release (h : mb.Synced src sent cand) (hi : mb.Holds i c) :
    (mb.release i).Synced src sent (update cand c (mb.slots i).op.present) := by
  refine ⟨h.pool.release hi.1 rfl, idle_write rfl fun c' hc' _ => ?_⟩
  rcases eq_or_ne c' c with rfl | hne
  · rw [update_self, (h.pool.all i hi.1).1, hi.2]
  · rw [update_of_ne hne]
    refine h.idle c' fun j hj => ?_
    rcases eq_or_ne j i with rfl | hji
    · exact hne (hj.2.symm.trans hi.2)
    · exact hc' j hji hj

end Mailbox

/-- A slot applied is a slot noted and released. -/
theorem applySlot_eq (m : Mgr) (mb : Mailbox) (i : ℕ) :
    applySlot m mb i = (m.noted (mb.slots i).canon (mb.slots i).origin (mb.slots i).op).map
      (·, mb.release i) := by
  unfold applySlot Mgr.noted
  cases (mb.slots i).op with
  | announce => cases m.jrnGet (mb.slots i).canon <;> rfl
  | unannounce => rfl

/-- **An application moves the slot's bit into the candidate set**, and releases the slot. -/
theorem Mgr.Wf.applySlot {m m' : Mgr} {mb mb' : Mailbox} {i : ℕ} (h : m.Wf)
    (ho : (mb.slots i).origin < 64) (ha : applySlot m mb i = some (m', mb')) :
    mb' = mb.release i ∧ m'.shard = m.shard ∧ m'.Wf ∧ (∀ c d, m'.sentBit c d = m.sentBit c d) ∧
      ∀ c o, m'.candBit c o = if c = (mb.slots i).canon ∧ o = (mb.slots i).origin
        then (mb.slots i).op.present else m.candBit c o := by
  rw [applySlot_eq] at ha
  obtain ⟨m₁, hn, heq⟩ := Option.map_eq_some_iff.mp ha
  obtain ⟨rfl, rfl⟩ := Prod.mk.inj heq
  obtain ⟨hs, -, hw, -⟩ := h.noted (f := JEntry.bits) (fun _ => rfl) rfl hn
  exact ⟨rfl, hs, hw, Mgr.bits_candidate ho (h.bits_noted hn)⟩

/-! ## All mailboxes -/

namespace Shards

variable {n : ℕ} {s : Shards n}

/-- **The invariant of the shards.** -/
structure Inv (s : Shards n) : Prop where
  shard : ∀ x, (s.mgr x).shard = x
  wf : ∀ x, (s.mgr x).Wf
  known : ∀ x c o, n ≤ o → (s.mgr x).candBit c o = false
  self : ∀ x i, ((s.mbox x x).slots i).used = false
  synced : ∀ src dst, src ≠ dst → (s.mbox src dst).Synced src
    (fun c => (s.mgr src).sentBit c dst) fun c => (s.mgr dst).candBit c src

theorem inv_init (h : n ≤ shardsMax) (live : Bool) (mailboxEntries journalEntries : ℕ) :
    (init h live mailboxEntries journalEntries).Inv where
  shard _ := rfl
  wf _ := ⟨List.Pairwise.nil, nofun⟩
  known _ _ _ _ := BitVec.getLsbD_zero
  self _ _ := rfl
  synced _ _ _ :=
    ⟨.free fun _ => rfl, fun _ _ => BitVec.getLsbD_zero.trans BitVec.getLsbD_zero.symm⟩

variable {x src dst : Fin n} {m : Mgr} {mb : Mailbox}

theorem mgr_setMgr (y : Fin n) :
    (s.setMgr x m).mgr y = if y = x then m else s.mgr y := update_apply ..

theorem mbox_setMbox (src' dst' : Fin n) :
    (s.setMbox src dst mb).mbox src' dst' =
      if src' = src ∧ dst' = dst then mb else s.mbox src' dst' := by
  have hrow : (s.setMbox src dst mb).mbox src' =
      if src' = src then update (s.mbox src) dst mb else s.mbox src' :=
    update_apply ..
  rw [hrow, ite_and]
  rcases eq_or_ne src' src with rfl | hs
  · rw [if_pos rfl, if_pos rfl, update_apply]
  · rw [if_neg hs, if_neg hs]

/-- A local operation of one shard. -/
theorem Inv.local (h : s.Inv) (hl : (s.mgr x).Local m) : (s.setMgr x m).Inv := by
  have hall : ∀ y, (s.mgr y).Local ((s.setMgr x m).mgr y) := fun y => by
    rw [mgr_setMgr]
    split_ifs with hy
    · exact hy ▸ hl
    · exact (h.wf y).local rfl rfl
  refine ⟨fun y => (hall y).shard.trans (h.shard y), fun y => (hall y).wf, fun y c o ho => ?_,
    h.self, fun src dst hne => ?_⟩
  · rw [(hall y).cand c o (by rw [h.shard y]; exact (y.isLt.trans_le ho).ne')]
    exact h.known y c o ho
  · have hcand : ∀ c, ((s.setMgr x m).mgr dst).candBit c src = (s.mgr dst).candBit c src :=
      fun c => (hall dst).cand c src (by rw [h.shard dst]; exact Fin.val_ne_of_ne hne)
    simp only [(hall src).sent, hcand]
    exact h.synced src dst hne

/-- **A mailbox and the manager at one of its ends replaced**, in step with each other and moving
no other bit. -/
theorem Inv.exchange (h : s.Inv) (hne : src ≠ dst) (hshard : m.shard = (s.mgr x).shard) (hwf : m.Wf)
    (hsent : ∀ c (d : Fin n), (x, d) ≠ (src, dst) → m.sentBit c d = (s.mgr x).sentBit c d)
    (hcand : ∀ c o, (x, o) ≠ (dst, (src : ℕ)) → m.candBit c o = (s.mgr x).candBit c o)
    (hsync : mb.Synced src (fun c => ((s.setMgr x m).mgr src).sentBit c dst)
      fun c => ((s.setMgr x m).mgr dst).candBit c src) :
    ((s.setMbox src dst mb).setMgr x m).Inv := by
  have hmgr : ((s.setMbox src dst mb).setMgr x m).mgr = (s.setMgr x m).mgr := rfl
  have hmbox : ((s.setMbox src dst mb).setMgr x m).mbox = (s.setMbox src dst mb).mbox := rfl
  refine ⟨fun y => ?_, fun y => ?_, fun y c o ho => ?_, fun y i => ?_, fun a b hab => ?_⟩
  · rw [mgr_setMgr]
    split_ifs with hy
    · rw [hshard, hy, h.shard x]
    · exact h.shard y
  · rw [mgr_setMgr]
    split_ifs
    · exact hwf
    · exact h.wf y
  · rw [mgr_setMgr]
    split_ifs with hy
    · rw [hcand c o fun heq => (src.isLt.trans_le ho).ne' (Prod.ext_iff.mp heq).2]
      exact h.known x c o ho
    · exact h.known y c o ho
  · rw [hmbox, mbox_setMbox, if_neg fun hy => hne (hy.1.symm.trans hy.2)]
    exact h.self y i
  · rw [hmgr, hmbox, mbox_setMbox]
    split_ifs with hpair
    · obtain ⟨rfl, rfl⟩ := hpair
      exact hsync
    · have hs : ∀ c, ((s.setMgr x m).mgr a).sentBit c b = (s.mgr a).sentBit c b := fun c => by
        rw [mgr_setMgr]
        split_ifs with hy
        · rw [hy]
          exact hsent c b fun heq =>
            hpair ⟨hy.trans (Prod.ext_iff.mp heq).1, (Prod.ext_iff.mp heq).2⟩
        · rfl
      have hc : ∀ c, ((s.setMgr x m).mgr b).candBit c a = (s.mgr b).candBit c a := fun c => by
        rw [mgr_setMgr]
        split_ifs with hy
        · rw [hy]
          exact hcand c a fun heq =>
            hpair ⟨Fin.ext (Prod.ext_iff.mp heq).2, hy.trans (Prod.ext_iff.mp heq).1⟩
        · rfl
      simp only [hs, hc]
      exact h.synced a b hab

theorem present_tells (b : Bool) : (tells b).present = b := by
  cases b <;> rfl

theorem Inv.pushOne (h : s.Inv) (x : Fin n) (i : ℕ) (d : Fin n) (mem : Bool) :
    (s.pushOne x i d mem).Inv := by
  have h64 : (d : ℕ) < 64 := d.isLt.trans_le s.count_le
  rw [Shards.pushOne]
  cases he : (s.mgr x).jrn[i]? with
  | none => exact h
  | some e =>
    dsimp only
    split_ifs with hskip
    · exact h
    cases hp : (s.mbox x d).push s.round (tells (e.candidates.getLsbD x)) x e.canon mem with
    | none => exact h
    | some mb =>
      have hxd : x ≠ d := fun hd => hskip (.inl hd.symm)
      -- the push and the last-sent bit move together
      have hbits : ((s.mgr x).putEntry i
          { e with sent := withBit e.sent d (e.candidates.getLsbD x) }).bits =
          update (s.mgr x).bits e.canon (((s.mgr x).bits e.canon).1,
            withBit ((s.mgr x).bits e.canon).2 d (e.candidates.getLsbD x)) := by
        rw [(h.wf x).bits_at he]
        exact (h.wf x).bits_putEntry he rfl
      obtain ⟨hcand, hsent⟩ := Mgr.bits_sent h64 hbits
      refine h.exchange hxd rfl ((h.wf x).putEntry he rfl rfl) (fun c d' hd' => ?_)
        (fun c o _ => hcand c o) ?_
      · rw [hsent, if_neg fun heq => hd' (by rw [Fin.ext heq.2])]
      · have hsync := (h.synced x d hxd).push hp
        rw [present_tells] at hsync
        convert hsync using 1
        · funext c
          rw [mgr_setMgr, if_pos rfl, hsent, update_apply]
          simp
        · rw [mgr_setMgr, if_neg hxd.symm]

theorem Inv.reclaimOne (h : s.Inv) (x : Fin n) (i : ℕ) : (s.reclaimOne x i).Inv := by
  rw [Shards.reclaimOne]
  cases he : (s.mgr x).jrn[i]? with
  | none => exact h
  | some e =>
    dsimp only
    split_ifs with hq
    · refine h.local (.of_bits rfl ((h.wf x).jrnRemove i) ((h.wf x).view_jrnRemove he ?_))
      simp only [quiesced, Bool.and_eq_true, decide_eq_true_eq] at hq
      rw [JEntry.bits, hq.1.1.1.1.1, hq.1.1.1.2]
    · exact h

theorem Inv.applyOne (h : s.Inv) (src dst : Fin n) (i : ℕ) : (s.applyOne src dst i).Inv := by
  rw [Shards.applyOne]
  split_ifs with hskip
  · exact h
  cases ha : applySlot (s.mgr dst) (s.mbox src dst) i with
  | none => exact h
  | some out =>
    simp only [not_or, Bool.not_eq_false, visible, Bool.and_eq_true] at hskip
    obtain ⟨hne, -, hused, -⟩ := hskip
    have hsync := h.synced src dst hne
    have horigin := (hsync.pool.all i hused).2
    obtain ⟨hmb, hshard, hwf, hsent, hcand⟩ :=
      (h.wf dst).applySlot (by rw [horigin]; exact src.isLt.trans_le s.count_le)
        (show _ = some (out.1, out.2) from ha)
    rw [horigin] at hcand
    refine h.exchange hne hshard hwf (fun c d _ => hsent c d) (fun c o ho => ?_) ?_
    · rw [hcand, if_neg fun heq => ho (by rw [heq.2])]
    · convert hsync.release ⟨hused, rfl⟩ using 1
      · rw [mgr_setMgr, if_neg hne]
      · funext c
        rw [mgr_setMgr, if_pos rfl, hcand, update_apply]
        simp

/-- **Every move keeps the invariant.** -/
theorem Inv.step (h : s.Inv) (mv : ShardMove n) : (s.step mv).Inv := by
  cases mv with
  | observe x op canon => exact h.local ((h.wf x).observe op canon)
  | unpark x roomEpoch => exact h.local ((h.wf x).unpark roomEpoch)
  | reconcile x i answers => exact h.local ((h.wf x).reconcileAt i answers)
  | push x i d mem => exact h.pushOne x i d mem
  | reclaim x i => exact h.reclaimOne x i
  | apply src dst i => exact h.applyOne src dst i
  | advance => exact { h with }

theorem Inv.run (h : s.Inv) (moves : List (ShardMove n)) : (s.run moves).Inv :=
  run_inv (I := Inv) (fun _ mv hs => hs.step mv) moves h

/-! ## The phases are sequences of moves -/

/-- What a sequence of moves reaches. -/
def Reaches (s s' : Shards n) : Prop := ∃ moves, s' = s.run moves

theorem Reaches.trans {s' s'' : Shards n} : s.Reaches s' → s'.Reaches s'' → s.Reaches s'' := by
  rintro ⟨moves, rfl⟩ ⟨moves', rfl⟩
  exact ⟨moves ++ moves', (foldl_append ..).symm⟩

theorem reaches_outboundFrom (x : Fin n) (mem : ℕ → Fin n → Bool) (k : ℕ) :
    ∀ (s : Shards n) (i : ℕ), s.Reaches (outboundFrom x mem s k i) := by
  induction k with
  | zero => exact fun s i => ⟨[], rfl⟩
  | succ k ih =>
    intro s i
    have htold : s.Reaches (s.run ((finRange n).map fun d => .push x i d (mem k d))) :=
      ⟨_, rfl⟩
    rw [outboundFrom]
    dsimp only
    split_ifs
    · exact ⟨[], rfl⟩
    · exact (htold.trans ⟨[.reclaim x i], rfl⟩).trans (ih _ _)
    · exact htold.trans (ih _ _)

/-- **A round of a shard is a sequence of moves**, whatever the others do in between. -/
theorem reaches_phases (x : Fin n) (mem : ℕ → Fin n → Bool) (roomEpoch : ℕ)
    (answers : ℕ → CoreAnswers) :
    s.Reaches (s.inboundBatch x) ∧ s.Reaches (s.reconcile x roomEpoch answers) ∧
      s.Reaches (s.outbound x mem) :=
  ⟨⟨_, rfl⟩, ⟨_, rfl⟩, reaches_outboundFrom x mem _ s 0⟩

/-! ## Agreement -/

/-- A candidate bit is the origin's own once nothing is in flight and nothing is left to tell. -/
theorem Inv.candBit_eq (h : s.Inv) (hempty : ∀ src dst, src ≠ dst → (s.mbox src dst).count = 0)
    {c : Canon} (htold : ∀ src dst : Fin n, src ≠ dst →
      (s.mgr src).sentBit c dst = (s.mgr src).candBit c src) (x o : Fin n) :
    (s.mgr x).candBit c o = (s.mgr o).candBit c o := by
  rcases eq_or_ne o x with rfl | hne
  · rfl
  have hsync := h.synced o x hne
  rw [← htold o x hne]
  refine hsync.idle c fun i hi => ?_
  have hzero := countP_eq_zero.mp (hsync.pool.count.symm.trans (hempty o x hne)) i
    (mem_range.mpr (hsync.pool.lt i hi.1))
  exact hzero hi.1

/-- **Directed mailboxes carry the last-sent bits, and shards at rest agree.**  In every run a
mailbox holds a namespace at most once, as the source's last-sent bit, and a namespace it does not
hold has the last-sent bit for its candidate bit at the destination; so when every mailbox is empty
and every last-sent bit is the local one, all shards have one candidate set and one winner. -/
theorem shards_converge (h : n ≤ shardsMax) (live : Bool) (mailboxEntries journalEntries : ℕ)
    (moves : List (ShardMove n)) : let s := (init h live mailboxEntries journalEntries).run moves
    (∀ (src dst : Fin n) (c : Canon),
      (∀ i j, (s.mbox src dst).Holds i c → (s.mbox src dst).Holds j c → i = j) ∧
      (∀ i, (s.mbox src dst).Holds i c →
        ((s.mbox src dst).slots i).op.present = (s.mgr src).sentBit c dst) ∧
      (src ≠ dst → (∀ i, ¬ (s.mbox src dst).Holds i c) →
        (s.mgr dst).candBit c src = (s.mgr src).sentBit c dst)) ∧
    ((∀ src dst, src ≠ dst → (s.mbox src dst).count = 0) → ∀ c : Canon,
      (∀ src dst : Fin n, src ≠ dst → (s.mgr src).sentBit c dst = (s.mgr src).candBit c src) →
      ∀ x y, (s.mgr x).candidatesOf c = (s.mgr y).candidatesOf c ∧
        (s.mgr x).winner c = (s.mgr y).winner c) := by
  intro s
  have hinv : s.Inv := (inv_init h live mailboxEntries journalEntries).run moves
  refine ⟨fun src dst c => ?_, fun hempty c htold x y => ?_⟩
  · rcases eq_or_ne src dst with rfl | hne
    · -- a shard keeps no mailbox to itself
      have hnone : ∀ i, ¬ (s.mbox src src).Holds i c := fun i hi =>
        Bool.false_ne_true ((hinv.self src i).symm.trans hi.1)
      exact ⟨fun i _ hi => absurd hi (hnone i), fun i hi => absurd hi (hnone i),
        fun hne => absurd rfl hne⟩
    · have hsync := hinv.synced src dst hne
      exact ⟨fun i j => hsync.pool.one i j c, fun i hi => hi.2 ▸ (hsync.pool.all i hi.1).1,
        fun _ => hsync.idle c⟩
  · have hcand : (s.mgr x).candidatesOf c = (s.mgr y).candidatesOf c := by
      refine BitVec.eq_of_getLsbD_eq fun o ho => ?_
      by_cases hon : o < n
      · exact (hinv.candBit_eq hempty htold x ⟨o, hon⟩).trans
          (hinv.candBit_eq hempty htold y ⟨o, hon⟩).symm
      · exact (hinv.known x c o (Nat.not_lt.mp hon)).trans
          (hinv.known y c o (Nat.not_lt.mp hon)).symm
    refine ⟨hcand, ?_⟩
    rw [(hinv.wf x).winner_eq, (hinv.wf y).winner_eq, hcand]

/-- Two announcers of one namespace among three shards, each told of the other in its own time. -/
def crossing : List (ShardMove 3) :=
  [.observe 0 .announce (some [1]), .observe 2 .announce (some [1]), .push 0 0 1 true,
    .push 0 0 2 true, .push 2 0 0 true, .advance, .apply 0 2 0, .push 2 0 1 true, .advance,
    .apply 2 1 0, .apply 0 1 0, .apply 2 0 0]

/-- The three shards at rest again. -/
def crossed : Shards 3 := (init (Nat.le_of_ble_eq_true rfl) false 4 4).run crossing

theorem shards_converge_crossing :
    3 ≤ shardsMax ∧ (crossed.mgr 0).winner [1] = (crossed.mgr 1).winner [1] := by
  refine ⟨by decide, ?_⟩
  refine ((shards_converge (Nat.le_of_ble_eq_true rfl) false 4 4 crossing).2 ?_ [1] ?_ 0 1).2
  · decide +kernel
  · decide +kernel

end Shards

end MoqRelay
