import MoqRelay.Lib.Pool
import MoqRelay.Log.Steps

/-!
# Log/Run — the log as a state machine

`LogOp` are the calls that change a log, with the outcome of every allocation they make; `Log.run`
folds them.  A call is either a sequence of atoms or touches the cursors alone, and every state a
run reaches from `moqr_log_create` satisfies `Log.Wf`.
-/

namespace MoqRelay

open List

/-- A call that changes a log. -/
inductive LogOp
  | append (d : AppendDesc) (mem : AppendMem)
  | openRecord (d : AppendDesc) (mem : AppendMem)
  | appendChunk (gid sid oid : ℕ) (chunk : Option Rcbuf)
  | completeRecord (gid sid oid : ℕ)
  | abandonRecord (gid sid oid : ℕ) (reset : ResetDesc)
  | abandonGroupOpen (gid : ℕ) (reset : ResetDesc)
  | sealSubgroup (gid sid : ℕ)
  | resetSubgroup (gid sid : ℕ) (reset : ResetDesc)
  | noteGap (gid sid : ℕ)
  | noteEvictedBelow (oldestRetained : ℕ)
  | tick (nowUs : ℕ)
  | evictGroups (maxGroups : ℕ)
  | setOpener (gid sid oid conn src : ℕ)
  | cursorOpen (origin : Log.CursorOrigin)
  | cursorClose (h : Handle)
  | cursorNext (h : Handle)
  | cursorPeek (h : Handle)
  | cursorCommit (h : Handle)
  deriving DecidableEq, Repr

/-- Whether a call is one of a cursor. -/
def LogOp.isCursor : LogOp → Bool
  | .cursorOpen _ | .cursorClose _ | .cursorNext _ | .cursorPeek _ | .cursorCommit _ => true
  | _ => false

/-- The handle of a call on an open cursor. -/
def LogOp.handle : LogOp → Option Handle
  | .cursorClose h | .cursorNext h | .cursorPeek h | .cursorCommit h => some h
  | _ => none

/-- Whether a call may admit content. -/
def LogOp.admits : LogOp → Bool
  | .append _ _ | .openRecord _ _ | .appendChunk _ _ _ _ => true
  | _ => false

namespace Log

variable {log log' : Log} {gid sid oid : ℕ}

/-- The log after a call. -/
def step (log : Log) : LogOp → Log
  | .append d mem => (log.append d mem).2
  | .openRecord d mem => (log.openRecord d mem).2
  | .appendChunk gid sid oid chunk => (log.appendChunk gid sid oid chunk).2
  | .completeRecord gid sid oid => (log.completeRecord gid sid oid).2
  | .abandonRecord gid sid oid reset => (log.abandonRecord gid sid oid reset).2
  | .abandonGroupOpen gid reset => (log.abandonGroupOpen gid reset).2.2
  | .sealSubgroup gid sid => (log.sealSubgroup gid sid).2
  | .resetSubgroup gid sid reset => (log.resetSubgroup gid sid reset).2
  | .noteGap gid sid => (log.noteGap gid sid).2
  | .noteEvictedBelow n => (log.noteEvictedBelow n).2
  | .tick nowUs => (log.tick nowUs).2
  | .evictGroups n => (log.evictGroups n).2
  | .setOpener gid sid oid conn src => (log.setOpener gid sid oid conn src).2
  | .cursorOpen origin => (log.cursorOpen origin).2.2
  | .cursorClose h => (log.cursorClose h).2
  | .cursorNext h => (log.cursorNext h).2
  | .cursorPeek h => (log.cursorPeek h).2
  | .cursorCommit h => (log.cursorCommit h).2

/-- The log after a sequence of calls. -/
def run (log : Log) (ops : List LogOp) : Log := ops.foldl step log

/-- Every call of a run meets `P` in the state it is made in. -/
def RunAll (P : Log → LogOp → Prop) : Log → List LogOp → Prop
  | _, [] => True
  | log, op :: ops => P log op ∧ RunAll P (log.step op) ops

variable {P : Log → LogOp → Prop}

/-- **Run rule**: what every call that meets `P` preserves holds after a run of such calls. -/
theorem run_induct {I : Log → Prop} (hstep : ∀ log op, I log → P log op → I (log.step op)) :
    ∀ ops log, I log → RunAll P log ops → I (log.run ops)
  | [], _, hi, _ => hi
  | op :: ops, log, hi, hall => run_induct hstep ops _ (hstep log op hi hall.1) hall.2

theorem RunAll.of_forall (h : ∀ log op, P log op) : ∀ ops log, RunAll P log ops
  | [], _ => trivial
  | op :: ops, log => ⟨h log op, RunAll.of_forall h ops _⟩

instance RunAll.decidable {P : Log → LogOp → Prop} [∀ log op, Decidable (P log op)] :
    ∀ ops log, Decidable (RunAll P log ops)
  | [], _ => .isTrue trivial
  | op :: ops, log =>
    have := RunAll.decidable (P := P) ops (log.step op)
    inferInstanceAs (Decidable (P log op ∧ RunAll P (log.step op) ops))

/-! ## Cursor calls -/

/-- `log'` is `log` but for its cursors. -/
def OnlyCursors (log log' : Log) : Prop :=
  ∃ cursors count, log' = { log with cursors := cursors, cursorCount := count }

variable {slot : ℕ} {h : Handle} {c : CursorSlot} {op : LogOp}

/-- Writing a cursor slot moves the live count by that slot's parity. -/
theorem liveCursors_setCursor (hslot : slot < log.lim.maxCursors) (c : CursorSlot) :
    (log.setCursor slot c).liveCursors + (log.cursors slot).generation % 2
      = log.liveCursors + c.generation % 2 := by
  have := countP_range_update (fun c : CursorSlot => decide (c.generation % 2 ≠ 0)) log.cursors
    hslot c
  have hbit : ∀ n : ℕ, (decide (n % 2 ≠ 0)).toNat = n % 2 := fun n => by
    rcases Nat.mod_two_eq_zero_or_one n with h | h <;> simp [h]
  rwa [hbit, hbit] at this

/-- What `cursor_resolve` found. -/
theorem cursorResolve_eq_some (hc : log.cursorResolve h = some c) :
    h.slot < log.lim.maxCursors ∧ log.cursors h.slot = c ∧ c.generation = h.generation ∧
      h.generation % 2 = 1 := by
  unfold cursorResolve at hc
  split_ifs at hc with h1 h2 h3
  simp only [not_or, ne_eq, not_not] at h1 h3
  cases hc
  exact ⟨by omega, rfl, h3, by omega⟩

/-- **What a call of a cursor does**: nothing, or it writes a free slot or that of its handle, and
the count follows the slot's parity. -/
inductive CursorWrite (log : Log) (op : LogOp) : Log → Prop
  | same : CursorWrite log op log
  | write {slot : ℕ} (count : ℕ) {c : CursorSlot} (hslot : slot < log.lim.maxCursors)
      (hcount : count + (log.cursors slot).generation % 2 = log.cursorCount + c.generation % 2)
      (hown : (log.cursors slot).generation % 2 = 0 ∨
        ∃ h, op.handle = some h ∧ (log.cursorResolve h).isSome ∧ h.slot = slot) :
      CursorWrite log op { log.setCursor slot c with cursorCount := count }

/-- Moving a live cursor keeps the live count. -/
theorem CursorWrite.move {c' : CursorSlot} (hc : log.cursorResolve h = some c)
    (hop : op.handle = some h) (hg : c'.generation = c.generation) :
    CursorWrite log op (log.setCursor h.slot c') := by
  obtain ⟨hslot, hcur, -, -⟩ := cursorResolve_eq_some hc
  exact .write log.cursorCount hslot (by rw [hcur, hg])
    (.inr ⟨h, hop, by rw [hc]; rfl, rfl⟩)

theorem CursorWrite.only (h : CursorWrite log op log') : OnlyCursors log log' := by
  cases h with
  | same | write => exact ⟨_, _, rfl⟩

theorem CursorWrite.wf (h : CursorWrite log op log') (hw : log.Wf) : log'.Wf := by
  cases h with
  | same => exact hw
  | @write slot count c hslot hcount =>
    have hlive := liveCursors_setCursor hslot c
    have hcur := hw.cursors
    exact { hw with cursors := show count = (log.setCursor slot c).liveCursors by omega }

theorem cursorOpen_write (log : Log) (origin : CursorOrigin) :
    CursorWrite log op (log.cursorOpen origin).2.2 := by
  unfold cursorOpen
  cases hs : log.cursorFreeSlot with
  | none => exact .same
  | some slot =>
    have hfree := find?_some hs
    have hslot := mem_range.mp (mem_of_find?_eq_some hs)
    simp only [decide_eq_true_eq] at hfree
    dsimp only
    split
    · exact .write log.cursorCount hslot (by dsimp only; omega) (.inl hfree.1)
    · exact .write _ hslot (by dsimp only; omega) (.inl hfree.1)

theorem cursorClose_write (hw : log.Wf) (h : Handle) :
    CursorWrite log (.cursorClose h) (log.cursorClose h).2 := by
  unfold cursorClose
  cases hc : log.cursorResolve h with
  | none => exact .same
  | some c =>
    obtain ⟨hslot, hcur, hgen, hodd⟩ := cursorResolve_eq_some hc
    -- A live cursor is counted, so the decrement does not truncate.
    have hpos : 1 ≤ log.liveCursors := countP_pos_iff.mpr
      ⟨h.slot, mem_range.mpr hslot, by simp [hcur, hgen, hodd]⟩
    have hcount := hw.cursors
    refine .write _ hslot ?_ (.inr ⟨h, rfl, by rw [hc]; rfl, rfl⟩)
    rw [hcur]
    dsimp only
    omega

theorem cursorNext_write (log : Log) (h : Handle) :
    CursorWrite log (.cursorNext h) (log.cursorNext h).2 := by
  unfold cursorNext
  cases hc : log.cursorResolve h with
  | none => exact .same
  | some c =>
    dsimp only
    split
    · split
      · exact .same
      · exact .move hc rfl rfl
    · exact .move hc rfl rfl

theorem cursorPeek_write (log : Log) (h : Handle) :
    CursorWrite log (.cursorPeek h) (log.cursorPeek h).2 := by
  unfold cursorPeek
  cases hc : log.cursorResolve h with
  | none => exact .same
  | some c =>
    dsimp only
    split
    · exact .same
    · split
      · split
        · exact .same
        · exact .move hc rfl rfl
      · exact .move hc rfl rfl

theorem cursorCommit_write (log : Log) (h : Handle) :
    CursorWrite log (.cursorCommit h) (log.cursorCommit h).2 := by
  unfold cursorCommit
  cases hc : log.cursorResolve h with
  | none => exact .same
  | some c =>
    dsimp only
    split
    · exact .same
    · exact .move hc rfl rfl

theorem step_cursorWrite (hw : log.Wf) (hop : op.isCursor) : CursorWrite log op (log.step op) := by
  cases op <;> simp only [LogOp.isCursor, Bool.false_eq_true] at hop
  case cursorOpen origin => exact cursorOpen_write log origin
  case cursorClose h => exact cursorClose_write hw h
  case cursorNext h => exact cursorNext_write log h
  case cursorPeek h => exact cursorPeek_write log h
  case cursorCommit h => exact cursorCommit_write log h

/-! ## Runs -/

/-- A call of a cursor touches the cursors alone. -/
theorem step_cursor (hw : log.Wf) (hop : op.isCursor) : OnlyCursors log (log.step op) :=
  (step_cursorWrite hw hop).only

/-- A call that admits no content, and is not of a cursor or a note, tends lists only. -/
theorem step_tended (log : Log) (hc : op.isCursor = false) (ha : op.admits = false) :
    Tendeds log (log.step op) ∨ ∃ gid sid, op = .noteGap gid sid := by
  cases op <;> simp only [LogOp.isCursor, LogOp.admits, Bool.true_eq_false] at hc ha
  case completeRecord => exact .inl (completeRecord_tended ..)
  case abandonRecord => exact .inl (abandonRecord_tended ..)
  case abandonGroupOpen => exact .inl (abandonGroupOpen_tended ..)
  case sealSubgroup => exact .inl (sealSubgroup_tended ..)
  case resetSubgroup => exact .inl (resetSubgroup_tended ..)
  case noteGap => exact .inr ⟨_, _, rfl⟩
  case noteEvictedBelow => exact .inl (noteEvictedBelow_tended ..)
  case tick nowUs => exact .inl (tick_rooms 0 log nowUs).tended
  case evictGroups n => exact .inl (evictGroups_rooms 0 log n).tended
  case setOpener => exact .inl (setOpener_tended ..)

theorem step_quiets (hc : op.isCursor = false) (ha : op.admits = false) :
    Quiets log (log.step op) := by
  rcases step_tended log hc ha with h | ⟨gid, sid, rfl⟩
  · exact h.quiets
  · exact noteGap_quiets log gid sid

/-- **Every call that is not of a cursor is a sequence of atoms.** -/
theorem step_atoms (hw : log.Wf) (hc : op.isCursor = false) : Atoms log (log.step op) := by
  cases ha : op.admits with
  | false => exact (step_quiets hc ha).atoms
  | true =>
    cases op <;> simp only [LogOp.admits, Bool.false_eq_true] at ha
    case append d mem => exact (append_spec hw d mem).atoms
    case openRecord d mem => exact (openRecord_spec hw d mem).atoms
    case appendChunk gid sid oid chunk => exact (appendChunk_spec hw gid sid oid chunk).atoms

theorem step_wf (hw : log.Wf) (op : LogOp) : (log.step op).Wf := by
  cases hc : op.isCursor with
  | false => exact (step_atoms hw hc).wf hw
  | true => exact (step_cursorWrite hw hc).wf hw

theorem run_wf (hw : log.Wf) (ops : List LogOp) : (log.run ops).Wf :=
  run_induct (P := fun _ _ => True) (I := Log.Wf) (fun _ op h _ => step_wf h op) ops log hw
    (.of_forall (fun _ _ => trivial) ops log)

/-- **The states of a log**: what a run reaches from a successful `moqr_log_create`. -/
def Reachable (log : Log) : Prop :=
  ∃ cfg mem log₀ ops, create cfg mem = .ok log₀ ∧ log₀.run ops = log

theorem create_wf {cfg : LogCfg} {mem : Bool} (h : create cfg mem = .ok log) : log.Wf := by
  obtain ⟨lim, hlim, rfl⟩ := create_eq_ok h
  exact Wf.fresh hlim

theorem Reachable.wf (h : Reachable log) : log.Wf := by
  obtain ⟨cfg, mem, log₀, ops, hc, rfl⟩ := h
  exact run_wf (create_wf hc) ops

/-! ## A small log -/

theorem one_le_u64Max : 1 ≤ u64Max := by decide

/-- A buffer of `n` zero bytes. -/
def zeroBuf (n : UInt64) : Rcbuf := ⟨replicate n.toNat 0, n, length_replicate⟩

/-- A complete object with a payload, opening its own group. -/
def payloadDesc (gid : UInt8) (n : UInt64) : AppendDesc where
  structSize := 104
  groupId := gid.toNat
  subgroupId := 0
  objectId := 0
  publisherPriority := 0
  status := .normal
  datagramPref := false
  endOfGroup := false
  payload := some (zeroBuf n)
  properties := none
  nowUs := 0
  objState := .complete
  declaredLen := 0
  firstObject := false
  subgroupProperties := false
  propertiesCodec := 0
  group_le := gid.toNat_lt.le.trans (by decide)
  object_le := Nat.zero_le _

/-- An object that arrives in chunks. -/
def openDesc (gid : UInt8) (n : UInt64) : AppendDesc :=
  { payloadDesc gid 0 with payload := none, objState := .open, declaredLen := n }

/-- A small configuration. -/
def smallCfg : LogCfg := ⟨56, true, 4, 1024, 0, 4, 8, 2, 4⟩

/-- The log `moqr_log_create` makes of it. -/
def smallLog : Log := Log.fresh ⟨4, 1024, 0, 4, 8, 4096, 2, 4, 16⟩

theorem smallLog_reachable (ops : List LogOp) : (smallLog.run ops).Reachable :=
  ⟨smallCfg, true, smallLog, ops, rfl, rfl⟩

/-- Group 1 with two subgroup lists and a datagram, and the end of group 2. -/
def mixedOps : List LogOp :=
  [.append (payloadDesc 1 3) ⟨true, true, true⟩,
    .append { payloadDesc 1 2 with subgroupId := 1, objectId := 4, object_le := by decide }
      ⟨true, true, true⟩,
    .append { payloadDesc 1 1 with datagramPref := true, objectId := 5, object_le := by decide }
      ⟨true, true, true⟩,
    .append { payloadDesc 2 0 with status := .endOfGroup, payload := none } ⟨true, true, true⟩]

/-- The log with these objects. -/
def mixedLog : Log := smallLog.run mixedOps

theorem mixedLog_reachable : mixedLog.Reachable := smallLog_reachable _

end Log

end MoqRelay
