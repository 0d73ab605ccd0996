import MoqRelay.Log.Chunk

/-!
# Log/Cursor — arrival-order readers and group-indexed reads

A cursor walks the journal window in arrival order.  `moqr_log_cursor_next` consumes a record at
once; `moqr_log_cursor_peek` shows it and `moqr_log_cursor_commit` consumes it.  Both skip slots
whose group was evicted and report the skip once.
-/

namespace MoqRelay

namespace Log

/-- The cursor slot a handle names: `cursor_resolve`. -/
def cursorResolve (log : Log) (h : Handle) : Option CursorSlot :=
  if h.pool ≠ poolCursor ∨ h.tag ≠ 1 ∨ h.generation % 2 = 0 then none
  else if log.lim.maxCursors ≤ h.slot then none
  else if (log.cursors h.slot).generation ≠ h.generation then none
  else some (log.cursors h.slot)

/-- Write through the pointer to a cursor slot. -/
def setCursor (log : Log) (slot : ℕ) (c : CursorSlot) : Log :=
  { log with cursors := Function.update log.cursors slot c }

/-- `moqr_cursor_origin_t`. -/
inductive CursorOrigin
  | fromOldest | fromLive
  deriving DecidableEq, Repr

section

variable (log : Log)

/-- The first free slot whose next generation still fits a packed handle. -/
def cursorFreeSlot : Option ℕ :=
  (List.range log.lim.maxCursors).find? fun i =>
    (log.cursors i).generation % 2 = 0 ∧ (log.cursors i).generation < 0x0FFFFFFF

/-- `moqr_log_cursor_open`.  A slot past the handle's 16 bits cannot be packed: it is returned to
the free state. -/
def cursorOpen (origin : CursorOrigin) : Result × Option Handle × Log :=
  match log.cursorFreeSlot with
  | none => (.capacity, none, log)
  | some slot =>
    let c : CursorSlot :=
      { seq := match origin with
          | .fromLive => log.nextSeq
          | .fromOldest => log.beginSeq
        peekedSeq := none
        skips := 0
        generation := (log.cursors slot).generation + 1 }
    match handlePack poolCursor 1 c.generation slot with
    | none => (.internal, none, log.setCursor slot { c with generation := c.generation + 1 })
    | some h => (.ok, some h, { log.setCursor slot c with cursorCount := log.cursorCount + 1 })

/-- `moqr_log_cursor_close`. -/
def cursorClose (h : Handle) : Result × Log :=
  match log.cursorResolve h with
  | none => (.staleHandle, log)
  | some c =>
    (.ok, { log.setCursor h.slot { c with generation := c.generation + 1 } with
      cursorCount := log.cursorCount - 1 })

/-! ## Reading -/

/-- `jslot_resolve`: the record a journal slot names, if its group is retained. -/
def jslotResolve (seq : ℕ) : Option Rec :=
  let js := log.slotOf seq
  (log.groupFind js.groupId).bind fun g => g.recAt? js.list js.recIndex

/-- Whether the group a journal slot names is retained. -/
def jslotRetained (seq : ℕ) : Bool := (log.groupFind (log.slotOf seq).groupId).isSome

/-- The scan both readers make: from `seq`, over the next `n` slots, to the first whose group is
retained; `skipped` says that a slot was passed. -/
def scanFrom : ℕ → Bool → ℕ → Bool × ℕ
  | 0, skipped, seq => (skipped, seq)
  | n + 1, skipped, seq =>
    if log.jslotRetained seq then (skipped, seq) else scanFrom n true (seq + 1)

/-- The start of a read: a cursor behind the window resumes at its begin. -/
def scan (c : CursorSlot) : Bool × ℕ :=
  let seq := max c.seq log.beginSeq
  log.scanFrom (log.nextSeq - seq) (c.seq < log.beginSeq) seq

end

/-- What a read reports: the result, the record for `MOQR_OK`, and `out_skipped`. -/
structure ReadOut where
  rc : Result
  record : Option Rec
  skipped : Bool
  deriving DecidableEq, Repr

/-- `moqr_log_cursor_next`. -/
def cursorNext (log : Log) (h : Handle) : ReadOut × Log :=
  match log.cursorResolve h with
  | none => (⟨.staleHandle, none, false⟩, log)
  | some c =>
    let (skipped, seq) := log.scan c
    let skips := if skipped then c.skips + 1 else c.skips
    if seq < log.nextSeq then
      match log.jslotResolve seq with
      | none => (⟨.internal, none, false⟩, log)
      | some r =>
        (⟨.ok, some r, skipped⟩,
          log.setCursor h.slot
            { c with seq := r.arrivalSeq + 1, peekedSeq := none, skips := skips })
    else (⟨.done, none, skipped⟩,
      log.setCursor h.slot { c with seq := seq, peekedSeq := none, skips := skips })

/-- The record an outstanding peek still names. -/
def repeek (log : Log) (c : CursorSlot) : Option Rec :=
  match c.peekedSeq with
  | none => none
  | some p => if log.beginSeq ≤ p then log.jslotResolve p else none

/-- `moqr_log_cursor_peek`. -/
def cursorPeek (log : Log) (h : Handle) : ReadOut × Log :=
  match log.cursorResolve h with
  | none => (⟨.staleHandle, none, false⟩, log)
  | some c =>
    match log.repeek c with
    | some r => (⟨.ok, some r, false⟩, log)
    | none =>
      let (skipped, seq) := log.scan c
      let skips := if skipped then c.skips + 1 else c.skips
      if seq < log.nextSeq then
        match log.jslotResolve seq with
        | none => (⟨.internal, none, false⟩, log)
        | some r =>
          (⟨.ok, some r, skipped⟩,
            log.setCursor h.slot { c with seq := seq, peekedSeq := some seq, skips := skips })
      else (⟨.done, none, skipped⟩,
        log.setCursor h.slot { c with seq := seq, peekedSeq := none, skips := skips })

/-- `moqr_log_cursor_commit`. -/
def cursorCommit (log : Log) (h : Handle) : Result × Log :=
  match log.cursorResolve h with
  | none => (.staleHandle, log)
  | some c =>
    match c.peekedSeq with
    | none => (.wrongState, log)
    | some p => (.ok, log.setCursor h.slot { c with seq := p + 1, peekedSeq := none })

end Log

end MoqRelay
