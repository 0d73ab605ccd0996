import MoqRelay.Log.Journal

/-!
# Log/Reader — what one open cursor sees, over any interleaving

A `Watch` records what the reader of one cursor has observed: the record its last peek showed, the
records it consumed, and the sequence numbers its skip reports covered.  It is computed from the
outputs of the calls alone.  `Follows` ties it to the cursor slot, every call keeps `Follows`, and
the guarantees of the reader are read off it.
-/

namespace MoqRelay

open List

namespace Log

variable {log log' : Log} {h : Handle} {c : CursorSlot} {q : ℕ}

/-! ## The history of a sequence number -/

theorem Room.nextSeq {gid : ℕ} (hr : Room gid log log') : log'.nextSeq = log.nextSeq := by
  cases hr <;> rfl

theorem Quiet.nextSeq (hq : Quiet log log') : log'.nextSeq = log.nextSeq := by
  cases hq with
  | room hr => exact hr.nextSeq
  | hole gid sid =>
    unfold addHole
    split <;> rfl
  | _ => rfl

theorem Quiets.nextSeq (hq : Quiets log log') : log'.nextSeq = log.nextSeq := by
  induction hq with
  | refl => rfl
  | tail _ hs ih => exact hs.nextSeq.trans ih

/-- A commit takes the next sequence number, and its record is retained. -/
theorem commit_nextSeq {g : Group} {d : AppendDesc} {mem : AppendMem} (hw : log.Wf)
    (hready : log.Ready g d) (hc : log.commit g d mem = some log') :
    log'.nextSeq = log.nextSeq + 1 ∧ log'.Retains log.nextSeq := by
  obtain ⟨f, s, n, r, hcom⟩ := hready.committed hw hc
  have hr := (hcom.allRecs hw hready.find).mem_iff.mpr mem_cons_self
  obtain ⟨holes, rfl⟩ := hcom.eq
  exact ⟨rfl, r, hr, hcom.record.1⟩

/-- **A call appends at most one record**, which is retained when it returns. -/
theorem step_nextSeq (hw : log.Wf) (op : LogOp) : (log.step op).nextSeq = log.nextSeq ∨
    (log.step op).nextSeq = log.nextSeq + 1 ∧ (log.step op).Retains log.nextSeq := by
  have happ : ∀ {d mem out}, Appended log d mem out → out.2.nextSeq = log.nextSeq ∨
      out.2.nextSeq = log.nextSeq + 1 ∧ out.2.Retains log.nextSeq := by
    intro d mem out hap
    cases hap with
    | refused _ ht _ => exact .inl ht.rooms.quiets.nextSeq
    | committed ht₀ _ ht₁ hready hc =>
      have hrooms := Trims.rooms (ht₀.trans ht₁)
      have hnext := hrooms.quiets.nextSeq
      obtain ⟨h1, h2⟩ := commit_nextSeq (hrooms.wf hw) hready hc
      rw [hnext] at h1 h2
      exact .inr ⟨h1, h2⟩
  cases hc : op.isCursor with
  | true =>
    obtain ⟨cur, n, he⟩ := step_cursor hw hc
    exact .inl (by rw [he])
  | false =>
    cases ha : op.admits with
    | false => exact .inl (step_quiets hc ha).nextSeq
    | true =>
      cases op <;> simp only [LogOp.admits, Bool.false_eq_true] at ha
      case append d mem => exact happ (append_spec hw d mem)
      case openRecord d mem => exact happ (openRecord_spec hw d mem)
      case appendChunk gid sid oid chunk =>
        left
        have hch := appendChunk_spec hw gid sid oid chunk
        change (log.appendChunk gid sid oid chunk).2.nextSeq = _
        generalize log.appendChunk gid sid oid chunk = out at hch
        cases hch with
        | refused _ hr => exact hr.quiets.nextSeq
        | empty _ => rfl
        | linked hr _ _ _ _ hcom =>
          rw [← hr.quiets.nextSeq]
          obtain ⟨node, pool, -, rfl⟩ := commitChunk_eq hcom
          rfl

theorem run_append (log : Log) (xs ys : List LogOp) : log.run (xs ++ ys) = (log.run xs).run ys :=
  foldl_append

/-- Every sequence number handed out was a retained record's in some earlier state. -/
theorem Reachable.appended (hr : log.Reachable) (hq : q < log.nextSeq) :
    ∃ log₁ ops, Reachable log₁ ∧ log₁.run ops = log ∧ log₁.Retains q := by
  obtain ⟨cfg, ok, log₀, ops, hc, rfl⟩ := hr
  induction ops using reverseRecOn with
  | nil =>
    obtain ⟨lim, -, rfl⟩ := create_eq_ok hc
    exact absurd hq (Nat.not_lt_zero q)
  | append_singleton ops op ih =>
    have hreach : ∀ ops, (log₀.run ops).Reachable := fun ops => ⟨cfg, ok, log₀, ops, hc, rfl⟩
    rw [run_append] at hq ⊢
    by_cases hlt : q < (log₀.run ops).nextSeq
    · obtain ⟨log₁, ops₁, h1, h2, h3⟩ := ih hlt
      exact ⟨log₁, ops₁ ++ [op], h1, by rw [run_append, h2], h3⟩
    · refine ⟨(log₀.run ops).run [op], [], ?_, rfl, ?_⟩
      · rw [← run_append]
        exact hreach _
      · change q < ((log₀.run ops).step op).nextSeq at hq
        rcases step_nextSeq (hreach ops).wf op with he | ⟨he, hret⟩
        · omega
        · obtain rfl : (log₀.run ops).nextSeq = q := by omega
          exact hret

/-- The record with this sequence number **was removed by eviction**: it was retained in an earlier
state, its group is gone, and the group's id lies below the horizon. -/
def Removed (log : Log) (q : ℕ) : Prop :=
  ¬ log.Retains q ∧ ∃ log₁ ops, Reachable log₁ ∧ log₁.run ops = log ∧ log₁.Retains q ∧
    log.groupFind (log₁.slotOf q).groupId = none ∧
    log.belowHorizon (log₁.slotOf q).groupId

theorem Reachable.removed (hr : log.Reachable) (hq : q < log.nextSeq) (hn : ¬ log.Retains q) :
    log.Removed q := by
  obtain ⟨log₁, ops, h1, rfl, h3⟩ := hr.appended hq
  have hw := h1.wf
  obtain ⟨hf, hh⟩ := (run_later hw ops).evicted_of_retains hw (run_wf hw ops) h3 hn
  exact ⟨hn, log₁, ops, h1, rfl, h3, hf, hh⟩

/-! ## The scan -/

theorem scanFrom_spec (log : Log) : ∀ n sk q, q ≤ (log.scanFrom n sk q).2 ∧
    (log.scanFrom n sk q).2 ≤ q + n ∧
    (∀ p, q ≤ p → p < (log.scanFrom n sk q).2 → log.jslotRetained p = false) ∧
    ((log.scanFrom n sk q).2 < q + n → log.jslotRetained (log.scanFrom n sk q).2) ∧
    ((log.scanFrom n sk q).1 ↔ sk ∨ q < (log.scanFrom n sk q).2)
  | 0, sk, q => by
      simp only [scanFrom]
      exact ⟨le_rfl, le_rfl, fun p h1 h2 => by omega, fun h => by omega, by simp⟩
  | n + 1, sk, q => by
      unfold scanFrom
      split
      · rename_i hret
        exact ⟨le_rfl, by simp, fun p h1 h2 => absurd h2 (by exact h1.not_gt), fun _ => hret,
          by simp⟩
      · rename_i hret
        obtain ⟨h1, h2, h3, h4, h5⟩ := scanFrom_spec log n true (q + 1)
        refine ⟨by omega, by omega, fun p hp hlt => ?_, fun hlt => h4 (by omega), ?_⟩
        · rcases hp.eq_or_lt with rfl | hp
          · simpa using hret
          · exact h3 p hp hlt
        · rw [h5]
          simp only [true_or, true_iff]
          exact .inr (by omega)

/-- **The scan passes only removed records**, stops at the first retained one or at the live edge,
and reports a skip exactly when it moved. -/
theorem Wf.scan_spec (hw : log.Wf) (hc : c.seq ≤ log.nextSeq) :
    c.seq ≤ (log.scan c).2 ∧ log.beginSeq ≤ (log.scan c).2 ∧ (log.scan c).2 ≤ log.nextSeq ∧
    (∀ p, c.seq ≤ p → p < (log.scan c).2 → ¬ log.Retains p) ∧
    ((log.scan c).2 < log.nextSeq → log.jslotRetained (log.scan c).2) ∧
    ((log.scan c).1 ↔ c.seq < (log.scan c).2) := by
  have hb := hw.begin_le
  obtain ⟨h1, h2, h3, h4, h5⟩ := log.scanFrom_spec (log.nextSeq - max c.seq log.beginSeq)
    (decide (c.seq < log.beginSeq)) (max c.seq log.beginSeq)
  have hscan : log.scanFrom (log.nextSeq - max c.seq log.beginSeq) (decide (c.seq < log.beginSeq))
      (max c.seq log.beginSeq) = log.scan c := rfl
  rw [hscan] at h1 h2 h3 h4 h5
  refine ⟨by omega, by omega, by omega, fun p hp hlt hret => ?_, fun hlt => h4 (by omega), ?_⟩
  · obtain ⟨hwin, hnext⟩ := hw.retains_window hret
    have := h3 p (by omega) hlt
    rw [(hw.retains_iff hwin hnext).mp hret] at this
    cases this
  · rw [h5, decide_eq_true_eq]
    omega

/-- What a scan found: the record it stopped at, or the live edge. -/
inductive Scanned (log : Log) (c : CursorSlot) : Option Rec → Prop
  | record {r : Rec} (hlt : (log.scan c).2 < log.nextSeq) (hr : r ∈ log.allRecs)
      (hseq : r.arrivalSeq = (log.scan c).2) (hres : log.jslotResolve (log.scan c).2 = some r) :
      Scanned log c (some r)
  | edge (he : (log.scan c).2 = log.nextSeq) : Scanned log c none

theorem Wf.scanned (hw : log.Wf) (hc : c.seq ≤ log.nextSeq) : ∃ out, Scanned log c out := by
  obtain ⟨-, hb, hn, -, hret, -⟩ := hw.scan_spec hc
  rcases hn.eq_or_lt with he | hlt
  · exact ⟨none, .edge he⟩
  · obtain ⟨g, r, hg, hr, hseq, hres⟩ := hw.jslotResolve_of_retained hb hlt (hret hlt)
    exact ⟨some r, .record hlt (mem_allRecs_of_recAt? hw hg hr) hseq hres⟩

/-- The count of skips after a read. -/
def skipsAfter (log : Log) (c : CursorSlot) : ℕ := if (log.scan c).1 then c.skips + 1 else c.skips

variable {out : Option Rec}

/-- **`moqr_log_cursor_next` on an open cursor.** -/
theorem cursorNext_spec (hres : log.cursorResolve h = some c)
    (hs : Scanned log c out) : log.cursorNext h =
      (⟨if out.isSome then .ok else .done, out, (log.scan c).1⟩, log.setCursor h.slot
          { c with
            seq := if out.isSome then (log.scan c).2 + 1 else (log.scan c).2
            peekedSeq := none
            skips := log.skipsAfter c }) := by
  cases hs with
  | record hlt hr hseq hrec => simp [cursorNext, hres, hlt, hrec, hseq, skipsAfter]
  | edge he => simp [cursorNext, hres, he, skipsAfter]

/-- **`moqr_log_cursor_peek` on an open cursor** whose last peek no longer stands. -/
theorem cursorPeek_spec (hres : log.cursorResolve h = some c) (hre : log.repeek c = none)
    (hs : Scanned log c out) : log.cursorPeek h =
      (⟨if out.isSome then .ok else .done, out, (log.scan c).1⟩, log.setCursor h.slot
          { c with
            seq := (log.scan c).2
            peekedSeq := out.map Rec.arrivalSeq
            skips := log.skipsAfter c }) := by
  cases hs with
  | record hlt hr hseq hrec => simp [cursorPeek, hres, hre, hlt, hrec, hseq, skipsAfter]
  | edge he => simp [cursorPeek, hres, hre, he, skipsAfter]

/-! ## The reader's observations -/

/-- The position of an open cursor. -/
def position (log : Log) (h : Handle) : ℕ := ((log.cursorResolve h).map CursorSlot.seq).getD 0

/-- What a read call through the cursor returns. -/
def readOut (log : Log) (h : Handle) : LogOp → Option ReadOut
  | .cursorNext h' => if h' = h then some (log.cursorNext h).1 else none
  | .cursorPeek h' => if h' = h then some (log.cursorPeek h).1 else none
  | _ => none

/-- Where a read ends: the record it returns, or the live edge. -/
def readEnd (log : Log) (out : ReadOut) : ℕ := (out.record.map Rec.arrivalSeq).getD log.nextSeq

/-- The sequence numbers a skip report covers. -/
def covered (log : Log) (h : Handle) (out : ReadOut) : List ℕ :=
  if out.skipped then range' (log.position h) (log.readEnd out - log.position h) else []

/-- What the reader of one cursor has observed. -/
structure Watch where
  /-- the record the last peek showed, until a commit or a next -/
  last : Option Rec
  /-- the sequence numbers consumed, in order -/
  consumed : List ℕ
  /-- the sequence numbers skip reports have covered -/
  reported : List ℕ

/-- A reader that has just opened its cursor. -/
def Watch.start : Watch := ⟨none, [], []⟩

/-- The observations after a call. -/
def watch (h : Handle) (log : Log) (w : Watch) : LogOp → Watch
  | .cursorNext h' =>
    if h' = h then
      let out := (log.cursorNext h).1
      { last := none
        consumed := w.consumed ++ (out.record.map Rec.arrivalSeq).toList
        reported := w.reported ++ log.covered h out }
    else w
  | .cursorPeek h' =>
    if h' = h then
      let out := (log.cursorPeek h).1
      { w with last := out.record, reported := w.reported ++ log.covered h out }
    else w
  | .cursorCommit h' =>
    if h' = h ∧ (log.cursorCommit h).1 = .ok then
      { w with last := none, consumed := w.consumed ++ (w.last.map Rec.arrivalSeq).toList }
    else w
  | _ => w

/-- The log and the observations after a sequence of calls. -/
def observe (h : Handle) : Log → Watch → List LogOp → Log × Watch
  | log, w, [] => (log, w)
  | log, w, op :: ops => observe h (log.step op) (watch h log w op) ops

/-- **The observations agree with the cursor.** -/
structure Follows (h : Handle) (log : Log) (w : Watch) (c : CursorSlot) : Prop where
  reach : log.Reachable
  resolve : log.cursorResolve h = some c
  seq_le : c.seq ≤ log.nextSeq
  peeked : c.peekedSeq = w.last.map Rec.arrivalSeq
  peekedAt : ∀ r, w.last = some r → r.arrivalSeq = c.seq
  last : ∀ r, w.last = some r → ∃ log₁ : Log, log₁.Wf ∧ r ∈ log₁.allRecs ∧ Later log₁ log
  consumed : ∀ q ∈ w.consumed, q < c.seq
  reported : ∀ q ∈ w.reported, q < c.seq
  sorted : w.consumed.Pairwise (· < ·)

section Follows

variable {w : Watch}

theorem Follows.position (hf : Follows h log w c) : log.position h = c.seq := by
  simp [Log.position, hf.resolve]

variable {r : Rec} {c' : CursorSlot} {h' : Handle} {op : LogOp}

/-- A record shown by a peek, in a state that still retains its group, is the one its slot resolves
to. -/
theorem Later.shown {log₁ : Log} (hl : Later log₁ log) (hw₁ : log₁.Wf) (hw : log.Wf)
    (hr : r ∈ log₁.allRecs) (hg : (log.groupFind r.groupId).isSome) :
    log.beginSeq ≤ r.arrivalSeq ∧ ∃ r' ∈ log.allRecs, r.Same r' ∧
      log.jslotResolve r.arrivalSeq = some r' := by
  obtain ⟨g₁, hg₁, hrg⟩ := mem_flatMap.mp hr
  obtain ⟨s, i, hs⟩ := g₁.exists_recAt?_of_mem hrg
  have hid := (hw₁.group g₁ hg₁).owner r hrg
  obtain ⟨g, hgf⟩ := Option.isSome_iff_exists.mp hg
  have hg₁f : log₁.groupFind r.groupId = some g₁ :=
    (groupFind_eq_some_iff hw₁.sorted).mpr ⟨hg₁, hid.symm⟩
  obtain ⟨r', hr', hsame⟩ := hl.keeps _ g₁ g hg₁f hgf s i r hs
  have hmem := mem_allRecs_of_recAt? hw hgf hr'
  obtain ⟨hb, -, hres⟩ := hw.jslotResolve_of_mem hmem
  rw [hsame.arrivalSeq] at hb hres
  exact ⟨hb, r', hmem, hsame, hres⟩

/-- A standing peek resolves to the record with its sequence number. -/
theorem Follows.repeek_eq (hf : Follows h log w c) {r' : Rec} (hre : log.repeek c = some r') :
    r' ∈ log.allRecs ∧ r'.arrivalSeq = c.seq := by
  have hw := hf.reach.wf
  unfold repeek at hre
  rw [hf.peeked] at hre
  cases hl : w.last with
  | none => simp [hl] at hre
  | some r =>
    obtain ⟨log₁, hw₁, hr, hlater⟩ := hf.last r hl
    have hnext := (hw₁.jslotResolve_of_mem hr).2.1.trans_le hlater.next_le
    simp only [hl, Option.map_some] at hre
    split at hre
    · rename_i hb
      have hret : log.jslotRetained r.arrivalSeq := by
        cases hg : log.groupFind (log.slotOf r.arrivalSeq).groupId with
        | none => simp [jslotResolve, hg] at hre
        | some g => simp [jslotRetained, hg]
      obtain ⟨g, x, hg, hx, hseq, hres⟩ := hw.jslotResolve_of_retained hb hnext hret
      cases hre.symm.trans hres
      exact ⟨mem_allRecs_of_recAt? hw hg hx, hseq.trans (hf.peekedAt r hl)⟩
    · cases hre

/-- Writing through the handle and resolving it again. -/
theorem cursorResolve_setCursor (hres : log.cursorResolve h = some c)
    (hg : c'.generation = c.generation) : (log.setCursor h.slot c').cursorResolve h = some c' := by
  have hx := hres
  unfold cursorResolve at hx ⊢
  split_ifs at hx with h1 h2 h3
  obtain ⟨-, -, hgen, -⟩ := cursorResolve_eq_some hres
  simp [h1, h2, setCursor, hg, hgen]

theorem step_reachable (hr : log.Reachable) (op : LogOp) : (log.step op).Reachable := by
  obtain ⟨cfg, ok, log₀, ops, hc, rfl⟩ := hr
  exact ⟨cfg, ok, log₀, ops ++ [op], hc, by rw [run_append]; rfl⟩

theorem Atom.cursors (ha : Atom log log') (hw : log.Wf) : log'.cursors = log.cursors := by
  cases ha with
  | quiet hq =>
    cases hq with
    | room hr => cases hr <;> rfl
    | hole gid sid =>
      unfold addHole
      split <;> rfl
    | _ => rfl
  | commit hready hc =>
    obtain ⟨f, s, n, r, hcom⟩ := hready.committed hw hc
    obtain ⟨holes, rfl⟩ := hcom.eq
    rfl
  | chunk _ _ hc =>
    obtain ⟨node, pool, -, rfl⟩ := commitChunk_eq hc
    rfl

theorem Atoms.cursors (ha : Atoms log log') (hw : log.Wf) : log'.cursors = log.cursors := by
  induction ha with
  | refl => rfl
  | tail hprev hs ih => exact (hs.cursors (Atoms.wf hprev hw)).trans ih

theorem cursorResolve_congr (hl : log'.lim = log.lim)
    (hc : log'.cursors h.slot = log.cursors h.slot) :
    log'.cursorResolve h = log.cursorResolve h := by
  unfold cursorResolve
  rw [hl, hc]

/-- Open handles of one slot are one handle. -/
theorem slot_ne_of_ne (hres : log.cursorResolve h = some c)
    (hres' : log.cursorResolve h' = some c') (hne : h' ≠ h) : h.slot ≠ h'.slot := by
  intro hs
  refine hne ?_
  obtain ⟨-, hc, hg, -⟩ := cursorResolve_eq_some hres
  obtain ⟨-, hc', hg', -⟩ := cursorResolve_eq_some hres'
  unfold cursorResolve at hres hres'
  split_ifs at hres hres' with h1 h2 h3 h4 h5 h6
  simp only [not_or, ne_eq, not_not] at h1 h4
  obtain ⟨pool, tag, gen, slot⟩ := h
  obtain ⟨pool', tag', gen', slot'⟩ := h'
  simp only at hs hc hc' hg hg' h1 h4
  simp only [Handle.mk.injEq]
  exact ⟨h4.1.trans h1.1.symm, h4.2.1.trans h1.2.1.symm,
    by rw [← hg, ← hg', ← hc, ← hc', hs], hs.symm⟩

/-- **A call that is not made through the handle leaves its cursor alone.** -/
theorem cursorResolve_step (hw : log.Wf) (hres : log.cursorResolve h = some c)
    (hne : op.handle ≠ some h) : (log.step op).cursorResolve h = some c := by
  rw [← hres]
  cases hc : op.isCursor with
  | false =>
    have ha := step_atoms hw hc
    exact cursorResolve_congr (ha.later hw).lim (congrFun (ha.cursors hw) _)
  | true =>
    have hwrite := step_cursorWrite hw hc
    generalize log.step op = log' at hwrite
    cases hwrite with
    | same => rfl
    | write _ _ _ hown =>
      refine cursorResolve_congr rfl (Function.update_of_ne ?_ _ _)
      rcases hown with hfree | ⟨h', hop, hsome, rfl⟩
      · obtain ⟨-, hcur, hgen, hodd⟩ := cursorResolve_eq_some hres
        rintro rfl
        rw [hcur] at hfree
        omega
      · obtain ⟨c', hres'⟩ := Option.isSome_iff_exists.mp hsome
        exact slot_ne_of_ne hres hres' fun he => hne (he ▸ hop)

/-! ## One call -/

/-- What one call does to the reader: the observations still agree with the cursor, which moved
forward past nothing retained that was not consumed. -/
def Moves (h : Handle) (log : Log) (w : Watch) (c : CursorSlot) (op : LogOp) : Prop :=
  ∃ c', Follows h (log.step op) (watch h log w op) c' ∧ c.seq ≤ c'.seq ∧
    ∀ q, c.seq ≤ q → q < c'.seq → log.Retains q → q ∈ (watch h log w op).consumed

theorem Follows.other (hf : Follows h log w c) (hne : op.handle ≠ some h) : Moves h log w c op := by
  have hw := hf.reach.wf
  have hl := step_later hw op
  have hwatch : watch h log w op = w := by
    cases op <;> try rfl
    all_goals
      rw [LogOp.handle, ne_eq, Option.some.injEq] at hne
      simp [watch, hne]
  refine ⟨c, ?_, le_rfl, fun q h1 h2 => by omega⟩
  rw [hwatch]
  refine ⟨step_reachable hf.reach op, cursorResolve_step hw hf.resolve hne,
    hf.seq_le.trans hl.next_le, hf.peeked, hf.peekedAt, fun r hr => ?_, hf.consumed, hf.reported,
    hf.sorted⟩
  obtain ⟨log₁, hw₁, hmem, hlater⟩ := hf.last r hr
  exact ⟨log₁, hw₁, hmem, hlater.trans hw₁ hl⟩

variable {out : ReadOut}

/-- A skip report covers the records between the old position and the scan's end. -/
theorem covered_lt {e : ℕ} (he : log.readEnd out ≤ e) : ∀ q ∈ log.covered h out, q < e := by
  intro q hq
  unfold covered at hq
  split at hq
  · have := mem_range'_1.mp hq
    omega
  · cases hq

theorem Scanned.readEnd {out : Option Rec} (hs : Scanned log c out) (rc : Result) (b : Bool) :
    log.readEnd ⟨rc, out, b⟩ = (log.scan c).2 := by
  cases hs with
  | record _ _ hseq _ => simp [Log.readEnd, hseq]
  | edge he => simp [Log.readEnd, he]

section

variable (hf : Follows h log w c)
include hf

/-- A call that writes `c'` through the handle and consumes `x`. -/
theorem Follows.move {v : Watch} {x : Option ℕ} (hstep : log.step op = log.setCursor h.slot c')
    (hwatch : watch h log w op = v) (hgen : c'.generation = c.generation)
    (hge : c.seq ≤ c'.seq) (hle : c'.seq ≤ log.nextSeq)
    (hpeeked : c'.peekedSeq = v.last.map Rec.arrivalSeq)
    (hlast : ∀ r, v.last = some r → r.arrivalSeq = c'.seq ∧ r ∈ log.allRecs)
    (hcons : v.consumed = w.consumed ++ x.toList) (hnew : ∀ q ∈ x, c.seq ≤ q ∧ q < c'.seq)
    (hrep : ∀ q ∈ v.reported, q < c'.seq)
    (hpass : ∀ q, c.seq ≤ q → q < c'.seq → log.Retains q → x = some q) : Moves h log w c op := by
  have hw := hf.reach.wf
  have hl := step_later hw op
  have hreach := step_reachable hf.reach op
  refine ⟨c', ?_, hge, fun q h1 h2 hq => ?_⟩
  · rw [hwatch]
    rw [hstep] at hl hreach ⊢
    refine ⟨hreach, cursorResolve_setCursor hf.resolve hgen, hle, hpeeked,
      fun r hr => (hlast r hr).1, fun r hr => ⟨log, hw, (hlast r hr).2, hl⟩,
      fun q hq => ?_, hrep, ?_⟩
    · rw [hcons, mem_append, Option.mem_toList] at hq
      rcases hq with hq | hq
      · exact (hf.consumed q hq).trans_le hge
      · exact (hnew q hq).2
    · rw [hcons, pairwise_append]
      refine ⟨hf.sorted, by cases x <;> simp, fun a ha b hb => ?_⟩
      exact (hf.consumed a ha).trans_le (hnew b (Option.mem_toList.mp hb)).1
  · rw [hwatch, hcons, hpass q h1 h2 hq]
    simp

theorem Follows.next : Moves h log w c (.cursorNext h) := by
  have hw := hf.reach.wf
  obtain ⟨out, hs⟩ := hw.scanned hf.seq_le
  obtain ⟨hge, -, hle, hpass, -, -⟩ := hw.scan_spec hf.seq_le
  have hspec := cursorNext_spec hf.resolve hs
  have hrep : ∀ e, (log.scan c).2 ≤ e →
      ∀ q ∈ w.reported ++ log.covered h (log.cursorNext h).1, q < e := fun e he q hq => by
    rcases mem_append.mp hq with hq | hq
    · exact (hf.reported q hq).trans_le (hge.trans he)
    · rw [hspec] at hq
      exact covered_lt ((hs.readEnd _ _).trans_le he) q hq
  refine hf.move (x := out.map Rec.arrivalSeq) (congrArg Prod.snd hspec) (if_pos rfl) rfl ?_ ?_ rfl
    (fun r hr => absurd hr (by simp)) (by rw [hspec]) ?_ (hrep _ ?_) ?_
  · dsimp only
    split <;> omega
  · cases hs with
    | record hlt => exact hlt
    | edge he => exact he.le
  · cases hs with
    | record hlt hr hseq _ => simp [hseq, hge]
    | edge he => simp
  · dsimp only
    split <;> omega
  · intro q h1 h2 hq
    cases hs with
    | record hlt hr hseq _ =>
      simp only [Option.isSome_some, if_true] at h2
      have : q = (log.scan c).2 := by_contra fun hne => hpass q h1 (by omega) hq
      simp [this, hseq]
    | edge he => exact absurd hq (hpass q h1 (by simpa using h2))

theorem Follows.commit : Moves h log w c (.cursorCommit h) := by
  cases hl : w.last with
  | none =>
    have hp : c.peekedSeq = none := by rw [hf.peeked, hl]; rfl
    have hstep : log.cursorCommit h = (.wrongState, log) := by
      simp [Log.cursorCommit, hf.resolve, hp]
    have hwatch : watch h log w (.cursorCommit h) = w := by simp [watch, hstep]
    refine ⟨c, ?_, le_rfl, fun q h1 h2 => by omega⟩
    rwa [hwatch, show log.step (.cursorCommit h) = log from congrArg Prod.snd hstep]
  | some r =>
    obtain ⟨log₁, hw₁, hr, hlater⟩ := hf.last r hl
    have hseq := hf.peekedAt r hl
    have hlt := (hw₁.jslotResolve_of_mem hr).2.1.trans_le hlater.next_le
    have hp : c.peekedSeq = some c.seq := by rw [hf.peeked, hl, ← hseq]; rfl
    have hstep : log.cursorCommit h = (.ok, log.setCursor h.slot
        { c with seq := c.seq + 1, peekedSeq := none }) := by
      simp [Log.cursorCommit, hf.resolve, hp]
    refine hf.move (x := some r.arrivalSeq) (v := ⟨none, w.consumed ++ [r.arrivalSeq],
      w.reported⟩) (congrArg Prod.snd hstep) ?_ rfl (Nat.le_succ _) ?_ rfl
      (fun r hr => absurd hr (by simp)) rfl ?_ (fun q hq => Nat.lt_succ_of_lt (hf.reported q hq)) ?_
    · simp [watch, hstep, hl]
    · change c.seq + 1 ≤ _
      omega
    · rintro q hq
      cases hq
      exact ⟨hseq.ge, by dsimp only; omega⟩
    · intro q h1 h2 _
      dsimp only at h2
      exact congrArg some (by omega)

theorem Follows.peek : Moves h log w c (.cursorPeek h) := by
  have hw := hf.reach.wf
  cases hre : log.repeek c with
  | some r =>
    -- The standing peek is shown again: nothing moves.
    obtain ⟨hmem, hseq⟩ := hf.repeek_eq hre
    have hstep : log.cursorPeek h = (⟨.ok, some r, false⟩, log) := by
      simp [Log.cursorPeek, hf.resolve, hre]
    have hwatch : watch h log w (.cursorPeek h) = { w with last := some r } := by
      simp [watch, hstep, covered]
    refine ⟨c, ?_, le_rfl, fun q h1 h2 => by omega⟩
    rw [hwatch, show log.step (.cursorPeek h) = log from congrArg Prod.snd hstep]
    refine ⟨hf.reach, hf.resolve, hf.seq_le, ?_, fun x hx => ?_, fun x hx => ?_, hf.consumed,
      hf.reported, hf.sorted⟩
    · unfold repeek at hre
      cases hp : c.peekedSeq with
      | none => simp [hp] at hre
      | some p =>
        have hlast := hf.peeked
        rw [hp] at hlast
        obtain ⟨x, hx, hxp⟩ := Option.map_eq_some_iff.mp hlast.symm
        simp [hseq, ← hxp, hf.peekedAt x hx]
    · cases hx
      exact hseq
    · cases hx
      exact ⟨log, hw, hmem, .refl log⟩
  | none =>
    obtain ⟨out, hs⟩ := hw.scanned hf.seq_le
    obtain ⟨hge, -, hle, hpass, -, -⟩ := hw.scan_spec hf.seq_le
    have hspec := cursorPeek_spec hf.resolve hre hs
    refine hf.move (x := none) (v := ⟨out, w.consumed, w.reported ++
      log.covered h (log.cursorPeek h).1⟩) (congrArg Prod.snd hspec) ?_ rfl hge hle rfl
      (fun r hr => ?_) (by simp) (by simp) (fun q hq => ?_) (fun q h1 h2 hq =>
        absurd hq (hpass q h1 h2))
    · simp [watch, hspec]
    · cases hs with
      | record _ hmem hseq _ =>
        cases hr
        exact ⟨hseq, hmem⟩
      | edge _ => cases hr
    · rcases mem_append.mp hq with hq | hq
      · exact (hf.reported q hq).trans_le hge
      · rw [hspec] at hq
        exact covered_lt (hs.readEnd _ _).le q hq

/-- **Every call but the close of the handle keeps the observations and the cursor together.** -/
theorem Follows.step (hclose : op ≠ .cursorClose h) : Moves h log w c op := by
  by_cases hop : op.handle = some h
  · cases op <;> cases hop
    · exact absurd rfl hclose
    · exact hf.next
    · exact hf.peek
    · exact hf.commit
  · exact hf.other hop

theorem Follows.run : ∀ ops : List LogOp, (∀ op ∈ ops, op ≠ .cursorClose h) →
    ∃ c', Follows h (observe h log w ops).1 (observe h log w ops).2 c' := by
  intro ops
  induction ops generalizing log w c with
  | nil => exact fun _ => ⟨c, hf⟩
  | cons op ops ih =>
    intro hops
    obtain ⟨c', hf', -, -⟩ := hf.step (hops op (by simp))
    exact ih hf' fun x hx => hops x (by simp [hx])

end

/-! ## The guarantees of a reader -/

/-- The position a cursor opens at. -/
def openingSeq (log : Log) : CursorOrigin → ℕ
  | .fromLive => log.nextSeq
  | .fromOldest => log.beginSeq

theorem Follows.opened (hr : log.Reachable) {origin : CursorOrigin}
    (hopen : log.cursorOpen origin = (.ok, some h, log')) :
    ∃ c, Follows h log' .start c ∧ c.seq = log.openingSeq origin := by
  have hw := hr.wf
  have hreach := step_reachable hr (.cursorOpen origin)
  rw [show log.step (.cursorOpen origin) = log' from congrArg (fun x => x.2.2) hopen] at hreach
  unfold Log.cursorOpen at hopen
  cases hs : log.cursorFreeSlot with
  | none => simp [hs] at hopen
  | some slot =>
    have hslot := mem_range.mp (mem_of_find?_eq_some hs)
    rw [hs] at hopen
    dsimp only at hopen
    split at hopen
    · cases hopen
    · rename_i h' hpack
      obtain ⟨rfl, rfl⟩ := hopen
      unfold handlePack at hpack
      split_ifs at hpack with h1 h2 h3 h4 h5
      cases hpack
      refine ⟨⟨log.openingSeq origin, none, 0, (log.cursors slot).generation + 1⟩,
        ⟨hreach, ?_, ?_, rfl, by simp [Watch.start], by simp [Watch.start],
          by simp [Watch.start], by simp [Watch.start], by simp [Watch.start]⟩, rfl⟩
      · unfold cursorResolve
        rw [if_neg (by simp only [h3, or_false]; decide)]
        cases origin <;> simp [setCursor, openingSeq, hslot]
      · cases origin
        · exact hw.begin_le
        · exact le_rfl

/-- What a read returns, and when it reports a skip. -/
theorem Follows.read (hf : Follows h log w c) (hout : log.readOut h op = some out) :
    (out.rc = .ok ∧ (∃ r ∈ log.allRecs, out.record = some r) ∨
      out.rc = .done ∧ out.record = none) ∧
    (out.skipped ↔ ∃ q, c.seq ≤ q ∧ q < log.readEnd out ∧ log.Removed q ∧
      q ∉ w.reported) := by
  have hw := hf.reach.wf
  obtain ⟨res, hs⟩ := hw.scanned hf.seq_le
  obtain ⟨hge, -, hle, hpass, -, hskip⟩ := hw.scan_spec hf.seq_le
  -- A read scans, or shows the record of the last peek again.
  have hcases : out = ⟨if res.isSome then .ok else .done, res, (log.scan c).1⟩ ∨
      ∃ r, log.repeek c = some r ∧ out = ⟨.ok, some r, false⟩ := by
    cases op <;> simp only [readOut, reduceCtorEq] at hout
    case cursorNext h' =>
      split_ifs at hout
      cases hout
      exact .inl (congrArg Prod.fst (cursorNext_spec hf.resolve hs))
    case cursorPeek h' =>
      split_ifs at hout
      cases hout
      cases hre : log.repeek c with
      | none => exact .inl (congrArg Prod.fst (cursorPeek_spec hf.resolve hre hs))
      | some r => exact .inr ⟨r, rfl, by simp [Log.cursorPeek, hf.resolve, hre]⟩
  rcases hcases with rfl | ⟨r, hre, rfl⟩
  · refine ⟨?_, ?_⟩
    · cases hs with
      | record _ hr _ _ => exact .inl ⟨rfl, _, hr, rfl⟩
      | edge _ => exact .inr ⟨rfl, rfl⟩
    · rw [hs.readEnd, hskip]
      constructor
      · intro hlt
        exact ⟨c.seq, le_rfl, hlt, hf.reach.removed (by omega) (hpass _ le_rfl hlt),
          fun hm => (hf.reported _ hm).false⟩
      · omega
  · obtain ⟨hmem, hseq⟩ := hf.repeek_eq hre
    refine ⟨.inl ⟨rfl, r, hmem, rfl⟩, by simp, ?_⟩
    rintro ⟨q, h1, h2, -⟩
    simp only [readEnd, Option.map_some, Option.getD_some, hseq] at h2
    omega

/-- A peek repeated while the record's group is retained shows the record again. -/
theorem Follows.peek_again (hf : Follows h log w c) (hl : w.last = some r)
    (hg : (log.groupFind r.groupId).isSome) :
    ∃ r', log.cursorPeek h = (⟨.ok, some r', false⟩, log) ∧ r.Same r' := by
  obtain ⟨log₁, hw₁, hr, hlater⟩ := hf.last r hl
  obtain ⟨hb, r', -, hsame, hres⟩ := hlater.shown hw₁ hf.reach.wf hr hg
  have hp : c.peekedSeq = some r.arrivalSeq := by rw [hf.peeked, hl]; rfl
  have hre : log.repeek c = some r' := by simp [repeek, hp, hb, hres]
  exact ⟨r', by simp [Log.cursorPeek, hf.resolve, hre], hsame⟩

/-- **The reader of one open cursor, over any interleaving of calls.**  What it consumes ascends; it
passes no retained record without consuming it; a read returns a retained record or the live edge,
and reports a skip exactly when it passes a removed record that no earlier report covered; a peek
shows the same record until its group is gone. -/
theorem cursor_reads (log₀ : Log) (hr : log₀.Reachable) (origin : CursorOrigin) (h : Handle)
    (log : Log) (hopen : log₀.cursorOpen origin = (.ok, some h, log)) (ops : List LogOp)
    (hops : ∀ op ∈ ops, op ≠ .cursorClose h) (log' : Log) (w : Watch)
    (hobs : observe h log .start ops = (log', w)) :
    log.position h = log₀.openingSeq origin ∧
    w.consumed.Pairwise (· < ·) ∧
    (∀ op, op ≠ .cursorClose h → log'.position h ≤ (log'.step op).position h ∧
      ∀ q, log'.position h ≤ q → q < (log'.step op).position h → log'.Retains q →
        q ∈ (watch h log' w op).consumed) ∧
    (∀ op out, log'.readOut h op = some out →
      (out.rc = .ok ∧ (∃ r ∈ log'.allRecs, out.record = some r) ∨
        out.rc = .done ∧ out.record = none) ∧
      (out.skipped ↔ ∃ q, log'.position h ≤ q ∧ q < log'.readEnd out ∧ log'.Removed q ∧
        q ∉ w.reported)) ∧
    ∀ r, w.last = some r → (log'.groupFind r.groupId).isSome →
      ∃ r', log'.cursorPeek h = (⟨.ok, some r', false⟩, log') ∧ r.Same r' := by
  obtain ⟨c₀, hf₀, hseq⟩ := Follows.opened hr hopen
  obtain ⟨c, hf⟩ := hf₀.run ops hops
  rw [hobs] at hf
  refine ⟨hf₀.position.trans hseq, hf.sorted, fun op hop => ?_, fun op out hout => ?_,
    fun r hl hg => hf.peek_again hl hg⟩
  · obtain ⟨c', hf', hge, hpass⟩ := hf.step hop
    rw [hf.position, hf'.position]
    exact ⟨hge, hpass⟩
  · rw [hf.position]
    exact hf.read hout

/-- The handle of the first cursor of a log. -/
def firstCursor : Handle := ⟨2, 1, 1, 0⟩

/-- Two records appended, one of them peeked and committed. -/
def readOps : List LogOp :=
  [.append (payloadDesc 1 3) ⟨true, true, true⟩, .append (payloadDesc 2 3) ⟨true, true, true⟩,
    .cursorPeek firstCursor, .cursorCommit firstCursor]

theorem cursor_reads_small : ∃ log' w,
    observe firstCursor (smallLog.cursorOpen .fromOldest).2.2 .start readOps = (log', w) ∧
      w.consumed = [0] ∧ ∀ op out, log'.readOut firstCursor op = some out →
        (out.skipped ↔ ∃ q, log'.position firstCursor ≤ q ∧ q < log'.readEnd out ∧
          log'.Removed q ∧ q ∉ w.reported) :=
  ⟨_, _, rfl, by decide +kernel, fun op out hout =>
    ((cursor_reads smallLog (smallLog_reachable []) .fromOldest firstCursor _ rfl readOps
      (by decide) _ _ rfl).2.2.2.1 op out hout).2⟩

end Follows

end Log

end MoqRelay
