import MoqRelay.Log.Hole
import MoqRelay.Log.Query

/-!
# Log/Terminal — how a subgroup list ends

A list ends with the upstream FIN or with a reset, and the first terminal of a lifetime wins: no
call but the append that reopens the list changes it (`run_terminal`).

`moqr_log_seal_subgroup` guards the terminal and the group's final by different conditions.  A seal
that comes after a reset keeps the terminal and its code, but resolves the header's end-of-group
promise all the same, so a truncated list can establish the group's final (`closes`).
-/

namespace MoqRelay

/-- How a list ended: by a FIN, or by a reset with its cause. -/
inductive Terminal
  | fin
  | reset (r : ResetDesc)
  deriving DecidableEq, Repr

/-- The terminal of a list, none while its stream is open. -/
def Subgroup.terminal (sg : Subgroup) : Option Terminal :=
  if sg.sealed then some (if sg.sealedReset then .reset sg.reset else .fin) else none

variable {sg sg' : Subgroup} {t : Terminal}

theorem Subgroup.sealed_of_terminal (ht : sg.terminal = some t) : sg.sealed := by
  by_contra h
  simp [Subgroup.terminal, h] at ht

theorem Subgroup.Touch.terminal (h : sg.Touch sg')
    (ht : sg.terminal = some t) : sg'.terminal = some t := by
  have hs := Subgroup.sealed_of_terminal ht
  cases h with
  | tail f => exact ht
  | sealList => simpa [Subgroup.terminal, hs] using ht
  | reset r => rwa [Subgroup.resetWith, if_pos hs]

theorem Subgroup.Touched.terminal (h : sg.Touched sg')
    (ht : sg.terminal = some t) : sg'.terminal = some t := by
  induction h with
  | refl => exact ht
  | tail _ hstep ih => exact hstep.terminal ih

/-- Only an object that reopens the list changes its terminal. -/
theorem Subgroup.Change.terminal {grows : Prop}
    (h : sg.Change grows sg') (hg : ¬ grows) (ht : sg.terminal = some t) :
    sg'.terminal = some t := by
  cases h with
  | touched h => exact h.terminal ht
  | marked => exact ht
  | pushed h => exact absurd h hg

/-- What is known of the group's final object. -/
def Group.final (g : Group) : Option ℕ := if g.hasFinal then some g.finalObjectId else none

/-- Whether a seal of the list resolves its header's end-of-group promise: no object of the list was
refused, the promise says more than what is known of the final, and nothing beyond it is retained.
The terminal the list may already have is not asked for. -/
def Group.closes (g : Group) (sg : Subgroup) : Bool :=
  !sg.incomplete && (sg.endOfGroup ∧ sg.hasRecords ∧
    (!g.hasFinal ∨ sg.lastObjectId < g.finalObjectId)) && !g.retainsBeyond sg.lastObjectId

/-- A seal that closes the group tells more than is known of the final. -/
theorem Group.closes_final_ne {g : Group} (h : g.closes sg) : some sg.lastObjectId ≠ g.final := by
  simp only [Group.closes, Bool.and_eq_true, decide_eq_true_eq] at h
  obtain ⟨⟨-, -, -, hnew⟩, -⟩ := h
  unfold Group.final
  split
  · rename_i hfin
    rcases hnew with hnew | hlt
    · simp [hfin] at hnew
    · simpa using hlt.ne
  · simp

namespace Log

variable {log : Log} {gid sid : ℕ} {t : Terminal}

/-- The terminal of the subgroup's list. -/
def terminalAt (log : Log) (gid sid : ℕ) : Option Terminal :=
  (log.listAt gid sid).bind Subgroup.terminal

/-- The list ended with `t`, or its group is gone. -/
def Ended (log : Log) (gid sid : ℕ) (t : Terminal) : Prop :=
  log.terminalAt gid sid = some t ∨ log.Gone gid

theorem Gone.terminalAt (h : log.Gone gid) : log.terminalAt gid sid = none := by
  rw [Log.terminalAt, listAt, h.1]
  rfl

theorem step_ended (hw : log.Wf) {op : LogOp} (h : log.Ended gid sid t)
    (hop : log.addsTo gid sid op = false) : (log.step op).Ended gid sid t := by
  rcases h with h | hgone
  · obtain ⟨sg, hs, ht⟩ := Option.bind_eq_some_iff.mp h
    refine (step_change hw op hs).imp_left ?_
    rintro ⟨sg', hs', hc⟩
    have ht' := hc.terminal (Bool.eq_false_iff.mp hop) ht
    exact Option.bind_eq_some_iff.mpr ⟨sg', hs', ht'⟩
  · exact .inr ((step_later hw op).goneKept hgone)

/-- **The first terminal of a lifetime wins**: it stays until the list is reopened or its group is
gone. -/
theorem run_ended (hw : log.Wf) (h : log.Ended gid sid t) (ops : List LogOp)
    (hlife : RunAll (fun log op => log.addsTo gid sid op = false) log ops) :
    (log.run ops).Ended gid sid t :=
  (run_induct (I := fun log => log.Wf ∧ log.Ended gid sid t)
    (fun _ op hi hop => ⟨step_wf hi.1 op, step_ended hi.1 hi.2 hop⟩) ops log ⟨hw, h⟩ hlife).2

/-! ## The final a seal establishes -/

/-- Whether a seal of the subgroup closes its group. -/
def closes (log : Log) (gid sid : ℕ) : Bool :=
  (log.groupFind gid).any fun g => (g.listOf sid).any fun p => g.closes p.2

variable {g : Group}

theorem groupFinal_eq (hfind : log.groupFind gid = some g) : log.groupFinal gid = g.final := by
  rw [groupFinal, hfind]
  rfl

theorem groupFinal_modifyGroup (hw : log.Wf) {e : Group → Group}
    (hfind : log.groupFind gid = some g) (hid : (e g).groupId = g.groupId) :
    (log.modifyGroup gid e).groupFinal gid = (e g).final := by
  refine groupFinal_eq ?_
  rw [groupFind_modifyGroup hw.sorted hfind hid, if_pos rfl]

/-- What a seal of an existing list writes: the final and the list when it closes the group, at most
the list otherwise. -/
theorem sealSubgroup_writes {sg : Subgroup} {i : ℕ}
    (hfind : log.groupFind gid = some g) (hl : g.listOf sid = some (i, sg)) :
    if g.closes sg then
      ∃ F, (log.sealSubgroup gid sid).2 = log.modifyGroup gid fun g =>
        { g.modifySg i F with finalObjectId := sg.lastObjectId, hasFinal := true }
    else (log.sealSubgroup gid sid).2 = log ∨
      ∃ F, (log.sealSubgroup gid sid).2 = log.modifyGroup gid (·.modifySg i F) := by
  unfold sealSubgroup Group.closes
  rw [hfind]
  dsimp only
  rw [hl]
  dsimp only
  by_cases hinc : sg.incomplete
  · simp only [hinc, if_true]
    exact .inr ⟨_, rfl⟩
  rw [if_neg hinc]
  by_cases hpromise : sg.endOfGroup ∧ sg.hasRecords ∧
      (!g.hasFinal ∨ sg.lastObjectId < g.finalObjectId)
  · rw [if_pos hpromise]
    by_cases hbeyond : g.retainsBeyond sg.lastObjectId
    · simp only [hbeyond, if_true]
      simp
    · rw [if_neg hbeyond, if_pos (by simp only [hinc, hpromise, hbeyond]; decide)]
      exact ⟨_, rfl⟩
  · have hnot : ¬ (!sg.incomplete && decide (sg.endOfGroup ∧ sg.hasRecords ∧
        (!g.hasFinal ∨ sg.lastObjectId < g.finalObjectId)) &&
        !g.retainsBeyond sg.lastObjectId) := by
      rw [decide_eq_false hpromise, Bool.and_false, Bool.false_and]
      decide
    rw [if_neg hpromise, if_neg hnot]
    exact .inr ⟨_, rfl⟩

/-- A seal keeps the group. -/
theorem sealSubgroup_groupFind (hw : log.Wf) (hfind : log.groupFind gid = some g) :
    (log.sealSubgroup gid sid).2.groupFind gid ≠ none := by
  cases hl : g.listOf sid with
  | none => simp [sealSubgroup, hfind, hl]
  | some p =>
    have hwrites := sealSubgroup_writes hfind hl
    split at hwrites
    · obtain ⟨F, hF⟩ := hwrites
      rw [hF, groupFind_modifyGroup hw.sorted hfind rfl, if_pos rfl]
      exact Option.some_ne_none _
    · rcases hwrites with hsame | ⟨F, hF⟩
      · simp [hsame, hfind]
      · rw [hF, groupFind_modifyGroup hw.sorted hfind rfl, if_pos rfl]
        exact Option.some_ne_none _

/-- **A seal moves the group's final exactly when it closes the group.** -/
theorem sealSubgroup_groupFinal (hw : log.Wf) (gid sid : ℕ) :
    (log.sealSubgroup gid sid).2.groupFinal gid = log.groupFinal gid ↔
      log.closes gid sid = false := by
  cases hf : log.groupFind gid with
  | none => simp [sealSubgroup, closes, hf]
  | some g =>
    cases hl : g.listOf sid with
    | none => simp [sealSubgroup, closes, hf, hl]
    | some p =>
      have hcloses : log.closes gid sid = g.closes p.2 := by
        rw [closes, hf, Option.any_some, hl, Option.any_some]
      rw [hcloses, groupFinal_eq hf]
      have hwrites := sealSubgroup_writes hf hl
      split at hwrites
      · rename_i h
        obtain ⟨F, hF⟩ := hwrites
        have hfin : (log.sealSubgroup gid sid).2.groupFinal gid = some p.2.lastObjectId := by
          rw [hF, groupFinal_modifyGroup hw hf rfl]
          rfl
        simp only [hfin, h, Bool.true_eq_false, iff_false]
        exact Group.closes_final_ne h
      · rename_i h
        refine iff_of_true ?_ (Bool.eq_false_iff.mpr h)
        rcases hwrites with hsame | ⟨F, hF⟩
        · rw [hsame, groupFinal_eq hf]
        · rw [hF, groupFinal_modifyGroup hw hf rfl]
          rfl

/-! ## A seal behind the terminal -/

/-- **A seal behind the terminal keeps the terminal, and keeps the final exactly when the list does
not close its group.**  The list has ended with `t`; whatever is called, as long as no object
reopens it, the terminal and its code stay `t` until the group is gone, also under a further
seal. -/
theorem seal_behind_terminal_iff (log : Log) (hreach : log.Reachable) (gid sid : ℕ) (t : Terminal)
    (hterm : log.terminalAt gid sid = some t) (ops : List LogOp)
    (hlife : RunAll (fun log op => log.addsTo gid sid op = false) log ops) :
    ((log.run ops).terminalAt gid sid = some t ∨ (log.run ops).Gone gid) ∧
      ((log.run ops).step (.sealSubgroup gid sid)).terminalAt gid sid
        = (log.run ops).terminalAt gid sid ∧
      (((log.run ops).step (.sealSubgroup gid sid)).groupFinal gid = (log.run ops).groupFinal gid ↔
        (log.run ops).closes gid sid = false) := by
  have hw := run_wf hreach.wf ops
  have hended := run_ended hreach.wf (.inl hterm) ops hlife
  refine ⟨hended, ?_, sealSubgroup_groupFinal hw gid sid⟩
  rcases hended with hend | hgone
  · -- A seal of a group that is still there finds the list.
    have hsame : ((log.run ops).step (.sealSubgroup gid sid)).Ended gid sid t :=
      step_ended hw (.inl hend) rfl
    rcases hsame with hsame | hgone
    · rw [hsame, hend]
    · obtain ⟨sg, hs, -⟩ := Option.bind_eq_some_iff.mp hend
      obtain ⟨g, hg, -⟩ := Option.bind_eq_some_iff.mp hs
      exact absurd hgone.1 (sealSubgroup_groupFind hw hg)
  · have hstep := (step_later hw (.sealSubgroup gid sid)).goneKept hgone
    rw [hstep.terminalAt, hgone.terminalAt]

/-- A complete object whose subgroup header promised the end of the group. -/
def promiseDesc : AppendDesc := { payloadDesc 1 3 with endOfGroup := true }

/-- The log after an object with the promise, and a reset of its list. -/
def truncatedLog : Log :=
  smallLog.run [.append promiseDesc ⟨true, true, true⟩, .resetSubgroup 1 0 evictedCause]

theorem truncatedLog_reachable : truncatedLog.Reachable := smallLog_reachable _

theorem seal_behind_reset_small :
    (truncatedLog.step (.noteGap 1 0)).terminalAt 1 0 = some (.reset evictedCause) ∧
      ((truncatedLog.run [.noteGap 1 0]).step (.sealSubgroup 1 0)).terminalAt 1 0
        = (truncatedLog.run [.noteGap 1 0]).terminalAt 1 0 ∧
      ((truncatedLog.run [.noteGap 1 0]).step (.sealSubgroup 1 0)).groupFinal 1
        = (truncatedLog.run [.noteGap 1 0]).groupFinal 1 := by
  have hdata : truncatedLog.terminalAt 1 0 = some (.reset evictedCause) ∧
      truncatedLog.addsTo 1 0 (.noteGap 1 0) = false ∧
      (truncatedLog.run [.noteGap 1 0]).closes 1 0 = false ∧
      (truncatedLog.step (.noteGap 1 0)).terminalAt 1 0 = some (.reset evictedCause) := by
    decide +kernel
  obtain ⟨hterm, hadds, hcloses, hstays⟩ := hdata
  obtain ⟨-, hkept, hfinal⟩ := seal_behind_terminal_iff truncatedLog truncatedLog_reachable 1 0 _
    hterm [.noteGap 1 0] ⟨hadds, trivial⟩
  exact ⟨hstays, hkept, hfinal.mpr hcloses⟩

/-- **A list that was reset establishes the group's final.**  The group has none after the reset;
the seal that follows keeps the reset terminal and its code, and sets the final to the last object
that arrived before the truncation. -/
theorem reset_list_sets_final : ∃ log : Log, log.Reachable ∧
    log.terminalAt 1 0 = some (.reset evictedCause) ∧ log.groupFinal 1 = none ∧
    (log.sealSubgroup 1 0).1 = .ok ∧
    (log.sealSubgroup 1 0).2.terminalAt 1 0 = some (.reset evictedCause) ∧
    (log.sealSubgroup 1 0).2.groupFinal 1 = some 0 :=
  ⟨truncatedLog, truncatedLog_reachable, by decide +kernel⟩

end Log

end MoqRelay
