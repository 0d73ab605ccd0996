import MoqRelay.Log.Later

/-!
# Log/Journal — the journal names records by position, and never the wrong one

The journal stores a group id, a list and an index, not a pointer.  In every reachable state a slot
of the window resolves in bounds to the one record with its sequence number, or names a group that
is gone, and from then on it never resolves again.
-/

namespace MoqRelay

open List

/-- The slot's list exists in the group, and its index lies inside the list. -/
def Group.InBounds (g : Group) (js : JSlot) : Prop :=
  match js.list with
  | .datagram => js.recIndex < g.dg.recs.length
  | .subgroup i => i < g.sgs.length ∧ ∀ sg, g.sgs[i]? = some sg → js.recIndex < sg.v.recs.length

theorem Group.inBounds_of_recAt? {g : Group} {js : JSlot} {r : Rec}
    (h : g.recAt? js.list js.recIndex = some r) : g.InBounds js := by
  unfold InBounds
  cases hl : js.list with
  | datagram =>
    rw [hl] at h
    exact (List.getElem?_eq_some_iff.mp (by simpa [recAt?, list?] using h)).1
  | subgroup i =>
    rw [hl] at h
    cases hi : g.sgs[i]? with
    | none => simp [recAt?, list?, hi] at h
    | some sg =>
      refine ⟨(List.getElem?_eq_some_iff.mp hi).1, fun sg' hsg' => ?_⟩
      cases hi.symm.trans hsg'
      exact (List.getElem?_eq_some_iff.mp (by simpa [recAt?, list?, hi] using h)).1

namespace Log

variable {log log' : Log} {q : ℕ} {r : Rec}

/-- A record with this arrival sequence number is retained. -/
def Retains (log : Log) (q : ℕ) : Prop := ∃ r ∈ log.allRecs, r.arrivalSeq = q

/-! ## Slots and records -/

section

variable (hw : log.Wf)
include hw

/-- A slot whose group is retained resolves to the record with its sequence number. -/
theorem Wf.jslotResolve_of_retained (h1 : log.beginSeq ≤ q) (h2 : q < log.nextSeq)
    (h : log.jslotRetained q) :
    ∃ g r, log.groupFind (log.slotOf q).groupId = some g ∧
      g.recAt? (log.slotOf q).list (log.slotOf q).recIndex = some r ∧ r.arrivalSeq = q ∧
      log.jslotResolve q = some r := by
  obtain ⟨g, hg⟩ := Option.isSome_iff_exists.mp h
  obtain ⟨hmem, hid⟩ := (groupFind_eq_some_iff hw.sorted).mp hg
  obtain ⟨r, hr, hseq⟩ := Option.map_eq_some_iff.mp (hw.recOfSlot q h1 h2 g hmem hid)
  exact ⟨g, r, hg, hr, hseq, by simp [jslotResolve, hg, hr]⟩

/-- Two retained records with one sequence number are one record. -/
theorem Wf.rec_unique {r r' : Rec} (hr : r ∈ log.allRecs) (hr' : r' ∈ log.allRecs)
    (h : r.arrivalSeq = r'.arrivalSeq) : r = r' :=
  inj_on_of_nodup_map hw.seqNodup hr hr' h

theorem mem_allRecs_of_recAt? {gid : ℕ} {g : Group} {s : ListSlot} {i : ℕ}
    (hg : log.groupFind gid = some g) (h : g.recAt? s i = some r) : r ∈ log.allRecs :=
  mem_flatMap.mpr
    ⟨g, ((groupFind_eq_some_iff hw.sorted).mp hg).1, Group.mem_recs_of_recAt? h⟩

/-- **A retained record lies in the window, and its slot resolves to it.** -/
theorem Wf.jslotResolve_of_mem (hr : r ∈ log.allRecs) :
    log.beginSeq ≤ r.arrivalSeq ∧ r.arrivalSeq < log.nextSeq ∧
      log.jslotResolve r.arrivalSeq = some r := by
  obtain ⟨g, hg, hrg⟩ := mem_flatMap.mp hr
  obtain ⟨s, i, hs⟩ := g.exists_recAt?_of_mem hrg
  obtain ⟨h1, h2, hslot⟩ := hw.slotOfRec g hg s i r.arrivalSeq (by simp [Group.seqAt, hs])
  have hf : log.groupFind g.groupId = some g := (groupFind_eq_some_iff hw.sorted).mpr ⟨hg, rfl⟩
  exact ⟨h1, h2, by simp [jslotResolve, hslot, hf, hs]⟩

/-- In the window, a record is retained when its slot's group is. -/
theorem Wf.retains_iff (h1 : log.beginSeq ≤ q) (h2 : q < log.nextSeq) :
    log.Retains q ↔ log.jslotRetained q := by
  constructor
  · rintro ⟨r, hr, rfl⟩
    have hres := (hw.jslotResolve_of_mem hr).2.2
    cases hf : log.groupFind (log.slotOf r.arrivalSeq).groupId with
    | none => simp [jslotResolve, hf] at hres
    | some g => simp [jslotRetained, hf]
  · intro h
    obtain ⟨g, r, hg, hr, hseq, -⟩ := hw.jslotResolve_of_retained h1 h2 h
    exact ⟨r, mem_allRecs_of_recAt? hw hg hr, hseq⟩

theorem Wf.retains_window (h : log.Retains q) : log.beginSeq ≤ q ∧ q < log.nextSeq := by
  obtain ⟨r, hr, rfl⟩ := h
  exact ⟨(hw.jslotResolve_of_mem hr).1, (hw.jslotResolve_of_mem hr).2.1⟩

end

/-! ## Records over time -/

/-- A record leaves only with its group, which is then below the horizon. -/
theorem Later.evicted_of_retains (h : Later log log') (hw : log.Wf) (hw' : log'.Wf)
    (hr : log.Retains q) (hn : ¬ log'.Retains q) :
    log'.groupFind (log.slotOf q).groupId = none ∧
      log'.belowHorizon (log.slotOf q).groupId := by
  obtain ⟨h1, h2⟩ := hw.retains_window hr
  have hsome : (log.groupFind (log.slotOf q).groupId).isSome := (hw.retains_iff h1 h2).mp hr
  have hnone : log'.groupFind (log.slotOf q).groupId = none := by
    by_cases hlt : q < log'.beginSeq
    · exact h.passed q h1 hlt h2
    · have hb := Nat.le_of_not_lt hlt
      rw [hw'.retains_iff hb (h2.trans_le h.next_le), jslotRetained, h.slot q hb h2] at hn
      simpa using hn
  exact ⟨hnone, h.evicted _ hsome hnone⟩

/-- **The journal resolves soundly and completely in every reachable state**, and a group that is
gone is never activated again, so that no slot of it ever resolves to a record of a later group. -/
theorem journal_sound (log : Log) (h : log.Reachable) :
    (∀ q, log.beginSeq ≤ q → q < log.nextSeq →
      log.groupFind (log.slotOf q).groupId = none ∨
      ∃ g r, log.groupFind (log.slotOf q).groupId = some g ∧ g.InBounds (log.slotOf q) ∧
        log.jslotResolve q = some r ∧ r ∈ log.allRecs ∧ r.arrivalSeq = q ∧
        ∀ r' ∈ log.allRecs, r'.arrivalSeq = q → r' = r) ∧
    (∀ r ∈ log.allRecs, log.beginSeq ≤ r.arrivalSeq ∧ r.arrivalSeq < log.nextSeq ∧
      log.jslotResolve r.arrivalSeq = some r) ∧
    (∀ gid ops, log.belowHorizon gid → log.groupFind gid = none →
      (log.run ops).groupFind gid = none) ∧
    ∀ q ops, log.beginSeq ≤ q → q < log.nextSeq →
      log.groupFind (log.slotOf q).groupId = none → (log.run ops).beginSeq ≤ q →
        (log.run ops).jslotResolve q = none := by
  have hw := h.wf
  refine ⟨fun q h1 h2 => ?_, fun r hr => hw.jslotResolve_of_mem hr, fun gid ops hh hf =>
    (run_later hw ops).gone gid hf hh, fun q ops h1 h2 hf hb => ?_⟩
  · cases hf : log.groupFind (log.slotOf q).groupId with
    | none => exact .inl rfl
    | some g =>
      right
      obtain ⟨g', r, hg, hr, hseq, hres⟩ :=
        hw.jslotResolve_of_retained h1 h2 (by simp [jslotRetained, hf])
      cases hf.symm.trans hg
      have hmem := mem_allRecs_of_recAt? hw hg hr
      exact ⟨g, r, rfl, Group.inBounds_of_recAt? hr, hres, hmem, hseq, fun r' hr' h' =>
        hw.rec_unique hr' hmem (h'.trans hseq.symm)⟩
  · have hl := run_later hw ops
    rw [jslotResolve, hl.slot q hb h2, hl.gone _ hf (hw.gone_of_none h1 h2 hf)]
    rfl

theorem journal_sound_mixed : mixedLog.Reachable ∧
    mixedLog.allRecs.map Rec.arrivalSeq = [0, 1, 2, 3] ∧
    ∀ r ∈ mixedLog.allRecs, mixedLog.jslotResolve r.arrivalSeq = some r :=
  ⟨mixedLog_reachable, by decide +kernel, fun r hr =>
    ((journal_sound _ mixedLog_reachable).2.1 r hr).2.2⟩

end Log

end MoqRelay
