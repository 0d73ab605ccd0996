import MoqRelay.Log.Run

/-!
# Log/Frame — what an append leaves alone

An append validates, activates its group, evicts for bytes and for the journal window, and commits;
each stage can fail after an earlier one changed the log.  Two facts hold for every outcome.  A call
that reports the descriptor as unacceptable (`INVAL`, `WRONG_STATE`, `TOO_OLD`) was refused before
anything changed.  Any other call removed only groups older than its target, from the oldest end:
there is an id up to the target's such that the other groups afterwards are exactly those from that
id on (`Trimmed`).
-/

namespace MoqRelay

open List

namespace Log

variable {log log' log'' : Log} {gid : ℕ} {g : Group} {d : AppendDesc} {mem : AppendMem}

/-! ## Trimming below a group -/

/-- The groups other than `gid`, from the id `n` on. -/
def othersFrom (log : Log) (gid n : ℕ) : List Group :=
  log.groups.filter fun g => n ≤ g.groupId ∧ g.groupId ≠ gid

/-- `log'` is `log` without some of its oldest groups, all older than `gid`; the group `gid` itself,
when it was there, still has every record in its place. -/
structure Trimmed (gid : ℕ) (log log' : Log) : Prop where
  others : ∃ n ≤ gid, log'.othersFrom gid 0 = log.othersFrom gid n
  target : ∀ g, log.groupFind gid = some g → ∃ g', log'.groupFind gid = some g' ∧
    ∀ s i r, g.recAt? s i = some r → g'.recAt? s i = some r

theorem othersFrom_othersFrom (log : Log) (gid m n : ℕ) :
    (log.othersFrom gid m).filter (fun g => n ≤ g.groupId) = log.othersFrom gid (max m n) := by
  rw [othersFrom, filter_filter]
  refine filter_congr fun g _ => ?_
  rw [← Bool.decide_and, decide_eq_decide, max_le_iff]
  tauto

namespace Trimmed

theorem refl (log : Log) : Trimmed gid log log :=
  ⟨⟨0, Nat.zero_le _, rfl⟩, fun g hg => ⟨g, hg, fun _ _ _ hr => hr⟩⟩

theorem trans (h : Trimmed gid log log') (h' : Trimmed gid log' log'') : Trimmed gid log log'' := by
  obtain ⟨⟨m, hm, hlog⟩, ht⟩ := h
  obtain ⟨⟨n, hn, hlog'⟩, ht'⟩ := h'
  refine ⟨⟨max m n, max_le hm hn, ?_⟩, fun g hg => ?_⟩
  · rw [hlog', ← othersFrom_othersFrom, ← hlog, othersFrom_othersFrom, Nat.zero_max]
  · obtain ⟨g', hg', hr⟩ := ht g hg
    obtain ⟨g'', hg'', hr'⟩ := ht' g' hg'
    exact ⟨g'', hg'', fun s i r h => hr' s i r (hr s i r h)⟩

/-- Evicting an oldest group that is older than `gid`. -/
theorem evict (hw : log.Wf) (hold : ∀ g ∈ log.groups.head?, g.groupId < gid) :
    Trimmed gid log (log.evictGroupAt 0) := by
  cases hgs : log.groups with
  | nil =>
    rw [show log.evictGroupAt 0 = log by simp [evictGroupAt, hgs]]
    exact .refl log
  | cons g rest =>
    have hlt : g.groupId < gid := hold g (by simp [hgs])
    have hs := hgs ▸ hw.sorted
    refine ⟨⟨g.groupId + 1, hlt, ?_⟩, fun x hx => ⟨x, ?_, fun _ _ _ hr => hr⟩⟩
    · rw [othersFrom, othersFrom, evictGroupAt_groups, hgs, filter_cons_of_neg (by simp)]
      refine filter_congr fun x hx => ?_
      have := rel_of_pairwise_cons hs hx
      simp only [decide_eq_decide]
      exact and_congr_left fun _ => iff_of_true (Nat.zero_le _) this
    · rw [groupFind_evictGroupAt hw, hx]
      simp [isOldest, hgs, hlt.ne]

/-- Inserting the group `gid`. -/
theorem activate (hw : log.Wf) (habs : log.groupFind gid = none) (nowUs : ℕ) :
    Trimmed gid log
      { log with groups := log.groups.insertIdx (log.groupIdx gid) (.fresh gid nowUs) } := by
  obtain ⟨l₁, l₂, hgs, hins, -⟩ := insert_split hw.sorted habs nowUs
  refine ⟨⟨0, Nat.zero_le _, ?_⟩, fun g hg => by simp [habs] at hg⟩
  rw [othersFrom, othersFrom, hins, hgs]
  simp [Group.fresh]

/-- Committing a record into the group `gid`. -/
theorem commit (hw : log.Wf) (hready : log.Ready g d) (hc : log.commit g d mem = some log') :
    Trimmed d.groupId log log' := by
  obtain ⟨f, s, n, r, hcom⟩ := hready.committed hw hc
  obtain ⟨holes, rfl⟩ := hcom.eq
  obtain ⟨l₁, l₂, hgs, hid, hmod⟩ := modifyGroup_split hw.sorted hready.find
  refine ⟨⟨0, Nat.zero_le _, ?_⟩, fun x hx => ⟨f g, ?_, fun s' i r' hr => ?_⟩⟩
  · change filter _ (log.modifyGroup d.groupId f).groups = _
    simp [othersFrom, hmod, hgs, hid, hcom.groupId]
  · change (log.modifyGroup d.groupId f).groupFind d.groupId = _
    rw [groupFind_modifyGroup hw.sorted hready.find hcom.groupId, if_pos rfl]
  · cases hready.find.symm.trans hx
    rw [hcom.pushed.recAt, if_neg, hr]
    rintro ⟨rfl, rfl⟩
    simp [hcom.pushed.free] at hr

end Trimmed

theorem Trims.trimmed (h : Trims gid log log') (hw : log.Wf) : Trimmed gid log log' := by
  induction h with
  | refl => exact .refl log
  | tail hprev hstep ih =>
    have hw' := Trims.wf hprev hw
    refine ih.trans ?_
    cases hstep with
    | compact => exact { Trimmed.refl _ with }
    | evict hold => exact .evict hw' hold
    | activate _ habs _ _ => exact .activate hw' habs _

/-! ## The outcome of an append -/

/-- The outcome of a whole call: an unacceptable descriptor left the log as it was. -/
structure CallFramed (gid : ℕ) (log : Log) (out : Result × Log) : Prop where
  unchanged : Unacceptable out.1 → out.2 = log
  trimmed : Trimmed gid log out.2

theorem Appended.framed {out : Result × Log} (h : Appended log d mem out) (hw : log.Wf) :
    CallFramed d.groupId log out := by
  cases h with
  | refused _ ht hsame => exact ⟨hsame, ht.trimmed hw⟩
  | committed ht₀ _ ht₁ hready hc =>
    have ht := ht₀.trans ht₁
    refine ⟨by simp [Unacceptable], (Trims.trimmed ht hw).trans ?_⟩
    exact .commit (Trims.wf ht hw) hready hc

/-- **An append never evicts its own group or a newer one.**  For `moqr_log_append` and
`moqr_log_open_record` alike: a call that reports `INVAL`, `WRONG_STATE` or `TOO_OLD` left the log
as it was, and after any call the groups other than the target are the earlier ones from some id up
to the target's on, with the target's earlier records in their places. -/
theorem append_frame (log : Log) (h : log.Reachable) (d : AppendDesc) (mem : AppendMem) :
    CallFramed d.groupId log (log.append d mem) ∧ CallFramed d.groupId log (log.openRecord d mem) :=
  ⟨(append_spec h.wf d mem).framed h.wf, (openRecord_spec h.wf d mem).framed h.wf⟩

theorem append_frame_small : ∃ log : Log, log.Reachable ∧
    (log.append (payloadDesc 3 3) ⟨true, true, true⟩).1 = .ok ∧
    Trimmed 3 log (log.append (payloadDesc 3 3) ⟨true, true, true⟩).2 :=
  ⟨_, mixedLog_reachable, by decide +kernel,
    (append_frame _ mixedLog_reachable (payloadDesc 3 3) _).1.trimmed⟩

end Log

end MoqRelay
