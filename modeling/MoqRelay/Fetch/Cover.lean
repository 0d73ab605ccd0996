import MoqRelay.Fetch.Walk

/-!
# Fetch/Cover — what the scans find and what the runs cover

A Location `(g, o)` is the number `g · 2⁶⁴ + o`, so the carry at the last object id is `+ 1` and a
range is an interval.  `scan_spec`: a scan finds the first record of its kind at or after the
cursor.  `runBefore_spec`: below the bound it is given, a run ends inside the range, and where it
reports nothing every Location is known not to exist.
-/

namespace MoqRelay

open List

/-! ## Locations as numbers -/

/-- The place of a Location in the order of Locations. -/
def locNum (l : ℕ × ℕ) : ℕ := l.1 * 2 ^ 64 + l.2

theorem locNum_succ (g o : ℕ) : locNum (g, o + 1) = locNum (g, o) + 1 := (Nat.add_assoc _ _ _).symm

theorem locNum_lt_nextGroup {g o : ℕ} (ho : o ≤ u64Max) : locNum (g, o) < locNum (g + 1, 0) := by
  simp only [locNum, u64Max] at ho ⊢
  omega

/-- After the last object id comes the next group. -/
theorem locNum_carry {g o : ℕ} (ho : o = u64Max) : locNum (g + 1, 0) = locNum (g, o) + 1 := by
  simp only [locNum, ho, u64Max]
  omega

variable {a b : ℕ × ℕ}

theorem locLt_iff (ha : a.2 ≤ u64Max) (hb : b.2 ≤ u64Max) : locLt a b ↔ locNum a < locNum b := by
  unfold locLt locNum
  unfold u64Max at ha hb
  split_ifs with h <;> rw [decide_eq_true_eq] <;> omega

/-- The Location of a record. -/
def Rec.locNum (r : Rec) : ℕ := MoqRelay.locNum (r.groupId, r.objectId)

theorem locNum_inj (ha : a.2 ≤ u64Max) (hb : b.2 ≤ u64Max) (h : locNum a = locNum b) : a = b := by
  simp only [locNum, u64Max] at ha hb h
  exact Prod.ext (by omega) (by omega)

/-! ## What a log knows not to exist -/

/-- **Known not to exist**: a status object sits on the Location, or it lies past the known final of
its group. -/
def Log.KnownAbsent (log : Log) (g o : ℕ) : Prop :=
  (∃ r ∈ log.allRecs, r.groupId = g ∧ r.objectId = o ∧ r.status ≠ .normal) ∨
    ∃ q, log.groupFinal g = some q ∧ q < o

/-- Every Location from the number `a` on and below `b` is known not to exist. -/
def Log.AbsentBetween (log : Log) (a b : ℕ) : Prop :=
  ∀ g o, o ≤ u64Max → a ≤ locNum (g, o) → locNum (g, o) < b → log.KnownAbsent g o

variable {log : Log}

theorem Log.AbsentBetween.trans {a b c : ℕ} (h : log.AbsentBetween a b)
    (h' : log.AbsentBetween b c) : log.AbsentBetween a c := fun g o ho h1 h2 =>
  if hb : locNum (g, o) < b then h g o ho h1 hb else h' g o ho (by omega) h2

theorem Log.AbsentBetween.of_le {a b : ℕ} (h : b ≤ a) : log.AbsentBetween a b :=
  fun g o _ h1 h2 => absurd (h1.trans_lt h2) (by omega)

namespace Fetch

variable {log : Log} {f : Fetch}

/-! ## Scans -/

/-- The fields of a fetch that name Locations are 64-bit, and the cursor stands inside the range. -/
structure Placed (f : Fetch) : Prop where
  curObject_le : f.curObject ≤ u64Max
  endGroup_le : f.endGroup ≤ u64Max
  endObject_le : f.endObject ≤ u64Max
  cur_le : locNum (f.curGroup, f.curObject) ≤ locNum f.rangeEnd

/-- The cursor and the end of the range, as numbers. -/
def pos (f : Fetch) : ℕ := locNum (f.curGroup, f.curObject)
def stop (f : Fetch) : ℕ := locNum f.rangeEnd

theorem Placed.rangeEnd_le (h : f.Placed) : f.rangeEnd.2 ≤ u64Max := by
  unfold rangeEnd
  split
  · exact le_rfl
  · exact h.endObject_le

/-- The window of a scan is the rest of the range. -/
theorem Placed.inWindow_iff (h : f.Placed) {g o : ℕ} (ho : o ≤ u64Max) :
    (g ≤ f.endGroup ∧ ¬ g < f.curGroup ∧ f.inWindow g o) ↔
      f.pos ≤ locNum (g, o) ∧ locNum (g, o) ≤ f.stop := by
  have h1 := h.curObject_le
  have h2 := h.endObject_le
  unfold inWindow pos stop rangeEnd locNum
  unfold u64Max at ho h1 h2 ⊢
  simp only [Bool.and_eq_true, decide_eq_true_eq, Bool.not_eq_true']
  cases f.endWhole <;> simp only [Bool.false_eq_true, and_false, and_true, if_false, if_true,
    reduceCtorEq] <;> constructor <;> intro hh <;> split_ifs at hh ⊢ <;> omega

variable {g : Group}

/-- The first of the records of a kind that lie in the rest of the range. -/
def FirstOf (recs : List Rec) (f : Fetch) (p : Rec → Bool) : Option Rec → Prop
  | none => ∀ r ∈ recs, p r → ¬ (f.pos ≤ r.locNum ∧ r.locNum ≤ f.stop)
  | some v => (v ∈ recs ∧ p v ∧ f.pos ≤ v.locNum ∧ v.locNum ≤ f.stop) ∧
      ∀ r ∈ recs, p r → f.pos ≤ r.locNum → r.locNum ≤ f.stop → v.locNum ≤ r.locNum

/-- What one group contributes to a scan. -/
theorem groupScan_spec (hf : f.Placed) {lim : LogLimits} (hg : g.Wf lim)
    (h64 : ∀ r ∈ g.recs, r.objectId ≤ u64Max) (hend : g.groupId ≤ f.endGroup) (p : Rec → Bool) :
    FirstOf g.recs f p (if g.groupId < f.curGroup then none
      else (g.recs.filter fun v => p v && f.inWindow g.groupId v.objectId).foldl
        smallerId none) := by
  have hwin : ∀ r ∈ g.recs, (¬ g.groupId < f.curGroup ∧ f.inWindow g.groupId r.objectId) ↔
      f.pos ≤ r.locNum ∧ r.locNum ≤ f.stop := fun r hr => by
    have := hf.inWindow_iff (g := g.groupId) (h64 r hr)
    rw [Rec.locNum, hg.owner r hr, ← this]
    exact ⟨fun h => ⟨hend, h⟩, fun h => h.2⟩
  by_cases hcur : g.groupId < f.curGroup
  · rw [if_pos hcur]
    exact fun r hr _ hin => ((hwin r hr).mpr hin).1 hcur
  · rw [if_neg hcur]
    have hmem : ∀ r, r ∈ g.recs.filter (fun v => p v && f.inWindow g.groupId v.objectId) ↔
        r ∈ g.recs ∧ p r ∧ f.pos ≤ r.locNum ∧ r.locNum ≤ f.stop := fun r => by
      rw [mem_filter, Bool.and_eq_true]
      refine and_congr_right fun hr => and_congr_right fun _ => ?_
      rw [← hwin r hr]
      exact ⟨fun h => ⟨hcur, h⟩, fun h => h.2⟩
    have hfold := foldl_keepLeast Rec.objectId
      (l := g.recs.filter fun v => p v && f.inWindow g.groupId v.objectId) (m := none)
    rw [smallerId]
    split at hfold
    · rename_i hq
      rw [hq]
      intro r hr hp hin
      exact eq_nil_iff_forall_not_mem.mp hfold.2 r ((hmem r).mpr ⟨hr, hp, hin⟩)
    · rename_i v hq
      rw [hq]
      have hv := (hmem v).mp (hfold.1.resolve_left (by simp))
      refine ⟨hv, fun r hr hp h1 h2 => ?_⟩
      have hle := hfold.2.2 r ((hmem r).mpr ⟨hr, hp, h1, h2⟩)
      rw [Rec.locNum, Rec.locNum, hg.owner v hv.1, hg.owner r hr]
      exact Nat.add_le_add_left hle _

/-- **A scan finds the first record of its kind in the rest of the range.** -/
theorem scan_spec (hw : log.Wf) (h64 : ∀ r ∈ log.allRecs, r.objectId ≤ u64Max) (hf : f.Placed)
    (p : Rec → Bool) : FirstOf log.allRecs f p (f.scan log p) := by
  have hend := hf.rangeEnd_le
  have hsorted := hw.sorted
  have hgroup := hw.group
  unfold scan
  unfold Log.allRecs at h64 ⊢
  generalize log.groups = gs at h64 hsorted hgroup ⊢
  induction gs with
  | nil => exact fun r hr => absurd hr not_mem_nil
  | cons x gs ih =>
    obtain ⟨hx, hsorted⟩ := pairwise_cons.mp hsorted
    obtain ⟨hgx, hgroup⟩ := forall_mem_cons.mp hgroup
    obtain ⟨hx64, h64⟩ := forall_mem_append.mp h64
    have hrest := ih h64 hsorted hgroup
    -- what follows lies in later groups
    have hlater : ∀ r ∈ gs.flatMap Group.recs, x.groupId < r.groupId := fun r hr => by
      obtain ⟨g, hg, hrg⟩ := mem_flatMap.mp hr
      rw [(hgroup g hg).owner r hrg]
      exact hx g hg
    by_cases hxe : x.groupId ≤ f.endGroup
    · have hmine := groupScan_spec hf hgx hx64 hxe p
      rw [takeWhile_cons_of_pos (by simpa using hxe), findSome?_cons]
      split
      · rename_i v hv
        rw [hv] at hmine
        obtain ⟨⟨hvx, hpv⟩, hfirst⟩ := hmine
        refine ⟨⟨mem_append_left _ hvx, hpv⟩, forall_mem_append.mpr ⟨hfirst, fun r hr _ _ _ => ?_⟩⟩
        have h1 := hlater r hr
        have h2 := hgx.owner v hvx
        have h3 := hx64 v hvx
        simp only [Rec.locNum, locNum, u64Max] at h3 ⊢
        omega
      · rename_i hv
        rw [hv] at hmine
        generalize (gs.takeWhile _).findSome? _ = y at hrest
        cases y with
        | none => exact forall_mem_append.mpr ⟨hmine, hrest⟩
        | some v => exact ⟨⟨mem_append_right _ hrest.1.1, hrest.1.2⟩, forall_mem_append.mpr
            ⟨fun r hr hp h1 h2 => absurd ⟨h1, h2⟩ (hmine r hr hp), hrest.2⟩⟩
    · rw [takeWhile_cons_of_neg (by simpa using hxe)]
      intro r hr _ hin
      have hgt : f.rangeEnd.1 < r.groupId := by
        change f.endGroup < _
        rcases mem_append.mp hr with hr | hr
        · have := hgx.owner r hr
          omega
        · have := hlater r hr
          omega
      simp only [Rec.locNum, stop, locNum, u64Max] at hin hend
      omega

end Fetch

/-! ## Runs -/

/-- The places where a cursor can come to stand: at a record or right after one, at the start of a
retained group, past the end of the range. -/
def Log.breaks (log : Log) (stop : ℕ) : List ℕ :=
  log.allRecs.flatMap (fun r => [r.locNum, r.locNum + 1]) ++
    log.groups.map (fun g => locNum (g.groupId, 0)) ++ [stop + 1]

variable {stop : ℕ}

theorem Log.mem_breaks {n : ℕ} : n ∈ log.breaks stop ↔
    (∃ r ∈ log.allRecs, n = r.locNum ∨ n = r.locNum + 1) ∨
      (∃ g ∈ log.groups, locNum (g.groupId, 0) = n) ∨ n = stop + 1 := by
  simp [breaks]

/-- **What a run says**, found at `s` below a limit `l`: it ends below the limit, at a place where
the cursor comes to stand, and no run, where unknown ones are reported, means that every Location is
known not to exist. -/
def FetchRun.Below (log : Log) (stop : ℕ) (unknown : Prop) (s l : ℕ) : FetchRun → Prop
  | .none => unknown → log.AbsentBetween s l
  | .hole g o | .unknown g o => o ≤ u64Max ∧ s ≤ locNum (g, o) ∧ locNum (g, o) < l ∧
      locNum (g, o) + 1 ∈ log.breaks stop

theorem FetchRun.Below.step {s s' l : ℕ} {run : FetchRun} {unknown : Prop} (hs : s ≤ s')
    (ha : unknown → log.AbsentBetween s s') (h : run.Below log stop unknown s' l) :
    run.Below log stop unknown s l := by
  cases run with
  | none => exact fun hu => (ha hu).trans (h hu)
  | hole g o | unknown g o => exact ⟨h.1, hs.trans h.2.1, h.2.2⟩

namespace Fetch

variable {log : Log} {f : Fetch} {t : Track} {nowUs : ℕ} {x : Option (ℕ × ℕ)}

/-- The records a bound is taken from: objects to serve and objects still arriving. -/
def Awaited (t : Track) (nowUs : ℕ) (r : Rec) : Prop :=
  r.status = .normal ∧
    (r.objState = .complete ∧ t.recExpired r.arrivalUs nowUs = false ∨ r.objState = .open)

/-- **`x` is the first awaited record of the rest of the range.** -/
structure Bound (log : Log) (f : Fetch) (t : Track) (nowUs : ℕ) (x : Option (ℕ × ℕ)) : Prop where
  found : ∀ l ∈ x, (∃ r ∈ log.allRecs, (r.groupId, r.objectId) = l) ∧ l.2 ≤ u64Max ∧
    f.pos ≤ locNum l ∧ locNum l ≤ f.stop
  first : ∀ r ∈ log.allRecs, Awaited t nowUs r → f.pos ≤ r.locNum → r.locNum ≤ f.stop →
    ∃ l ∈ x, locNum l ≤ r.locNum

/-- The Location a walk stops at: the bound, or past the range. -/
def limit (f : Fetch) : Option (ℕ × ℕ) → ℕ
  | some l => locNum l
  | none => f.stop + 1

/-- What the walk may answer from a position on. -/
def Answers (f : Fetch) (log : Log) (x : Option (ℕ × ℕ)) (start : ℕ) (run : FetchRun) : Prop :=
  run.Below log f.stop f.reportUnknown start (f.limit x)

theorem Bound.limit_le (hb : Bound log f t nowUs x) : f.limit x ≤ f.stop + 1 := by
  cases x with
  | none => exact le_rfl
  | some l => exact (hb.found l rfl).2.2.2.trans (Nat.le_succ _)

variable {g o last s : ℕ} {r : Rec}

/-- The test at the head of the walk. -/
theorem atLimit_eq_false_iff (hf : f.Placed) (hb : Bound log f t nowUs x)
    (ho : o ≤ u64Max) : f.atLimit x (g, o) = false ↔ locNum (g, o) < f.limit x := by
  unfold atLimit
  cases x with
  | none =>
    rw [← Bool.not_eq_true, locLt_iff hf.rangeEnd_le ho, limit, stop]
    omega
  | some l =>
    have hl := (hb.found l rfl).2.1
    rw [← Bool.not_eq_true, Bool.not_eq_true', ← Bool.not_eq_true, not_not, locLt_iff ho hl, limit]

/-- An unknown run starts where its group holds nothing more, and ends before the next group. -/
theorem unknownRun_answers (hw : log.Wf) (hf : f.Placed) (hb : Bound log f t nowUs x)
    (ho : o ≤ u64Max) (hlt : locNum (g, o) < f.limit x)
    (hrest : ∀ r ∈ log.allRecs, r.groupId = g → r.objectId < o) :
    f.Answers log x (locNum (g, o)) (f.unknownRun log g) := by
  have hend := hf.rangeEnd_le
  have hlimit := hb.limit_le
  have hstop : locNum (f.rangeEnd.1, f.rangeEnd.2) = f.stop := rfl
  -- A bound lies in a later retained group.
  have hlater : f.limit x = f.stop + 1 ∨
      ∃ y ∈ log.groups, g < y.groupId ∧ locNum (y.groupId, 0) ≤ f.limit x := by
    cases x with
    | none => exact .inl rfl
    | some l =>
      obtain ⟨⟨r, hr, rfl⟩, hr64, -, -⟩ := hb.found l rfl
      obtain ⟨y, hy, hry⟩ := mem_flatMap.mp hr
      have hown := (hw.group y hy).owner r hry
      have hsame := hrest r hr
      simp only [limit, locNum, u64Max] at hlt hr64 ⊢
      exact .inr ⟨y, hy, by omega, by omega⟩
  have hatEnd : f.stop < f.limit x →
      f.Answers log x (locNum (g, o)) (.unknown f.rangeEnd.1 f.rangeEnd.2) := fun hlt' =>
    ⟨hend, by omega, hlt', Log.mem_breaks.mpr (.inr (.inr rfl))⟩
  unfold unknownRun
  cases hn : log.groups.find? fun y => g < y.groupId with
  | none =>
    refine hatEnd ?_
    rcases hlater with hlater | ⟨y, hy, hgy, -⟩
    · omega
    · exact absurd (find?_eq_none.mp hn y hy) (by simpa using hgy)
  | some y =>
    have hgy : g < y.groupId := by simpa using find?_some hn
    -- Ids ascend, so it is the first of the later groups.
    have hfirst : ∀ z ∈ log.groups, g < z.groupId → y.groupId ≤ z.groupId := by
      obtain ⟨-, l₁, l₂, hl, hbefore⟩ := find?_eq_some_iff_append.mp hn
      have hsorted := hl ▸ hw.sorted
      rw [hl]
      refine forall_mem_append.mpr ⟨fun z hz hgz => ?_, forall_mem_cons.mpr ⟨fun _ => le_rfl,
        fun z hz _ => ((pairwise_cons.mp (pairwise_append.mp hsorted).2.1).1 z hz).le⟩⟩
      exact absurd (hbefore z hz) (by simpa using hgz)
    have hbound : f.limit x = f.stop + 1 ∨ locNum (y.groupId, 0) ≤ f.limit x :=
      hlater.imp_right fun ⟨z, hz, hgz, hle⟩ =>
        (Nat.add_le_add_right (Nat.mul_le_mul_right _ (hfirst z hz hgz)) _).trans hle
    have hlast : locNum (y.groupId - 1, u64Max) + 1 = locNum (y.groupId, 0) := by
      simp only [locNum, u64Max]
      omega
    dsimp only
    split
    · rename_i hc
      rw [locLt_iff le_rfl hend] at hc
      change locNum (y.groupId - 1, u64Max) < f.stop at hc
      refine ⟨le_rfl, ?_, by omega,
        Log.mem_breaks.mpr (.inr (.inl ⟨y, mem_of_find?_eq_some hn, hlast.symm⟩))⟩
      simp only [locNum, u64Max] at ho ⊢
      omega
    · rename_i hc
      rw [locLt_iff le_rfl hend] at hc
      change ¬ locNum (y.groupId - 1, u64Max) < f.stop at hc
      exact hatEnd (by omega)

/-- A run of expired objects stays below the limit and ends at one of them. -/
theorem expiredEnd_answers (hw : log.Wf) (hf : f.Placed) (hb : Bound log f t nowUs x)
    (hlast : last ≤ u64Max) (n e : ℕ) (he : e ≤ last) (hlt : locNum (g, e) < f.limit x)
    (hrec : ∃ r ∈ log.allRecs, r.groupId = g ∧ r.objectId = e) :
    f.Answers log x (locNum (g, e)) (.unknown g (f.expiredEnd log t nowUs x g last n e)) := by
  induction n generalizing e with
  | zero =>
    obtain ⟨r, hr, rfl, rfl⟩ := hrec
    exact ⟨he.trans hlast, le_rfl, hlt, Log.mem_breaks.mpr (.inl ⟨r, hr, .inr rfl⟩)⟩
  | succ n ih =>
    unfold expiredEnd
    split
    · rename_i hc
      obtain ⟨hel, hend, hx, hst, -⟩ := hc
      have hnext := locNum_succ g e
      have hlt' : locNum (g, e + 1) < f.limit x := by
        cases x with
        | none =>
          have hle := hf.rangeEnd_le
          simp only [limit, stop, locNum, u64Max] at hlt hle hlast ⊢
          omega
        | some l =>
          have hl2 := (hb.found l rfl).2.1
          simp only [Option.any_some, Bool.and_eq_true, decide_eq_true_eq, not_and] at hx
          simp only [limit, locNum, u64Max] at hlt hlast hl2 ⊢
          omega
      have hrec' : ∃ r ∈ log.allRecs, r.groupId = g ∧ r.objectId = e + 1 := by
        obtain ⟨r, hr, -⟩ := Option.map_eq_some_iff.mp hst
        exact ⟨r, hw.findRec_eq_some_iff.mp hr⟩
      obtain ⟨h1, h2, h3⟩ := ih (e + 1) (by omega) hlt' hrec'
      exact ⟨h1, by omega, h3⟩
    · obtain ⟨r, hr, rfl, rfl⟩ := hrec
      exact ⟨he.trans hlast, le_rfl, hlt, Log.mem_breaks.mpr (.inl ⟨r, hr, .inr rfl⟩)⟩

/-- Leaving status objects out moves the end down, onto the Location before one of them. -/
theorem trimStatus_spec (hw : log.Wf) (g : ℕ) (n e : ℕ) (hn : n ≤ e) :
    e - n ≤ trimStatus log g n e ∧ trimStatus log g n e ≤ e ∧
      (trimStatus log g n e = e ∨
        ∃ r ∈ log.allRecs, r.groupId = g ∧ r.objectId = trimStatus log g n e + 1) := by
  induction n generalizing e with
  | zero => exact ⟨le_rfl, le_rfl, .inl rfl⟩
  | succ n ih =>
    unfold trimStatus
    split
    · rename_i hst
      obtain ⟨h1, h2, h3⟩ := ih (e - 1) (by omega)
      refine ⟨by omega, by omega, .inr ?_⟩
      rcases h3 with h3 | h3
      · obtain ⟨r, hr⟩ : ∃ r, log.findRec g e = some r := by
          cases hfr : log.findRec g e with
          | none => simp [Log.objectStatus, hfr] at hst
          | some r => exact ⟨r, rfl⟩
        obtain ⟨hm, hg, ho⟩ := hw.findRec_eq_some_iff.mp hr
        exact ⟨r, hm, hg, by omega⟩
      · exact h3
    · exact ⟨by omega, le_rfl, .inl rfl⟩

/-- A hole inside a group's extent stays below the limit. -/
theorem holeRun_answers (hw : log.Wf) (hf : f.Placed) (hb : Bound log f t nowUs x)
    (hlast : last ≤ u64Max) (ho : o ≤ last) (hlt : locNum (g, o) < f.limit x)
    (hrec : ∃ r ∈ log.allRecs, r.groupId = g ∧ r.objectId = last) :
    f.Answers log x (locNum (g, o)) (f.holeRun log x g o last) := by
  have hend := hf.rangeEnd_le
  obtain ⟨rl, hrl, hrlg, hrlo⟩ := hrec
  have hlastBreak : locNum (g, last) + 1 ∈ log.breaks f.stop :=
    Log.mem_breaks.mpr (.inl ⟨rl, hrl, .inr (by rw [Rec.locNum, hrlg, hrlo])⟩)
  -- The end before trimming: at or after the start, below the limit, where a cursor can stand.
  have hmain : ∀ e, o ≤ e → e ≤ u64Max → locNum (g, e) < f.limit x →
      locNum (g, e) + 1 ∈ log.breaks f.stop →
      f.Answers log x (locNum (g, o)) (.hole g (trimStatus log g (e - o) e)) := by
    intro e he he64 hel hbreak
    obtain ⟨h1, h2, h3⟩ := trimStatus_spec hw g (e - o) e (by omega)
    refine ⟨by omega, Nat.add_le_add_left (by omega) _, (Nat.add_le_add_left h2 _).trans_lt hel, ?_⟩
    · rcases h3 with h3 | ⟨r, hr, hrg, hro⟩
      · rwa [h3]
      · refine Log.mem_breaks.mpr (.inl ⟨r, hr, .inl ?_⟩)
        rw [Rec.locNum, hrg, hro, locNum_succ]
  unfold holeRun
  cases x with
  | some l =>
    obtain ⟨⟨r, hr, rfl⟩, hl2, -, -⟩ := hb.found l rfl
    rw [limit] at hlt hmain
    dsimp only
    split
    · rename_i hc
      have hpred : locNum (g, r.objectId - 1) + 1 = r.locNum := by
        rw [Rec.locNum, hc.1, ← locNum_succ, Nat.sub_add_cancel hc.2]
      have hlt' : o < r.objectId := by
        simp only [locNum, ← hc.1] at hlt
        omega
      refine hmain _ (by omega) (by omega) ?_ (Log.mem_breaks.mpr (.inl ⟨r, hr, .inl hpred⟩))
      change _ < r.locNum
      omega
    · rename_i hc
      refine hmain last ho hlast ?_ hlastBreak
      simp only [locNum, u64Max] at hlt hlast hl2 hc ⊢
      omega
  | none =>
    rw [limit, stop] at hlt hmain
    dsimp only
    split
    · rename_i hc
      have hge : o ≤ f.rangeEnd.2 := by
        simp only [locNum, ← hc.1] at hlt
        omega
      refine hmain _ hge hend ?_ (Log.mem_breaks.mpr (.inr (.inr ?_)))
      · rw [← hc.1]
        exact Nat.lt_succ_self _
      · rw [← hc.1]
    · refine hmain last ho hlast ?_ hlastBreak
      simp only [locNum, u64Max] at hlt hlast hend ⊢
      omega

theorem countP_lt_of_imp {α : Type*} {p q : α → Bool} {l : List α} {a : α}
    (h : ∀ b ∈ l, q b → p b) (ha : a ∈ l) (hp : p a) (hq : q a = false) :
    l.countP q < l.countP p := by
  obtain ⟨front, back, rfl⟩ := append_of_mem ha
  have hfront := countP_mono_left (l := front) fun b hb => h b (by simp [hb])
  have hback := countP_mono_left (l := back) fun b hb => h b (by simp [hb])
  rw [countP_append, countP_append, countP_cons_of_pos hp, countP_cons_of_neg (by simp [hq])]
  omega

/-- What a walk at `(g, o)` can still do: the records it can step over and the groups it can leave.
Leaving a retained group counts twice, for it may lead to a group that holds nothing, which is left
by one more turn. -/
def work (log : Log) (g o : ℕ) : ℕ :=
  log.allRecs.countP (fun r => locNum (g, o) ≤ r.locNum) +
    2 * log.groups.countP (fun y => g ≤ y.groupId) +
    if log.allRecs.any fun r => r.groupId = g then 0 else 1

/-- Further on, no more records are left and no more groups. -/
theorem left_le (log : Log) {g' o' : ℕ} (h : locNum (g, o) ≤ locNum (g', o')) (hg : g ≤ g') :
    log.allRecs.countP (fun r => locNum (g', o') ≤ r.locNum)
        ≤ log.allRecs.countP (fun r => locNum (g, o) ≤ r.locNum) ∧
      log.groups.countP (fun y => g' ≤ y.groupId) ≤ log.groups.countP fun y => g ≤ y.groupId := by
  constructor <;> refine countP_mono_left fun y _ hy => ?_ <;>
    simp only [decide_eq_true_eq] at hy ⊢ <;> omega

/-- Leaving a retained group leaves less to do. -/
theorem work_lt_of_group (hw : log.Wf) (hr : r ∈ log.allRecs) (hrg : r.groupId = g)
    (ho : o ≤ u64Max) : work log (g + 1) 0 < work log g o := by
  obtain ⟨y, hfind, -⟩ := hw.mem_allRecs_iff.mp hr
  obtain ⟨hy, hyr⟩ := (Log.groupFind_eq_some_iff hw.sorted).mp hfind
  have h1 := (left_le log (locNum_lt_nextGroup ho).le (Nat.le_succ g)).1
  have h2 : log.groups.countP (fun y => g + 1 ≤ y.groupId)
      < log.groups.countP fun y => g ≤ y.groupId :=
    countP_lt_of_imp (fun b _ hb => by simp only [decide_eq_true_eq] at hb ⊢; omega) hy
      (by simp [hyr, hrg]) (by simp [hyr, hrg])
  unfold work
  split <;> omega

/-- Stepping over a record leaves less to do. -/
theorem work_lt_of_rec (hr : r ∈ log.allRecs) (hloc : r.locNum = locNum (g, o)) :
    work log g (o + 1) < work log g o := by
  have h1 : log.allRecs.countP (fun r => locNum (g, o + 1) ≤ r.locNum)
      < log.allRecs.countP fun r => locNum (g, o) ≤ r.locNum := by
    rw [locNum_succ]
    exact countP_lt_of_imp (fun b _ hb => by simp only [decide_eq_true_eq] at hb ⊢; omega) hr
      (by simp [hloc]) (by simp [hloc])
  unfold work
  omega

/-- A jump from a group that holds nothing to a later one that does. -/
theorem work_lt_of_jump {g' : ℕ} (hlt : g < g') (hnext : locNum (g, o) ≤ locNum (g', 0))
    (hout : ∀ r ∈ log.allRecs, r.groupId ≠ g) (hin : ∃ r ∈ log.allRecs, r.groupId = g') :
    work log g' 0 < work log g o := by
  obtain ⟨h1, h2⟩ := left_le log hnext hlt.le
  have h3 : (log.allRecs.any fun r => r.groupId = g') := by simpa using hin
  have h4 : (log.allRecs.any fun r => r.groupId = g) = false := by simpa using hout
  unfold work
  rw [h3, h4, if_pos rfl, if_neg Bool.false_ne_true]
  omega

theorem locExpired_eq (hr : log.findRec g o = some r) :
    locExpired log t g o nowUs = t.recExpired r.arrivalUs nowUs := by
  unfold locExpired Log.objectArrival Track.recExpired
  rw [hr]
  cases t.hasMaxCache <;> simp

/-- Past the known final of its group nothing exists. -/
theorem absentBetween_of_final {q : ℕ} (hq : log.groupFinal g = some q) (hqo : q < o)
    (hs : s ≤ locNum (g + 1, 0)) : log.AbsentBetween (locNum (g, o)) s := by
  intro g' o' ho' h1 h2
  simp only [locNum, u64Max] at ho' h1 h2 hs
  obtain rfl : g' = g := by omega
  exact .inr ⟨q, hq, by omega⟩

/-- The Location of a status object does not hold an object. -/
theorem absentBetween_of_status (hr : r ∈ log.allRecs) (hg : r.groupId = g)
    (ho : r.objectId = o) (h64 : o ≤ u64Max) (hst : r.status ≠ .normal)
    (hs : s ≤ locNum (g, o) + 1) : log.AbsentBetween (locNum (g, o)) s := by
  intro g' o' ho' h1 h2
  obtain ⟨rfl, rfl⟩ := Prod.mk.inj (locNum_inj ho' h64 (Nat.le_antisymm (by omega) h1))
  exact .inl ⟨r, hr, hg, ho, hst⟩

theorem Placed.stop_le (hf : f.Placed) : f.stop ≤ locNum (u64Max, u64Max) := by
  have h1 := hf.endGroup_le
  have h2 := hf.rangeEnd_le
  exact Nat.add_le_add (Nat.mul_le_mul_right _ h1) h2

/-! ## The walk -/

variable (hw : log.Wf) (h64 : ∀ r ∈ log.allRecs, r.objectId ≤ u64Max) (hf : f.Placed)
  (hb : Bound log f t nowUs x)
include hw h64 hf hb

/-- **What a turn does**: an answer ends below the limit, and a step goes forward and leaves less to
do.  If unknown runs are reported, whatever is passed over in silence is known not to exist. -/
theorem runFrom_turn (ho : o ≤ u64Max) (hpos : f.pos ≤ locNum (g, o)) {n : ℕ}
    (next : ∀ g' o', o' ≤ u64Max → locNum (g, o) ≤ locNum (g', o') →
      work log g' o' < work log g o →
      (f.reportUnknown → log.AbsentBetween (locNum (g, o)) (locNum (g', o'))) →
      f.Answers log x (locNum (g, o)) (f.runFrom log t nowUs x n g' o')) :
    f.Answers log x (locNum (g, o)) (f.runFrom log t nowUs x (n + 1) g o) := by
  have hlimit := hb.limit_le
  have hstop := hf.stop_le
  have hnextg := locNum_lt_nextGroup (g := g) ho
  have htest := atLimit_eq_false_iff (g := g) hf hb ho
  unfold runFrom
  by_cases hlt : locNum (g, o) < f.limit x
  swap
  · rw [if_pos (by rw [← Bool.not_eq_false]; exact fun h => hlt (htest.mp h))]
    exact fun _ => Log.AbsentBetween.of_le (Nat.le_of_not_lt hlt)
  rw [htest.mpr hlt, if_neg Bool.false_ne_true]
  have hlast := hw.groupLast_spec g
  cases hl : log.groupLast g with
  | none =>
    rw [hl] at hlast
    by_cases hunk : f.reportUnknown
    · rw [if_pos hunk]
      exact unknownRun_answers hw hf hb ho hlt fun r hr hg => absurd hg (hlast r hr)
    rw [if_neg hunk]
    cases x with
    | none => exact fun h => absurd h hunk
    | some l =>
      dsimp only
      by_cases hgl : g < l.1
      · rw [if_pos hgl]
        obtain ⟨⟨r, hr, rfl⟩, -, -, -⟩ := hb.found l rfl
        have hnext : locNum (g, o) ≤ locNum (r.groupId, 0) := by
          simp only [locNum, u64Max] at ho hgl ⊢
          omega
        exact next _ _ (Nat.zero_le _) hnext (work_lt_of_jump hgl hnext hlast ⟨r, hr, rfl⟩)
          fun h => absurd h hunk
      · rw [if_neg hgl]
        exact fun h => absurd h hunk
  | some last =>
    rw [hl] at hlast
    obtain ⟨hrec, hmax⟩ := hlast
    have hlast64 : last ≤ u64Max := by
      obtain ⟨r, hr, -, rfl⟩ := hrec
      exact h64 r hr
    -- the group is retained, so leaving it leaves less to do
    have hleave : work log (g + 1) 0 < work log g o := by
      obtain ⟨r, hr, hrg, -⟩ := hrec
      exact work_lt_of_group hw hr hrg ho
    have hmost : g = u64Max → f.limit x ≤ locNum (g + 1, 0) := by
      rintro rfl
      have := locNum_lt_nextGroup (g := u64Max) le_rfl
      omega
    dsimp only
    by_cases hpast : last < o
    · have hfinal : ¬ (f.reportUnknown ∧ (log.groupFinal g).isNone) →
          f.reportUnknown → ∀ s ≤ locNum (g + 1, 0), log.AbsentBetween (locNum (g, o)) s := by
        intro hc hunk s hs
        obtain ⟨q, hq⟩ : ∃ q, log.groupFinal g = some q :=
          Option.ne_none_iff_exists'.mp fun hn => hc ⟨hunk, by rw [hn]; rfl⟩
        -- the final is retained, so it is not past the last id
        obtain ⟨r, hr, hrg, hrq⟩ := hw.groupFinal_mem hq
        have := hmax r hr hrg
        exact absentBetween_of_final hq (by omega) hs
      split_ifs with hc hgmax
      · exact unknownRun_answers hw hf hb ho hlt fun r hr hg => (hmax r hr hg).trans_lt hpast
      · exact fun hunk => hfinal hc hunk _ (hmost hgmax)
      · exact next _ _ (Nat.zero_le _) hnextg.le hleave fun hunk => hfinal hc hunk _ le_rfl
    · rw [if_neg hpast]
      have hhole := holeRun_answers hw hf hb hlast64 (Nat.le_of_not_lt hpast) hlt hrec
      cases hst : log.objectStatus g o with
      | none => exact hhole
      | some p =>
        obtain ⟨r, hr, rfl⟩ := Option.map_eq_some_iff.mp hst
        obtain ⟨hrm, hrg, hro⟩ := hw.findRec_eq_some_iff.mp hr
        have hrl : r.locNum = locNum (g, o) := by rw [Rec.locNum, hrg, hro]
        dsimp only
        rw [locExpired_eq hr]
        split_ifs with h1 h2 h3 h4 h5
        · exact hhole
        · -- an object to serve would be the bound itself
          have haw : Awaited t nowUs r :=
            ⟨h2.1, .inl ⟨not_not.mp fun h => h1 ⟨h2.1, h⟩, by simpa using h2.2⟩⟩
          obtain ⟨l, hlx, hle⟩ := hb.first r hrm haw (by omega) (by omega)
          rw [hlx, limit] at hlt
          omega
        · exact expiredEnd_answers hw hf hb hlast64 _ o (by omega) hlt ⟨r, hrm, hrg, hro⟩
        all_goals have habs := fun hunk s hs =>
          absentBetween_of_status (s := s) hrm hrg hro ho (fun h => h3 ⟨h, hunk⟩) hs
        · exact fun hunk => habs hunk _ ((hmost h5).trans (locNum_carry h4).le)
        · exact next _ _ (Nat.zero_le _) hnextg.le hleave fun hunk =>
            habs hunk _ (locNum_carry h4).le
        · refine next _ _ (Nat.lt_of_le_of_ne ho h4) ?_ (work_lt_of_rec hrm hrl)
            fun hunk => habs hunk _ ?_
          · exact Nat.le_succ _
          · exact (locNum_succ g o).le

/-- **The walk of `fetch_run_before`**, from any Location of the rest of the range. -/
theorem runFrom_spec (n g o : ℕ) (ho : o ≤ u64Max) (hpos : f.pos ≤ locNum (g, o))
    (hn : work log g o < n) : f.Answers log x (locNum (g, o)) (f.runFrom log t nowUs x n g o) := by
  induction n generalizing g o with
  | zero => omega
  | succ n ih =>
    refine runFrom_turn hw h64 hf hb ho hpos fun g' o' ho' hle hwork habs => ?_
    exact (ih g' o' ho' (hpos.trans hle) (by omega)).step hle habs

/-- **`fetch_run_before`** from the cursor. -/
theorem runBefore_spec : f.Answers log x f.pos (f.runBefore log t nowUs x) := by
  refine runFrom_spec hw h64 hf hb _ _ _ hf.curObject_le le_rfl ?_
  have h1 := countP_le_length
    (p := fun r : Rec => decide (locNum (f.curGroup, f.curObject) ≤ r.locNum)) (l := log.allRecs)
  have h2 := countP_le_length
    (p := fun y : Group => decide (f.curGroup ≤ y.groupId)) (l := log.groups)
  unfold work
  split <;> omega

end Fetch

end MoqRelay
