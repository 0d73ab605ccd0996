import MoqRelay.Log.Run

/-!
# Log/Later — what a later state of a log shares with an earlier one

`Later log log'` says how far a log can move: its window only advances, and only past slots whose
group is gone; the slots still in the window are the ones they were; a group that is gone stays
gone, below a horizon that only rises; and a group that stays keeps every record in its place.
Atoms are `Later`, `Later` composes, and so a whole run is `Later`.
-/

namespace MoqRelay

/-- `r'` is the record `r`, whatever became of its content. -/
structure Rec.Same (r r' : Rec) : Prop where
  arrivalSeq : r'.arrivalSeq = r.arrivalSeq
  groupId : r'.groupId = r.groupId
  subgroupId : r'.subgroupId = r.subgroupId
  objectId : r'.objectId = r.objectId
  datagramPref : r'.datagramPref = r.datagramPref
  status : r'.status = r.status

theorem Rec.Same.refl (r : Rec) : r.Same r := ⟨rfl, rfl, rfl, rfl, rfl, rfl⟩

theorem Rec.Same.trans {a b c : Rec} (h : a.Same b) (h' : b.Same c) : a.Same c :=
  ⟨h'.1.trans h.1, h'.2.trans h.2, h'.3.trans h.3, h'.4.trans h.4, h'.5.trans h.5, h'.6.trans h.6⟩

variable {f : Rec → Rec} {g : Group}

theorem Rec.Edit.same (h : Rec.Edit f) (r : Rec) : r.Same (f r) :=
  ⟨h.arrivalSeq r, h.groupId r, h.subgroupId r, h.objectId r, h.datagramPref r, h.status r⟩

/-- Every record of `g` is still in its place in `g'`. -/
def Group.Keeps (g g' : Group) : Prop :=
  ∀ s i r, g.recAt? s i = some r → ∃ r', g'.recAt? s i = some r' ∧ r.Same r'

theorem Group.Keeps.refl (g : Group) : g.Keeps g := fun _ _ r h => ⟨r, h, .refl r⟩

theorem Group.Keeps.trans {a b c : Group} (h : a.Keeps b) (h' : b.Keeps c) : a.Keeps c := by
  intro s i r hr
  obtain ⟨r', hr', hs⟩ := h s i r hr
  obtain ⟨r'', hr'', hs'⟩ := h' s i r' hr'
  exact ⟨r'', hr'', hs.trans hs'⟩

theorem Group.Keeps.edit {F : Subgroup → Subgroup}
    (h : Subgroup.Edit F f) (i : ℕ) : g.Keeps (g.modifySg i F) := by
  intro s j r hr
  rcases Group.recAt?_modifySg (g := g) h i s j with ⟨-, -, -, -, hmap⟩ | ⟨-, hsame⟩
  · exact ⟨f r, by rw [hmap, hr]; rfl, h.tail.same r⟩
  · exact ⟨r, hsame.trans hr, .refl r⟩

theorem Group.Keeps.push {g' : Group} {s : ListSlot} {n : ℕ} {r : Rec} (h : g.Pushed g' s n r) :
    g.Keeps g' := by
  intro s' j x hx
  refine ⟨x, ?_, .refl x⟩
  rw [h.recAt, if_neg, hx]
  rintro ⟨rfl, rfl⟩
  rw [h.free] at hx
  cases hx

namespace Log

variable {log log' log'' : Log} {gid : ℕ} {g : Group}

/-- **`log'` is a later state of `log`.** -/
structure Later (log log' : Log) : Prop where
  lim : log'.lim = log.lim
  next_le : log.nextSeq ≤ log'.nextSeq
  begin_le : log.beginSeq ≤ log'.beginSeq
  slot : ∀ q, log'.beginSeq ≤ q → q < log.nextSeq → log'.slotOf q = log.slotOf q
  passed : ∀ q, log.beginSeq ≤ q → q < log'.beginSeq → q < log.nextSeq →
    log'.groupFind (log.slotOf q).groupId = none
  horizon : ∀ gid, log.belowHorizon gid → log'.belowHorizon gid
  gone : ∀ gid, log.groupFind gid = none → log.belowHorizon gid → log'.groupFind gid = none
  evicted : ∀ gid, (log.groupFind gid).isSome → log'.groupFind gid = none →
    log'.belowHorizon gid
  keeps : ∀ gid g g', log.groupFind gid = some g → log'.groupFind gid = some g' → g.Keeps g'

/-- A slot of the window names a retained group or one below the horizon. -/
theorem Wf.gone_of_none (hw : log.Wf) {q : ℕ} (h1 : log.beginSeq ≤ q) (h2 : q < log.nextSeq)
    (hf : log.groupFind (log.slotOf q).groupId = none) : log.belowHorizon (log.slotOf q).groupId :=
  hw.gone q h1 h2 ((groupFind_eq_none_iff hw.sorted).mp hf)

/-- A group that a later state no longer retains is below its horizon. -/
theorem Later.horizon_of_none (h : Later log log')
    (hg : (log.groupFind gid).isSome ∨ log.belowHorizon gid)
    (hf : log'.groupFind gid = none) : log'.belowHorizon gid := by
  rcases hg with hg | hg
  · exact h.evicted gid hg hf
  · exact h.horizon gid hg

theorem Later.refl (log : Log) : Later log log where
  lim := rfl
  next_le := le_rfl
  begin_le := le_rfl
  slot _ _ _ := rfl
  passed q h1 h2 := absurd h2 (by omega)
  horizon _ h := h
  gone _ h _ := h
  evicted _ h hn := by simp [hn] at h
  keeps _ g g' h h' := by
    cases h.symm.trans h'
    exact .refl g

theorem Later.trans (hw : log.Wf) (h : Later log log') (h' : Later log' log'') :
    Later log log'' where
  lim := h'.lim.trans h.lim
  next_le := h.next_le.trans h'.next_le
  begin_le := h.begin_le.trans h'.begin_le
  slot q h1 h2 := by rw [h'.slot q h1 (h2.trans_le h.next_le), h.slot q (h'.begin_le.trans h1) h2]
  passed q h1 h2 h3 := by
    by_cases hlt : q < log'.beginSeq
    · have hf := h.passed q h1 hlt h3
      refine h'.gone _ hf (h.horizon_of_none ?_ hf)
      cases hs : log.groupFind (log.slotOf q).groupId with
      | none => exact .inr (hw.gone_of_none h1 h3 hs)
      | some g => exact .inl rfl
    · have hslot := h.slot q (Nat.le_of_not_lt hlt) h3
      rw [← hslot]
      exact h'.passed q (Nat.le_of_not_lt hlt) h2 (h3.trans_le h.next_le)
  horizon gid hh := h'.horizon gid (h.horizon gid hh)
  gone gid hf hh := h'.gone gid (h.gone gid hf hh) (h.horizon gid hh)
  evicted gid hs hf := by
    cases hm : log'.groupFind gid with
    | none => exact h'.horizon gid (h.evicted gid hs hm)
    | some g => exact h'.evicted gid (by simp [hm]) hf
  keeps gid g g'' hg hg'' := by
    cases hm : log'.groupFind gid with
    | none =>
      have := h'.gone gid hm (h.evicted gid (by simp [hg]) hm)
      simp [this] at hg''
    | some g' => exact (h.keeps gid g g' hg hm).trans (h'.keeps gid g' g'' hm hg'')

/-! ## Atoms -/

/-- The group with an id stays, its records in their places. -/
def Kept (log log' : Log) (k : ℕ) : Prop :=
  ∃ g g', log.groupFind k = some g ∧ log'.groupFind k = some g' ∧ g.Keeps g'

variable {e : Group → Group} {k : ℕ}

/-- A rewrite of one group leaves the others as they are. -/
theorem fate_modifyGroup (hw : log.Wf) (hfind : log.groupFind gid = some g)
    (hid : (e g).groupId = g.groupId) (hk : g.Keeps (e g)) (k : ℕ) (pool : ChunkPool) (b : UInt64) :
    Fate log { log.modifyGroup gid e with pool := pool, retainedBytes := b } k ∨
      Kept log { log.modifyGroup gid e with pool := pool, retainedBytes := b } k := by
  have hf := groupFind_modifyGroup hw.sorted hfind hid k
  split_ifs at hf with hkg
  · exact .inr ⟨g, e g, hkg ▸ hfind, hf, hk⟩
  · exact .inl (.same hf)

theorem Quiet.fate (hq : Quiet log log') (hw : log.Wf) (k : ℕ) :
    Fate log log' k ∨ Kept log log' k := by
  cases hq with
  | room hr => exact .inl (hr.fate hw k)
  | abandon hr =>
    exact fate_modifyGroup hw (resolveOpenRec_eq_ok hr).1 rfl
      (.edit (Subgroup.Edit.ofTail (edit_abandon _)) _) k _ _
  | mark hfind hF _ _ => exact fate_modifyGroup hw hfind rfl (.edit hF _) k _ _
  | final hfind _ hF _ =>
    exact fate_modifyGroup hw hfind rfl (fun s i r hr => Group.Keeps.edit hF _ s i r hr) k _ _
  | floor n => exact .inl (.same rfl)
  | hole gid sid =>
    unfold addHole
    split <;> exact .inl (.same rfl)

/-- **A group stays, or is evicted, or is activated above the horizon.** -/
theorem Atom.fate (ha : Atom log log') (hw : log.Wf) (k : ℕ) :
    Fate log log' k ∨ Kept log log' k := by
  cases ha with
  | quiet hq => exact hq.fate hw k
  | @commit g d mem hready hc =>
    obtain ⟨f, s, n, r, hcom⟩ := hready.committed hw hc
    obtain ⟨holes, rfl⟩ := hcom.eq
    have hf := groupFind_modifyGroup hw.sorted hready.find hcom.groupId k
    split_ifs at hf with hk
    · exact .inr ⟨g, f g, hk ▸ hready.find, hf, .push hcom.pushed⟩
    · exact .inl (.same hf)
  | chunk hr hlen hc =>
    obtain ⟨node, pool, -, rfl⟩ := commitChunk_eq hc
    exact fate_modifyGroup hw (resolveOpenRec_eq_ok hr).1 rfl
      (.edit (Subgroup.Edit.ofTail (edit_addChunk _ _)) _) k _ _

/-- The fates of the groups make a later state of a log whose window keeps its beginning. -/
theorem later_of_fates (hlim : log'.lim = log.lim) (hnext : log.nextSeq ≤ log'.nextSeq)
    (hbegin : log'.beginSeq = log.beginSeq)
    (hslot : ∀ q, log.beginSeq ≤ q → q < log.nextSeq → log'.slotOf q = log.slotOf q)
    (hhor : ∀ gid, log.belowHorizon gid → log'.belowHorizon gid)
    (hfate : ∀ k, Fate log log' k ∨ Kept log log' k) : Later log log' := by
  refine ⟨hlim, hnext, hbegin.ge, fun q h1 => hslot q (hbegin ▸ h1),
    fun q h1 h2 => absurd h2 (by omega), hhor, fun k hn hk => ?_, fun k hs hn => ?_,
    fun k a b ha hb => ?_⟩
  · rcases hfate k with hf | ⟨g, g', hg, -⟩
    · cases hf with
      | same h => exact h.trans hn
      | evicted h _ => exact h
      | activated _ hhor => simp [hhor] at hk
    · simp [hg] at hn
  · rcases hfate k with hf | ⟨g, g', -, hg', -⟩
    · cases hf with
      | same h => simp [← h, hn] at hs
      | evicted _ hlost => exact hlost.horizon
      | activated habs => simp [habs] at hs
    · simp [hg'] at hn
  · rcases hfate k with hf | ⟨g, g', hg, hg', hk⟩
    · cases hf with
      | same h => exact Option.some.inj (ha.symm.trans (h.symm.trans hb)) ▸ .refl a
      | evicted h _ => simp [h] at hb
      | activated habs => simp [habs] at ha
    · cases hg.symm.trans ha
      cases hg'.symm.trans hb
      exact hk

theorem Room.later (hr : Room gid log log') (hw : log.Wf) : Later log log' := by
  have hfate : ∀ k, Fate log log' k ∨ Kept log log' k := fun k => .inl (hr.fate hw k)
  cases hr with
  | compact =>
    obtain ⟨h1, h2, h3⟩ := log.compactFrom_spec (log.nextSeq - log.beginSeq) log.beginSeq
    exact ⟨rfl, le_rfl, h1, fun _ _ _ => rfl, fun q hq hlt _ => h3 q hq hlt, fun _ h => h,
      fun _ h _ => h, fun _ h hn => absurd hn (Option.isSome_iff_ne_none.mp h),
      (Later.refl log).keeps⟩
  | drop hgs =>
    exact later_of_fates rfl le_rfl rfl (fun _ _ _ => rfl) (fun _ => horizon_raised) hfate
  | activate _ _ _ _ => exact later_of_fates rfl le_rfl rfl (fun _ _ _ => rfl) (fun _ h => h) hfate

theorem Quiet.later (hq : Quiet log log') (hw : log.Wf) : Later log log' := by
  have hfate := hq.fate hw
  cases hq with
  | room hr => exact hr.later hw
  | abandon _ | mark _ _ _ _ | final _ _ _ _ =>
    exact later_of_fates rfl le_rfl rfl (fun _ _ _ => rfl) (fun _ h => h) hfate
  | floor n =>
    exact later_of_fates rfl le_rfl rfl (fun _ _ _ => rfl) (fun _ => horizon_raised) hfate
  | hole gid sid =>
    unfold addHole
    split
    · exact .refl log
    · exact later_of_fates rfl le_rfl rfl (fun _ _ _ => rfl) (fun _ h => h) fun _ =>
        .inl (.same rfl)

/-- **Every elementary change leads to a later state.** -/
theorem Atom.later (ha : Atom log log') (hw : log.Wf) : Later log log' := by
  have hfate := ha.fate hw
  cases ha with
  | quiet hq => exact hq.later hw
  | commit hready hc =>
    obtain ⟨f, s, n, r, hcom⟩ := hready.committed hw hc
    obtain ⟨holes, rfl⟩ := hcom.eq
    exact later_of_fates rfl (Nat.le_succ _) rfl
      (fun q h1 h2 => slotOf_account { log.modifyGroup _ f with holes := holes } hready.room h1 h2)
      (fun _ h => h) hfate
  | chunk hr hlen hc =>
    obtain ⟨node, pool, -, rfl⟩ := commitChunk_eq hc
    exact later_of_fates rfl le_rfl rfl (fun _ _ _ => rfl) (fun _ h => h) hfate

theorem Atoms.later (ha : Atoms log log') (hw : log.Wf) : Later log log' := by
  induction ha with
  | refl => exact .refl log
  | tail hprev hstep ih => exact ih.trans hw (hstep.later (Atoms.wf hprev hw))

theorem OnlyCursors.later (h : OnlyCursors log log') : Later log log' := by
  obtain ⟨c, n, rfl⟩ := h
  exact later_of_fates rfl le_rfl rfl (fun _ _ _ => rfl) (fun _ h => h) fun _ => .inl (.same rfl)

theorem step_later (hw : log.Wf) (op : LogOp) : Later log (log.step op) := by
  cases hc : op.isCursor with
  | true => exact (step_cursor hw hc).later
  | false => exact (step_atoms hw hc).later hw

/-- **A run leads to a later state.** -/
theorem run_later (hw : log.Wf) (ops : List LogOp) : Later log (log.run ops) := by
  induction ops generalizing log with
  | nil => exact .refl log
  | cons op ops ih => exact (step_later hw op).trans hw (ih (step_wf hw op))

/-! ## Lost groups -/

/-- **A lost group stays lost**: what is activated later is above the horizon. -/
theorem Later.lost (h : Later log log') (hw : log.Wf) (hw' : log'.Wf) (hl : log.Lost gid) :
    log'.Lost gid := by
  refine ⟨h.horizon gid hl.horizon, fun g hg => ?_⟩
  have hfind := (groupFind_eq_some_iff hw'.sorted).mpr ⟨hg, rfl⟩
  cases hold : log.groupFind g.groupId with
  | some x =>
    obtain ⟨hx, hid⟩ := (groupFind_eq_some_iff hw.sorted).mp hold
    exact hid ▸ hl.past x hx
  | none =>
    have habove : ¬ log.belowHorizon g.groupId := fun hb => by
      rw [h.gone _ hold hb] at hfind
      cases hfind
    have hlow := hl.horizon
    simp only [belowHorizon, Bool.and_eq_true, decide_eq_true_eq] at habove hlow
    exact Nat.lt_of_not_le fun hle => habove ⟨hlow.1, hle.trans hlow.2⟩

/-- A retained group stays or is lost. -/
theorem Atom.lost (ha : Atom log log') (hw : log.Wf)
    (hk : (log.groupFind k).isSome) : (log'.groupFind k).isSome ∨ log'.Lost k := by
  rcases ha.fate hw k with hf | ⟨g, g', -, hg', -⟩
  · cases hf with
    | same h => exact .inl (h ▸ hk)
    | evicted _ hlost => exact .inr hlost
    | activated habs => simp [habs] at hk
  · exact .inl (by simp [hg'])

theorem Atoms.lost (ha : Atoms log log') (hw : log.Wf)
    (hk : (log.groupFind k).isSome) : (log'.groupFind k).isSome ∨ log'.Lost k := by
  induction ha with
  | refl => exact .inl hk
  | tail hprev hstep ih =>
    have hw' := Atoms.wf hprev hw
    rcases ih with h | h
    · exact hstep.lost hw' h
    · exact .inr ((hstep.later hw').lost hw' (hstep.wf hw') h)

/-- **Whatever is called, a retained group stays or is lost.** -/
theorem run_lost (hw : log.Wf) (ops : List LogOp) (hk : (log.groupFind k).isSome) :
    ((log.run ops).groupFind k).isSome ∨ (log.run ops).Lost k := by
  induction ops generalizing log with
  | nil => exact .inl hk
  | cons op ops ih =>
    have hw' := step_wf hw op
    have hstep : ((log.step op).groupFind k).isSome ∨ (log.step op).Lost k := by
      cases hc : op.isCursor with
      | true =>
        obtain ⟨c, n, heq⟩ := step_cursor hw hc
        exact .inl (by rw [heq]; exact hk)
      | false => exact (step_atoms hw hc).lost hw hk
    rcases hstep with h | h
    · exact ih hw' h
    · exact .inr ((run_later hw' ops).lost hw' (run_wf hw' ops) h)

end Log

end MoqRelay
