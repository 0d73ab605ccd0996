import MoqRelay.Core.Confirm
import MoqRelay.Lib.Trace
import MoqRelay.Log.Stored

/-!
# Core/TrackEnd — what a subscription has received when its track ends

`sub_eot_complete` walks the retained groups and infers a missing one from the distance between two
neighbours.  `eotFrom_iff` says what the walk establishes: every retained group it enters is
consumed and closed, and no id is missing below one of them.  Ids above the last group it enters are
not looked at, which matters when the range ends below the newest group.
-/

namespace MoqRelay

open List

/-! ## The walk over the retained groups -/

/-- A group of the subscribed range, from below the end. -/
def Sub.InRange (s : Sub) (g : ℕ) : Prop := s.hasEnd → g ≤ s.endGroup

namespace Sub

variable {s : Sub} {log : Log}

theorem inRange_iff {g : ℕ} : s.InRange g ↔ (s.hasEnd && decide (s.endGroup < g)) = false := by
  unfold InRange
  cases s.hasEnd <;> simp

/-- **What the walk establishes**: it accepts exactly when every group it enters is finished and
every id below such a group, from the expected one on, is retained. -/
theorem eotFrom_iff {gs : List ℕ} (hs : gs.Pairwise (· < ·)) (hle : ∀ g ∈ gs, g ≤ u64Max) {e : ℕ} :
    s.eotFrom log e gs ↔ ∀ g ∈ gs, e ≤ g → s.InRange g →
      s.eotGroup log g ∧ ∀ k, e ≤ k → k ≤ g → k ∈ gs := by
  -- on the groups still to visit; the expected id moves with them
  induction gs generalizing e with
  | nil => simp [eotFrom]
  | cons g gs ih =>
    obtain ⟨hlt, hs'⟩ := pairwise_cons.mp hs
    have hle' : ∀ k ∈ gs, k ≤ u64Max := fun k hk => hle k (mem_cons_of_mem _ hk)
    unfold eotFrom
    -- above the first group, an id is retained when it is among the others
    have habove : ∀ {e k : ℕ}, g < e →
        ((∀ j, e ≤ j → j ≤ k → j ∈ g :: gs) ↔ ∀ j, e ≤ j → j ≤ k → j ∈ gs) := by
      intro e k hge
      refine forall₃_congr fun j hj _ => ?_
      rw [mem_cons, or_iff_right (by omega)]
    by_cases hge : g < e
    · rw [if_pos hge, ih hs' hle', forall_mem_cons, and_iff_right fun h => absurd h (by omega)]
      simp only [habove hge]
    rw [if_neg hge]
    by_cases hr : s.InRange g
    · rw [if_neg (by simp [inRange_iff.mp hr])]
      by_cases heq : g = e
      · subst heq
        simp only [decide_true, Bool.true_and, Bool.and_eq_true]
        -- the next expected id is `g + 1`, or `g` was the last group
        have hnext : s.eotFrom log ((g + 1) % 2 ^ 64) gs ↔ s.eotFrom log (g + 1) gs := by
          rcases Nat.lt_or_ge g u64Max with hg | hg
          · rw [Nat.mod_eq_of_lt (by unfold u64Max at hg; omega)]
          · have : gs = [] := eq_nil_iff_forall_not_mem.mpr fun k hk => by
              have := hlt k hk
              have := hle' k hk
              omega
            simp [this, eotFrom]
        have hfrom : ∀ k, (∀ j, g ≤ j → j ≤ k → j ∈ g :: gs) ↔
            ∀ j, g + 1 ≤ j → j ≤ k → j ∈ gs := by
          intro k
          rw [← habove (Nat.lt_succ_self g)]
          refine ⟨fun h j hj => h j (by omega), fun h j hj hjk => ?_⟩
          rcases Nat.eq_or_lt_of_le hj with rfl | hj
          · exact mem_cons_self
          · exact h j hj hjk
        rw [hnext, ih hs' hle', forall_mem_cons]
        simp only [hfrom]
        refine and_congr ⟨fun hg _ _ => ⟨hg, by omega⟩, fun h => (h le_rfl hr).1⟩ ?_
        refine forall₂_congr fun k hk => ?_
        simp only [(hlt k hk).le, Nat.succ_le_of_lt (hlt k hk)]
      · simp only [heq, decide_false, Bool.false_and, Bool.false_eq_true, false_iff]
        intro h
        have hmem := (h g mem_cons_self (by omega) hr).2 e le_rfl (by omega)
        rcases mem_cons.mp hmem with rfl | hm
        · exact heq rfl
        · have := hlt e hm
          omega
    · have hout : (s.hasEnd && decide (s.endGroup < g)) := by
        rw [inRange_iff] at hr
        simpa using hr
      rw [if_pos hout]
      simp only [Bool.and_eq_true, decide_eq_true_eq] at hout
      refine ⟨fun _ k hk _ hrk => ?_, fun _ => rfl⟩
      have hkend := hrk hout.1
      rcases mem_cons.mp hk with rfl | hk
      · omega
      · have := hlt k hk
        omega

/-! ## A finished group -/

/-- **A group is finished for a subscription**: it is retained, every list of it is consumed, and
every subgroup list is sealed.  A final list is sealed, so this is the stronger of the two. -/
def Finished (s : Sub) (log : Log) (g : ℕ) : Prop :=
  ∃ G, log.groupFind g = some G ∧ ∃ e, s.entry? g = some e ∧
    (∀ i sg, G.sgs[i]? = some sg → sg.v.recs.length ≤ e.idx i ∧ sg.sealed) ∧
    G.dg.recs.length ≤ e.idx (s.gposLists - 1)

variable {g : ℕ} {G : Group} {e : Gpos}

section

variable (hf : log.groupFind g = some G)
include hf

/-- A record is read exactly below the length of its list. -/
theorem isOk_readRec (slot : ListSlot) {v : RecVec} (hv : G.list? slot = some v) (i : ℕ) :
    (log.readRec g slot i).isOk ↔ i < v.recs.length := by
  simp only [Log.readRec, hf, Group.recAt?, hv, Option.bind_some]
  cases h : v.recs[i]? with
  | none => simpa [Except.isOk, Except.toBool] using getElem?_eq_none_iff.mp h
  | some r => simpa [Except.isOk, Except.toBool] using (List.getElem?_eq_some_iff.mp h).1

/-- A list is done when it is read and sealed. -/
theorem eotList_subgroup {i : ℕ} {sg : Subgroup} (hi : G.sgs[i]? = some sg) :
    s.eotList log g e i ↔ sg.v.recs.length ≤ e.idx i ∧ sg.sealed := by
  have hne : i ≠ G.sgs.length := Nat.ne_of_lt (List.getElem?_eq_some_iff.mp hi).1
  have hread := isOk_readRec hf (.subgroup i) (congrArg (Option.map Subgroup.v) hi) (e.idx i)
  unfold eotList
  simp only [Log.listCount, hf, Option.map_some, Option.getD_some, listRef, posSlot, hne, if_false]
  rw [Bool.and_eq_true, Bool.not_eq_true', ← Bool.not_eq_true, hread, Nat.not_lt]
  cases hsl : sg.sealed <;>
    simp [Log.subgroupSealed, Log.subgroupIsFinal, Log.subgroup?, hf, hi, hsl]

/-- The datagrams are done when they are read. -/
theorem eotList_datagram :
    s.eotList log g e G.sgs.length ↔ G.dg.recs.length ≤ e.idx (s.gposLists - 1) := by
  have hread := isOk_readRec hf .datagram rfl (e.idx (s.gposLists - 1))
  unfold eotList
  simp only [Log.listCount, hf, Option.map_some, Option.getD_some, listRef, posSlot, if_true,
    decide_true, Bool.true_or, Bool.and_true]
  rw [Bool.not_eq_true', ← Bool.not_eq_true, hread, Nat.not_lt]

/-- The test of a group is that it is finished. -/
theorem eotGroup_iff : s.eotGroup log g ↔ s.Finished log g := by
  have hcount : log.listCount g = G.sgs.length := by simp [Log.listCount, hf]
  unfold eotGroup
  simp only [Option.any_eq_true, all_eq_true, mem_range, hcount]
  constructor
  · rintro ⟨e, he, hall⟩
    refine ⟨G, hf, e, he, fun i sg hi => ?_, (eotList_datagram hf).mp (hall _ (by omega))⟩
    have hlt := (List.getElem?_eq_some_iff.mp hi).1
    exact (eotList_subgroup hf hi).mp (hall i (by omega))
  · rintro ⟨G', hf', e, he, hsg, hdg⟩
    cases hf.symm.trans hf'
    refine ⟨e, he, fun i hi => ?_⟩
    rcases Nat.lt_succ_iff_lt_or_eq.mp hi with hi | rfl
    · have hget := getElem?_eq_getElem hi
      exact (eotList_subgroup hf hget).mpr (hsg i _ hget)
    · exact (eotList_datagram hf).mpr hdg

end

/-! ## The whole test -/

/-- **The subscription has received its range**: every group id from its start, or the eviction
floor if that is later, to its end, or the newest group if that is earlier, is finished. -/
def Covered (s : Sub) (log : Log) : Prop :=
  ∀ G ∈ log.groups.getLast?, ∀ g, s.eotStart log ≤ g → s.InRange g → g ≤ G.groupId →
    s.Finished log g

/-- No id of a range that ends below the newest group is missing. -/
def RangeRetained (s : Sub) (log : Log) : Prop :=
  s.hasEnd → ∀ G ∈ log.groups.getLast?, s.endGroup < G.groupId →
    ∀ g, s.eotStart log ≤ g → g ≤ s.endGroup → (log.groupFind g).isSome

/-- **A complete subscription has received its range iff no id of it is missing.** -/
theorem covered_iff (hlog : log.Reachable) (h : s.eotComplete log) :
    s.Covered log ↔ s.RangeRetained log := by
  have hw := hlog.wf
  obtain ⟨_, _, hst⟩ := hlog.stored
  have hids : (log.groups.map Group.groupId).Pairwise (· < ·) := pairwise_map.mpr hw.sorted
  have hle : ∀ g ∈ log.groups.map Group.groupId, g ≤ u64Max := by
    intro g hg
    obtain ⟨G, hG, rfl⟩ := mem_map.mp hg
    exact hst.group_le G hG
  have hwalk := (eotFrom_iff hids hle).mp (Bool.and_eq_true_iff.mp h).2
  have hfound : ∀ g, g ∈ log.groups.map Group.groupId ↔ (log.groupFind g).isSome := by
    intro g
    rw [Option.isSome_iff_exists, mem_map]
    exact exists_congr fun G => (Log.groupFind_eq_some_iff hw.sorted).symm
  constructor
  · intro hc hend G hG hlt g hlo hhi
    obtain ⟨G', hf, -⟩ := hc G hG g hlo (fun _ => hhi) (by omega)
    simp [hf]
  · intro hret G hG g hlo hr hnew
    have hGmem : G.groupId ∈ log.groups.map Group.groupId := mem_map_of_mem (mem_of_getLast? hG)
    -- an id of the range is retained: below the newest group by the walk, else by assumption
    have hg : g ∈ log.groups.map Group.groupId := by
      by_cases hin : s.InRange G.groupId
      · exact (hwalk G.groupId hGmem (by omega) hin).2 g hlo hnew
      · obtain ⟨hend, hlt⟩ : s.hasEnd ∧ s.endGroup < G.groupId := by simpa [InRange] using hin
        exact (hfound g).mpr (hret hend G hG hlt g hlo (hr hend))
    obtain ⟨G', hf⟩ := Option.isSome_iff_exists.mp ((hfound g).mp hg)
    exact (eotGroup_iff hf).mp (hwalk g hg hlo hr).1

end Sub

/-! ## The subscriptions a call ends -/

/-- A subscription ended with its track: its handle, and itself and its log at that moment. -/
structure TrackEnd where
  handle : Option Handle
  sub : Sub
  log : Log

/-- Its source finished or failed, and the source's terminal is forwarded to it. -/
def Sub.Forwarded (s : Sub) : Prop := s.srcAbort ∨ s.srcDone

/-- A `SUB_DONE` with status `TRACK_ENDED`. -/
def Intent.endsTrack (it : Intent) : Bool := it.kind = .subDone && it.pd.trackEnded

namespace PassState

variable {p : PassState} {b nowUs i : ℕ} {eligible : ℕ → Rec → Bool}

/-- The intents a turn adds. -/
def added (p : PassState) (b nowUs : ℕ) (eligible : ℕ → Rec → Bool) (i : ℕ) : List Intent :=
  (p.turn b nowUs eligible i).core.intents.drop p.core.intents.length

/-- The state a turn decides on: that after its scan, which a failed source skips. -/
def decided (p : PassState) (i nowUs : ℕ) (eligible : ℕ → Rec → Bool) : Core :=
  if (p.core.subs i).srcAbort then p.core else (p.scanned i nowUs eligible).core

/-- The end a turn reports with `TRACK_ENDED`, read off the intents it adds. -/
def trackEnd (b nowUs : ℕ) (eligible : ℕ → Rec → Bool) (p : PassState) (i : ℕ) : List TrackEnd :=
  if (p.added b nowUs eligible i).any Intent.endsTrack then
    let c := p.decided i nowUs eligible
    [⟨c.subHandle i, c.subs i, p.logOf i⟩]
  else []

/-- The scan writes its own subscription. -/
theorem scanned_sub : (p.scanned i nowUs eligible).core.subs i = (p.scan i nowUs eligible).sub := by
  unfold scanned Core.readyMark
  dsimp only
  split_ifs <;> simp [Core.setSub]

theorem frame_scanned : p.core.Frame (p.scanned i nowUs eligible).core := by
  unfold scanned
  dsimp only
  split
  · exact (Core.frame_setSub _ _).trans (Core.frame_readyMark _)
  · exact Core.frame_setSub _ _

/-- A choice keeps the logs, and adds an intent only when it ends the subscription. -/
theorem take_spec (ch : Choice) :
    (∀ t, ((p.take b i nowUs ch).core.tracks t).log = (p.core.tracks t).log) ∧
    ((p.take b i nowUs ch).core.intents = p.core.intents ∨
      ∃ code pd it, ch = .finish code pd ∧ (it.pd = pd ∧ it.sub = p.core.subHandle i) ∧
        (p.take b i nowUs ch).core.intents = p.core.intents ++ [it]) := by
  cases ch with
  | idle => exact ⟨fun _ => rfl, .inl rfl⟩
  | notice note | offer cand =>
    simp only [take]
    split <;> exact ⟨fun _ => rfl, .inl rfl⟩
  | finish code pd =>
    simp only [take, Core.subFinish]
    by_cases hsp : p.core.intentSpace 1
    · rw [if_pos hsp]
      refine ⟨fun t => (Core.frame_subRetire i nowUs).log t, .inr ⟨code, pd, _, rfl, ?_,
        (Core.frame_subRetire i nowUs).intents⟩⟩
      exact ⟨rfl, rfl⟩
    · rw [if_neg hsp]
      exact ⟨(Core.frame_readyMark b).log, .inl (Core.frame_readyMark b).intents⟩

/-- `TRACK_ENDED` is forwarded, or reports a finished end of track. -/
theorem choice_trackEnded {o : ScanOut} {log : Log} {space : Bool} {code : ℕ} {pd : PdDesc}
    (h : o.choice log space = .finish code pd) (hpd : pd.trackEnded) :
    o.sub.srcDone ∨ o.sub.eotComplete log := by
  unfold ScanOut.choice at h
  dsimp only at h
  split at h
  · cases h
  · split at h
    · cases h
    · split at h
      · cases h
      · split at h
        · rw [← (Choice.finish.inj h).2] at hpd
          cases hpd
        · split at h
          · exact .inl ‹_›
          · split at h
            · rename_i hc
              simp only [Bool.and_eq_true] at hc
              exact .inr hc.1.2
            · cases h
    · split at h
      · split at h
        · exact .inl ‹_›
        · cases h
      · cases h

/-- A turn keeps the logs. -/
theorem turn_log (t : ℕ) :
    ((p.turn b nowUs eligible i).core.tracks t).log = (p.core.tracks t).log := by
  unfold turn
  split
  · rfl
  · split
    · exact (take_spec _).1 t
    · split
      · exact (take_spec _).1 t
      · exact ((take_spec _).1 t).trans (frame_scanned.log t)

/-- What a turn adds to the intents: nothing, or one intent, which says `TRACK_ENDED` only if that
is forwarded or the scan found the track complete. -/
theorem turn_intents :
    (p.turn b nowUs eligible i).core.intents = p.core.intents ∨
    ∃ it : Intent, (p.turn b nowUs eligible i).core.intents = p.core.intents ++ [it] ∧
      it.sub = (p.decided i nowUs eligible).subHandle i ∧
      (it.pd.trackEnded → ((p.decided i nowUs eligible).subs i).Forwarded ∨
        ((p.decided i nowUs eligible).subs i).eotComplete (p.logOf i)) := by
  unfold turn decided
  split
  · exact .inl rfl
  · split
    · rename_i habort
      rcases (take_spec _).2 with h | ⟨code, pd, it, -, ⟨-, hsub⟩, h⟩
      · exact .inl h
      · exact .inr ⟨it, h, hsub, fun _ => .inl (.inl habort)⟩
    · split
      · rcases (take_spec _).2 with h | ⟨_, _, _, hch, -, -⟩
        · exact .inl h
        · cases hch
      · rcases (take_spec _).2 with h | ⟨code, pd, it, hch, ⟨rfl, hsub⟩, h⟩
        · exact .inl (h.trans frame_scanned.intents)
        · refine .inr ⟨it, by rw [h, frame_scanned.intents], hsub, fun hpd => ?_⟩
          rw [scanned_sub]
          exact (choice_trackEnded hch hpd).imp_left .inr

/-- The intents with `TRACK_ENDED`, by the subscription they name. -/
def endedHandles (its : List Intent) : List (Option Handle) :=
  (its.filter Intent.endsTrack).map Intent.sub

/-- **The ends of a turn are its intents with `TRACK_ENDED`**: forwarded, or found complete. -/
theorem turn_ends : (∃ new, (p.turn b nowUs eligible i).core.intents = p.core.intents ++ new ∧
      endedHandles new = (p.trackEnd b nowUs eligible i).map TrackEnd.handle) ∧
    ∀ x ∈ p.trackEnd b nowUs eligible i,
      (x.sub.Forwarded ∨ x.sub.eotComplete x.log) ∧ ∃ t, x.log = (p.core.tracks t).log := by
  rcases @turn_intents p b nowUs i eligible with h | ⟨it, h, hsub, hte⟩
  · have hnone : p.trackEnd b nowUs eligible i = [] := by simp [trackEnd, added, h]
    exact ⟨⟨[], by simpa using h, by rw [hnone]; rfl⟩, by simp [hnone]⟩
  · by_cases hends : it.endsTrack
    · have hone : p.trackEnd b nowUs eligible i = [⟨(p.decided i nowUs eligible).subHandle i,
          (p.decided i nowUs eligible).subs i, p.logOf i⟩] := by simp [trackEnd, added, h, hends]
      refine ⟨⟨[it], h, by simp [hone, endedHandles, hends, hsub]⟩, fun x hx => ?_⟩
      rw [hone, mem_singleton] at hx
      subst hx
      exact ⟨hte (Bool.and_eq_true_iff.mp hends).2, (p.core.subs i).track, rfl⟩
    · have hnone : p.trackEnd b nowUs eligible i = [] := by simp [trackEnd, added, h, hends]
      exact ⟨⟨[it], h, by simp [hnone, endedHandles, hends]⟩, by simp [hnone]⟩

end PassState

namespace Core

variable {c : Core} {h : Handle} {b nowUs : ℕ} {eligible : ℕ → Rec → Bool} {mem : Bool}

/-- A held delivery dropped. -/
def released (c : Core) (b : ℕ) : Core :=
  if (c.bindings b).outActive then c.setBinding b Binding.dropHeld else c

/-- The binding and the core a call of `next_delivery` passes over, when it gets that far: nothing
is replayed and the sweep finds nothing. -/
def passOf (c : Core) (h : Handle) : Option (ℕ × Core) :=
  (c.bindingResolve h).bind fun b =>
    if (c.bindings b).outActive && !c.pausedHold b then none
    else if ((c.released b).evictPick b).isSome then none
    else some (b, c.released b)

/-- The subscriptions a call of `next_delivery` ends with their track, in order. -/
def trackEnds (c : Core) (h : Handle) (nowUs : ℕ) (eligible : ℕ → Rec → Bool) : List TrackEnd :=
  match c.passOf h with
  | none => []
  | some (b, c') =>
    trace (fun p i => p.turn b nowUs eligible i) (PassState.trackEnd b nowUs eligible)
      ⟨c', none, none⟩
      (c'.bindings b).subs

theorem frame_hold (c : Core) (f : Binding → Binding) (d : Delivery) : c.Frame (c.hold b f d).1 :=
  frame_setBinding b _

theorem frame_holdRecord (c : Core) (i : ℕ) (cand : Cand) :
    c.Frame (c.holdRecord b i cand mem).1 := by
  unfold holdRecord
  dsimp only
  split
  · exact frame_hold c _ _
  · split
    · split
      · exact frame_setBinding b _
      · exact frame_hold c _ _
    · exact frame_hold c _ _

/-- Handing out pins, and adds no intent. -/
theorem frame_handOut (p : PassState) : p.core.Frame (handOut p b mem).1 := by
  unfold handOut
  split
  · exact .refl _
  · exact frame_holdRecord _ _ _
  · exact frame_hold _ _ _
  · split
    · exact frame_holdRecord _ _ _
    · exact frame_hold _ _ _

/-- The intents of a call are those of its pass. -/
theorem selectNew_intents (c : Core) :
    (c.selectNew b nowUs eligible mem).1.intents =
      if (c.evictPick b).isSome then c.intents else (c.pass b nowUs eligible).core.intents := by
  unfold selectNew
  cases hp : c.evictPick b with
  | some x => exact (frame_hold c _ _).intents
  | none => exact (frame_handOut _).intents

/-- The intents after a call: those of its pass, if it makes one. -/
theorem nextDelivery_intents (c : Core) (h : Handle) :
    (c.nextDelivery h nowUs eligible mem).1.intents =
      match c.passOf h with
      | none => c.intents
      | some (b, c') => (c'.pass b nowUs eligible).core.intents := by
  unfold nextDelivery passOf released
  cases c.bindingResolve h with
  | none => rfl
  | some b =>
    simp only [Option.bind_some]
    cases ha : (c.bindings b).outActive with
    | false =>
      simp only [Bool.not_false, if_true, Bool.false_and, Bool.false_eq_true, if_false,
        selectNew_intents]
      split <;> rfl
    | true =>
      cases hp : c.pausedHold b with
      | false =>
        simp only [Bool.not_true, Bool.false_eq_true, if_false, Bool.not_false,
          Bool.and_self, if_true]
        split <;> rfl
      | true =>
        simp only [Bool.not_true, Bool.false_eq_true, if_false, if_true, Bool.and_false,
          selectNew_intents]
        split <;> rfl

theorem passOf_frame {c' : Core} (hp : c.passOf h = some (b, c')) : c.Frame c' := by
  obtain ⟨b', -, hp⟩ := Option.bind_eq_some_iff.mp hp
  split at hp
  · cases hp
  · split at hp
    · cases hp
    · cases hp
      unfold released
      split
      · exact frame_setBinding _ _
      · exact .refl c

/-- **The ends of a call are the intents with `TRACK_ENDED` it adds**: each is forwarded, or found
its track complete on one of the core's logs. -/
theorem nextDelivery_ends (c : Core) (h : Handle) :
    (∃ new, (c.nextDelivery h nowUs eligible mem).1.intents = c.intents ++ new ∧
      PassState.endedHandles new = (c.trackEnds h nowUs eligible).map TrackEnd.handle) ∧
    ∀ x ∈ c.trackEnds h nowUs eligible,
      (x.sub.Forwarded ∨ x.sub.eotComplete x.log) ∧ ∃ t, x.log = (c.tracks t).log := by
  rw [nextDelivery_intents]
  unfold trackEnds
  cases hp : c.passOf h with
  | none => exact ⟨⟨[], by simp, rfl⟩, by simp⟩
  | some x =>
    obtain ⟨b, c'⟩ := x
    have hframe := passOf_frame hp
    -- along the pass, the intents so far are matched by the ends so far
    let J (p : PassState) (es : List TrackEnd) : Prop :=
      (∃ new, p.core.intents = c.intents ++ new ∧
        PassState.endedHandles new = es.map TrackEnd.handle) ∧
      (∀ t, (p.core.tracks t).log = (c.tracks t).log) ∧
      ∀ x ∈ es, (x.sub.Forwarded ∨ x.sub.eotComplete x.log) ∧
        ∃ t, x.log = (c.tracks t).log
    have hstep : ∀ (p : PassState) (es : List TrackEnd) (i : ℕ), J p es →
        J (p.turn b nowUs eligible i) (es ++ PassState.trackEnd b nowUs eligible p i) := by
      rintro p es i ⟨⟨new, h1, h2⟩, hlog, hdone⟩
      obtain ⟨⟨more, h3, h4⟩, hmore⟩ := @PassState.turn_ends p b nowUs i eligible
      refine ⟨⟨new ++ more, by rw [h3, h1, append_assoc], ?_⟩,
        fun t => (PassState.turn_log t).trans (hlog t), fun x hx => ?_⟩
      · rw [map_append, ← h2, ← h4]
        simp [PassState.endedHandles]
      · rcases mem_append.mp hx with hx | hx
        · exact hdone x hx
        · obtain ⟨h5, t, h6⟩ := hmore x hx
          exact ⟨h5, t, h6.trans (hlog t)⟩
    have hrun := trace_inv hstep (c'.bindings b).subs (show J ⟨c', none, none⟩ [] from
      ⟨⟨[], by simpa using hframe.intents, rfl⟩, hframe.log, by simp⟩)
    exact ⟨hrun.1, hrun.2.2⟩

/-- A pass leaves the logs alone. -/
theorem pass_log (c : Core) (t : ℕ) :
    ((c.pass b nowUs eligible).core.tracks t).log = (c.tracks t).log :=
  @run_rel PassState ℕ (fun p i => p.turn b nowUs eligible i)
    (fun p q => (q.core.tracks t).log = (p.core.tracks t).log)
    (fun _ => rfl) (fun _ _ _ h1 h2 => h2.trans h1) (fun _ _ => PassState.turn_log t) _ _

theorem selectNew_log (c : Core) (t : ℕ) :
    ((c.selectNew b nowUs eligible mem).1.tracks t).log = (c.tracks t).log := by
  unfold selectNew
  split
  · exact (frame_hold c _ _).log t
  · exact ((frame_handOut _).log t).trans (pass_log c t)

/-- A call of `next_delivery` leaves the logs alone. -/
theorem nextDelivery_log (c : Core) (h : Handle) (t : ℕ) :
    ((c.nextDelivery h nowUs eligible mem).1.tracks t).log = (c.tracks t).log := by
  unfold nextDelivery
  split
  · rfl
  · dsimp only
    split_ifs
    · exact selectNew_log c t
    · exact (selectNew_log _ t).trans ((frame_setBinding _ _).log t)
    · rfl
    · rfl

/-- **A subscription that ends with its track has received its range exactly when no id is missing
from a range that ends below the newest group**, unless it is the source's terminal that is
forwarded to it.  The ends are those the intents of the call report; each of these found a received
`END_OF_TRACK`. -/
theorem track_ended_covered_iff (c : Core) (hlogs : ∀ t, (c.tracks t).log.Reachable) (h : Handle)
    (nowUs : ℕ) (eligible : ℕ → Rec → Bool) (mem : Bool) :
    (∃ new, (c.nextDelivery h nowUs eligible mem).1.intents = c.intents ++ new ∧
      PassState.endedHandles new = (c.trackEnds h nowUs eligible).map TrackEnd.handle) ∧
    ∀ x ∈ c.trackEnds h nowUs eligible, ¬ x.sub.Forwarded → x.log.endOfTrack ∧
      (x.sub.Covered x.log ↔ x.sub.RangeRetained x.log) := by
  refine ⟨(nextDelivery_ends c h).1, fun x hx hown => ?_⟩
  obtain ⟨hends, t, hlog⟩ := (@nextDelivery_ends nowUs eligible mem c h).2 x hx
  have hdone := hends.resolve_left hown
  refine ⟨?_, Sub.covered_iff (hlog ▸ hlogs t) hdone⟩
  have hflags := (Bool.and_eq_true_iff.mp hdone).1
  exact (Bool.and_eq_true_iff.mp hflags).1

/-! ### A bounded range below the newest group

Group 3 is complete, group 7 ends the track, nothing between them has arrived.  The subscription
asks for groups 3 to `n` and its range end holds. -/

def endedTrack : Track :=
  { Track.cleared (Log.smallLog.run
      [.append (Log.payloadDesc 3 3) ⟨true, true, true⟩, .sealSubgroup 3 0,
        .append { Log.payloadDesc 7 0 with status := .endOfTrack, payload := none }
          ⟨true, true, true⟩]) with
    gen := 1
    subs := [0]
    state := .active
    hasLargest := true
    largestGroup := 7 }

/-- The request as the core records it, before its positions are set up. -/
def boundedSub (n : ℕ) : Sub :=
  { Sub.cleared with
    gen := 1
    bindingGen := 1
    trackGenSlot := 1
    forward := true
    rangeEndHolds := true
    state := .active
    hasLocation := true
    location := ⟨.groupEnd, 0, 3, 0, n, 0⟩ }

/-- The core once the subscription is active. -/
def boundedCore (n : ℕ) : Core where
  lim := ⟨1, 1, 4, 0⟩
  interestSeq := 0
  roomEpoch := 0
  bindings _ := { Binding.cleared with gen := 1, subs := [0] }
  ready _ := false
  readyCount := 0
  tracks _ := endedTrack
  subs _ := ((((boundedSub n).gposAlloc endedTrack.log true true true).getD
    (boundedSub n)).resolveLocation true 7 0).excludeRetained endedTrack.log
  intentReserved := 0
  intents := []

/-- Its binding. -/
def boundedHandle : Handle := ⟨poolBinding, 1, 1, 0⟩

/-- One delivery, confirmed. -/
def deliverOnce (c : Core) : Core :=
  ((c.nextDelivery boundedHandle 0 (fun _ _ => true) true).1.deliveryDone boundedHandle
    .delivered 0).1

/-- The record of group 3 and the seal of its list are delivered. -/
def servedCore (n : ℕ) : Core := (boundedCore n).deliverOnce.deliverOnce

theorem deliverOnce_log (c : Core) (t : ℕ) : (c.deliverOnce.tracks t).log = (c.tracks t).log :=
  ((frame_deliveryDone _ _ _).log t).trans (nextDelivery_log c _ t)

theorem servedCore_reachable (n t : ℕ) : ((servedCore n).tracks t).log.Reachable := by
  have hlog : ((servedCore n).tracks t).log = endedTrack.log :=
    (deliverOnce_log _ t).trans (deliverOnce_log _ t)
  rw [hlog]
  exact ⟨Log.smallCfg, true, Log.smallLog, _, rfl, rfl⟩

/-- What decides the two cases: the range, the retained groups, whether a terminal is forwarded, and
the ids looked up. -/
def endView (x : TrackEnd) : (Bool × ℕ × ℕ) × Option ℕ × List Bool :=
  ((x.sub.hasEnd, x.sub.eotStart x.log, x.sub.endGroup), x.log.groups.getLast?.map Group.groupId,
    [x.sub.srcAbort || x.sub.srcDone, (x.log.groupFind 3).isSome, (x.log.groupFind 4).isSome])

/-- Nothing has arrived, and the source has finished with its draft's number for `TRACK_ENDED`. -/
def forwardedCore : Core :=
  { boundedCore 5 with
    tracks := fun _ => { endedTrack with log := Log.smallLog }
    subs := fun _ => { boundedSub 5 with srcDone := true, srcDonePd := ⟨.wireD18, 0x2⟩ } }

theorem servedCore_ends :
    ((servedCore 3).trackEnds boundedHandle 0 fun _ _ => true).map endView =
        [((true, 3, 3), some 7, [false, true, false])] ∧
      ((servedCore 5).trackEnds boundedHandle 0 fun _ _ => true).map endView =
        [((true, 3, 5), some 7, [false, true, false])] := by
  decide +kernel

theorem track_ended_covered_three :
    ∃ x ∈ (servedCore 3).trackEnds boundedHandle 0 fun _ _ => true,
      x.log.endOfTrack ∧ x.sub.Covered x.log := by
  obtain ⟨x, hx, hv⟩ := mem_map.mp (servedCore_ends.1 ▸ mem_singleton_self _)
  simp only [endView, Prod.mk.injEq, cons.injEq] at hv
  obtain ⟨⟨-, hlo, hhi⟩, -, hown, h3, -⟩ := hv
  obtain ⟨hend, hiff⟩ := (track_ended_covered_iff (servedCore 3) (servedCore_reachable 3)
    boundedHandle 0 (fun _ _ => true) true).2 x hx (by simpa [Sub.Forwarded] using hown)
  refine ⟨x, hx, hend, hiff.mpr fun _ _ _ _ g h1 h2 => ?_⟩
  obtain rfl : g = 3 := by omega
  exact h3

/-- Groups 4 and 5 never arrived, and the subscription to groups 3 to 5 ends with its track; and one
to a track that has not ended does, when its source said so. -/
theorem track_ended_missing_group :
    (∀ t, ((servedCore 5).tracks t).log.Reachable) ∧
    (∃ x ∈ (servedCore 5).trackEnds boundedHandle 0 fun _ _ => true,
      ¬ x.sub.Forwarded ∧ ¬ x.sub.Covered x.log) ∧
    (forwardedCore.trackEnds boundedHandle 0 fun _ _ => true).map (fun x => x.log.endOfTrack) =
      [false] := by
  refine ⟨servedCore_reachable 5, ?_, by decide +kernel⟩
  obtain ⟨x, hx, hv⟩ := mem_map.mp (servedCore_ends.2 ▸ mem_singleton_self _)
  simp only [endView, Prod.mk.injEq, cons.injEq] at hv
  obtain ⟨⟨-, hlo, hhi⟩, hlast, hown, -, h4, -⟩ := hv
  obtain ⟨G, hG, hid⟩ := Option.map_eq_some_iff.mp hlast
  refine ⟨x, hx, by simpa [Sub.Forwarded] using hown, fun hc => ?_⟩
  obtain ⟨G', hf, -⟩ := hc G hG 4 (by omega) (fun _ => by omega) (by omega)
  simp [hf] at h4

end Core

end MoqRelay
