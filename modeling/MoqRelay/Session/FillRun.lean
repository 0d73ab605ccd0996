import MoqRelay.Lib.Trace
import MoqRelay.Session.FillOwner

/-!
# Session/FillRun — the ownership table over whole runs

One entry evolves monotonically: it keeps its identity, its first terminal, its bound stream and
its data terminal, and each effect is committed once (`FillEntry.Evolves`).  A call on the table
lets one entry evolve, opens an inactive slot under the next generation, or clears an entry whose
stream is accounted (`FillTable.Change`).  Everything a run keeps is read off these three.
-/

namespace MoqRelay

open List Function

/-- What a call commits for an entry, once it answered `MOQ_OK`. -/
inductive FillEffect
  | accounted | published | fin | reset
  deriving DecidableEq, Repr

/-- An effect, with the occupant of the slot it was committed for. -/
structure FillEvent where
  (slot generation : ℕ)
  effect : FillEffect
  deriving DecidableEq, Repr

/-- The effect a call asks for. -/
def FillOp.effect : FillOp → Option (FillRef × FillEffect)
  | .streamAccounted ref => some (ref, .accounted)
  | .terminalCommitted ref => some (ref, .published)
  | .actionCommitted ref .fin => some (ref, .fin)
  | .actionCommitted ref .reset => some (ref, .reset)
  | _ => none

/-! ## One entry -/

namespace FillEntry

variable {e e' e'' : FillEntry} {es : List FillEffect} {fresh : ℕ → Prop}

/-- An entry that uses no stream has none bound, and a stream ends in one way. -/
structure Wf (e : FillEntry) : Prop where
  noStream : e.noStream → e.streamBound = false
  oneEnd : ¬ (e.dataFin ∧ e.dataReset)

/-- **How one entry moves** while a call commits `es` for it: nothing recorded is unrecorded, and a
newly bound stream is `fresh`. -/
structure Evolves (fresh : ℕ → Prop) (es : List FillEffect) (e e' : FillEntry) : Prop where
  generation : e'.generation = e.generation
  active : e'.active = e.active
  parent : e'.parent = e.parent
  initiatingId : e'.initiatingId = e.initiatingId
  reason : e.terminalReason ≠ .none → e'.terminalReason = e.terminalReason
  bound : e.streamBound → e'.streamBound ∧ e'.stream = e.stream
  binds : e'.streamBound → e.streamBound ∨ fresh e'.stream
  accounted : es.count .accounted + e.streamAccounted.toNat = e'.streamAccounted.toNat
  published : es.count .published + e.terminalPublished.toNat = e'.terminalPublished.toNat
  fin : .fin ∈ es ∨ e.dataFin → e'.dataFin
  reset : .reset ∈ es ∨ e.dataReset → e'.dataReset
  wf : e.Wf → e'.Wf

/-- The fields that `Evolves` speaks about. -/
def recorded (e : FillEntry) :=
  (e.generation, e.active, e.parent, e.initiatingId, e.noStream, e.terminalReason, e.streamBound,
    e.stream, e.streamAccounted, e.terminalPublished, e.dataFin, e.dataReset)

/-- An update of the other fields. -/
theorem Evolves.of_recorded (h : e'.recorded = e.recorded) : Evolves fresh [] e e' := by
  simp only [recorded, Prod.mk.injEq] at h
  obtain ⟨h1, h2, h3, h4, h5, h6, h7, h8, h9, h10, h11, h12⟩ := h
  refine ⟨h1, h2, h3, h4, fun _ => h6, fun hb => ⟨h7.trans hb, h8⟩, fun hb => .inl (h7 ▸ hb), ?_,
    ?_, ?_, ?_, fun hw => ⟨fun hn => h7 ▸ hw.noStream (h5 ▸ hn), by rw [h11, h12]; exact hw.oneEnd⟩⟩
  · rw [h9, count_nil, Nat.zero_add]
  · rw [h10, count_nil, Nat.zero_add]
  · rw [h11]
    exact fun hf => hf.resolve_left not_mem_nil
  · rw [h12]
    exact fun hf => hf.resolve_left not_mem_nil

theorem Evolves.refl : Evolves fresh [] e e := .of_recorded rfl

theorem Evolves.reasoned (h : Evolves fresh es e e') (r : FillTerm) :
    Evolves fresh es e (e'.reasonFirst r) := by
  unfold reasonFirst
  split_ifs with hr
  · exact { h with
      reason := fun hne => absurd ((h.reason hne).symm.trans hr) hne
      wf := fun hw => ⟨(h.wf hw).noStream, (h.wf hw).oneEnd⟩ }
  · exact h

theorem Evolves.first (r : FillTerm) (h : e'.recorded = e.recorded := by rfl) :
    Evolves fresh [] e (e'.reasonFirst r) :=
  (Evolves.of_recorded h).reasoned r

/-! ### The calls that commit nothing -/

theorem controlResponse_evolves (id : ℕ) (accepted : Bool) :
    Evolves fresh [] e (e.controlResponse id accepted).2 := by
  unfold controlResponse
  split_ifs
  exacts [.refl, .refl, .first _, .first _, .of_recorded rfl]

theorem controlReset_evolves (id : ℕ) : Evolves fresh [] e (e.controlReset id).2 := by
  unfold controlReset
  split_ifs
  exacts [.refl, .refl, .refl, .first _]

theorem cancel_evolves : Evolves fresh [] e e.cancel.2 := by
  unfold cancel
  split_ifs
  exacts [.refl, .refl, .refl, .first _]

theorem abort_evolves : Evolves fresh [] e e.abort.2 := by
  unfold abort
  split_ifs
  exacts [.refl, .refl, .refl, .first _]

theorem finish_evolves : Evolves fresh [] e e.finish.2 := by
  unfold finish
  split_ifs
  exacts [.refl, .refl, .refl, .of_recorded rfl]

theorem parentCancel_evolves : Evolves fresh [] e e.parentCancel.2 := .first _

theorem localRetired_evolves (stream : ℕ) : Evolves fresh [] e (e.localRetired stream).2 := by
  unfold localRetired
  split_ifs
  exacts [.refl, .refl, .of_recorded rfl]

theorem receivePeerStop_evolves (stream : ℕ) : Evolves fresh [] e (e.receivePeerStop stream).2 := by
  unfold receivePeerStop
  split_ifs
  exacts [.refl, .of_recorded rfl, .first _]

theorem retireTerminal_evolves : Evolves fresh [] e e.retireTerminal.2 := by
  unfold retireTerminal
  split_ifs
  exacts [.refl, .of_recorded rfl]

/-- A delivery is recorded once, and never as `NO_STREAM` over a bound stream. -/
theorem resolveDelivery_evolves (id : ℕ) (d : FillDelivery) :
    Evolves fresh [] e (e.resolveDelivery id d).2 := by
  unfold resolveDelivery
  split_ifs with _ _ _ h
  iterate 4 exact .refl
  · have hrec : Evolves fresh [] e { e with delivery := d, deliveryKnown := true } := by
      have hid : Evolves fresh [] e e := .refl
      refine { hid with wf := fun hw => ⟨fun hn => ?_, hw.oneEnd⟩ }
      simp only [noStream, Bool.true_and] at hn
      simpa [hn] using h
    unfold recordDelivery
    dsimp only
    split_ifs
    exacts [hrec.reasoned _, hrec]

/-- A stream is bound once, to an entry that may use one. -/
theorem bindStream_evolves {stream : ℕ} (role : FillRole) {taken : Bool}
    (hfresh : taken = false → fresh stream) :
    Evolves fresh [] e (e.bindStream stream role taken).2 := by
  unfold bindStream
  split_ifs with _ hb _ hn _ ht
  iterate 6 exact .refl
  · have hid : Evolves fresh [] e e := .refl
    exact { hid with
      bound := fun h => absurd h hb
      binds := fun _ => .inr (hfresh (Bool.eq_false_iff.mpr ht))
      wf := fun hw => ⟨fun h => absurd h hn, hw.oneEnd⟩ }

/-! ### Data terminals and effects -/

/-- A bound stream that did not end has neither terminal. -/
theorem not_ended (hb : e.streamBound) (he : ¬ e.streamEnded) :
    e.dataFin = false ∧ e.dataReset = false := by
  simp only [streamEnded, dataTerminal, hb, Bool.true_and, Bool.or_eq_true, not_or,
    Bool.not_eq_true] at he
  exact he.1

/-- The first terminal of a stream is its FIN. -/
theorem fin_evolves (h : e.dataReset = false) :
    Evolves fresh [.fin] e { e with dataFin := true } := by
  have hid : Evolves fresh [] e e := .refl
  exact { hid with
    fin := fun _ => rfl
    reset := fun hr => hr.resolve_left (by decide)
    wf := fun hw => ⟨hw.noStream, fun hc => Bool.false_ne_true (h.symm.trans hc.2)⟩ }

/-- The first terminal of a stream is its RESET. -/
theorem reset_evolves (h : e.dataFin = false) :
    Evolves fresh [.reset] e { e with dataReset := true } := by
  have hid : Evolves fresh [] e e := .refl
  exact { hid with
    fin := fun hr => hr.resolve_left (by decide)
    reset := fun _ => rfl
    wf := fun hw => ⟨hw.noStream, fun hc => Bool.false_ne_true (h.symm.trans hc.1)⟩ }

/-- A terminal the peer sent is not an effect of this side. -/
theorem Evolves.forget (h : Evolves fresh es e e') (ha : .accounted ∉ es) (hp : .published ∉ es) :
    Evolves fresh [] e e' :=
  { h with
    accounted := by rw [← h.accounted, count_eq_zero_of_not_mem ha, count_nil]
    published := by rw [← h.published, count_eq_zero_of_not_mem hp, count_nil]
    fin := fun hf => h.fin (.inr (hf.resolve_left not_mem_nil))
    reset := fun hf => h.reset (.inr (hf.resolve_left not_mem_nil)) }

theorem receiveTerminal_evolves (stream : ℕ) (reset : Bool) :
    Evolves fresh [] e (e.receiveTerminal stream reset).2 := by
  unfold receiveTerminal
  split_ifs with hg he hr
  · exact .refl
  · exact .refl
  all_goals
    simp only [Bool.or_eq_true, not_or, Bool.not_eq_true', Bool.not_eq_false] at hg
    have hend := not_ended hg.1.2 he
  · exact ((reset_evolves hend.1).forget (by decide) (by decide)).reasoned _
  · exact ((fin_evolves hend.2).forget (by decide) (by decide)).reasoned _

/-- The effect of committing an action. -/
def actionEffects : FillAction → List FillEffect
  | .fin => [.fin]
  | .reset => [.reset]
  | _ => []

/-- An action committed before is on record. -/
theorem committed_evolves {action : FillAction} (h : e.committed action) :
    Evolves fresh (actionEffects action) e e := by
  have hid : Evolves fresh [] e e := .refl
  cases action with
  | none | header | stop => exact hid
  | fin =>
    have hf : e.dataFin := by simp_all [committed]
    exact { hid with fin := fun _ => hf, reset := fun h => h.resolve_left (by decide) }
  | reset =>
    have hr : e.dataReset := by simp_all [committed]
    exact { hid with reset := fun _ => hr, fin := fun h => h.resolve_left (by decide) }

/-- An action other than a stop is asked for only while the stream is bound and not over. -/
theorem nextAction_data (h : e.nextAction = .fin ∨ e.nextAction = .reset) :
    e.streamBound ∧ ¬ e.streamEnded := by
  unfold nextAction at h
  split_ifs at h with h1 h2 h3 h4 h5 h6 h7 <;> simp_all

theorem actionCommitted_evolves (action : FillAction) :
    Evolves fresh (if (e.actionCommitted action).1 = .ok then actionEffects action else []) e
      (e.actionCommitted action).2 := by
  unfold actionCommitted
  by_cases h1 : (action = .none || action = .header)
  · rw [if_pos h1]
    exact .refl
  rw [if_neg h1]
  by_cases h2 : e.committed action
  · rw [if_pos h2]
    exact committed_evolves h2
  rw [if_neg h2]
  by_cases h3 : e.nextAction ≠ action
  · rw [if_pos h3]
    exact .refl
  obtain rfl := not_ne_iff.mp h3
  cases ha : e.nextAction with
  | none | header => simp [ha] at h1
  | stop => exact .of_recorded rfl
  | fin =>
    obtain ⟨hb, he⟩ := nextAction_data (.inl ha)
    exact (fin_evolves (not_ended hb he).2).reasoned _
  | reset =>
    obtain ⟨hb, he⟩ := nextAction_data (.inr ha)
    exact (reset_evolves (not_ended hb he).1).reasoned _

theorem accountStream_evolves :
    Evolves fresh (if e.accountStream.1 = .ok then [.accounted] else []) e e.accountStream.2 := by
  unfold accountStream
  by_cases h : (!e.streamEnded || e.streamAccounted)
  · rw [if_pos h]
    exact .refl
  · rw [if_neg h, if_pos rfl]
    have hid : Evolves fresh [] e e := .refl
    simp only [Bool.or_eq_true, not_or, Bool.not_eq_true] at h
    exact { hid with
      accounted := by rw [h.2]; rfl
      fin := fun hf => hf.resolve_left (by decide)
      reset := fun hf => hf.resolve_left (by decide)
      wf := fun hw => ⟨hw.noStream, hw.oneEnd⟩ }

theorem terminalCommitted_evolves :
    Evolves fresh (if e.terminalCommitted.1 = .ok then [.published] else []) e
      e.terminalCommitted.2 := by
  unfold terminalCommitted
  by_cases h : (!e.terminalReady)
  · rw [if_pos h]
    exact .refl
  · rw [if_neg h, if_pos rfl]
    have hid : Evolves fresh [] e e := .refl
    have hp : e.terminalPublished = false := by
      simp only [terminalReady, Bool.not_eq_true', Bool.not_eq_false] at h
      split_ifs at h with h1 <;> simp_all
    exact { hid with
      published := by rw [hp]; rfl
      fin := fun hf => hf.resolve_left (by decide)
      reset := fun hf => hf.resolve_left (by decide)
      wf := fun hw => ⟨hw.noStream, hw.oneEnd⟩ }

/-- **What a later occupant of a slot owes an earlier one**: generations do not decrease, a closed
slot reopens only under a later generation, and an occupant keeps its parent and its first
terminal. -/
structure Follows (e e' : FillEntry) : Prop where
  generation : e.generation ≤ e'.generation
  reopened : e.active = false → e'.active → e.generation < e'.generation
  kept : e.active → e'.active → e'.generation = e.generation →
    e'.parent = e.parent ∧ (e.terminalReason ≠ .none → e'.terminalReason = e.terminalReason)

theorem Follows.refl (e : FillEntry) : e.Follows e where
  generation := le_rfl
  reopened h h' := absurd (h.symm.trans h') Bool.false_ne_true
  kept _ _ _ := ⟨rfl, fun _ => rfl⟩

theorem Follows.trans (h : e.Follows e') (h' : e'.Follows e'') : e.Follows e'' where
  generation := h.generation.trans h'.generation
  reopened ha hc := by
    cases hb : e'.active with
    | false => exact h.generation.trans_lt (h'.reopened hb hc)
    | true => exact (h.reopened ha hb).trans_le h'.generation
  kept ha hc hg := by
    have hab := h.generation
    have hbc := h'.generation
    cases hb : e'.active with
    | false =>
      have := h'.reopened hb hc
      omega
    | true =>
      obtain ⟨hp, hr⟩ := h.kept ha hb (by omega)
      obtain ⟨hp', hr'⟩ := h'.kept hb hc (by omega)
      refine ⟨hp'.trans hp, fun hne => ?_⟩
      rw [hr' (by rwa [hr hne]), hr hne]

end FillEntry

/-! ## What one call does to the table -/

namespace FillTable

variable {t t' : FillTable} {ref : FillRef} {e : FillEntry} {r : FillReservation}
  {evs : List FillEvent}

/-- What a call commits. -/
def emit (t : FillTable) (op : FillOp) : List FillEvent :=
  match op.effect with
  | none => []
  | some (ref, k) =>
    (if (t.call op).1 = .ok then [k] else []).map (FillEvent.mk ref.slot ref.generation)

/-- A stream reference that may be bound. -/
def Fresh (t : FillTable) (stream : ℕ) : Prop := stream ≠ 0 ∧ t.streamTaken stream = false

/-- **One call**: nothing, one entry moves, a slot opens, or an entry is cleared. -/
inductive Change (t : FillTable) : List FillEvent → FillTable → Prop
  | same : Change t [] t
  | touch {ref : FillRef} {e e' : FillEntry} {es : List FillEffect}
      (found : t.lookup ref = some e) (moves : e.Evolves t.Fresh es e') :
      Change t (es.map (FillEvent.mk ref.slot ref.generation)) (t.setEntry ref.slot e')
  | opens {r : FillReservation} (checked : t.checkCommit r = .ok) :
      Change t [] { t.setEntry r.ref.slot (opened r) with live := t.live + 1 }
  | clears {ref : FillRef} {e : FillEntry} (found : t.lookup ref = some e)
      (settled : e.streamBound → e.streamAccounted) :
      Change t [] (t.clear ref.slot)

theorem lookup_eq_some (h : t.lookup ref = some e) :
    t.valid ∧ ref.slot < t.capacity ∧ t.entries ref.slot = e ∧ e.active ∧
      e.generation = ref.generation ∧ e.parent = ref.parent := by
  unfold lookup at h
  split_ifs at h with h1 h2
  cases h
  simp only [Bool.or_eq_true, not_or, Bool.not_eq_true', decide_eq_true_eq, Bool.and_eq_true,
    Bool.not_eq_false, not_le] at h1 h2
  exact ⟨h1.1.1, h1.1.2, rfl, h2.1.1, h2.1.2, h2.2⟩

/-- What a checked reservation found. -/
theorem checkCommit_ok (h : t.checkCommit r = .ok) :
    r.ref.slot < t.capacity ∧ (t.entries r.ref.slot).active = false ∧
      (t.entries r.ref.slot).generation ≠ u64Max ∧
      r.ref.generation = (t.entries r.ref.slot).generation + 1 ∧
      t.anyActive (·.initiatingId = r.initiatingId) = false := by
  unfold checkCommit at h
  split_ifs at h with h1 h2 h3 h4 h5
  simp only [Bool.or_eq_true, not_or, decide_eq_true_eq, not_not, Bool.not_eq_true] at h3 h5
  exact ⟨not_le.mp h2, h3.1.1, h3.1.2, h3.2, h5⟩

variable {i : ℕ} {f : FillEntry → MoqResult × FillEntry} {es : List FillEffect}

theorem anyActive_eq_false {p : FillEntry → Bool} (h : t.anyActive p = false)
    (hi : i < t.capacity) (ha : (t.entries i).active) : p (t.entries i) = false := by
  have := any_eq_false.mp h i (mem_range.mpr hi)
  simpa [ha] using this

/-- A call that names one entry moves it. -/
theorem onEntry_change (ref : FillRef)
    (hf : ∀ e : FillEntry, e.Evolves t.Fresh (if (f e).1 = .ok then es else []) (f e).2) :
    t.Change ((if (t.onEntry ref f).1 = .ok then es else []).map
      (FillEvent.mk ref.slot ref.generation)) (t.onEntry ref f).2 := by
  unfold onEntry
  cases h : t.lookup ref with
  | none => exact .same
  | some e => exact .touch h (hf e)

/-- …and commits nothing, if it never does. -/
theorem onEntry_quiet (ref : FillRef)
    (hf : ∀ e : FillEntry, e.Evolves t.Fresh [] (f e).2) : t.Change [] (t.onEntry ref f).2 := by
  simpa using @onEntry_change t f [] ref (by simpa using hf)

theorem resolveDelivery_change (ref : FillRef) (id : ℕ) (d : Option FillDelivery) :
    t.Change [] (t.resolveDelivery ref id d).2 := by
  cases d with
  | none => exact .same
  | some d =>
    unfold resolveDelivery
    dsimp only
    split_ifs
    · exact .same
    · exact onEntry_quiet ref fun _ => FillEntry.resolveDelivery_evolves id d

theorem bindStream_change (ref : FillRef) (stream : ℕ) (role : FillRole) :
    t.Change [] (t.bindStream ref stream role).2 := by
  unfold bindStream
  split_ifs with h
  · exact .same
  · exact onEntry_quiet ref fun _ => FillEntry.bindStream_evolves role fun ht => ⟨h, ht⟩

theorem commit_change (r : FillReservation) : t.Change [] (t.commit r).2 := by
  unfold commit
  split_ifs with h
  · exact .same
  · exact .opens (not_ne_iff.mp h)

theorem reclaim_settled (h : e.reclaimable) (hb : e.streamBound) : e.streamAccounted := by
  simp only [FillEntry.reclaimable, FillEntry.dataSettled, hb, if_true, Bool.and_eq_true] at h
  exact h.2.2

theorem reclaim_change (ref : FillRef) : t.Change [] (t.reclaim ref).2 := by
  unfold reclaim
  cases h : t.lookup ref with
  | none => exact .same
  | some e =>
    dsimp only
    split_ifs with hr
    · exact .same
    · exact .clears h (reclaim_settled (by simpa using hr))

theorem releaseUnbound_change (ref : FillRef) : t.Change [] (t.releaseUnbound ref).2 := by
  unfold releaseUnbound
  cases h : t.lookup ref with
  | none => exact .same
  | some e =>
    dsimp only
    split_ifs with hr
    · exact .same
    · simp only [Bool.or_eq_true, not_or] at hr
      exact .clears h fun hb => absurd hb hr.1

theorem actionCommitted_change (ref : FillRef) (action : FillAction) :
    t.Change (t.emit (.actionCommitted ref action)) (t.step (.actionCommitted ref action)) := by
  have h : t.Change _ (t.onEntry ref _).2 :=
    onEntry_change ref fun _ => FillEntry.actionCommitted_evolves action
  cases action with
  | fin | reset => exact h
  | _ => simpa [FillEntry.actionEffects, emit, FillOp.effect, step, call] using h

/-- **Every call is a change.** -/
theorem step_change (t : FillTable) (op : FillOp) : t.Change (t.emit op) (t.step op) := by
  cases op with
  | prepare => exact .same
  | commit r => exact commit_change r
  | find | read => exact .same
  | controlResponse ref id accepted =>
    exact onEntry_quiet ref fun _ => FillEntry.controlResponse_evolves id accepted
  | controlReset ref id => exact onEntry_quiet ref fun _ => FillEntry.controlReset_evolves id
  | resolveDelivery ref id d => exact resolveDelivery_change ref id d
  | cancel ref => exact onEntry_quiet ref fun _ => FillEntry.cancel_evolves
  | abort ref => exact onEntry_quiet ref fun _ => FillEntry.abort_evolves
  | finish ref => exact onEntry_quiet ref fun _ => FillEntry.finish_evolves
  | parentCancel ref => exact onEntry_quiet ref fun _ => FillEntry.parentCancel_evolves
  | bindReceived ref stream | headerCommitted ref stream => exact bindStream_change ref stream _
  | peerFin ref stream | peerReset ref stream =>
    exact onEntry_quiet ref fun _ => FillEntry.receiveTerminal_evolves stream _
  | localRetired ref stream =>
    exact onEntry_quiet ref fun _ => FillEntry.localRetired_evolves stream
  | peerStop ref stream => exact onEntry_quiet ref fun _ => FillEntry.receivePeerStop_evolves stream
  | actionCommitted ref action => exact actionCommitted_change ref action
  | next => exact .same
  | streamAccounted ref => exact onEntry_change ref fun _ => FillEntry.accountStream_evolves
  | terminalCommitted ref => exact onEntry_change ref fun _ => FillEntry.terminalCommitted_evolves
  | terminalRetired ref => exact onEntry_quiet ref fun _ => FillEntry.retireTerminal_evolves
  | reclaim ref => exact reclaim_change ref
  | releaseUnbound ref => exact releaseUnbound_change ref
  | publisherClear => exact .same

/-! ## The table invariant -/

/-- **The table invariant.** -/
structure Wf (t : FillTable) : Prop where
  live : t.live = (range t.capacity).countP fun i => (t.entries i).active
  generation : ∀ i, (t.entries i).generation ≤ u64Max
  entry : ∀ i, (t.entries i).active → i < t.capacity ∧ (t.entries i).Wf ∧
    ((t.entries i).streamBound → (t.entries i).stream ≠ 0)
  distinct : ∀ i j, (t.entries i).active → (t.entries j).active →
    ((t.entries i).initiatingId = (t.entries j).initiatingId ∨
      (t.entries i).streamBound ∧ (t.entries j).streamBound ∧
        (t.entries i).stream = (t.entries j).stream) → i = j

theorem Wf.init (capacity : ℕ) : (init capacity).Wf where
  live := by simp [FillTable.init]
  generation _ := Nat.zero_le _
  entry := nofun
  distinct := nofun

theorem Wf.valid (hw : t.Wf) : t.valid := by
  have := countP_le_length (p := fun i => (t.entries i).active) (l := range t.capacity)
  rw [← hw.live, length_range] at this
  exact decide_eq_true this

@[simp] theorem setEntry_self : (t.setEntry i e).entries i = e := update_self ..

@[simp] theorem setEntry_of_ne {j : ℕ} (h : j ≠ i) : (t.setEntry i e).entries j = t.entries j :=
  update_of_ne h ..

variable {live : ℕ} {e' : FillEntry}

/-- **Writing an entry** keeps the table invariant, if its identity and its stream are its own. -/
theorem Wf.write (hw : t.Wf) (hi : i < t.capacity) (hgen : e.generation ≤ u64Max)
    (hwf : e.active → e.Wf ∧ (e.streamBound → e.stream ≠ 0))
    (hother : e.active → ∀ j, j ≠ i → (t.entries j).active →
      (t.entries j).initiatingId ≠ e.initiatingId ∧ (e.streamBound →
        (t.entries j).streamBound → (t.entries j).stream ≠ e.stream))
    (hlive : live + (t.entries i).active.toNat = t.live + e.active.toNat) :
    Wf { t.setEntry i e with live := live } where
  live := by
    have hcount := countP_range_update FillEntry.active t.entries hi e
    have hold := hw.live
    change live = (range t.capacity).countP fun j => (update t.entries i e j).active
    omega
  generation :=
    (forall_update_iff t.entries fun _ x => x.generation ≤ u64Max).mpr
      ⟨hgen, fun j _ => hw.generation j⟩
  entry := (forall_update_iff t.entries fun j x => x.active → j < t.capacity ∧
      x.Wf ∧ (x.streamBound → x.stream ≠ 0)).mpr
    ⟨fun ha => ⟨hi, hwf ha⟩, fun j _ => hw.entry j⟩
  distinct j k := by
    by_cases hj : j = i <;> by_cases hk : k = i
    · exact fun _ _ _ => hj.trans hk.symm
    · rw [hj, setEntry_self, setEntry_of_ne hk]
      rintro ha hk' (heq | ⟨hb, hb', heq⟩)
      · exact absurd heq.symm (hother ha k hk hk').1
      · exact absurd heq.symm ((hother ha k hk hk').2 hb hb')
    · rw [hk, setEntry_self, setEntry_of_ne hj]
      rintro hj' ha (heq | ⟨hb', hb, heq⟩)
      · exact absurd heq (hother ha j hj hj').1
      · exact absurd heq ((hother ha j hj hj').2 hb hb')
    · rw [setEntry_of_ne hj, setEntry_of_ne hk]
      exact hw.distinct j k

/-- An entry that moves keeps the table invariant. -/
theorem Wf.touch (hw : t.Wf) (found : t.lookup ref = some e) (moves : e.Evolves t.Fresh es e') :
    (t.setEntry ref.slot e').Wf := by
  obtain ⟨-, hslot, rfl, hact, -, -⟩ := lookup_eq_some found
  obtain ⟨-, hwf, hstream⟩ := hw.entry _ hact
  refine hw.write hslot (moves.generation ▸ hw.generation _) (fun _ => ⟨moves.wf hwf, fun hb => ?_⟩)
    (fun _ j hne hj => ⟨fun heq => ?_, fun hb hbj heq => ?_⟩) (by rw [moves.active])
  -- a bound stream is the one bound before, or one that no active entry held
  · rcases moves.binds hb with hold | hfresh
    · exact (moves.bound hold).2 ▸ hstream hold
    · exact hfresh.1
  · exact hne (hw.distinct j _ hj hact (.inl (heq.trans moves.initiatingId)))
  · rcases moves.binds hb with hold | hfresh
    · exact hne (hw.distinct j _ hj hact (.inr ⟨hbj, hold, heq.trans (moves.bound hold).2⟩))
    · have := anyActive_eq_false hfresh.2 (hw.entry j hj).1 hj
      simp [hbj, heq] at this

/-- Opening an inactive slot keeps the table invariant. -/
theorem Wf.opens (hw : t.Wf) (h : t.checkCommit r = .ok) :
    Wf { t.setEntry r.ref.slot (opened r) with live := t.live + 1 } := by
  obtain ⟨hslot, hact, hmax, hgen, hid⟩ := checkCommit_ok h
  have hle := hw.generation r.ref.slot
  refine hw.write hslot ?_ (fun _ => ⟨⟨fun _ => rfl, nofun⟩, nofun⟩)
    (fun _ j _ hj => ⟨fun heq => ?_, nofun⟩) (by rw [hact]; rfl)
  · change r.ref.generation ≤ u64Max
    omega
  · have := anyActive_eq_false hid (hw.entry j hj).1 hj
    exact of_decide_eq_false this heq

/-- Clearing an entry keeps the table invariant. -/
theorem Wf.clears (hw : t.Wf) (found : t.lookup ref = some e) : (t.clear ref.slot).Wf := by
  obtain ⟨-, hslot, rfl, hact, -, -⟩ := lookup_eq_some found
  refine hw.write hslot (hw.generation _) nofun nofun ?_
  have hpos : 0 < t.live := by
    rw [hw.live, countP_pos_iff]
    exact ⟨ref.slot, mem_range.mpr hslot, hact⟩
  rw [hact]
  change t.live - 1 + 1 = t.live + 0
  omega

theorem Change.wf (h : t.Change evs t') (hw : t.Wf) : t'.Wf := by
  cases h with
  | same => exact hw
  | touch found moves => exact hw.touch found moves
  | opens checked => exact hw.opens checked
  | clears found _ => exact hw.clears found

theorem step_wf (t : FillTable) (op : FillOp) (hw : t.Wf) : (t.step op).Wf :=
  (t.step_change op).wf hw

/-! ## Later tables -/

/-- **What a later table owes an earlier one**, slot by slot. -/
structure Later (t t' : FillTable) : Prop where
  capacity : t'.capacity = t.capacity
  entry : ∀ i, (t.entries i).Follows (t'.entries i)

theorem Later.refl (t : FillTable) : t.Later t := ⟨rfl, fun _ => .refl _⟩

theorem Later.trans (a b c : FillTable) (h : a.Later b) (h' : b.Later c) : a.Later c :=
  ⟨h'.capacity.trans h.capacity, fun i => (h.entry i).trans (h'.entry i)⟩

/-- Writing one entry. -/
theorem Later.write (h : (t.entries i).Follows e) : t.Later { t.setEntry i e with live := live } :=
  ⟨rfl, (forall_update_iff t.entries fun j x => (t.entries j).Follows x).mpr
    ⟨h, fun _ _ => .refl _⟩⟩

theorem Change.later (h : t.Change evs t') : t.Later t' := by
  cases h with
  | same => exact .refl t
  | touch found moves =>
    obtain ⟨-, -, rfl, hact, -, -⟩ := lookup_eq_some found
    exact .write ⟨moves.generation.ge, fun ha => absurd (ha.symm.trans hact) Bool.false_ne_true,
      fun _ _ _ => ⟨moves.parent, moves.reason⟩⟩
  | opens checked =>
    obtain ⟨-, hact, -, hgen, -⟩ := checkCommit_ok checked
    have hlt : (t.entries _).generation < (opened _).generation := Nat.lt_of_succ_le hgen.ge
    exact .write ⟨hlt.le, fun _ _ => hlt, fun ha => absurd (hact.symm.trans ha) Bool.false_ne_true⟩
  | clears _ _ => exact .write ⟨le_rfl, nofun, nofun⟩

theorem run_wf (hw : t.Wf) (ops : List FillOp) : (t.run ops).Wf := run_inv step_wf ops hw

theorem run_later (t : FillTable) (ops : List FillOp) : t.Later (t.run ops) :=
  run_rel Later.refl Later.trans (fun t op => (t.step_change op).later) ops t

/-- **A handle that stopped resolving never resolves again.** -/
theorem Later.stale {mid : FillTable} (h : t.Later mid) (h' : mid.Later t') (hmid : mid.Wf)
    (hres : t.lookup ref = some e) (hgone : mid.lookup ref = none) : t'.lookup ref = none := by
  cases hnow : t'.lookup ref with
  | none => rfl
  | some e' =>
    obtain ⟨-, hslot, rfl, ha, hg, hp⟩ := lookup_eq_some hres
    obtain ⟨-, -, rfl, ha', hg', -⟩ := lookup_eq_some hnow
    have h1 := (h.entry ref.slot).generation
    have h2 := (h'.entry ref.slot).generation
    -- the occupant is the same in between, so the handle resolves there as well
    cases hm : (mid.entries ref.slot).active with
    | false =>
      have := (h'.entry ref.slot).reopened hm ha'
      omega
    | true =>
      have hpar := ((h.entry ref.slot).kept ha hm (by omega)).1
      have hgen : ref.generation ≠ 0 := by
        intro h0
        simp [lookup, h0] at hres
      simp [lookup, hmid.valid, h.capacity, hslot, hgen, hm, hpar.trans hp,
        show (mid.entries ref.slot).generation = ref.generation by omega] at hgone

/-- The slot of a handle that resolves is not opened again. -/
theorem commit_other (h : (t.commit r).1 = .ok) (hslot : r.ref.slot = ref.slot) :
    t.lookup ref = none := by
  cases hl : t.lookup ref with
  | none => rfl
  | some e =>
    obtain ⟨-, -, rfl, ha, -, -⟩ := lookup_eq_some hl
    unfold commit at h
    split_ifs at h with hc
    · exact absurd h hc
    · have := (checkCommit_ok (not_ne_iff.mp hc)).2.1
      rw [hslot, ha] at this
      cases this

/-! ## The ledger of effects -/

/-- The effects committed for one occupant of a slot, oldest first. -/
def effectsOf (evs : List FillEvent) (i g : ℕ) : List FillEffect :=
  (evs.filter fun ev => ev.slot = i && ev.generation = g).map (·.effect)

theorem effectsOf_map (es : List FillEffect) (s g' i g : ℕ) :
    effectsOf (es.map (FillEvent.mk s g')) i g = if i = s ∧ g = g' then es else [] := by
  split_ifs with h
  · simp [effectsOf, filter_map, comp_def, h]
  · have hnone : ∀ ev ∈ es.map (FillEvent.mk s g'), ¬ (ev.slot = i && ev.generation = g) := by
      intro ev hev
      obtain ⟨k, -, rfl⟩ := mem_map.mp hev
      simp only [Bool.and_eq_true, decide_eq_true_eq]
      exact fun hc => h ⟨hc.1.symm, hc.2.symm⟩
    rw [effectsOf, filter_eq_nil_iff.mpr hnone, map_nil]

/-- Each effect at most once, and at most one data terminal. -/
structure Once (fx : List FillEffect) : Prop where
  accounted : fx.count .accounted ≤ 1
  published : fx.count .published ≤ 1
  oneEnd : ¬ (.fin ∈ fx ∧ .reset ∈ fx)

/-- An occupant's flags are its effects so far. -/
structure Agrees (fx : List FillEffect) (e : FillEntry) : Prop where
  accounted : fx.count .accounted = e.streamAccounted.toNat
  published : fx.count .published = e.terminalPublished.toNat
  fin : .fin ∈ fx → e.dataFin
  reset : .reset ∈ fx → e.dataReset

variable {fx : List FillEffect}

theorem Agrees.once (h : Agrees fx e) (hw : e.Wf) : Once fx where
  accounted := h.accounted ▸ Bool.toNat_le _
  published := h.published ▸ Bool.toNat_le _
  oneEnd hc := hw.oneEnd ⟨h.fin hc.1, h.reset hc.2⟩

theorem Agrees.moves {fresh : ℕ → Prop} (h : Agrees fx e) (hm : e.Evolves fresh es e') :
    Agrees (fx ++ es) e' where
  accounted := by rw [count_append, h.accounted, Nat.add_comm, hm.accounted]
  published := by rw [count_append, h.published, Nat.add_comm, hm.published]
  fin hf := hm.fin ((mem_append.mp hf).symm.imp_right h.fin)
  reset hf := hm.reset ((mem_append.mp hf).symm.imp_right h.reset)

/-- **The effects of a slot agree with its occupant**: none for one to come, the flags of the
present one, and each effect once for every one. -/
structure Booked (e : FillEntry) (fx : ℕ → List FillEffect) : Prop where
  future : ∀ g, e.generation < g → fx g = []
  present : e.active → Agrees (fx e.generation) e
  once : ∀ g, Once (fx g)

variable {book : ℕ → List FillEffect}

theorem Booked.moves {fresh : ℕ → Prop} (h : Booked e book) (hact : e.active) (hw : e.Wf)
    (hm : e.Evolves fresh es e') :
    Booked e' fun g => book g ++ if g = e.generation then es else [] where
  future g hg := by
    rw [hm.generation] at hg
    rw [h.future g hg, if_neg hg.ne', append_nil]
  present _ := by
    rw [hm.generation, if_pos rfl]
    exact (h.present hact).moves hm
  once g := by
    split_ifs with hg
    · rw [hg]
      exact ((h.present hact).moves hm).once (hm.wf hw)
    · rw [append_nil]
      exact h.once g

/-- An occupant that committed nothing yet, or none. -/
theorem Booked.replace (h : Booked e book) (hgen : e.generation ≤ e'.generation)
    (hnew : e'.active → e.generation < e'.generation ∧ Agrees [] e') : Booked e' book where
  future g hg := h.future g (hgen.trans_lt hg)
  present ha := by
    rw [h.future _ (hnew ha).1]
    exact (hnew ha).2
  once := h.once

/-- **The events of a run agree with the table.** -/
def Ledger (t : FillTable) (evs : List FillEvent) : Prop :=
  ∀ i, Booked (t.entries i) (effectsOf evs i)

theorem Ledger.init (capacity : ℕ) : (init capacity).Ledger [] := fun _ =>
  ⟨fun _ _ => rfl, nofun, fun _ => ⟨Nat.zero_le _, Nat.zero_le _, fun h => not_mem_nil h.1⟩⟩

theorem Ledger.touch (hl : t.Ledger evs) (hw : t.Wf) (found : t.lookup ref = some e)
    (moves : e.Evolves t.Fresh es e') :
    (t.setEntry ref.slot e').Ledger (evs ++ es.map (FillEvent.mk ref.slot ref.generation)) := by
  obtain ⟨-, -, rfl, hact, hgen, -⟩ := lookup_eq_some found
  intro i
  have happ : effectsOf (evs ++ es.map (FillEvent.mk ref.slot ref.generation)) i = fun g =>
      effectsOf evs i g ++ if i = ref.slot ∧ g = ref.generation then es else [] := by
    funext g
    rw [← effectsOf_map, effectsOf, filter_append, map_append]
    rfl
  rw [happ]
  rcases eq_or_ne i ref.slot with rfl | hne
  · simp only [setEntry_self, true_and, ← hgen]
    exact (hl _).moves hact (hw.entry _ hact).2.1 moves
  · simpa [setEntry_of_ne hne, hne] using hl i

theorem Ledger.write (hl : t.Ledger evs) (h : Booked e (effectsOf evs i)) :
    Ledger { t.setEntry i e with live := live } evs :=
  (forall_update_iff t.entries fun j x => Booked x (effectsOf evs j)).mpr
    ⟨h, fun j _ => hl j⟩

theorem Change.ledger (h : t.Change evs t') (hw : t.Wf) {past : List FillEvent}
    (hl : t.Ledger past) : t'.Ledger (past ++ evs) := by
  cases h with
  | same => rwa [append_nil]
  | touch found moves => exact hl.touch hw found moves
  | opens checked =>
    obtain ⟨-, -, -, hgen, -⟩ := checkCommit_ok checked
    have hlt : (t.entries _).generation < (opened _).generation := Nat.lt_of_succ_le hgen.ge
    rw [append_nil]
    exact hl.write ((hl _).replace hlt.le fun _ => ⟨hlt, rfl, rfl, nofun, nofun⟩)
  | clears _ _ =>
    rw [append_nil]
    exact hl.write ((hl _).replace le_rfl nofun)

/-- The events of a run. -/
def events (t : FillTable) (ops : List FillOp) : List FillEvent := trace step emit t ops

/-- **A whole run** from an empty table. -/
theorem run_ledger (capacity : ℕ) (ops : List FillOp) :
    ((init capacity).run ops).Wf ∧ ((init capacity).run ops).Ledger ((init capacity).events ops) :=
  trace_inv (J := fun (t : FillTable) evs => t.Wf ∧ t.Ledger evs)
    (fun t _ op h => ⟨t.step_wf op h.1, (t.step_change op).ledger h.1 h.2⟩) ops
    ⟨.init capacity, .init capacity⟩

/-- **The ownership table over every run**: the live count, distinct identities and streams, handles
that stay stale, first terminals that stay, no stream where none is expected, one account of a
stream before its entry is reclaimed, one publication, and one data terminal. -/
theorem fill_owner_run (capacity : ℕ) (ops : List FillOp) : let t := (init capacity).run ops
    let committed := effectsOf ((init capacity).events ops)
    t.live = ((range capacity).filter fun i => (t.entries i).active).length ∧
    (∀ i j, (t.entries i).active → (t.entries j).active →
      (t.entries i).initiatingId = (t.entries j).initiatingId → i = j) ∧
    (∀ i, (t.entries i).active → (t.entries i).streamBound →
      (t.entries i).stream ≠ 0) ∧
    (∀ i j, (t.entries i).active → (t.entries j).active →
      (t.entries i).streamBound → (t.entries j).streamBound →
      (t.entries i).stream = (t.entries j).stream → i = j) ∧
    (∀ i, (t.entries i).active → (t.entries i).noStream →
      (t.entries i).streamBound = false) ∧
    (∀ more i, (t.entries i).generation ≤ ((t.run more).entries i).generation) ∧
    (∀ ref e, t.lookup ref = some e →
      (∀ mid more, (t.run mid).lookup ref = none → ((t.run mid).run more).lookup ref = none) ∧
      (∀ mid r more, ((t.run mid).commit r).1 = .ok → r.ref.slot = ref.slot →
        ((t.run mid).run (.commit r :: more)).lookup ref = none) ∧
      (∀ more e', (t.run more).lookup ref = some e' → e.terminalReason ≠ .none →
        e'.terminalReason = e.terminalReason) ∧
      (e.streamBound → (t.reclaim ref).1 = .ok →
        (committed ref.slot ref.generation).count .accounted = 1) ∧
      (e.streamBound → (t.releaseUnbound ref).1 ≠ .ok)) ∧
    (∀ i g, (committed i g).count .accounted ≤ 1) ∧
    (∀ i g, (committed i g).count .published ≤ 1) ∧
    (∀ i g, ¬ (.fin ∈ committed i g ∧ .reset ∈ committed i g)) := by
  intro t committed
  obtain ⟨hw, hl⟩ : t.Wf ∧ t.Ledger ((init capacity).events ops) := run_ledger capacity ops
  have hcap : t.capacity = capacity := (run_later (init capacity) ops).capacity
  refine ⟨?_, fun i j hi hj h => hw.distinct i j hi hj (.inl h), fun i hi => (hw.entry i hi).2.2,
    fun i j hi hj hb hb' h => hw.distinct i j hi hj (.inr ⟨hb, hb', h⟩),
    fun i hi => (hw.entry i hi).2.1.noStream, fun more i => ((t.run_later more).entry i).generation,
    fun ref e found => ?_, fun i g => ((hl i).once g).accounted,
    fun i g => ((hl i).once g).published, fun i g => ((hl i).once g).oneEnd⟩
  · rw [hw.live, hcap, countP_eq_length_filter]
  have hstale : ∀ mid more, (t.run mid).lookup ref = none →
      ((t.run mid).run more).lookup ref = none := fun mid more =>
    (t.run_later mid).stale ((t.run mid).run_later more) (run_wf hw mid) found
  refine ⟨hstale, fun mid r more hok hslot => ?_, fun more e' found' hne => ?_, fun hb hok => ?_,
    fun hb => ?_⟩
  · exact hstale mid (.commit r :: more) (commit_other hok hslot)
  · obtain ⟨-, -, rfl, ha, hg, -⟩ := lookup_eq_some found
    obtain ⟨-, -, rfl, ha', hg', -⟩ := lookup_eq_some found'
    exact (((t.run_later more).entry _).kept ha ha' (hg'.trans hg.symm)).2 hne
  · simp only [reclaim, found] at hok
    split_ifs at hok with hr
    have hacc := reclaim_settled (by simpa using hr) hb
    obtain ⟨-, -, rfl, ha, hg, -⟩ := lookup_eq_some found
    have := ((hl _).present ha).accounted
    rwa [hacc, hg] at this
  · simp [releaseUnbound, found, hb]

end FillTable

end MoqRelay
