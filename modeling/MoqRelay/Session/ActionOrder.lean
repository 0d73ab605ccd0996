import MoqRelay.Lib.Trace
import MoqRelay.Session.Actions

/-!
# Session/ActionOrder — what the choice of an action respects

The comparison puts priorities first and then, within one request, the order of groups.  It ties two
fills, and puts a fill against a subgroup by rules of its own, so it is not transitive; the scan for
the best is right where one order decides (`OneFill`), and a little beyond (`FrontTransitive`).

Whatever it chooses, a poll takes an action from behind a `front` of others and leaves those as they
were (`TakenBehind`).  What the front can hold is settled loop by loop; the order of the actions of
a stream over whole runs follows from one call's `QueueEdit`.
-/

namespace MoqRelay

open List

/-! ## Preference -/

/-- The record of a fill. -/
def SchedMeta.IsFill (x : SchedMeta) : Prop := x.mode = schedModeFill

/-- Two records of one request and one priority. -/
structure Peers (x y : SchedMeta) : Prop where
  subscriber : x.subscriberPriority = y.subscriberPriority
  publisher : x.publisherPriority = y.publisherPriority
  owner : x.owner ≠ 0
  same : x.owner = y.owner
  left : x.hasLocation
  right : y.hasLocation

variable {x y z : SchedMeta}

theorem Peers.symm (h : Peers x y) : Peers y x :=
  ⟨h.subscriber.symm, h.publisher.symm, h.same ▸ h.owner, h.same.symm, h.right, h.left⟩

theorem Peers.trans (h : Peers x y) (h' : Peers y z) : Peers x z :=
  ⟨h.subscriber.trans h'.subscriber, h.publisher.trans h'.publisher, h.owner, h.same.trans h'.same,
    h.left, h'.right⟩

/-- **Priorities come first**; then only peers are compared. -/
theorem preferred_iff :
    Preferred x y ↔ x.subscriberPriority < y.subscriberPriority ∨
      x.subscriberPriority = y.subscriberPriority ∧
        (x.publisherPriority < y.publisherPriority ∨
          Peers x y ∧ schedComparePeers x y = .lt) := by
  rw [Preferred, schedCompare]
  by_cases hs : x.subscriberPriority = y.subscriberPriority
  · by_cases hp : x.publisherPriority = y.publisherPriority
    · have hpeers : schedPeers x y ↔ Peers x y := by
        simp only [schedPeers, Bool.and_eq_true, decide_eq_true_eq]
        exact ⟨fun h => ⟨hs, hp, h.1.1.1, h.1.1.2, h.1.2, h.2⟩,
          fun h => ⟨⟨⟨h.owner, h.same⟩, h.left⟩, h.right⟩⟩
      by_cases hpeer : Peers x y
      · simp [hpeers.mpr hpeer, hpeer, hs, hp]
      · have hfalse : schedPeers x y = false := by
          rwa [← Bool.not_eq_true, hpeers]
        simp [hfalse, hpeer, hs, hp]
    · rw [if_pos hp]
      have hne : ¬ Peers x y := fun h => hp h.publisher
      simp [hs, hne]
  · simp [hs]

/-- One group comes ahead of another in the order of the request. -/
def groupAhead (x y : SchedMeta) : Prop :=
  if x.groupOrder = groupOrderDescending then y.groupId < x.groupId else x.groupId < y.groupId

/-- Two records whose comparison goes by the order of the request alone: the orders agree, and a
fill beside a record that is none keeps to the order of its request. -/
structure OneOrder (x y : SchedMeta) : Prop where
  order : x.groupOrder = y.groupOrder
  left : x.IsFill → ¬ y.IsFill → x.fillGroupOrder = x.groupOrder
  right : y.IsFill → ¬ x.IsFill → y.fillGroupOrder = y.groupOrder

theorem OneOrder.symm (h : OneOrder x y) : OneOrder y x := ⟨h.order.symm, h.right, h.left⟩

/-- The peer comparison, as a condition. -/
theorem schedComparePeers_eq_lt (h : OneOrder x y) :
    schedComparePeers x y = .lt ↔ ¬ (x.IsFill ∧ y.IsFill) ∧
      (groupAhead x y ∨ x.groupId = y.groupId ∧ schedCompareGroup x y = .lt) := by
  obtain ⟨-, hx, hy⟩ := h
  rw [schedComparePeers, groupAhead]
  simp only [SchedMeta.IsFill] at *
  by_cases hxf : x.mode = schedModeFill <;> by_cases hyf : y.mode = schedModeFill <;>
    by_cases hg : x.groupId = y.groupId <;>
    by_cases hd : x.groupOrder = groupOrderDescending <;>
    simp [hxf, hyf, hg, hd] <;> grind

/-- The comparison within a group, as a condition. -/
theorem schedCompareGroup_eq_lt :
    schedCompareGroup x y = .lt ↔
      x.IsFill ∧ ¬ y.IsFill ∨ (x.IsFill ↔ y.IsFill) ∧
        (x.mode ≠ y.mode ∧ x.mode = schedModeDatagram ∨
          x.mode = y.mode ∧ (x.mode = schedModeSubgroup ∧ x.subgroupId < y.subgroupId ∨
            x.mode = schedModeDatagram ∧ x.objectId < y.objectId)) := by
  rw [schedCompareGroup]
  simp only [SchedMeta.IsFill]
  grind [schedModeFill, schedModeSubgroup, schedModeDatagram]

theorem schedCompareGroup_trans (h : schedCompareGroup x y = .lt)
    (h' : schedCompareGroup y z = .lt) : schedCompareGroup x z = .lt := by
  rw [schedCompareGroup_eq_lt] at *
  have hmodes : schedModeFill ≠ schedModeDatagram ∧ schedModeFill ≠ schedModeSubgroup ∧
      schedModeSubgroup ≠ schedModeDatagram := by decide
  grind [UInt64.lt_trans]

theorem schedComparePeers_trans (hxy : OneOrder x y) (hyz : OneOrder y z)
    (hxz : OneOrder x z) (hfills : ¬ (x.IsFill ∧ z.IsFill)) (h : schedComparePeers x y = .lt)
    (h' : schedComparePeers y z = .lt) : schedComparePeers x z = .lt := by
  obtain ⟨-, h⟩ := (schedComparePeers_eq_lt hxy).mp h
  obtain ⟨-, h'⟩ := (schedComparePeers_eq_lt hyz).mp h'
  refine (schedComparePeers_eq_lt hxz).mpr ⟨hfills, ?_⟩
  have horder := hxy.order
  rw [groupAhead] at *
  rw [← horder] at h'
  rcases h with hahead | ⟨hgroup, hlt⟩ <;> rcases h' with hahead' | ⟨hgroup', hlt'⟩
  · left
    split_ifs at hahead hahead' ⊢
    · exact UInt64.lt_trans hahead' hahead
    · exact UInt64.lt_trans hahead hahead'
  · exact .inl (by rwa [← hgroup'])
  · exact .inl (by rwa [hgroup])
  · exact .inr ⟨hgroup.trans hgroup', schedCompareGroup_trans hlt hlt'⟩

/-- **Where one order decides, preference is transitive.** -/
theorem preferred_trans (hxy : Peers x y → OneOrder x y)
    (hyz : Peers y z → OneOrder y z) (hxz : Peers x z → OneOrder x z)
    (hfills : Peers x y → Peers y z → ¬ (x.IsFill ∧ z.IsFill)) (h : Preferred x y)
    (h' : Preferred y z) : Preferred x z := by
  rw [preferred_iff] at *
  rcases h with hs | ⟨hs, hp | ⟨hpeers, hlt⟩⟩ <;> rcases h' with hs' | ⟨hs', hp' | ⟨hpeers', hlt'⟩⟩
  · exact .inl (UInt8.lt_trans hs hs')
  iterate 2 exact .inl (hs' ▸ hs)
  · exact .inl (hs ▸ hs')
  · exact .inr ⟨hs.trans hs', .inl (UInt8.lt_trans hp hp')⟩
  · exact .inr ⟨hs.trans hs', .inl (hpeers'.publisher ▸ hp)⟩
  · exact .inl (hs ▸ hs')
  · exact .inr ⟨hs.trans hs', .inl (hpeers.publisher ▸ hp')⟩
  · have hpeer := hpeers.trans hpeers'
    exact .inr ⟨hs.trans hs', .inr ⟨hpeer, schedComparePeers_trans (hxy hpeers) (hyz hpeers')
      (hxz hpeer) (hfills hpeers hpeers') hlt hlt'⟩⟩

theorem not_preferred_self (x : SchedMeta) : ¬ Preferred x x := by
  intro h
  rw [preferred_iff] at h
  rcases h with hs | ⟨-, hp | ⟨-, hlt⟩⟩
  · exact UInt8.lt_irrefl _ hs
  · exact UInt8.lt_irrefl _ hp
  · simp [schedComparePeers, schedCompareGroup] at hlt

/-- Two fills of one request are not preferred to each other. -/
theorem not_fills (hxy : Peers x y → OneOrder x y) (hpeers : Peers x y) (h : Preferred x y) :
    ¬ (x.IsFill ∧ y.IsFill) := by
  rcases preferred_iff.mp h with hs | ⟨-, hp | ⟨-, hlt⟩⟩
  · exact absurd hpeers.subscriber (UInt8.ne_of_lt hs)
  · exact absurd hpeers.publisher (UInt8.ne_of_lt hp)
  · exact ((schedComparePeers_eq_lt (hxy hpeers)).mp hlt).1

theorem preferred_asymm (hxy : Peers x y → OneOrder x y) (h : Preferred x y) : ¬ Preferred y x := by
  intro h'
  have hyx : Peers y x → OneOrder y x := fun hpeers => (hxy hpeers.symm).symm
  have hself : ∀ z : SchedMeta, Peers z z → OneOrder z z := fun _ _ => ⟨rfl, absurd, absurd⟩
  -- One of the two is no fill, and would be preferred to itself.
  by_cases hfill : x.IsFill
  · exact not_preferred_self y (preferred_trans hyx hxy (hself y)
      (fun _ hpeers hy => not_fills hxy hpeers h ⟨hfill, hy.1⟩) h' h)
  · exact not_preferred_self x (preferred_trans hxy hyx (hself x) (fun _ _ hx => hfill hx.1) h h')

/-! ## The choice from the leading data -/

section Choice

variable {β : Type} {s : Ring (Queued β)} {head i : ℕ}

/-- The data actions from `head` up to the next action that is none. -/
def leadingData (s : Ring (Queued β)) (head : ℕ) : List ℕ :=
  (range' head (s.tail - head)).takeWhile fun i => actionIsData (s.get i).action

/-- **Those of them the choice is from**: the first of each stream, and datagrams. -/
def eligible (s : Ring (Queued β)) (head : ℕ) : List ℕ :=
  (leadingData s head).filter fun i => !laterOnItsStream s head i

/-- The action at one index is strictly preferred to the one at another. -/
def PreferredAt (s : Ring (Queued β)) (i j : ℕ) : Prop := Preferred (s.get i).sched (s.get j).sched

instance (s : Ring (Queued β)) : DecidableRel (PreferredAt s) := fun _ _ =>
  inferInstanceAs (Decidable (Preferred _ _))

/-- **The loop keeps a running best** of the data entries in front. -/
theorem actionSelectLoop_eq (s : Ring (Queued β)) (head n : ℕ) : ∀ i best,
    actionSelectLoop s head n i best = runningBest (PreferredAt s) best
      (((range' i n).takeWhile fun i => actionIsData (s.get i).action).filter fun i =>
        !laterOnItsStream s head i) := by
  induction n with
  | zero => exact fun _ _ => rfl
  | succ n ih =>
    intro i best
    rw [actionSelectLoop, range'_succ, takeWhile_cons]
    cases hdata : actionIsData (s.get i).action with
    | false => rfl
    | true =>
      rw [if_pos rfl, filter_cons]
      cases hlater : laterOnItsStream s head i with
      | true | false => exact ih _ _

/-- The data actions in front of which `head` stands. -/
def eligibleBehind (s : Ring (Queued β)) (head : ℕ) : List ℕ :=
  ((range' (head + 1) (s.tail - (head + 1))).takeWhile fun i =>
    actionIsData (s.get i).action).filter fun i => !laterOnItsStream s head i

/-- The head is eligible, if it is data. -/
theorem eligible_eq_cons (hhead : head < s.tail) (hdata : actionIsData (s.get head).action) :
    eligible s head = head :: eligibleBehind s head := by
  have hcount : s.tail - head = s.tail - (head + 1) + 1 := by omega
  have hfirst : laterOnItsStream s head head = false := by simp [laterOnItsStream]
  rw [eligible, leadingData, hcount, range'_succ, takeWhile_cons, if_pos hdata,
    filter_cons, if_pos (by rw [hfirst]; rfl)]
  rfl

/-- **The choice is the running best of the eligible actions.** -/
theorem actionSelectFrom_eq (hdata : actionIsData (s.get head).action) :
    actionSelectFrom s head = runningBest (PreferredAt s) head (eligibleBehind s head) := by
  rw [actionSelectFrom, hdata, actionSelectLoop_eq]
  rfl

theorem actionSelectFrom_mem (hhead : head < s.tail) (hdata : actionIsData (s.get head).action) :
    actionSelectFrom s head ∈ eligible s head := by
  rw [actionSelectFrom_eq hdata, eligible_eq_cons hhead hdata]
  exact runningBest_mem _ _

/-- Eligible actions that one order decides between: of one request at one priority, they agree on
the order of groups, and beside an action that is no fill there is at most one fill, which keeps to
that order. -/
structure OneFill (s : Ring (Queued β)) (l : List ℕ) : Prop where
  order : ∀ i ∈ l, ∀ j ∈ l, Peers (s.get i).sched (s.get j).sched →
    OneOrder (s.get i).sched (s.get j).sched
  fills : ∀ i ∈ l, ∀ j ∈ l, ∀ k ∈ l, Peers (s.get i).sched (s.get j).sched →
    Peers (s.get j).sched (s.get k).sched → (s.get i).sched.IsFill → (s.get k).sched.IsFill →
    ¬ (s.get j).sched.IsFill → i = k

theorem OneFill.trans {l : List ℕ} (h : OneFill s l) :
    ∀ i ∈ l, ∀ j ∈ l, ∀ k ∈ l, PreferredAt s i j → PreferredAt s j k → PreferredAt s i k := by
  intro i hi j hj k hk hij hjk
  by_cases hsame : i = k
  · subst hsame
    exact absurd hjk (preferred_asymm (h.order i hi j hj) hij)
  · refine preferred_trans (h.order i hi j hj) (h.order j hj k hk) (h.order i hi k hk) ?_ hij hjk
    intro hpeers hpeers' hfills
    exact hsame (h.fills i hi j hj k hk hpeers hpeers' hfills.1 hfills.2 fun hfill =>
      not_fills (h.order i hi j hj) hpeers hij ⟨hfills.1, hfill⟩)

/-- A fill and a subgroup stream of request 1, at a group. -/
def fillHead (ref group : UInt64) : Queued Unit where
  action := .sendData ref
  sched := { owner := 1, groupId := group, subgroupId := 0, subscriberPriority := 128
             publisherPriority := 128, mode := schedModeFill, groupOrder := groupOrderAscending
             fillGroupOrder := groupOrderAscending, hasLocation := true, objectId := 0
             terminalOwner := 0, terminalBarrier := false }
  body := ()
  done h := absurd rfl h

def subgroupHead (ref group : UInt64) : Queued Unit where
  action := .sendData ref
  sched := { (fillHead ref group).sched with mode := schedModeSubgroup, fillGroupOrder := 0 }
  body := ()
  done h := absurd rfl h

end Choice

/-! ## What a poll takes, and what stays in front -/

section Polls

variable {β : Type} {s s' : Ring (Queued β)} {q : Queued β} {i k : ℕ}

/-- Two actions of the queue are on one data stream. -/
def OneStream (x y : Queued β) : Prop := sameDataStream x.action y.action

/-- **What a taken action leaves in front of it**: `q` is taken out of the queue from behind
`front`, where nothing is of its data stream. -/
structure TakenBehind (s s' : Ring (Queued β)) (q : Queued β) (front : List (Queued β)) : Prop where
  rest : ∃ back, s.window = front ++ q :: back ∧ s'.window = front ++ back
  stream : ∀ x ∈ front, ¬ OneStream q x

variable {n b : ℕ} {owed ready : UInt64 → Bool} {done a : SessionAction}
  {gate : Queued β → Bool → ActionGate} {v : MapView β} {front : List (Queued β)}

theorem mem_takeWhile_range' {p : ℕ → Bool} : ∀ {a i : ℕ},
    i ∈ (range' a n).takeWhile p → a ≤ i ∧ i < a + n ∧ ∀ j, a ≤ j → j ≤ i → p j := by
  induction n with
  | zero => exact fun h => absurd h not_mem_nil
  | succ n ih =>
    intro a i h
    rw [range'_succ, takeWhile_cons] at h
    split_ifs at h with hp
    · rcases mem_cons.mp h with rfl | h
      · exact ⟨le_rfl, by omega, fun j hj hj' => by rwa [Nat.le_antisymm hj' hj]⟩
      · obtain ⟨hle, hlt, hall⟩ := ih h
        refine ⟨by omega, by omega, fun j hj hj' => ?_⟩
        rcases Nat.eq_or_lt_of_le hj with rfl | hlt'
        · exact hp
        · exact hall j hlt' hj'
    · cases h

/-- **The choice from an index on**: data past data only, and the first of its stream. -/
theorem actionSelectFrom_spec (h : i < s.tail) :
    (i ≤ actionSelectFrom s i ∧ actionSelectFrom s i < s.tail) ∧
      laterOnItsStream s i (actionSelectFrom s i) = false ∧
      (actionSelectFrom s i = i ∨ actionIsData (s.get (actionSelectFrom s i)).action) ∧
      ∀ j, i ≤ j → j < actionSelectFrom s i → actionIsData (s.get j).action := by
  cases hdata : actionIsData (s.get i).action with
  | false =>
    have hsel : actionSelectFrom s i = i := by rw [actionSelectFrom, hdata]; rfl
    rw [hsel]
    exact ⟨⟨le_rfl, h⟩, by simp [laterOnItsStream], .inl rfl, fun j hj hj' => by omega⟩
  | true =>
    have hmem := actionSelectFrom_mem h hdata
    rw [eligible, mem_filter] at hmem
    obtain ⟨hle, hlt, hall⟩ := mem_takeWhile_range' hmem.1
    exact ⟨⟨hle, by omega⟩, by simpa using hmem.2, .inr (hall _ hle le_rfl),
      fun j hj hj' => hall j hj hj'.le⟩

theorem forall_mem_front {P : Queued β → Prop} (h : ∀ j, s.head ≤ j → j < i → P (s.get j)) :
    ∀ x ∈ (range' s.head (i - s.head)).map s.get, P x := by
  intro x hx
  obtain ⟨j, hj, rfl⟩ := mem_map.mp hx
  rw [mem_range'_1] at hj
  exact h j hj.1 (by omega)

/-- Taking at an index, when nothing in front of it is of its stream. -/
theorem takenBehind_actionTake (h : s.head ≤ i ∧ i < s.tail)
    (hstream : laterOnItsStream s s.head i = false) :
    TakenBehind s (actionTake s i).2 (actionTake s i).1
      ((range' s.head (i - s.head)).map s.get) := by
  have hlen : i - s.head < s.window.length := by rw [length_window]; omega
  have hget := window_getElem? h
  rw [getElem?_eq_getElem hlen, Option.some.injEq] at hget
  refine ⟨⟨s.window.drop (i - s.head + 1), ?_, ?_⟩, ?_⟩
  · rw [← window_take h, actionTake, ← hget, getElem_cons_drop, take_append_drop]
  · rw [actionTake, window_eraseIdx h, eraseIdx_eq_take_drop_succ, window_take h]
  · refine forall_mem_front fun j hj hj' hsame => ?_
    rw [laterOnItsStream, any_eq_false] at hstream
    exact hstream j (by rw [mem_range'_1]; omega) hsame

/-- Entries that are no data do not hold a stream. -/
theorem laterOnItsStream_head (hlater : laterOnItsStream s i k = false)
    (hskipped : ∀ j, s.head ≤ j → j < i → actionIsData (s.get j).action = false) :
    laterOnItsStream s s.head k = false := by
  rw [laterOnItsStream, any_eq_false] at hlater ⊢
  intro j hj hsame
  rw [mem_range'_1] at hj
  by_cases hlt : j < i
  · have hnone := hskipped j hj.1 hlt
    simp only [sameDataStream, Bool.and_eq_true, decide_eq_true_eq] at hsame
    simp only [actionIsData, Bool.or_eq_false_iff] at hnone
    rw [← hsame.2, hsame.1] at hnone
    exact absurd hnone.2 (by decide)
  · exact hlater j (by rw [mem_range'_1]; omega) hsame

/-- **A plain poll overtakes data only.** -/
theorem pollAction_eq_some {dataOnly : Bool} (h : pollAction owed dataOnly s = some (q, s')) :
    ∃ front, TakenBehind s s' q front ∧ ∀ x ∈ front, actionIsData x.action := by
  rw [pollAction] at h
  dsimp only at h
  split_ifs at h with hnone
  have hhead : s.head < s.tail := by
    have := s.head_le
    simp only [Bool.or_eq_true, decide_eq_true_eq, not_or] at hnone
    omega
  obtain ⟨hrange, hlater, -, hdata⟩ := actionSelectFrom_spec hhead
  cases h
  exact ⟨_, takenBehind_actionTake hrange hlater, forall_mem_front hdata⟩

/-- A PUBLISH_DONE is no data. -/
theorem not_data_of_done (h : q.sched.terminalOwner ≠ 0) : actionIsData q.action = false := by
  have hdone := q.done h
  revert hdone
  cases q.action <;> simp [carriesDone, actionIsData, actionDataStream]

/-- Nor is what follows one. -/
theorem not_data_of_follows (h : actionFollowsDone done a) : actionIsData a = false := by
  cases done <;> simp only [actionFollowsDone, decide_eq_true_eq] at h <;>
    first
    | exact absurd h (by decide)
    | (cases a <;> first | rfl | cases h)

/-- The loop passes over control messages and request streams until it chooses. -/
theorem readyLoop_eq_some {selected : ℕ} : ∀ {i : ℕ}, readyLoop s owed ready n i = some selected →
    ∃ k, i ≤ k ∧ k < i + n ∧ selected = actionSelectFrom s k ∧ behindDone s k = false ∧
      ∀ j, i ≤ j → j < k → actionIsData (s.get j).action = false := by
  induction n with
  | zero => exact fun h => by cases h
  | succ n ih =>
    intro i h
    rw [readyLoop] at h
    have hnext : readyLoop s owed ready n (i + 1) = some selected →
        actionIsData (s.get i).action = false →
        ∃ k, i ≤ k ∧ k < i + (n + 1) ∧ selected = actionSelectFrom s k ∧ behindDone s k = false ∧
          ∀ j, i ≤ j → j < k → actionIsData (s.get j).action = false := by
      intro h hdata
      obtain ⟨k, hle, hlt, hsel, hbehind, hskip⟩ := ih h
      refine ⟨k, by omega, by omega, hsel, hbehind, fun j hj hj' => ?_⟩
      rcases Nat.eq_or_lt_of_le hj with rfl | hlt'
      · exact hdata
      · exact hskip j hlt' hj'
    split_ifs at h with howner hbehind
    · refine hnext h (not_data_of_done ?_)
      simp only [Bool.and_eq_true, decide_eq_true_eq] at howner
      exact howner.1
    · refine hnext h ?_
      rw [behindDone, any_eq_true] at hbehind
      obtain ⟨j, -, hj⟩ := hbehind
      rw [Bool.and_eq_true] at hj
      exact not_data_of_follows hj.2
    · exact ⟨i, le_rfl, by omega, (Option.some.inj h).symm, by simpa using hbehind,
        fun j hj hj' => by omega⟩

/-- The channel of an action, if it has an order to keep there. -/
inductive Channel
  | control
  | request (ref : UInt64)
  deriving DecidableEq, Repr

/-- The control channel, or the request stream, of an action. -/
def actionChannel : SessionAction → Option Channel
  | .sendControl => some .control
  | .openBidiStream ref | .sendBidiStream ref | .closeBidiStream ref | .resetBidiStream ref
  | .stopBidiStream ref | .abortBidiStream ref => some (.request ref)
  | _ => none

/-- The open of a request stream comes first on it. -/
def OpensFirst (l : List (Queued β)) : Prop :=
  l.Pairwise fun x y => ∀ ref, y.action = .openBidiStream ref →
    actionChannel x.action ≠ some (.request ref)

/-- No entry of a channel stands before its OPEN. -/
theorem OpensFirst.at_indices (h : OpensFirst s.window) {j : ℕ} (hj : s.head ≤ j) (hjk : j < k)
    (hk : k < s.tail) (ref : UInt64) : (s.get k).action = .openBidiStream ref →
      actionChannel (s.get j).action ≠ some (.request ref) := by
  have hlen := length_window s
  have hpair := pairwise_iff_getElem.mp h (j - s.head) (k - s.head) (by omega) (by omega)
    (by omega)
  have hgetj := @window_getElem? _ j s ⟨hj, by omega⟩
  have hgetk := @window_getElem? _ k s ⟨by omega, hk⟩
  rw [getElem?_eq_getElem (by omega), Option.some.injEq] at hgetj hgetk
  rw [hgetj, hgetk] at hpair
  exact hpair ref

/-- The channel of a PUBLISH_DONE stays behind it. -/
theorem actionFollowsDone_of_channel (hdone : carriesDone done)
    (h : actionChannel a = actionChannel done) (hopen : ∀ ref, a = .openBidiStream ref →
      actionChannel done ≠ some (.request ref)) : actionFollowsDone done a := by
  cases done <;> try cases hdone
  · cases a <;> first | rfl | cases h
  · cases a <;> try cases h
    · exact absurd rfl (hopen _ rfl)
    all_goals exact decide_eq_true rfl

/-- Data has its stream, and no channel. -/
theorem data_no_channel (h : actionIsData a) : actionChannel a = none := by
  cases a <;> first | rfl | cases h

/-- **A poll that passes over a PUBLISH_DONE keeps its channel behind it.** -/
theorem pollReadyAction_eq_some (h : pollReadyAction owed ready s = some (q, s')) :
    ∃ front, TakenBehind s s' q front ∧ (((∃ ref, q.action = .openBidiStream ref) →
      OpensFirst s.window) → ∀ x ∈ front, x.sched.terminalOwner ≠ 0 →
        actionChannel q.action ≠ actionChannel x.action) := by
  rw [pollReadyAction] at h
  split at h
  · cases h
  · rename_i hloop
    split_ifs at h with hbarrier
    cases h
    obtain ⟨k, hk, hk', rfl, hbehind, hskip⟩ := readyLoop_eq_some hloop
    have hkt : k < s.tail := by omega
    obtain ⟨⟨hsel, hsel'⟩, hlater, hchosen, hdata⟩ := actionSelectFrom_spec hkt
    have htaken := takenBehind_actionTake ⟨hk.trans hsel, hsel'⟩
      (laterOnItsStream_head hlater hskip)
    refine ⟨_, htaken, fun hopens => forall_mem_front fun j hj hj' hdone hchannel => ?_⟩
    have hcarries := (s.get j).done hdone
    rcases hchosen with hchosen | hchosen
    · rw [hchosen] at hj' hchannel hopens
      have hfollows := actionFollowsDone_of_channel hcarries hchannel fun ref href =>
        (hopens ⟨ref, href⟩).at_indices hj hj' hkt ref href
      rw [behindDone, any_eq_false] at hbehind
      refine hbehind j (by rw [mem_range'_1]; omega) ?_
      rw [hfollows, Bool.and_true]
      exact decide_eq_true hdone
    · -- Data has no channel; the PUBLISH_DONE has one.
      have hnone : actionChannel (s.get j).action = none :=
        hchannel.symm.trans (data_no_channel hchosen)
      revert hcarries hnone
      cases (s.get j).action <;> simp [carriesDone, actionChannel]

/-- The request stream whose open is skipped, or that waits for its open, is passed over; so is
data. -/
def PassedOver (s : Ring (Queued β)) (gate : Queued β → Bool → ActionGate) (j : ℕ) : Prop :=
  actionIsData (s.get j).action ∨ gate (s.get j) false = .skip ∨ blockedOpen s gate j

/-- What a mapped poll may take. -/
structure MappedChoice (s : Ring (Queued β)) (gate : Queued β → Bool → ActionGate) (b : ℕ) :
    Prop where
  range : s.head ≤ b ∧ b < s.tail
  first : laterOnItsStream s s.head b = false
  front : ∀ j, s.head ≤ j → j < b → PassedOver s gate j

/-- **The loop chooses what the gate lets pass**, and passes over the rest. -/
theorem mappedLoop_eq_some :
    ∀ {i : ℕ} {best : Option ℕ}, s.head ≤ i → i + n ≤ s.tail →
      (∀ j, s.head ≤ j → j < i → PassedOver s gate j) →
      (∀ b, best = some b → MappedChoice s gate b) →
      mappedLoop s owed gate n i best = some b → MappedChoice s gate b := by
  induction n with
  | zero => exact fun _ _ _ hbest h => hbest b h
  | succ n ih =>
    intro i best hi hn hfront hbest h
    rw [mappedLoop] at h
    have hnext : ∀ best', (∀ b, best' = some b → MappedChoice s gate b) → PassedOver s gate i →
        mappedLoop s owed gate n (i + 1) best' = some b → MappedChoice s gate b := by
      intro best' hbest' hpassed
      refine ih (by omega) (by omega) (fun j hj hj' => ?_) hbest'
      rcases Nat.eq_or_lt_of_le (Nat.lt_succ_iff.mp hj') with rfl | hlt
      · exact hpassed
      · exact hfront j hj hlt
    split_ifs at h with hbarrier hclose hhead hdata hskip hblocked hother hlater
    · exact hbest b h
    · cases h
      exact ⟨⟨hi, by omega⟩, by rw [hhead]; simp [laterOnItsStream], hfront⟩
    · exact hbest b h
    · exact hnext best hbest (.inr (.inl hskip)) h
    · exact hnext best hbest (.inr (.inr hblocked)) h
    · exact hbest b h
    iterate 2 exact hnext best hbest (.inl (by simpa using hdata)) h
    · have hchoice : MappedChoice s gate i := by
        rw [Bool.or_eq_true, not_or] at hlater
        exact ⟨⟨hi, by omega⟩, by simpa using hlater.1, hfront⟩
      have hpassed : PassedOver s gate i := .inl (by simpa using hdata)
      refine hnext _ (fun b hb => ?_) hpassed h
      rw [← Option.some.inj hb]
      cases best with
      | none => exact hchoice
      | some b₀ =>
        rw [mappedBest]
        split_ifs
        · exact hchoice
        · exact hbest b₀ rfl

/-- What a mapped poll leaves in front: data, what the gate skips, and what waits for an open that
the gate skips. -/
def SkippedOver (gate : Queued β → Bool → ActionGate) (front : List (Queued β)) : Prop :=
  ∀ p x, front[p]? = some x → actionIsData x.action ∨ gate x false = .skip ∨
    ∃ ref, openDependent x.action = some ref ∧
      ∃ y ∈ front.take p, y.action = .openBidiStream ref ∧ gate y false = .skip

/-- What stands before the choice was skipped. -/
theorem MappedChoice.skippedOver (h : MappedChoice s gate b) :
    SkippedOver gate ((range' s.head (b - s.head)).map s.get) := by
  intro p x hx
  have hp : p < b - s.head := by
    by_contra hge
    rw [getElem?_eq_none (by simpa using hge)] at hx
    cases hx
  rw [getElem?_map, getElem?_range' hp, Option.map_some, Option.some.injEq, Nat.one_mul] at hx
  subst hx
  rcases h.front (s.head + p) (by omega) (by omega) with hdata | hskip | hblocked
  · exact .inl hdata
  · exact .inr (.inl hskip)
  · rw [blockedOpen] at hblocked
    split at hblocked
    · cases hblocked
    · rename_i ref hdep
      obtain ⟨j, hj, hopen⟩ := any_eq_true.mp hblocked
      rw [Bool.and_eq_true, decide_eq_true_eq, decide_eq_true_eq] at hopen
      refine .inr (.inr ⟨ref, hdep, s.get j, ?_, hopen⟩)
      rw [mem_range'_1] at hj
      refine mem_of_getElem? (i := j - s.head) ?_
      rw [getElem?_take_of_lt (by omega), getElem?_map,
        getElem?_range' (by omega), Option.map_some, Nat.one_mul,
        show s.head + (j - s.head) = j by omega]

/-- **A mapped poll passes over data and what its gate skips.** -/
theorem pollMappedAction_eq_some {dataOpen : Bool}
    (h : pollMappedAction owed dataOpen gate s = some (q, s')) :
    ∃ front, TakenBehind s s' q front ∧ SkippedOver gate front := by
  rw [pollMappedAction] at h
  split at h
  · cases h
  · rename_i hloop
    split_ifs at h
    cases h
    have hle := s.head_le
    have hchoice := mappedLoop_eq_some le_rfl
      (by
        split_ifs with hall
        · omega
        · simp only [Bool.or_eq_true, decide_eq_true_eq, not_or] at hall
          omega)
      (fun j hj hj' => by omega) (fun b hb => by cases hb) hloop
    exact ⟨_, takenBehind_actionTake hchoice.range hchoice.first, hchoice.skippedOver⟩

/-- The request stream of an open, a write or a close. -/
def requestStream : SessionAction → Option UInt64
  | .openBidiStream ref | .sendBidiStream ref | .closeBidiStream ref => some ref
  | _ => none

/-- An action is skipped for want of its peer stream. -/
theorem bridgeMappedActionGate_skip {x : Queued β}
    (hdata : actionIsData x.action = false) (h : bridgeMappedActionGate v x false = .skip) :
    ∃ ref, requestStream x.action = some ref ∧ v.canMapPeerStream = false ∧
      v.mapped ref = false := by
  have hblocked : ∀ isOpen ref, (if (decide (ref ≠ 0) && !v.canMapPeerStream && !v.mapped ref &&
      (isOpen || v.openOwed ref)) then ActionGate.skip else .barrier) = .skip →
      v.canMapPeerStream = false ∧ v.mapped ref = false := by
    intro isOpen ref hskip
    split_ifs at hskip with hcond
    simp only [Bool.and_eq_true, Bool.not_eq_true'] at hcond
    exact ⟨hcond.1.1.2, hcond.1.2⟩
  rw [bridgeMappedActionGate] at h
  cases haction : x.action <;> rw [haction] at h hdata <;> try cases h
  · cases hdata
  · exact ⟨_, rfl, hblocked true _ h⟩
  iterate 2 exact ⟨_, rfl, hblocked false _ h⟩

/-- **Through the gate of the bridge**, all that is passed over but data is an open, a write or a
close of a request stream the map has no entry for, nor room. -/
theorem SkippedOver.requests (h : SkippedOver (bridgeMappedActionGate v) front) : ∀ x ∈ front,
      actionIsData x.action ∨
        ∃ ref, requestStream x.action = some ref ∧ v.canMapPeerStream = false ∧
          v.mapped ref = false := by
  intro x hx
  obtain ⟨p, hp⟩ := getElem?_of_mem hx
  cases hdata : actionIsData x.action with
  | true => exact .inl rfl
  | false =>
    right
    rcases h p x hp with hdata' | hskip | ⟨ref, hdep, y, -, hopen, hskip⟩
    · rw [hdata] at hdata'
      cases hdata'
    · exact bridgeMappedActionGate_skip hdata hskip
    · obtain ⟨ref', hreq, hmap⟩ := bridgeMappedActionGate_skip (x := y) (by rw [hopen]; rfl) hskip
      rw [hopen] at hreq
      cases hreq
      refine ⟨ref, ?_, hmap⟩
      revert hdep
      cases x.action <;> simp [openDependent, requestStream]

/-! ## Runs -/

/-- Every poll takes an action out from behind others of other streams. -/
theorem take_takenBehind {c : QueueCall β} (h : c.take s = some (q, s')) :
    ∃ front, TakenBehind s s' q front := by
  cases c with
  | push _ => cases h
  | poll owed dataOnly =>
    obtain ⟨front, htaken, -⟩ := pollAction_eq_some h
    exact ⟨front, htaken⟩
  | pollReady owed ready =>
    obtain ⟨front, htaken, -⟩ := pollReadyAction_eq_some h
    exact ⟨front, htaken⟩
  | pollMapped owed dataOpen gate =>
    obtain ⟨front, htaken, -⟩ := pollMappedAction_eq_some h
    exact ⟨front, htaken⟩

/-- What one call can do to the queue. -/
inductive QueueEdit (s : Ring (Queued β)) (c : QueueCall β) : Prop
  | same (hs : queueStep s c = s) (hq : queued s c = []) (hh : handed s c = [])
  | push (q : Queued β) (hc : c = .push q) (hs : (queueStep s c).window = s.window ++ [q])
      (hq : queued s c = [q]) (hh : handed s c = [])
  | take (q : Queued β) (front : List (Queued β)) (ht : TakenBehind s (queueStep s c) q front)
      (hq : queued s c = []) (hh : handed s c = [q])

/-- **A call appends, or takes one entry out**, or does nothing. -/
theorem queueStep_edit (s : Ring (Queued β)) (c : QueueCall β) : QueueEdit s c := by
  have hpoll : ∀ c : QueueCall β, queueStep s c = ((c.take s).map (·.2)).getD s → queued s c = [] →
      QueueEdit s c := by
    intro c hstep hq
    cases htake : c.take s with
    | none => exact .same (by rw [hstep, htake]; rfl) hq (by rw [handed, htake]; rfl)
    | some r =>
      obtain ⟨q, s'⟩ := r
      obtain ⟨front, htaken⟩ := take_takenBehind htake
      refine .take q front ?_ hq (by rw [handed, htake]; rfl)
      rwa [hstep, htake]
  cases c with
  | push q =>
    cases hpush : s.push q with
    | none => exact .same (by rw [queueStep, hpush]; rfl) (by rw [queued, hpush]; rfl) rfl
    | some s' =>
      refine .push q rfl ?_ (by rw [queued, hpush]; rfl) rfl
      rw [queueStep, hpush]
      exact window_push hpush
  | poll owed dataOnly | pollReady owed ready | pollMapped owed dataOpen gate =>
    exact hpoll _ rfl rfl

/-- The actions of one data stream. -/
def onStream (ref : UInt64) (l : List (Queued β)) : List (Queued β) :=
  l.filter fun x => actionDataStream x.action = some ref

theorem onStream_append (ref : UInt64) (l l' : List (Queued β)) :
    onStream ref (l ++ l') = onStream ref l ++ onStream ref l' := filter_append ..

/-- Each stream keeps its order. -/
theorem TakenBehind.onStream (h : TakenBehind s s' q front) (ref : UInt64) :
    onStream ref [q] ++ onStream ref s'.window = onStream ref s.window := by
  obtain ⟨⟨back, hwindow, hwindow'⟩, hstream⟩ := h
  have hcons : q :: back = [q] ++ back := rfl
  rw [hwindow, hwindow', hcons, onStream_append, onStream_append, onStream_append]
  by_cases hq : actionDataStream q.action = some ref
  · have hfront : MoqRelay.onStream ref front = [] := by
      rw [MoqRelay.onStream, filter_eq_nil_iff]
      intro x hx href
      refine hstream x hx ?_
      rw [OneStream, sameDataStream, hq, of_decide_eq_true href]
      simp
    rw [hfront, nil_append, nil_append]
  · have hnone : MoqRelay.onStream ref [q] = [] := by
      rw [MoqRelay.onStream, filter_eq_nil_iff]
      intro x hx
      rw [mem_singleton.mp hx]
      simpa using hq
    rw [hnone, nil_append, nil_append]

/-- **A stream's actions leave in the order they were queued**: what left, and what is left, is what
there was, and what was queued. -/
theorem onStream_run (ref : UInt64) (calls : List (QueueCall β)) : ∀ s : Ring (Queued β),
    onStream ref (trace queueStep handed s calls) ++
        onStream ref (calls.foldl queueStep s).window =
      onStream ref s.window ++ onStream ref (trace queueStep queued s calls) := by
  induction calls with
  | nil => exact fun s => (append_nil _).symm
  | cons c calls ih =>
    intro s
    have hstep : onStream ref (handed s c) ++ onStream ref (queueStep s c).window =
        onStream ref s.window ++ onStream ref (queued s c) := by
      cases queueStep_edit s c with
      | same hs hq hh =>
        rw [hs, hq, hh]
        exact (append_nil _).symm
      | push q hc hs hq hh =>
        rw [hs, hq, hh, onStream_append]
        rfl
      | take q front ht hq hh =>
        rw [hq, hh, ht.onStream ref]
        exact (append_nil _).symm
    rw [trace, trace, onStream_append, onStream_append, append_assoc, foldl_cons,
      ih (queueStep s c), ← append_assoc, hstep, append_assoc]

/-- Every open that is queued is of a request stream that nothing in the queue is of: its reference
is new. -/
def OpensFresh : Ring (Queued β) → List (QueueCall β) → Prop
  | _, [] => True
  | s, c :: calls =>
    (∀ q ref, c = .push q → q.action = .openBidiStream ref →
      ∀ x ∈ s.window, actionChannel x.action ≠ some (.request ref)) ∧
    OpensFresh (queueStep s c) calls

/-- Any calls keep OPENs first. -/
theorem OpensFirst.run (calls : List (QueueCall β)) : ∀ {s : Ring (Queued β)},
    OpensFirst s.window → OpensFresh s calls → OpensFirst (calls.foldl queueStep s).window := by
  induction calls with
  | nil => exact fun h _ => h
  | cons c calls ih =>
    intro s h hfresh
    refine ih ?_ hfresh.2
    cases queueStep_edit s c with
    | same hs hq hh => rwa [hs]
    | push q hc hs hq hh =>
      rw [hs]
      refine pairwise_append.mpr ⟨h, pairwise_singleton _ _, fun x hx y hy ref href => ?_⟩
      obtain rfl := mem_singleton.mp hy
      exact hfresh.1 y ref hc href x hx
    | take q front ht hq hh =>
      obtain ⟨⟨back, hwindow, hwindow'⟩, -⟩ := ht
      rw [hwindow']
      rw [hwindow] at h
      exact h.sublist (List.Sublist.append_left (sublist_cons_self q back) front)

/-- **The action queue, over any run** of pushes and of the three polls, from any content at any
place of the ring.  The actions of a data stream leave in the order they were queued.  A poll takes
one action out and leaves the others as they are, nothing of its data stream in front of it.  A
plain poll overtakes data only.  A poll for the ready overtakes no PUBLISH_DONE on the channel of
what it takes; for an open this rests on its reference being new when it is queued.  A mapped poll
overtakes data, what its gate skips, and what waits for an open its gate skips: through the gate of
the bridge, requests the stream map has no entry for. -/
theorem queue_polls_in_order (s : Ring (Queued β)) (calls : List (QueueCall β)) :
    (∀ ref, onStream ref (trace queueStep handed s calls) ++
        onStream ref (calls.foldl queueStep s).window =
      onStream ref s.window ++ onStream ref (trace queueStep queued s calls)) ∧
    (∀ owed dataOnly q t, pollAction owed dataOnly (calls.foldl queueStep s) = some (q, t) →
      ∃ front, TakenBehind (calls.foldl queueStep s) t q front ∧
        ∀ x ∈ front, actionIsData x.action) ∧
    (∀ owed ready q t, pollReadyAction owed ready (calls.foldl queueStep s) = some (q, t) →
      ∃ front, TakenBehind (calls.foldl queueStep s) t q front ∧
        (((∃ ref, q.action = .openBidiStream ref) → OpensFirst s.window ∧ OpensFresh s calls) →
          ∀ x ∈ front, x.sched.terminalOwner ≠ 0 →
            actionChannel q.action ≠ actionChannel x.action)) ∧
    (∀ owed dataOpen gate q t,
      pollMappedAction owed dataOpen gate (calls.foldl queueStep s) = some (q, t) →
      ∃ front, TakenBehind (calls.foldl queueStep s) t q front ∧ SkippedOver gate front) ∧
    ∀ owed dataOpen v q t,
      pollMappedAction owed dataOpen (bridgeMappedActionGate v) (calls.foldl queueStep s) =
        some (q, t) →
      ∃ front, TakenBehind (calls.foldl queueStep s) t q front ∧
        ∀ x ∈ front, actionIsData x.action ∨
          ∃ ref, requestStream x.action = some ref ∧ v.canMapPeerStream = false ∧
            v.mapped ref = false := by
  refine ⟨fun ref => onStream_run ref calls s, fun _ _ _ _ h => pollAction_eq_some h,
    fun _ _ _ _ h => ?_, fun _ _ _ _ _ h => pollMappedAction_eq_some h, fun _ _ _ _ _ h => ?_⟩
  · obtain ⟨front, htaken, hchannel⟩ := pollReadyAction_eq_some h
    exact ⟨front, htaken, fun hopens => hchannel fun hopen =>
      (hopens hopen).1.run calls (hopens hopen).2⟩
  · obtain ⟨front, htaken, hskipped⟩ := pollMappedAction_eq_some h
    exact ⟨front, htaken, hskipped.requests⟩

/-- An action that is no PUBLISH_DONE. -/
def plainAction (action : SessionAction) : Queued Unit where
  action := action
  sched := (fillHead 0 0).sched
  body := ()
  done h := absurd rfl h

/-- A request is opened while another one's stream is in use. -/
example : OpensFirst [plainAction (.sendBidiStream 2)] ∧ ∀ s : Ring (Queued Unit),
    s.window = [plainAction (.sendBidiStream 2)] →
    OpensFresh s [.push (plainAction (.openBidiStream 4))] := by
  refine ⟨pairwise_singleton _ _, fun s hs => ⟨?_, trivial⟩⟩
  rintro _ _ ⟨⟩ ⟨⟩
  simp [hs, plainAction, actionChannel]

/-- A control message and a write of a data stream behind it. -/
def controlAndData : Ring (Queued Unit) where
  slots i := if i = 0 then { subgroupHead 0 0 with action := .sendControl, done := fun _ => rfl }
    else subgroupHead 3 5
  cap := 4
  head := 0
  tail := 2
  head_le := by decide
  fits := by decide

/-- **The routine trusts its gate**: one that skips a control message lets data overtake it. -/
theorem pollMappedAction_past_control :
    (pollMappedAction (fun _ => false) true
      (fun q _ => if actionIsData q.action then .ready else .skip) controlAndData).map
        (fun r => (r.1.action, r.2.window.map (·.action))) =
      some (.sendData 3, [.sendControl]) := by decide

end Polls

end MoqRelay
