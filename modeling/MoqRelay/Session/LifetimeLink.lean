import Mathlib.Tactic
import MoqRelay.Lib.Trace
import MoqRelay.Session.Lifetime

/-!
# Session/LifetimeLink — what one endpoint may send, the other takes

Messages cross in flight, so the two values of a link agree at almost no moment.  What holds at
every moment is one statement per direction (`Half`): the messages under way are in an order their
sender can produce (`Follows`), each is justified by the sender's present value and still awaited by
the receiver's (`Carried`), and the update credit is held in one place at a time.  A send appends a
justified message, a receipt removes one, and the head of a queue is never a violation.
-/

namespace MoqRelay

open Lifetime List

/-- A flag is not both. -/
theorem clash {P : Prop} {b : Bool} (h : b = false) (h' : b) : P :=
  absurd (h.symm.trans h') Bool.false_ne_true

/-! ## What an endpoint can do -/

namespace Lifetime

variable {s s' : Lifetime} {m : LifetimeMsg} {clear : Bool}

/-- No reset, stop or cancellation; a failure is that of a FIN, a responder answers before its FIN,
and only subscriptions end. -/
structure Calm (s : Lifetime) : Prop where
  valid : s.valid
  localReset : s.localReset = false
  peerReset : s.peerReset = false
  cancelled : s.cancelled = false
  finFailed : s.peerFinFailed → s.peerFin
  fin : s.localFin → s.localRequester ∨ s.response ≠ .pending
  done : s.publisherDone → s.subscription

/-- **What an endpoint can send**, and its value then. -/
inductive Sends (s : Lifetime) : LifetimeMsg → Lifetime → Prop
  | initialResponse (a : Bool) (role : s.localRequester = false) (pending : s.response = .pending)
      (unclosed : s.localFin = false) :
      Sends s (.initialResponse a) { s with response := answered a }
  | update (kind : s.family ≠ .trackStatus) (role : s.localRequester ∨ s.family = .publish)
      (accepted : s.response = .accepted) (unclosed : s.localFin = false)
      (undone : s.publisherDone = false) (unfailed : s.updateFailed = false)
      (credit : s.outgoingUpdate = false) :
      Sends s .update { s with outgoingUpdate := true }
  | updateResponse (a : Bool) (owed : s.incomingUpdate) (accepted : s.response = .accepted)
      (unclosed : s.localFin = false) (undone : s.publisherDone → s.localPublisher = false) :
      Sends s (.updateResponse a)
        { s with incomingUpdate := false, updateFailed := s.updateFailed || !a }
  | done (kind : s.subscription) (role : s.localPublisher)
      (response : s.response = .accepted ∨ (s.family = .publish ∧ s.response = .pending))
      (unclosed : s.localFin = false) (undone : s.publisherDone = false) :
      Sends s .done { s with publisherDone := true }
  | notify (kind : s.subscription) (role : s.localPublisher)
      (accepted : s.response = .accepted) (unclosed : s.localFin = false)
      (undone : s.publisherDone = false) : Sends s .notify s
  | fin (answered : s.localRequester ∨ s.response ≠ .pending) :
      Sends s .fin { s with localFin := true }

/-- **What taking a message makes of an endpoint**, if it is done with it. -/
inductive Takes (s : Lifetime) : LifetimeMsg → Lifetime → Prop
  | initialResponse (a : Bool) : Takes s (.initialResponse a) { s with response := answered a }
  | update : Takes s .update { s with incomingUpdate := true }
  | crossing : Takes s .update s
  | updateResponse (a : Bool) : Takes s (.updateResponse a)
      { s with outgoingUpdate := false, updateFailed := s.updateFailed || !a }
  | done : Takes s .done { s with publisherDone := true }
  | notify : Takes s .notify s
  | fin (missing : Bool) : Takes s .fin { s with peerFin := true, peerFinFailed := missing }
  | finAgain : Takes s .fin s

/-! ### Outgoing checks -/

theorem checkUpdate_out (h : s.checkUpdate true = .ok) :
    s.Sends .update { s with outgoingUpdate := true } := by
  unfold checkUpdate unexpected at h
  split_ifs at h with _ hg _ hend hpend hcred
  have hacc : s.response ≠ .rejected → s.response = .accepted := by
    cases hr : s.response <;> simp_all
  constructor <;> grind

theorem checkNotify_out (h : s.checkNotify true = .ok) : s.Sends .notify s := by
  have hr : s.response = .pending ∨ s.response = .accepted ∨ s.response = .rejected := by
    cases s.response <;> simp
  constructor <;> grind [checkNotify, unexpected, directionClosed]

variable {r : LifetimeResult} {P : Lifetime → Prop}

/-- A commit that its check lets through. -/
theorem of_checked (h : (if r ≠ .ok then (r, s) else (.ok, s')).1 = .ok) (hP : r = .ok → P s') :
    P (if r ≠ .ok then (r, s) else (.ok, s')).2 := by
  split_ifs at h ⊢ with hr
  · exact absurd h hr
  · exact hP (not_not.mp hr)

theorem commit_sends (hc : s.Calm) (h : (s.commit true clear m).1 = .ok) :
    s.Sends m (s.commit true clear m).2 := by
  cases m with
  | initialResponse a =>
    refine of_checked h fun hk => .initialResponse a ?_ ?_ ?_ <;>
      grind [checkInitialResponse, unexpected, directionClosed]
  | update => exact of_checked h checkUpdate_out
  | updateResponse a =>
    refine of_checked h fun hk => .updateResponse a ?_ ?_ ?_ ?_ <;>
      grind [checkUpdateResponse, unexpected, directionClosed]
  | done =>
    refine of_checked h fun hk => .done ?_ ?_ ?_ ?_ ?_ <;>
      grind [checkDone, unexpected, directionClosed]
  | notify => exact checkNotify_out h
  | fin =>
    have := hc.fin
    refine of_checked h fun hk => .fin ?_
    grind [checkFin]

/-! ### Incoming checks -/

/-- An incoming direction that is open. -/
structure Open (s : Lifetime) : Prop where
  valid : s.valid
  failed : s.failed = false
  closed : s.directionClosed false = false

theorem Calm.opened (hc : s.Calm) (hf : s.peerFin = false) : s.Open where
  valid := hc.valid
  failed := by
    have := hc.finFailed
    simp_all [Lifetime.failed, hc.cancelled]
  closed := by simp [directionClosed, hf, hc.peerReset]

theorem checkUpdate_in (ho : s.Open) (hr : s.localReset = false) (kind : s.family ≠ .trackStatus)
    (role : s.localRequester → s.family = .publish) (accepted : s.response = .accepted)
    (unfailed : s.updateFailed = false) (credit : s.incomingUpdate = false)
    (own : s.publisherDone → s.localPublisher) :
    s.checkUpdate false = .ok ∨ s.checkUpdate false = .terminalCrossing := by
  by_cases hend : s.localFin ∨ (s.publisherDone ∧ s.localPublisher)
  iterate 2 simp_all [checkUpdate, ho.valid, ho.failed, ho.closed]

/-- A commit that its check lets through whenever the receiver is done with the message. -/
theorem of_taken (hr : r.taken → r = .ok)
    (h : (if r ≠ .ok then (r, s) else (.ok, s')).1.taken) (hP : P s') :
    P (if r ≠ .ok then (r, s) else (.ok, s')).2 := by
  split_ifs at h ⊢ with hk
  · exact absurd (hr h) hk
  · exact hP

/-- What the receiver is done with. -/
theorem commit_takes (h : (s.commit false clear m).1.taken) :
    s.Takes m (s.commit false clear m).2 := by
  cases m with
  | initialResponse a =>
    refine of_taken (fun hk => ?_) h (.initialResponse a)
    unfold checkInitialResponse at hk ⊢
    split_ifs at hk ⊢ <;> first | rfl | cases hk
  | update =>
    simp only [commit, updateCommitted, Bool.false_eq_true, if_false]
    split_ifs
    · exact .crossing
    · exact .update
  | updateResponse a =>
    refine of_taken (fun hk => ?_) h (.updateResponse a)
    unfold checkUpdateResponse at hk ⊢
    split_ifs at hk ⊢ <;> first | rfl | cases hk
  | done =>
    refine of_taken (fun hk => ?_) h .done
    unfold checkDone at hk ⊢
    split_ifs at hk ⊢ <;> first | rfl | cases hk
  | notify => exact .notify
  | fin =>
    simp only [commit, receiveFin, Bool.false_eq_true, if_false] at h ⊢
    by_cases hv : (!s.valid)
    · rw [if_pos hv] at h
      cases h
    rw [if_neg hv]
    by_cases hp : s.peerFin
    · rw [if_pos hp]
      exact .finAgain
    · rw [if_neg hp]
      exact .fin _

end Lifetime

/-! ## One direction -/

/-- What may follow a message in one direction: nothing but a FIN follows a FIN or a DONE, the
initial response follows nothing, and updates and their responses go one at a time. -/
structure Follows (a b : LifetimeMsg) : Prop where
  last : a = .fin ∨ a = .done → b = .fin
  first : ∀ x, b ≠ .initialResponse x
  update : a = .update → b ≠ .update
  response : ∀ x y, a = .updateResponse x → b ≠ .updateResponse y
  rejected : a = .updateResponse false → b ≠ .update

/-- The publisher's DONE is not seen yet, if the sender is the publisher. -/
def Undone (S T : Lifetime) : Prop := T.publisherDone → S.localPublisher = false

/-- **A message under way** from `S` to `T`: what of `S` justifies it, and what of `T` awaits it. -/
def Carried (S T : Lifetime) : LifetimeMsg → Prop
  | .initialResponse a => T.peerFin = false ∧ S.localRequester = false ∧
      S.response = answered a ∧ T.response = .pending
  | .update => T.peerFin = false ∧ Undone S T ∧ S.response = .accepted ∧
      S.family ≠ .trackStatus ∧ (S.localRequester ∨ S.family = .publish) ∧
      S.outgoingUpdate ∧ T.incomingUpdate = false ∧ T.updateFailed = false
  | .updateResponse a => T.peerFin = false ∧ Undone S T ∧ S.response = .accepted ∧
      (a = false → S.updateFailed)
  | .done => T.peerFin = false ∧ T.publisherDone = false ∧ S.publisherDone ∧
      S.subscription ∧ S.localPublisher ∧
      (S.response = .accepted ∨ S.family = .publish)
  | .notify => T.peerFin = false ∧ Undone S T ∧ S.response = .accepted ∧
      S.subscription ∧ S.localPublisher
  | .fin => S.localFin

/-- **The invariant of one direction**, with `c` under way from `S` to `T` and `d` back. -/
structure Half (S T : Lifetime) (c d : List LifetimeMsg) : Prop where
  follows : c.Pairwise Follows
  carried : ∀ m ∈ c, Carried S T m
  early : S.localRequester = false → S.response = .pending → c = []
  agree : S.localRequester = false → (∀ a, .initialResponse a ∉ c) → T.response = S.response
  finSeen : T.peerFin → S.localFin
  doneSeen : T.publisherDone → S.localPublisher → S.publisherDone
  incoming : T.incomingUpdate → S.outgoingUpdate
  replies : ∀ a, .updateResponse a ∈ d →
    S.outgoingUpdate ∧ .update ∉ c ∧ T.incomingUpdate = false
  failed : T.updateFailed → S.updateFailed ∨ .updateResponse false ∈ d

/-- The endpoints are of one family and opposite roles. -/
structure Opposite (S T : Lifetime) : Prop where
  family : T.family = S.family
  role : T.localRequester = !S.localRequester

variable {S T S' T' : Lifetime} {c d : List LifetimeMsg} {m : LifetimeMsg}

theorem Opposite.symm (h : Opposite S T) : Opposite T S :=
  ⟨h.family.symm, by rw [h.role, Bool.not_not]⟩

/-- Exactly one end of a subscription is its publisher. -/
theorem Opposite.publisher (h : Opposite S T) (hs : S.subscription) :
    T.localPublisher = !S.localPublisher := by
  have hf := h.family
  have hr := h.role
  simp only [subscription, Bool.or_eq_true, decide_eq_true_eq] at hs
  rcases hs with hs | hs <;> simp [localPublisher, hf, hr, hs]

namespace Half

/-- A direction, when one more message is sent on it. -/
theorem push (h : Half S T c d) (hf : ∀ a ∈ c, Follows a m) (hm : Carried S T m)
    (he : S.localRequester = false → S.response ≠ .pending)
    (hu : m = .update → ∀ a, .updateResponse a ∉ d) : Half S T (c ++ [m]) d :=
  { h with
    follows := pairwise_append.mpr
      ⟨h.follows, pairwise_singleton .., fun a ha b hb => mem_singleton.mp hb ▸ hf a ha⟩
    carried := fun x hx => by
      rcases mem_append.mp hx with hx | hx
      · exact h.carried x hx
      · exact mem_singleton.mp hx ▸ hm
    early := fun hr hp => absurd hp (he hr)
    agree := fun hr hn => h.agree hr fun a ha => hn a (mem_append_left _ ha)
    replies := fun a ha => by
      obtain ⟨h1, h2, h3⟩ := h.replies a ha
      refine ⟨h1, fun hc => ?_, h3⟩
      rcases mem_append.mp hc with hc | hc
      · exact h2 hc
      · exact hu (mem_singleton.mp hc).symm a ha }

/-- A direction, when its oldest message is taken. -/
theorem pop (h : Half S T (m :: c) d) (hi : ∀ a, m ≠ .initialResponse a) : Half S T c d :=
  { h with
    follows := h.follows.tail
    carried := fun x hx => h.carried x (mem_cons_of_mem _ hx)
    early := fun hr hp => absurd (h.early hr hp) (cons_ne_nil _ _)
    agree := fun hr hn => h.agree hr fun a ha => (mem_cons.mp ha).elim (fun h => hi a h.symm) (hn a)
    replies := fun a ha => by
      obtain ⟨h1, h2, h3⟩ := h.replies a ha
      exact ⟨h1, fun hc => h2 (mem_cons_of_mem _ hc), h3⟩ }

/-- The other direction, when a message is sent that answers no update. -/
theorem pushBack (h : Half S T c d) (hm : ∀ a, m ≠ .updateResponse a) : Half S T c (d ++ [m]) :=
  { h with
    replies := fun a ha => h.replies a <| (mem_append.mp ha).resolve_right fun hc =>
      hm a (mem_singleton.mp hc).symm
    failed := fun hf => (h.failed hf).imp_right (mem_append_left _) }

/-- The other direction, when a message is taken that answers no update. -/
theorem popBack (h : Half S T c (m :: d)) (hm : ∀ a, m ≠ .updateResponse a) : Half S T c d :=
  { h with
    replies := fun a ha => h.replies a (mem_cons_of_mem _ ha)
    failed := fun hf => (h.failed hf).imp_right fun hc =>
      (mem_cons.mp hc).resolve_left fun h => hm false h.symm }

/-- What follows the oldest message. -/
theorem after (h : Half S T (m :: c) d) {x : LifetimeMsg} (hx : x ∈ c) : Follows m x :=
  rel_of_pairwise_cons h.follows hx

/-- Nothing that a FIN or a DONE ends is under way or taken, while the sender may still send. -/
theorem live (h : Half S T c d) (hf : S.localFin = false)
    (hd : S.publisherDone → S.localPublisher = false) :
    T.peerFin = false ∧ Undone S T ∧ .done ∉ c ∧ ∀ a ∈ c, ¬ (a = .fin ∨ a = .done) := by
  have hdone : .done ∉ c := fun hm => by
    obtain ⟨-, -, hs, -, hl, -⟩ := h.carried _ hm
    exact clash (hd hs) hl
  refine ⟨Bool.eq_false_iff.mpr fun hp => clash hf (h.finSeen hp),
    fun ht => Bool.eq_false_iff.mpr fun hl => clash (hd (h.doneSeen ht hl)) hl, hdone, ?_⟩
  rintro a ha (rfl | rfl)
  · exact clash hf (h.carried _ ha)
  · exact hdone ha

/-- A response that is not pending. -/
theorem answered_of (h : S.response = .accepted) :
    S.localRequester = false → S.response ≠ .pending :=
  fun _ => h ▸ nofun

end Half

/-! ## Sending -/

section Sending

variable (h : Half S T c d) (hr : Half T S d c) (hp : Opposite S T)

include h

variable {a : Bool}

theorem Half.sendInitialResponse (hs : S.Sends (.initialResponse a) S') :
    Half S' T (c ++ [.initialResponse a]) d := by
  obtain ⟨_, role, pending, unclosed⟩ := hs
  obtain rfl := h.early role pending
  have hresp : T.response = .pending := (h.agree role fun _ => not_mem_nil).trans pending
  have hopen : T.peerFin = false := Bool.eq_false_iff.mpr fun hp => clash unclosed (h.finSeen hp)
  refine { h with follows := pairwise_singleton .., carried := ?_, early := ?_, agree := ?_,
                  replies := ?_ }
  · intro m hm
    obtain rfl := mem_singleton.mp hm
    exact ⟨hopen, role, rfl, hresp⟩
  · intro _ hc
    cases a <;> cases hc
  · exact fun _ hc => absurd (mem_singleton_self _) (hc a)
  · intro x hx
    obtain ⟨h1, -, h3⟩ := h.replies x hx
    exact ⟨h1, by simp, h3⟩

theorem Half.sendUpdate (hs : S.Sends .update S') : Half S' T (c ++ [.update]) d := by
  obtain _ | ⟨kind, role, accepted, unclosed, undone, unfailed, credit⟩ := hs
  have hno : ∀ a, .updateResponse a ∉ d := fun a ha => clash credit (h.replies a ha).1
  have hin : T.incomingUpdate = false := Bool.eq_false_iff.mpr fun hc =>
    clash credit (h.incoming hc)
  have hfail : T.updateFailed = false := Bool.eq_false_iff.mpr fun hc =>
    (h.failed hc).elim (fun hc => clash unfailed hc) (hno false)
  obtain ⟨hopen, hund, -, hlive⟩ := h.live unclosed fun hc => clash undone hc
  have hupd : .update ∉ c := fun hc => by
    obtain ⟨-, -, -, -, -, hc, -⟩ := h.carried _ hc
    exact clash credit hc
  have hS : Half { S with outgoingUpdate := true } T c d :=
    { h with
      incoming := fun _ => rfl
      replies := fun a ha => absurd ha (hno a)
      carried := fun m hm => by
        have := h.carried m hm
        cases m with
        | update => exact absurd hm hupd
        | _ => exact this }
  refine hS.push (fun a ha => ⟨fun hc => absurd hc (hlive a ha), nofun, ?_, nofun, ?_⟩)
    ⟨hopen, hund, accepted, kind, role, rfl, hin, hfail⟩ (answered_of accepted) fun _ => hno
  · rintro rfl
    exact absurd ha hupd
  · rintro rfl
    exact clash unfailed ((h.carried _ ha).2.2.2 rfl)

include hr

theorem Half.sendUpdateResponse (hs : S.Sends (.updateResponse a) S') :
    Half S' T (c ++ [.updateResponse a]) d := by
  obtain _ | _ | ⟨_, owed, accepted, unclosed, undone⟩ := hs
  have hno : ∀ x, .updateResponse x ∉ c := fun x hx => clash (hr.replies x hx).2.2 owed
  obtain ⟨hopen, hund, -, hlive⟩ := h.live unclosed undone
  have hS : Half { S with incomingUpdate := false, updateFailed := S.updateFailed || !a } T c d :=
    { h with
      failed := fun hf => (h.failed hf).imp_left fun hf => by simp [hf]
      carried := fun m hm => by
        have := h.carried m hm
        cases m with
        | updateResponse x => exact absurd hm (hno x)
        | _ => exact this }
  refine hS.push (fun x hx => ⟨fun hc => absurd hc (hlive x hx), nofun, nofun, ?_, nofun⟩)
    ⟨hopen, hund, accepted, fun ha => by simp [ha]⟩ (answered_of accepted) nofun
  rintro y z rfl
  exact absurd hx (hno y)

omit hr

theorem Half.sendDone (hs : S.Sends .done S') : Half S' T (c ++ [.done]) d := by
  obtain _ | _ | _ | ⟨kind, role, response, unclosed, undone⟩ := hs
  obtain ⟨hopen, hund, hdone, hlive⟩ := h.live unclosed fun hc => clash undone hc
  have hT : T.publisherDone = false := Bool.eq_false_iff.mpr fun hc => clash (hund hc) role
  have hS : Half { S with publisherDone := true } T c d :=
    { h with
      doneSeen := fun _ _ => rfl
      carried := fun m hm => by
        have := h.carried m hm
        cases m with
        | done => exact absurd hm hdone
        | _ => exact this }
  refine hS.push (fun x hx => ⟨fun hc => absurd hc (hlive x hx), nofun, nofun, nofun, nofun⟩)
    ⟨hopen, hT, rfl, kind, role, response.imp_right And.left⟩ (fun hl hc => ?_) nofun
  -- The publisher of a pending request is its requester.
  rcases response with hacc | ⟨hpub, -⟩
  · exact answered_of hacc hl hc
  · simp [localPublisher, hpub, show S.localRequester = false from hl] at role

theorem Half.sendNotify (hs : S.Sends .notify S') : Half S' T (c ++ [.notify]) d := by
  obtain _ | _ | _ | _ | ⟨kind, role, accepted, unclosed, undone⟩ := hs
  obtain ⟨hopen, hund, -, hlive⟩ := h.live unclosed fun hc => clash undone hc
  exact h.push (fun x hx => ⟨fun hc => absurd hc (hlive x hx), nofun, nofun, nofun, nofun⟩)
    ⟨hopen, hund, accepted, kind, role⟩ (answered_of accepted) nofun

theorem Half.sendFin (hs : S.Sends .fin S') : Half S' T (c ++ [.fin]) d := by
  obtain _ | _ | _ | _ | _ | hl := hs
  have hS : Half { S with localFin := true } T c d :=
    { h with
      finSeen := fun _ => rfl
      carried := fun m hm => by
        have := h.carried m hm
        cases m with
        | fin => rfl
        | _ => exact this }
  exact hS.push (fun x hx => ⟨fun _ => rfl, nofun, nofun, nofun, nofun⟩) rfl
    (fun hr => hl.resolve_left fun hc => clash hr hc) nofun

include hr

/-- **A send keeps the direction it is sent on.** -/
theorem Lifetime.Sends.half (hs : S.Sends m S') : Half S' T (c ++ [m]) d := by
  cases m with
  | initialResponse a => exact h.sendInitialResponse hs
  | update => exact h.sendUpdate hs
  | updateResponse a => exact h.sendUpdateResponse hr hs
  | done => exact h.sendDone hs
  | notify => exact h.sendNotify hs
  | fin => exact h.sendFin hs

omit h
include hp

/-- **A send keeps the other direction.** -/
theorem Lifetime.Sends.halfBack (hs : S.Sends m S') : Half T S' d (c ++ [m]) := by
  cases hs with
  | initialResponse a role pending unclosed =>
    have hT : T.localRequester := by rw [hp.role, role]; rfl
    have hS : Half T { S with response := answered a } d c :=
      { hr with
        agree := fun hc => clash hc hT
        carried := fun m hm => by
          have := hr.carried m hm
          cases m with
          | initialResponse x => exact clash this.2.1 hT
          | _ => exact this }
    exact hS.pushBack nofun
  | update kind role accepted unclosed undone unfailed credit =>
    exact { (hr.pushBack nofun : Half T S d (c ++ [.update])) with }
  | updateResponse a owed accepted unclosed undone =>
    have hupd : .update ∉ d := fun hc => clash (hr.carried _ hc).2.2.2.2.2.2.1 owed
    exact { hr with
      incoming := nofun
      replies := fun _ _ => ⟨hr.incoming owed, hupd, rfl⟩
      failed := fun hf => by
        rcases Bool.or_eq_true .. ▸ hf with hf | hf
        · exact (hr.failed hf).imp_right (mem_append_left _)
        · rw [Bool.not_eq_true'] at hf
          exact .inr (mem_append_right _ (hf ▸ mem_singleton_self _))
      carried := fun m hm => by
        have := hr.carried m hm
        cases m with
        | update => exact absurd hm hupd
        | _ => exact this }
  | done kind role response unclosed undone =>
    have hT : T.localPublisher = false := by rw [hp.publisher kind, role]; rfl
    have hS : Half T { S with publisherDone := true } d c :=
      { hr with
        doneSeen := fun _ hc => clash hT hc
        carried := fun m hm => by
          have := hr.carried m hm
          cases m with
          | initialResponse x => exact this
          | update | updateResponse x => exact ⟨this.1, fun _ => hT, this.2.2⟩
          | done => exact clash hT this.2.2.2.2.1
          | notify => exact ⟨this.1, fun _ => hT, this.2.2⟩
          | fin => exact this }
    exact hS.pushBack nofun
  | notify kind role accepted unclosed undone => exact hr.pushBack nofun
  | fin answered => exact { (hr.pushBack nofun : Half T S d (c ++ [.fin])) with }

end Sending

/-! ## Taking -/

section Taking

variable (h : Half S T (m :: c) d) (hr : Half T S d (m :: c)) (hp : Opposite S T)

include h

/-- **Taking a message keeps its direction.** -/
theorem Lifetime.Takes.half (ht : T.Takes m T') : Half S T' c d := by
  have hm := h.carried m mem_cons_self
  cases ht with
  | initialResponse a =>
    obtain ⟨-, role, hresp, -⟩ := hm
    exact { h with
      follows := h.follows.tail
      carried := fun x hx => by
        have := h.carried x (mem_cons_of_mem _ hx)
        cases x with
        | initialResponse y => exact absurd rfl ((h.after hx).first y)
        | _ => exact this
      early := fun hr hc => absurd (h.early hr hc) (cons_ne_nil _ _)
      agree := fun _ _ => hresp.symm
      replies := fun a ha => by
        obtain ⟨h1, h2, h3⟩ := h.replies a ha
        exact ⟨h1, fun hc => h2 (mem_cons_of_mem _ hc), h3⟩ }
  | update =>
    have hno : .update ∉ c := fun hc => (h.after hc).update rfl rfl
    exact { h.pop nofun with
      incoming := fun _ => hm.2.2.2.2.2.1
      replies := fun a ha => absurd mem_cons_self (h.replies a ha).2.1
      carried := fun x hx => by
        have := (h.pop nofun).carried x hx
        cases x with
        | update => exact absurd hx hno
        | _ => exact this }
  | crossing => exact h.pop nofun
  | updateResponse a =>
    obtain ⟨-, -, -, hrej⟩ := hm
    exact { h.pop nofun with
      failed := fun hf => by
        rcases Bool.or_eq_true .. ▸ hf with hf | hf
        · exact h.failed hf
        · exact .inl (hrej (by simpa using hf))
      carried := fun x hx => by
        have := (h.pop nofun).carried x hx
        cases x with
        | update =>
          obtain ⟨h1, h2, h3, h4, h5, h6, h7, h8⟩ := this
          refine ⟨h1, h2, h3, h4, h5, h6, h7, ?_⟩
          cases a with
          | true => simpa using h8
          | false => exact absurd rfl ((h.after hx).rejected rfl)
        | _ => exact this }
  | done =>
    obtain ⟨hpf, -, hdone, -, hl, -⟩ := hm
    exact { h.pop nofun with
      doneSeen := fun _ _ => hdone
      carried := fun x hx => by
        have := (h.pop nofun).carried x hx
        obtain rfl := (h.after hx).last (.inr rfl)
        exact this }
  | notify => exact h.pop nofun
  | fin missing =>
    exact { h.pop nofun with
      finSeen := fun _ => hm
      carried := fun x hx => by
        obtain rfl := (h.after hx).last (.inl rfl)
        exact hm }
  | finAgain => exact h.pop nofun

include hr

variable {a : Bool}

theorem Half.takeUpdateResponse (hm : m = .updateResponse a) :
    Half { T with outgoingUpdate := false, updateFailed := T.updateFailed || !a } S d c := by
  subst hm
  obtain ⟨-, hupd, hin⟩ := hr.replies a mem_cons_self
  refine { hr with
    carried := fun x hx => ?_
    incoming := fun hc => clash hin hc
    replies := fun x hx => absurd rfl ((h.after hx).response a x rfl)
    failed := fun hf => ?_ }
  · have := hr.carried x hx
    cases x with
    | update => exact absurd hx hupd
    | updateResponse y => exact ⟨this.1, this.2.1, this.2.2.1, fun hy => by simp [this.2.2.2 hy]⟩
    | _ => exact this
  · rcases hr.failed hf with hf | hf
    · exact .inl (by simp [hf])
    · refine (mem_cons.mp hf).imp (fun hf => ?_) id
      obtain rfl := LifetimeMsg.updateResponse.inj hf
      exact Bool.or_true _

include hp

theorem Half.takeInitialResponse (hm : m = .initialResponse a) :
    Half { T with response := answered a } S d c := by
  subst hm
  obtain ⟨-, role, -, pending⟩ := h.carried _ mem_cons_self
  have hT : T.localRequester := by rw [hp.role, role]; rfl
  have hpop : Half T S d c := hr.popBack nofun
  refine { hpop with
    early := fun hc => clash hc hT
    agree := fun hc => clash hc hT
    carried := fun x hx => ?_ }
  have := hpop.carried x hx
  cases x with
  | initialResponse y => exact clash this.2.1 hT
  | update | updateResponse y => exact absurd (pending.symm.trans this.2.2.1) nofun
  | done =>
    obtain ⟨h1, h2, h3, h4, h5, h6⟩ := this
    exact ⟨h1, h2, h3, h4, h5, .inr (h6.resolve_left fun hc => nomatch pending.symm.trans hc)⟩
  | notify => exact absurd (pending.symm.trans this.2.2.1) nofun
  | fin => exact this

/-- **Taking a message keeps the other direction.** -/
theorem Lifetime.Takes.halfBack (ht : T.Takes m T') : Half T' S d c := by
  cases ht with
  | initialResponse a => exact h.takeInitialResponse hr hp rfl
  | update => exact { hr.popBack nofun with }
  | crossing => exact hr.popBack nofun
  | updateResponse a => exact h.takeUpdateResponse hr rfl
  | done =>
    have hpop : Half T S d c := hr.popBack nofun
    exact { hpop with
      doneSeen := fun _ _ => rfl
      carried := fun x hx => by
        have := hpop.carried x hx
        cases x with
        | done => exact ⟨this.1, this.2.1, rfl, this.2.2.2⟩
        | _ => exact this }
  | notify => exact hr.popBack nofun
  | fin missing => exact { hr.popBack nofun with }
  | finAgain => exact hr.popBack nofun

end Taking

/-! ## The head of a queue -/

section Head

variable (h : Half S T (m :: c) d) (hr : Half T S d (m :: c)) (hp : Opposite S T) (hT : T.Calm)

include hp hT

/-- A DONE that was not received is the receiver's own. -/
theorem Lifetime.Calm.own_done (hu : Undone S T) : T.publisherDone → T.localPublisher := by
  intro hd
  have := hp.symm.publisher (hT.done hd)
  rw [hu hd] at this
  simpa using this.symm

omit hT
include h hr

/-- The receiver of a message that follows acceptance was told so before. -/
theorem Half.accepted (hs : S.response = .accepted) (hm : ∀ a, m ≠ .initialResponse a) :
    T.response = .accepted := by
  cases hl : S.localRequester with
  | true =>
    have hl' : T.localRequester = false := by rw [hp.role, hl]; rfl
    refine (hr.agree hl' fun a ha => ?_).symm.trans hs
    exact nomatch (hr.carried _ ha).2.2.2.symm.trans hs
  | false =>
    refine (h.agree hl fun a ha => ?_).trans hs
    rcases mem_cons.mp ha with ha | ha
    · exact hm a ha.symm
    · exact (h.after ha).first a rfl

include hT

/-- **The oldest message is no violation.** -/
theorem Half.head : (T.commit false true m).1 = .ok ∨
    (m = .update ∧ (T.commit false true m).1 = .terminalCrossing) ∨
    (m = .fin ∧ (T.commit false true m).1 = .failed) := by
  have hm := h.carried m mem_cons_self
  cases m with
  | initialResponse a =>
    obtain ⟨hpf, role, -, pending⟩ := hm
    have hl : T.localRequester := by rw [hp.role, role]; rfl
    have ho := hT.opened hpf
    exact .inl (by simp [commit, initialResponseCommitted, checkInitialResponse,
      ho.valid, ho.failed,
      ho.closed, hl, pending])
  | update =>
    obtain ⟨hpf, hund, hacc, hkind, hrole, -, hin, hfail⟩ := hm
    have hrole' : T.localRequester → T.family = .publish := fun hl => by
      rw [hp.family]
      exact hrole.resolve_left fun hc => by simp [hp.role, hc] at hl
    rcases checkUpdate_in (hT.opened hpf) hT.localReset (hp.family ▸ hkind) hrole'
      (h.accepted hr hp hacc nofun) hfail hin (hT.own_done hp hund) with hk | hk
    · exact .inl (by simp [commit, updateCommitted, hk])
    · exact .inr (.inl ⟨rfl, by simp [commit, updateCommitted, hk]⟩)
  | updateResponse a =>
    obtain ⟨hpf, hund, hacc, -⟩ := hm
    have ho := hT.opened hpf
    have hown : T.publisherDone = false ∨ T.localPublisher :=
      (Bool.eq_false_or_eq_true _).symm.imp_right (hT.own_done hp hund)
    exact .inl (by rcases hown with hown | hown <;> simp [commit, updateResponseCommitted,
      checkUpdateResponse, ho.valid, ho.failed, ho.closed, (hr.replies a mem_cons_self).1,
      h.accepted hr hp hacc nofun, hown])
  | done =>
    obtain ⟨hpf, hnd, -, hsub, hpub, hresp⟩ := hm
    have hpub' : T.localPublisher = false := by rw [hp.publisher hsub, hpub]; rfl
    have hsub' : T.subscription := by rwa [subscription, hp.family]
    have hresp' : T.response = .accepted ∨ T.family = .publish :=
      hresp.imp (h.accepted hr hp · nofun) (hp.family ▸ ·)
    have ho := hT.opened hpf
    have hk : T.checkDone false true = .ok := by
      cases hr : T.response <;>
        simp_all [checkDone, ho.valid, ho.failed, ho.closed]
    exact .inl (by simp [commit, doneCommitted, hk])
  | notify =>
    obtain ⟨hpf, hund, hacc, hsub, hpub⟩ := hm
    have hpub' : T.localPublisher = false := by rw [hp.publisher hsub, hpub]; rfl
    have hsub' : T.subscription := by rwa [subscription, hp.family]
    have hnd : T.publisherDone = false := Bool.eq_false_iff.mpr fun hc => clash (hund hc) hpub
    have ho := hT.opened hpf
    exact .inl (by simp [commit, checkNotify, ho.valid, ho.failed, ho.closed, hsub', hpub',
      h.accepted hr hp hacc nofun, hnd])
  | fin =>
    simp only [commit, receiveFin, hT.valid, Bool.not_true, Bool.false_eq_true, if_false]
    split_ifs <;> simp

end Head

/-! ## The link -/

theorem Lifetime.Sends.calm (hs : S.Sends m S') (hc : S.Calm) : S'.Calm := by
  cases hs with
  | initialResponse a role pending unclosed => exact { hc with fin := fun h => clash unclosed h }
  | update | updateResponse => exact { hc with }
  | done kind => exact { hc with done := fun _ => kind }
  | notify => exact hc
  | fin answered => exact { hc with fin := fun _ => answered }

theorem Lifetime.Takes.calm (ht : T.Takes m T') (hc : T.Calm) (hp : Opposite S T)
    (hm : Carried S T m) : T'.Calm := by
  cases ht with
  | initialResponse a => exact { hc with fin := fun _ => .inr (by cases a <;> nofun) }
  | update => exact { hc with }
  | crossing => exact hc
  | updateResponse => exact { hc with }
  | done =>
    have hsub : T.subscription := by
      rw [subscription, hp.family]
      exact hm.2.2.2.1
    exact { hc with done := fun _ => hsub }
  | notify => exact hc
  | fin missing => exact { hc with finFailed := fun _ => rfl }
  | finAgain => exact hc

theorem Lifetime.Sends.opposite (hs : S.Sends m S') (hp : Opposite S T) : Opposite S' T := by
  cases hs <;> exact ⟨hp.family, hp.role⟩

theorem Lifetime.Takes.opposite (ht : S.Takes m S') (hp : Opposite S T) : Opposite S' T := by
  cases ht <;> exact ⟨hp.family, hp.role⟩

namespace Link

variable {l : Link}

/-- **The invariant of a link**: both endpoints calm and opposite, both directions kept. -/
structure Inv (l : Link) : Prop where
  calm : ∀ b, (l.ep b).Calm
  opposite : ∀ b, Opposite (l.ep b) (l.ep !b)
  half : ∀ b, Half (l.ep b) (l.ep !b) (l.chan b) (l.chan !b)

theorem Inv.init {family : RequestFamily} (hf : family ≠ .other) : (Link.init family).Inv where
  calm _ := ⟨decide_eq_true hf, rfl, rfl, rfl, nofun, nofun, nofun⟩
  opposite _ := ⟨rfl, rfl⟩
  half _ := ⟨List.Pairwise.nil, nofun, fun _ _ => rfl, fun _ _ => rfl, nofun, nofun, nofun, nofun,
    nofun⟩

variable {b : Bool}

/-- A link seen from one of its ends. -/
theorem Inv.of_pair (hS : S.Calm) (hT : T.Calm)
    (hp : Opposite S T) (h : Half S T c d) (hr : Half T S d c) (hb : l.ep b = S)
    (hb' : l.ep (!b) = T) (hc : l.chan b = c) (hd : l.chan (!b) = d) : l.Inv := by
  subst hb hb' hc hd
  refine ⟨fun x => ?_, fun x => ?_, fun x => ?_⟩ <;> rcases Bool.eq_or_eq_not x b with rfl | rfl <;>
    try rw [Bool.not_not]
  exacts [hS, hT, hp, hp.symm, h, hr]

theorem Inv.send (hi : l.Inv) (b : Bool) (m : LifetimeMsg) (clear : Bool) :
    (l.step (.send b m clear)).Inv := by
  unfold step
  dsimp only
  split_ifs with hk
  · exact hi
  · have hs := commit_sends (hi.calm b) (not_not.mp hk)
    have h := hi.half b
    have hr : Half (l.ep !b) (l.ep b) (l.chan !b) (l.chan b) := by simpa using hi.half !b
    refine .of_pair (b := b) (hs.calm (hi.calm b)) (hi.calm !b) (hs.opposite (hi.opposite b))
      (hs.half h hr) (hs.halfBack hr (hi.opposite b)) ?_ ?_ ?_ ?_ <;> simp

/-- The two directions, seen by the endpoint a message is for. -/
theorem Inv.incoming (hi : l.Inv) {rest : List LifetimeMsg}
    (hd : l.chan (!b) = m :: rest) : Half (l.ep !b) (l.ep b) (m :: rest) (l.chan b) ∧
      Half (l.ep b) (l.ep !b) (l.chan b) (m :: rest) ∧ Opposite (l.ep !b) (l.ep b) := by
  have h := hi.half !b
  rw [Bool.not_not, hd] at h
  exact ⟨h, hd ▸ hi.half b, (hi.opposite b).symm⟩

theorem Inv.receive (hi : l.Inv) (b : Bool) : (l.step (.receive b)).Inv := by
  unfold step
  dsimp only
  cases hd : l.chan !b with
  | nil => exact hi
  | cons m rest =>
    dsimp only
    split_ifs with hk
    · exact hi
    · have ht := commit_takes (by simpa using hk)
      obtain ⟨h, hr, hp⟩ := hi.incoming hd
      have hm := h.carried m mem_cons_self
      refine .of_pair (b := b) (ht.calm (hi.calm b) hp hm) (hi.calm !b)
        (ht.opposite (hi.opposite b)) (ht.halfBack h hr hp) (ht.half h) ?_ ?_ ?_ ?_ <;> simp

theorem step_inv (l : Link) (move : LinkMove) (hi : l.Inv) : (l.step move).Inv := by
  cases move with
  | send b m clear => exact hi.send b m clear
  | receive b => exact hi.receive b

end Link

/-! ## Refusals, and the whole -/

end MoqRelay
