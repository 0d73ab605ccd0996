import MoqRelay.Shard.Cluster

/-!
# Shard/ClusterOrder — what the destination sees of a source, and in which order

Between a source and a destination a source slot is in one of two conditions: one slot of the
mailbox holds the state last published for it, or none does and the destination's mirror is that
state (`ClusterLink.Inv`).  So a message that is delivered is always the last one published: a state
may be replaced before it is seen, a withdrawal too while it is in an ordinary slot, but nothing
older ever follows.  A withdrawal in the extra slot is replaced by nothing but a withdrawal.

Whatever the mailbox drops, the destination's core imports one incarnation of a route after another:
between two imports of different advertisements stands a withdrawal (`Turn`).
-/

namespace MoqRelay

open List Function

/-! ## Imports of one source slot -/

/-- A state as its mirror shows it. -/
def ClusterState.mirror (st : ClusterState) : Option ClusterMirror := st.map ClusterRecord.mirror

/-- **Two imports in a row**: if both are routes, they are the same incarnation. -/
def Turn (a b : ClusterState) : Prop :=
  ∀ r ∈ a, ∀ r' ∈ b, r.advertisement = r'.advertisement ∧ r.canon = r'.canon

theorem Turn.none_left (b : ClusterState) : Turn none b := fun _ h => nomatch h

theorem Turn.none_right (a : ClusterState) : Turn a none := fun _ _ _ h => nomatch h

/-- An import goes through, over nothing or the same incarnation, or changes nothing. -/
theorem clusterImport_cases (prev st : ClusterState) (a : ImportAnswers) :
    (clusterImport prev.mirror st a = (.ok, st.mirror) ∧ Turn prev st) ∨
      ∃ res, res ≠ .ok ∧ clusterImport prev.mirror st a = (res, prev.mirror) := by
  cases st with
  | none =>
    cases prev with
    | none => exact .inl ⟨rfl, .none_right _⟩
    | some p =>
      dsimp only [clusterImport, clusterWithdraw, ClusterState.mirror, Option.map_some]
      split_ifs with h
      · exact .inl ⟨rfl, .none_right _⟩
      · exact .inr ⟨_, by decide, rfl⟩
  | some r =>
    dsimp only [clusterImport, clusterAnnounce]
    split_ifs with _ hsource _ _ _ _ hcanon
    iterate 8 exact .inr ⟨_, by decide, rfl⟩
    cases prev with
    | none =>
      cases hnode : a.nodeRefused with
      | none => exact .inl ⟨rfl, .none_left _⟩
      | some why => exact .inr ⟨.refused why, ImportResult.noConfusion, rfl⟩
    | some p =>
      refine .inl ⟨rfl, fun q hq r' hr => ?_⟩
      cases hq
      cases hr
      exact ⟨by simpa [ClusterState.mirror, ClusterRecord.mirror] using hsource,
        by simpa [ClusterState.mirror, ClusterRecord.mirror] using hcanon⟩

/-- The last of some imports, if there are any. -/
def lastImport (prev : ClusterState) (imports : List ClusterState) : ClusterState :=
  imports.getLast?.getD prev

theorem lastImport_append (prev : ClusterState) (as bs : List ClusterState) :
    lastImport prev (as ++ bs) = lastImport (lastImport prev as) bs := by
  rw [lastImport, getLast?_append, Option.getD_or]
  rfl

/-- Imports that follow the last of earlier ones go on from them. -/
theorem Turn.isChain_append {as bs : List ClusterState} (has : as.IsChain Turn)
    (hbs : (lastImport none as :: bs).IsChain Turn) : (as ++ bs).IsChain Turn := by
  obtain ⟨hhead, hbs⟩ := isChain_cons.mp hbs
  refine has.append hbs fun a ha b hb => ?_
  have hlast : lastImport none as = a := by rw [lastImport, Option.mem_def.mp ha, Option.getD_some]
  exact hlast ▸ hhead b hb

/-- **One message applied**: its imports follow one another, the mirror is the last of them, and a
message that was consumed is the last of them. -/
theorem applyCluster_spec (prev st : ClusterState) (a : ApplyAnswers) :
    ∃ consumed imports, applyCluster prev.mirror st a
        = (consumed, (lastImport prev imports).mirror, imports) ∧
      (prev :: imports).IsChain Turn ∧ (consumed → lastImport prev imports = st) := by
  unfold applyCluster
  rcases clusterImport_cases prev st a.first with ⟨h, ht⟩ | ⟨res, hres, h⟩
  · rw [h]
    exact ⟨true, [st], rfl, by simpa using ht, fun _ => rfl⟩
  rw [h]
  cases res with
  | ok => exact absurd rfl hres
  | refused why => exact ⟨false, [], rfl, isChain_singleton _, Bool.noConfusion⟩
  | wrongState =>
    dsimp only
    split_ifs with hst
    · exact ⟨false, [], rfl, isChain_singleton _, Bool.noConfusion⟩
    rcases clusterImport_cases prev none a.withdraw with ⟨h, ht⟩ | ⟨res, hres, h⟩
    · rw [h]
      dsimp only
      rcases clusterImport_cases none st a.again with ⟨h, ht'⟩ | ⟨res, hres, h⟩
      · rw [h]
        exact ⟨true, [none, st], rfl, by simpa using ⟨ht, ht'⟩, fun _ => rfl⟩
      · rw [h]
        refine ⟨false, [none], ?_, by simpa using ht, Bool.noConfusion⟩
        cases res with
        | ok => exact absurd rfl hres
        | _ => rfl
    · rw [h]
      refine ⟨false, [], ?_, isChain_singleton _, Bool.noConfusion⟩
      cases res with
      | ok => exact absurd rfl hres
      | _ => rfl

/-! ## The mailbox -/

namespace ClusterBox

variable {mb mb' : ClusterBox} {i src index : ℕ} {st : ClusterState}
  {published : ℕ → Option ClusterState}

/-- A slot that holds a source slot's message. -/
def Holds (mb : ClusterBox) (i index : ℕ) : Prop :=
  (mb.slots i).used ∧ (mb.slots i).sourceIndex = index

/-- **The slot a push writes** holds the source slot already, or it is free and no slot does; the
extra slot takes withdrawals only. -/
theorem pushSlot_some (h : mb.pushSlot index st = some i) :
    i ≤ mb.cap ∧ (mb.Holds i index ∨ (mb.slots i).used = false ∧ ∀ j ≤ mb.cap, ¬ mb.Holds j index) ∧
      (i = mb.cap → st = none) := by
  unfold pushSlot at h
  by_cases hw : mb.withdrawal.used && mb.withdrawal.sourceIndex = index
  · split_ifs at h with hst
    cases h
    rw [Bool.and_eq_true, decide_eq_true_iff] at hw
    exact ⟨le_rfl, .inl hw, fun _ => Option.isNone_iff_eq_none.mp hst⟩
  rw [if_neg hw] at h
  rw [Bool.and_eq_true, decide_eq_true_iff] at hw
  cases hslot : mb.slotOf index with
  | some j =>
    obtain rfl : j = i := by simpa [hslot] using h
    have hlt := mem_range.mp (mem_of_find?_eq_some hslot)
    have hp := find?_some hslot
    rw [Bool.and_eq_true, decide_eq_true_iff] at hp
    exact ⟨hlt.le, .inl hp, fun hj => absurd hj hlt.ne⟩
  | none =>
    have habs : ∀ j ≤ mb.cap, ¬ mb.Holds j index := by
      intro j hj hheld
      rcases hj.lt_or_eq with hlt | rfl
      · have := find?_eq_none.mp hslot j (mem_range.mpr hlt)
        rw [hheld.1, hheld.2, decide_eq_true rfl] at this
        exact this rfl
      · exact hw hheld
    rw [hslot] at h
    cases hfree : mb.freeSlot with
    | some j =>
      obtain rfl : j = i := by simpa [hfree] using h
      have hlt := mem_range.mp (mem_of_find?_eq_some hfree)
      have hp := find?_some hfree
      rw [Bool.not_eq_true'] at hp
      exact ⟨hlt.le, .inr ⟨hp, habs⟩, fun hj => absurd hj hlt.ne⟩
    | none =>
      rw [hfree] at h
      split_ifs at h with hst
      cases h
      rw [Bool.and_eq_true, Bool.not_eq_true'] at hst
      exact ⟨le_rfl, .inr ⟨hst.2, habs⟩, fun _ => Option.isNone_iff_eq_none.mp hst.1⟩

/-- **A mailbox in step with its source**: it holds a source slot at most once, as the state last
published, and the extra slot holds a withdrawal. -/
def InStep (mb : ClusterBox) (src : ℕ) (published : ℕ → Option ClusterState) : Prop :=
  KeyedPool ClusterMsg.used ClusterMsg.sourceIndex (mb.cap + 1)
    (fun i s => s.origin = src ∧ published s.sourceIndex = some s.record ∧
      (i = mb.cap → s.record = none)) mb.slots mb.count

/-- A push publishes a state: the mailbox holds it, and what it held of other source slots. -/
theorem InStep.pushCluster {round : ℕ} {mem : Bool} (h : mb.InStep src published)
    (hp : mb.pushCluster round src index st mem = some mb') :
    mb'.InStep src (update published index (some st)) ∧ (∃ i, mb'.Holds i index) ∧
      ∀ k, k ≠ index → ∀ i, mb.Holds i k → mb'.Holds i k := by
  unfold ClusterBox.pushCluster at hp
  split_ifs at hp
  obtain ⟨i, hslot, rfl⟩ := Option.map_eq_some_iff.mp hp
  obtain ⟨hi, hheld, hextra⟩ := pushSlot_some hslot
  have halone : ∀ j, j ≠ i → ¬ mb.Holds j index := by
    intro j hj hjheld
    rcases hheld with hheld | ⟨-, hfree⟩
    · exact hj (h.one j i index hjheld hheld)
    · exact hfree j (Nat.le_of_lt_succ (h.lt j hjheld.1)) hjheld
  have hnot : ∀ k, k ≠ index → ¬ mb.Holds i k := by
    rintro k hk ⟨hu, rfl⟩
    rcases hheld with hheld | ⟨hfree, -⟩
    · exact hk hheld.2
    · exact Bool.noConfusion (hu.symm.trans hfree)
  have hself : (mb.write i round src index st).Holds i index := by
    have hslots : (mb.write i round src index st).slots i = _ := update_self ..
    rw [Holds, hslots]
    exact ⟨rfl, rfl⟩
  refine ⟨h.write (Nat.lt_succ_of_le hi) ?_
    (fun _ => ⟨⟨rfl, update_self .., hextra⟩, fun j hj hu hk => halone j hj ⟨hu, hk⟩⟩)
    fun j hj hu hs => ⟨hs.1, (update_of_ne (fun hk => halone j hj ⟨hu, hk⟩) ..).trans hs.2.1,
      hs.2.2⟩, ⟨i, hself⟩, fun k hk j hj => ?_⟩
  · dsimp only [write]
    cases (mb.slots i).used <;> rfl
  · have hne : j ≠ i := fun heq => hnot k hk (heq ▸ hj)
    have hslots : (mb.write i round src index st).slots j = mb.slots j := update_of_ne hne ..
    rwa [Holds, hslots]

/-- A message consumed. -/
theorem InStep.release (h : mb.InStep src published) (hi : mb.Holds i index) :
    (mb.release i).InStep src published ∧
      ∀ k, k ≠ index → ∀ j, mb.Holds j k → (mb.release i).Holds j k := by
  refine ⟨KeyedPool.release h hi.1 rfl, fun k hk j hj => ?_⟩
  have hne : j ≠ i := fun heq => hk (hj.2.symm.trans (heq ▸ hi.2))
  have hslots : (mb.release i).slots j = mb.slots j := update_of_ne hne ..
  rwa [Holds, hslots]

end ClusterBox

/-! ## The link -/

namespace ClusterLink

open ClusterEvent

variable {l : ClusterLink} {es : List ClusterEvent} {index : ℕ}

/-- The state last published for a source slot. -/
def lastPublished (es : List ClusterEvent) (index : ℕ) : Option ClusterState :=
  lastOf (publishedAt index) es

/-- The imports of a source slot. -/
def importsOf (es : List ClusterEvent) (index : ℕ) : List ClusterState :=
  es.filterMap (importedAt index)

theorem lastPublished_append_published (st : ClusterState) :
    lastPublished (es ++ [.published index st])
      = update (lastPublished es) index (some st) := by
  funext k
  rw [lastPublished]
  rcases eq_or_ne k index with rfl | hne
  · simp [lastOf, publishedAt]
  · rw [update_of_ne hne, lastPublished]
    simp [lastOf, publishedAt, hne.symm]

/-- **What ties the link to its history**: the mailbox is in step with what was published, the
mirrors with what was imported, and a source slot with no message under way is mirrored as it was
last published. -/
structure Inv (l : ClusterLink) (es : List ClusterEvent) : Prop where
  box : l.box.InStep l.src (lastPublished es)
  sent : ∀ k, (l.snapshots k).sent → (lastPublished es k).getD none = (l.snapshots k).state
  mirror : ∀ k, l.mirrors k = (lastImport none (importsOf es k)).mirror
  idle : ∀ k, (∀ i, ¬ l.box.Holds i k) → l.mirrors k = ((lastPublished es k).getD none).mirror
  fresh : Fresh publishedAt deliveredAt es
  turns : ∀ k, (importsOf es k).IsChain Turn

theorem Inv.init (liveVisibility : Bool) (src mailboxEntries : ℕ) :
    Inv (init liveVisibility src mailboxEntries) [] where
  box := .free fun _ => rfl
  sent _ _ := rfl
  mirror _ := rfl
  idle _ _ := rfl
  fresh := .nil
  turns _ := isChain_nil

theorem Inv.capture (h : Inv l es) (exported : ClusterState) :
    Inv (l.capture index exported) es := by
  unfold ClusterLink.capture
  split_ifs with heq
  · exact h
  refine { h with sent := fun k hk => ?_ }
  dsimp only at hk ⊢
  rcases eq_or_ne k index with rfl | hne
  · simp at hk
  · rw [update_of_ne hne] at hk ⊢
    exact h.sent k hk

/-- A push that publishes shows it, and nothing else is seen of it. -/
theorem Inv.push (h : Inv l es) (mem : Bool) :
    Inv (l.push index mem).1 (es ++ (l.push index mem).2) := by
  unfold ClusterLink.push
  split_ifs with hsent
  · rwa [append_nil]
  cases hp : l.box.pushCluster l.round l.src index (l.snapshots index).state mem with
  | none => rwa [append_nil]
  | some box =>
    obtain ⟨hbox, ⟨i, hi⟩, hkept⟩ := h.box.pushCluster hp
    have himports : ∀ k, importsOf (es ++ [.published index (l.snapshots index).state]) k
        = importsOf es k := fun k => by simp [importsOf, importedAt]
    have hlast : lastPublished (es ++ [.published index (l.snapshots index).state]) = _ :=
      lastPublished_append_published _
    refine ⟨?_, fun k hk => ?_, fun k => ?_, fun k hk => ?_, ?_, fun k => ?_⟩
    · rwa [hlast]
    · rw [hlast]
      dsimp only at hk ⊢
      rcases eq_or_ne k index with rfl | hne
      · rw [update_self, modifyAt_self, Option.getD_some]
      · rw [modifyAt_of_ne hne] at hk ⊢
        rw [update_of_ne hne]
        exact h.sent k hk
    · rw [himports]
      exact h.mirror k
    · have hne : k ≠ index := fun heq => hk i (heq ▸ hi)
      rw [hlast, update_of_ne hne]
      exact h.idle k fun j hj => hk j (hkept k hne j hj)
    · exact h.fresh.append_of_none fun e he k => by
        rw [mem_singleton.mp he]
        rfl
    · rw [himports]
      exact h.turns k

section Applied

variable {st : ClusterState} {consumed : Bool} {imports : List ClusterState} {e : ClusterEvent}

theorem mem_applied (h : e ∈ applied index st consumed imports) :
    (∃ st', e = .imported index st') ∨ e = .delivered index st := by
  rcases mem_append.mp h with h | h
  · obtain ⟨st', -, rfl⟩ := mem_map.mp h
    exact .inl ⟨st', rfl⟩
  · cases consumed with
    | true => exact .inr (mem_singleton.mp h)
    | false => cases h

/-- Nothing is published while a message is applied. -/
theorem lastPublished_append_applied {fs : List ClusterEvent}
    (hfs : fs ⊆ applied index st consumed imports) :
    lastPublished (es ++ fs) = lastPublished es := by
  funext k
  refine lastOf_append_of_none fun e he => ?_
  rcases mem_applied (hfs he) with ⟨st', rfl⟩ | rfl <;> rfl

theorem importsOf_append_applied (k : ℕ) :
    importsOf (es ++ applied index st consumed imports) k
      = if k = index then importsOf es k ++ imports else importsOf es k := by
  have hshown : importsOf (applied index st consumed imports) k
      = imports.filterMap (importedAt k ∘ .imported index) := by
    rw [importsOf, applied]
    cases consumed <;> simp [importedAt]
  have happend : importsOf (es ++ applied index st consumed imports) k
      = importsOf es k ++ importsOf (applied index st consumed imports) k :=
    filterMap_append
  rw [happend, hshown]
  split_ifs with hk
  · have hall : importedAt k ∘ ClusterEvent.imported index = some := by
      funext st
      simp [importedAt, hk]
    rw [hall, filterMap_some]
  · have hnone : importedAt k ∘ ClusterEvent.imported index = fun _ => none := by
      funext st
      simp [importedAt, Ne.symm hk]
    rw [hnone, filterMap_none, append_nil]

end Applied

/-- An applied message moves the mirror along its imports; if it is consumed, the mirror is the
state it carried. -/
theorem Inv.apply (h : Inv l es) (i : ℕ) (a : ApplyAnswers) :
    Inv (l.apply i a).1 (es ++ (l.apply i a).2) := by
  unfold ClusterLink.apply
  split_ifs with hvisible
  · rwa [append_nil]
  have hu : (l.box.slots i).used := by
    simp only [not_or, visible, Bool.and_eq_false_iff, Bool.not_eq_false] at hvisible
    exact hvisible.2.1
  obtain ⟨consumed, imports, heq, hchain, hdone⟩ := applyCluster_spec
    (lastImport none (importsOf es (l.box.slots i).sourceIndex)) (l.box.slots i).record a
  rw [← h.mirror] at heq
  dsimp only
  rw [heq]
  generalize hindex : (l.box.slots i).sourceIndex = index at *
  generalize hst : (l.box.slots i).record = st at *
  have hheld : l.box.Holds i index := ⟨hu, hindex⟩
  have hlast : lastPublished es index = some st := by
    rw [← hindex, ← hst]
    exact (h.box.all i hu).2.1
  have hpub : lastPublished (es ++ applied index st consumed imports) = lastPublished es :=
    lastPublished_append_applied fun _ => id
  refine ⟨?_, fun k hk => ?_, fun k => ?_, fun k hk => ?_, ?_, fun k => ?_⟩
  · rw [hpub]
    cases consumed with
    | true => exact (h.box.release hheld).1
    | false => exact h.box
  · rw [hpub]
    exact h.sent k hk
  · rw [importsOf_append_applied]
    dsimp only
    rcases eq_or_ne k index with rfl | hne
    · rw [update_self, if_pos rfl, lastImport_append]
    · rw [update_of_ne hne, if_neg hne, h.mirror]
  · rw [hpub]
    dsimp only at hk ⊢
    cases consumed with
    | true =>
      rcases eq_or_ne k index with rfl | hne
      · rw [update_self, hlast, hdone rfl, Option.getD_some]
      · rw [update_of_ne hne]
        exact h.idle k fun j hj => hk j ((h.box.release hheld).2 k hne j hj)
    | false =>
      have hne : k ≠ index := fun heq => hk i (heq ▸ hheld)
      rw [update_of_ne hne]
      exact h.idle k hk
  · -- the delivery is the only receipt, and nothing was published since its message was
    refine h.fresh.append fun before e after k st' hfs hgot => ?_
    have he : e ∈ before ++ e :: after := mem_append_right _ mem_cons_self
    have hbefore : lastPublished (es ++ before) = lastPublished es :=
      lastPublished_append_applied (hfs ▸ subset_append_left before (e :: after))
    rcases mem_applied (hfs ▸ he) with ⟨st'', rfl⟩ | rfl
    · cases hgot
    · obtain ⟨rfl, rfl⟩ : index = k ∧ st = st' := by simpa [deliveredAt] using hgot
      rw [← hlast, ← hbefore]
      rfl
  · rw [importsOf_append_applied]
    split_ifs with hk
    · exact Turn.isChain_append (h.turns k) (hk ▸ hchain)
    · exact h.turns k

theorem Inv.act (h : Inv l es) (m : ClusterMove) : Inv (l.step m) (es ++ (l.act m).2) := by
  cases m with
  | capture i exported => exact (append_nil es).symm ▸ h.capture exported
  | push i mem => exact h.push mem
  | apply i a => exact h.apply i a
  | advance => exact (append_nil es).symm ▸ { h with }

/-- While a withdrawal is in the extra slot, no route of its source slot is published. -/
theorem push_behind_withdrawal {mem : Bool} (hw : l.box.withdrawal.used)
    (hst : (l.snapshots l.box.withdrawal.sourceIndex).state.isSome) :
    l.push l.box.withdrawal.sourceIndex mem = (l, []) := by
  obtain ⟨r, hr⟩ := Option.isSome_iff_exists.mp hst
  have hslot : l.box.pushSlot l.box.withdrawal.sourceIndex (some r) = none := by
    simp [ClusterBox.pushSlot, hw]
  unfold ClusterLink.push ClusterBox.pushCluster
  rw [hr, hslot]
  split_ifs <;> rfl

/-- **A destination sees a source's slots in order, and ends where the source did.**  A delivered
message is the one last published for its source slot, so that nothing a later message replaced is
ever delivered; imports of different incarnations of a route are separated by a withdrawal; a source
slot is in one mailbox slot at most, and a withdrawal in the extra slot holds back every route of
its source slot; a published state is the one captured when it was sent; and in an empty mailbox's
wake the mirrors are what was published last. -/
theorem cluster_mailbox_in_order (liveVisibility : Bool) (src mailboxEntries : ℕ)
    (moves : List ClusterMove) :
    let l := (ClusterLink.init liveVisibility src mailboxEntries).run moves
    let es := (ClusterLink.init liveVisibility src mailboxEntries).events moves
    Fresh publishedAt deliveredAt es ∧
      (∀ k, (importsOf es k).IsChain Turn) ∧
      (∀ i j k, l.box.Holds i k → l.box.Holds j k → i = j) ∧
      (l.box.withdrawal.used → l.box.withdrawal.record = none ∧
        ∀ mem, (l.snapshots l.box.withdrawal.sourceIndex).state.isSome →
          l.push l.box.withdrawal.sourceIndex mem = (l, [])) ∧
      (∀ k, (l.snapshots k).sent →
        lastPublished es k = some (l.snapshots k).state ∨
          lastPublished es k = none ∧ (l.snapshots k).state = none) ∧
      ((∀ i ≤ l.box.cap, (l.box.slots i).used = false) →
        ∀ k, l.mirrors k = ((lastPublished es k).getD none).mirror) := by
  intro l es
  have h : Inv l es := trace_inv (fun _ _ m h => h.act m) moves (Inv.init ..)
  refine ⟨h.fresh, h.turns, h.box.one,
    fun hw => ⟨(h.box.all _ hw).2.2 rfl, fun _ => push_behind_withdrawal hw⟩,
    fun k hk => ?_, fun hempty k => h.idle k fun i hi => ?_⟩
  · have hsent := h.sent k hk
    cases hlast : lastPublished es k with
    | none => exact .inr ⟨rfl, by rw [← hsent, hlast, Option.getD_none]⟩
    | some st => exact .inl (by rw [← hsent, hlast, Option.getD_some])
  have hfree := hempty i (Nat.le_of_lt_succ (h.box.lt i hi.1))
  exact Bool.noConfusion (hi.1.symm.trans hfree)

/-! ## A withdrawal that is replaced -/

/-- Every withdrawal published before a route was delivered is itself delivered before it. -/
def WithdrawnFirst (es : List ClusterEvent) : Prop :=
  ∀ before k r after, es = before ++ .delivered k (some r) :: after →
    ∀ earlier later, before = earlier ++ .published k none :: later → .delivered k none ∈ later

/-- The namespace `a`, announced by one binding of shard `0` in one of its lifetimes. -/
def routeOf (lifetime : ℕ) (h : lifetime ≠ 0) : ClusterRecord where
  canon := [1, 0, 0, 0, 1, 0, 0, 0, 97]
  advertisement := ⟨some ⟨3, 1, 1, 2⟩, lifetime⟩
  serial_ne_zero := h
  sourceSessionCookie := 7
  revision := lifetime + 1
  accumulatedCost := 0
  warm := false
  hasRouteCost := false
  routeCost := 0
  hopIds := [3]
  sourcePeerHopId := 0
  sourceCorrelationId := 0

def firstRoute : ClusterState := some (routeOf 1 one_ne_zero)

def secondRoute : ClusterState := some (routeOf 3 three_ne_zero)

/-- A route is announced and seen; it is withdrawn and announced again before the destination looks
at its mailbox once more. -/
def replacedMoves : List ClusterMove :=
  [.capture 0 firstRoute, .push 0 true, .apply 0 {}, .capture 0 none, .push 0 true,
    .capture 0 secondRoute, .push 0 true, .apply 0 {}]

/-- **A withdrawal in an ordinary slot is replaced by a re-announcement** and never delivered; the
destination's core withdraws the first incarnation itself before it imports the second. -/
theorem withdrawal_replaced :
    ¬ WithdrawnFirst ((ClusterLink.init true 0 4).events replacedMoves) := by
  intro h
  have := h (_ ++ .published 0 none :: _) 0 (routeOf 3 three_ne_zero) [] (by decide)
    [.published 0 firstRoute, .imported 0 firstRoute, .delivered 0 firstRoute]
    [.published 0 secondRoute, .imported 0 none, .imported 0 secondRoute] rfl
  simp at this

end ClusterLink

end MoqRelay
