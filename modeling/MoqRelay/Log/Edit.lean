import MoqRelay.Log.Keep

/-!
# Log/Edit — in-place edits of a list and of its last record

Sealing, resetting, noting a gap, naming an opener, completing, adding a chunk and abandoning all
write through a pointer to one subgroup list, and at most to its last record, leaving every identity
and every sequence number in place.  `Edit` is what they share: the group keeps its invariant, and
its sums move by the change of the one record (`Group.sum_map_modifySg`).
-/

namespace MoqRelay

open List

/-! ## Editing one entry of a list -/

section Modify

variable {α β : Type*}

variable {p : α → β} {f : α → α} {l : List α}

/-- A projection the edit preserves is preserved along the list. -/
theorem map_modify_eq (h : ∀ a, p (f a) = p a) (l : List α) (k : ℕ) :
    (l.modify k f).map p = l.map p := by
  refine ext_getElem? fun j => ?_
  simp only [getElem?_map, getElem?_modify]
  cases l[j]? with
  | none => rfl
  | some a =>
    simp only [Option.map_eq_map, Option.map_some, Option.some.injEq]
    split
    · exact h a
    · rfl

theorem forall_mem_modify {P : α → Prop} (k : ℕ) (h : ∀ a ∈ l, P a)
    (hf : ∀ a ∈ l, P (f a)) : ∀ a ∈ l.modify k f, P a := by
  intro a ha
  obtain ⟨j, hj⟩ := mem_iff_getElem?.mp ha
  rw [getElem?_modify] at hj
  obtain ⟨b, hb, rfl⟩ := Option.map_eq_some_iff.mp hj
  have hmem := mem_of_getElem? hb
  split
  · exact hf b hmem
  · exact h b hmem

/-- Editing one entry moves a sum by the change of that entry. -/
theorem sum_map_modify [AddCommGroup β] {k : ℕ} {a : α}
    (h : l[k]? = some a) : ((l.modify k f).map p).sum = (l.map p).sum - p a + p (f a) := by
  obtain ⟨hlt, -⟩ := List.getElem?_eq_some_iff.mp h
  obtain ⟨l₁, b, l₂, rfl, rfl, hmod⟩ := exists_of_modify f hlt
  obtain rfl : b = a := by simpa using h
  rw [hmod]
  simp only [map_append, map_cons, sum_append, sum_cons]
  abel

end Modify

/-! ## Edits -/

/-- A rewrite of a record that keeps its identity and place, and never makes it OPEN. -/
structure Rec.Edit (f : Rec → Rec) : Prop where
  arrivalSeq : ∀ r, (f r).arrivalSeq = r.arrivalSeq
  groupId : ∀ r, (f r).groupId = r.groupId
  subgroupId : ∀ r, (f r).subgroupId = r.subgroupId
  objectId : ∀ r, (f r).objectId = r.objectId
  datagramPref : ∀ r, (f r).datagramPref = r.datagramPref
  status : ∀ r, (f r).status = r.status
  notOpen : ∀ r, r.objState ≠ .open → (f r).objState ≠ .open

/-- A rewrite of a subgroup list that changes its marks, and its last record by `f`. -/
structure Subgroup.Edit (F : Subgroup → Subgroup) (f : Rec → Rec) : Prop where
  tail : Rec.Edit f
  subgroupId : ∀ sg, (F sg).subgroupId = sg.subgroupId
  lastObjectId : ∀ sg, (F sg).lastObjectId = sg.lastObjectId
  hasRecords : ∀ sg, (F sg).hasRecords = sg.hasRecords
  cap : ∀ sg, (F sg).v.cap = sg.v.cap
  recs : ∀ sg, (F sg).v.recs = sg.v.recs.modify (sg.v.recs.length - 1) f

theorem Rec.Edit.id : Rec.Edit id := by constructor <;> simp

/-- A rewrite of the last record alone. -/
theorem Subgroup.Edit.ofTail {f : Rec → Rec} (h : Rec.Edit f) :
    Subgroup.Edit (fun sg => { sg with v.recs := sg.v.recs.modify (sg.v.recs.length - 1) f }) f :=
  ⟨h, fun _ => rfl, fun _ => rfl, fun _ => rfl, fun _ => rfl, fun _ => rfl⟩

/-- A rewrite of marks alone. -/
theorem Subgroup.Edit.ofMarks {F : Subgroup → Subgroup}
    (h1 : ∀ sg, (F sg).subgroupId = sg.subgroupId)
    (h2 : ∀ sg, (F sg).lastObjectId = sg.lastObjectId)
    (h3 : ∀ sg, (F sg).hasRecords = sg.hasRecords) (h4 : ∀ sg, (F sg).v = sg.v) :
    Subgroup.Edit F id :=
  ⟨Rec.Edit.id, h1, h2, h3, fun sg => by rw [h4], fun sg => by rw [h4, modify_id]⟩

/-- One write to a list. -/
inductive Subgroup.Touch (sg : Subgroup) : Subgroup → Prop
  | tail (f : Rec → Rec) :
      Touch sg { sg with v.recs := sg.v.recs.modify (sg.v.recs.length - 1) f }
  | sealList : Touch sg { sg with sealed := true }
  | reset (r : ResetDesc) : Touch sg (sg.resetWith r)

/-- Any number of writes. -/
def Subgroup.Touched : Subgroup → Subgroup → Prop := Relation.ReflTransGen Subgroup.Touch

section Edit

variable {lim : LogLimits} {g : Group} {F : Subgroup → Subgroup} {f : Rec → Rec}

variable {β : Type*} {p : Rec → β} {sg : Subgroup} {i q : ℕ} {b : UInt64} {fin : Bool}

section

variable (h : Subgroup.Edit F f)
include h

theorem Subgroup.Edit.map_recs
    (hp : ∀ r, p (f r) = p r) (sg : Subgroup) : (F sg).v.recs.map p = sg.v.recs.map p := by
  rw [h.recs]
  exact map_modify_eq hp _ _

theorem Subgroup.Edit.wf (hw : sg.Wf) : (F sg).Wf where
  vec := by
    have hv := hw.vec
    refine ⟨?_, ?_⟩ <;> rw [h.cap, h.recs, length_modify]
    · exact hv.length_le
    · exact hv.cap_le
  has := (h.hasRecords sg).trans hw.has
  ascending := by
    rw [h.map_recs h.tail.objectId]
    exact hw.ascending
  last := by
    rw [h.map_recs h.tail.objectId, h.lastObjectId]
    exact hw.last
  owner := by
    rw [h.recs, h.subgroupId]
    refine forall_mem_modify _ hw.owner fun r hr => ?_
    rw [h.tail.subgroupId, h.tail.datagramPref]
    exact hw.owner r hr
  tailOpen := by
    -- The edited record is the last one, which `dropLast` leaves out.
    have hdrop : (F sg).v.recs.dropLast = sg.v.recs.dropLast := by
      rw [h.recs]
      refine ext_getElem? fun j => ?_
      simp only [getElem?_dropLast, length_modify, getElem?_modify]
      split
      · have hne : ¬ sg.v.recs.length - 1 = j := by omega
        simp [hne]
      · rfl
    rw [hdrop]
    exact hw.tailOpen

theorem Group.recs_map_modifySg
    (hp : ∀ r, p (f r) = p r) (i : ℕ) : (g.modifySg i F).recs.map p = g.recs.map p := by
  have hsg := map_modify_eq (p := fun sg : Subgroup => sg.v.recs.map p)
    (fun sg => h.map_recs hp sg) g.sgs i
  simp only [recs, modifySg, map_append, flatMap_def, map_flatten, map_map]
  simp only [Function.comp_def]
  rw [hsg]

/-- **An edited list keeps every record but its last**, which is rewritten. -/
theorem Group.recAt?_modifySg (i : ℕ) (s : ListSlot) (j : ℕ) :
    (∃ sg, g.sgs[i]? = some sg ∧ s = .subgroup i ∧ j = sg.v.recs.length - 1 ∧
        (g.modifySg i F).recAt? s j = (g.recAt? s j).map f) ∨
      (∀ sg, g.sgs[i]? = some sg → ¬ (s = .subgroup i ∧ j = sg.v.recs.length - 1)) ∧
        (g.modifySg i F).recAt? s j = g.recAt? s j := by
  cases s with
  | datagram => exact .inr ⟨by simp, by simp [recAt?, list?, modifySg]⟩
  | subgroup k =>
    simp only [recAt?, list?, modifySg, getElem?_modify]
    by_cases hik : i = k
    · subst hik
      cases hk : g.sgs[i]? with
      | none => exact .inr ⟨by simp, by simp⟩
      | some sg =>
        simp only [Option.map_eq_map, Option.map_some, if_true, Option.bind_some, h.recs,
          getElem?_modify]
        by_cases hj : j = sg.v.recs.length - 1
        · exact .inl ⟨sg, rfl, trivial, hj, by simp [hj]⟩
        · exact .inr ⟨by simpa using hj, by simp [Ne.symm hj]⟩
    · exact .inr ⟨fun _ _ hc => hik (by simpa using hc.1.symm), by simp [hik]⟩

end

/-- The records of an edited group are its own, some rewritten. -/
theorem Group.mem_recs_modifySg {x : Rec} (hF : Subgroup.Edit F f)
    (hx : x ∈ (g.modifySg i F).recs) :
    x ∈ g.recs ∨ ∃ y ∈ g.recs, x = f y := by
  obtain ⟨s, j, hj⟩ := (g.modifySg i F).exists_recAt?_of_mem hx
  rcases Group.recAt?_modifySg (g := g) hF i s j with ⟨-, -, -, -, hmap⟩ | ⟨-, hsame⟩
  · obtain ⟨y, hy, rfl⟩ := Option.map_eq_some_iff.mp (hmap.symm.trans hj)
    exact .inr ⟨y, Group.mem_recs_of_recAt? hy, rfl⟩
  · exact .inl (Group.mem_recs_of_recAt? (hsame.symm.trans hj))

theorem Group.Lists.edit (h : Subgroup.Edit F f) (hg : g.Lists lim) (i : ℕ) :
    (g.modifySg i F).Lists lim where
  sgs_le := by
    simp only [modifySg, length_modify]
    exact hg.sgs_le
  sgs := forall_mem_modify i hg.sgs fun sg hsg => h.wf (hg.sgs sg hsg)
  sgIds := by
    rw [modifySg, map_modify_eq h.subgroupId]
    exact hg.sgIds
  dg := hg.dg
  dgOwner := hg.dgOwner
  owner r hr := by
    have : r.groupId ∈ (g.modifySg i F).recs.map Rec.groupId := mem_map_of_mem hr
    rw [recs_map_modifySg h h.tail.groupId] at this
    obtain ⟨r', hr', he⟩ := mem_map.mp this
    exact he ▸ hg.owner r' hr'

/-- An edit moves a sum over the group's records by the change of the edited record. -/
theorem Group.sum_map_modifySg [AddCommGroup β] (p : Rec → β) (h : Subgroup.Edit F f) {r : Rec}
    (hi : g.sgs[i]? = some sg)
    (hr : sg.v.recs.getLast? = some r) :
    ((g.modifySg i F).recs.map p).sum = (g.recs.map p).sum - p r + p (f r) := by
  have hsg : ((g.sgs.modify i F).map fun sg => (sg.v.recs.map p).sum).sum
      = (g.sgs.map fun sg => (sg.v.recs.map p).sum).sum
        - (sg.v.recs.map p).sum + ((F sg).v.recs.map p).sum :=
    sum_map_modify hi
  have htail : ((F sg).v.recs.map p).sum = (sg.v.recs.map p).sum - p r + p (f r) := by
    rw [h.recs]
    exact sum_map_modify (by rw [← hr, getLast?_eq_getElem?])
  simp only [recs, modifySg, map_append, sum_append, flatMap_def, map_flatten,
    sum_flatten, map_map, Function.comp_def]
  rw [hsg, htail]
  abel

/-- The invariant of an edited group, once its byte total and final are settled. -/
theorem Group.Wf.edit (h : Subgroup.Edit F f) (hg : g.Wf lim)
    (hb : ((g.modifySg i F).recs.map Rec.bytes).sum = b)
    (hfin : ({ g with hasFinal := fin, finalObjectId := q } : Group).FinalOk) :
    ({ g.modifySg i F with bytes := b, hasFinal := fin, finalObjectId := q } : Group).Wf lim where
  toLists := ⟨(hg.toLists.edit h i).sgs_le, (hg.toLists.edit h i).sgs, (hg.toLists.edit h i).sgIds,
    hg.dg, hg.dgOwner, (hg.toLists.edit h i).owner⟩
  recordCount := by
    have := congrArg List.length (recs_map_modifySg (g := g) h h.tail.objectId i)
    simp only [length_map] at this
    exact hg.recordCount.trans this.symm
  count_le := hg.count_le
  bytes := hb
  idsNodup := by
    change ((g.modifySg i F).recs.map Rec.objectId).Nodup
    rw [recs_map_modifySg h h.tail.objectId]
    exact hg.idsNodup
  ids := by
    have hids := recs_map_modifySg (g := g) h h.tail.objectId i
    refine ⟨hg.ids.probed, fun id => ?_, ?_⟩
    · change _ ↔ id ≠ u64Max ∧ id ∈ (g.modifySg i F).recs.map Rec.objectId
      rw [hids]
      exact hg.ids.mem id
    · change _ ↔ u64Max ∈ (g.modifySg i F).recs.map Rec.objectId
      rw [hids]
      exact hg.ids.max
  final := by
    have hids := recs_map_modifySg (g := g) h h.tail.objectId i
    unfold FinalOk at hfin ⊢
    split
    · rename_i hf
      rw [if_pos hf] at hfin
      refine ⟨hids ▸ hfin.1, fun r hr => ?_⟩
      have : r.objectId ∈ (g.modifySg i F).recs.map Rec.objectId := mem_map_of_mem hr
      rw [hids] at this
      obtain ⟨r', hr', he⟩ := mem_map.mp this
      exact he ▸ hfin.2 r' hr'
    · rename_i hf
      rwa [if_neg hf] at hfin

/-- An edited group carries the same sequence numbers. -/
theorem Group.SameSeqs.edit (h : Subgroup.Edit F f) :
    g.SameSeqs { g.modifySg i F with bytes := b, hasFinal := fin, finalObjectId := q } where
  groupId := rfl
  recordCount := rfl
  seqAt := by
    funext s j
    change ((g.modifySg i F).recAt? s j).map Rec.arrivalSeq = (g.recAt? s j).map Rec.arrivalSeq
    rcases recAt?_modifySg (g := g) h i s j with ⟨-, -, -, -, hmap⟩ | ⟨-, hsame⟩
    · rw [hmap, Option.map_map]
      exact congrArg (Option.map · _) (funext h.tail.arrivalSeq)
    · rw [hsame]
  seqs := recs_map_modifySg h h.tail.arrivalSeq i

end Edit

end MoqRelay
