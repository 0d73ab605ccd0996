import MoqRelay.Lib.Chain
import MoqRelay.Bridge.StreamOrder

/-!
# Bridge/StreamRank — the ranker computes longest-path ranks

The search of `stream_order.c` keeps its lists threaded through the nodes.  `Ranker.Sim` reads them
as the lists of a `Dfs`; every turn of the loop is a visit there, so the components and their order
are right, and the passes over the threaded lists are the folds of `Dfs.levels`.
-/

namespace MoqRelay

open Relation List Function

variable {n : ℕ} {nodes nodes' : OrderNodes n} {c : Fin n} {f : OrderNode n → OrderNode n}

theorem OrderNodes.ext_iff' : nodes = nodes' ↔ ∀ v, nodes v = nodes' v := by
  refine ⟨fun h v => h ▸ rfl, fun h => ?_⟩
  exact congrArg mk (Vector.ext fun i hi => h ⟨i, hi⟩)

@[simp] theorem OrderNodes.ofFn_apply (node : Fin n → OrderNode n) (v : Fin n) :
    OrderNodes.ofFn node v = node v := by simp [ofFn, get]

theorem OrderNodes.modify_apply (v : Fin n) :
    nodes.modify c f v = if v = c then f (nodes c) else nodes v := by
  simp [modify, get, Vector.getElem_set, Fin.val_inj, eq_comm]

theorem OrderNodes.modify_self : nodes.modify c f c = f (nodes c) := by
  rw [modify_apply, if_pos rfl]

theorem OrderNodes.modify_of_ne {v : Fin n} (h : v ≠ c) : nodes.modify c f v = nodes v := by
  rw [modify_apply, if_neg h]

/-- What the rewriting keeps of a node, it keeps of every node. -/
theorem OrderNodes.map_modify {β : Type*} (k : OrderNode n → β) (h : ∀ node, k (f node) = k node)
    (v : Fin n) : k (nodes.modify c f v) = k (nodes v) := by
  rcases eq_or_ne v c with rfl | hv
  · rw [modify_self, h]
  · rw [modify_of_ne hv]

/-! ## Taking a component off the stack -/

/-- The nodes under other components and member threads: all that taking members off the stack
changes. -/
def OrderNodes.rethread (nodes : OrderNodes n) (comp next heads : Fin n → Option (Fin n)) :
    OrderNodes n :=
  .ofFn fun v => { nodes v with component := comp v, memberNext := next v, members := heads v }

/-- Under its own threads, nothing changes. -/
theorem OrderNodes.rethread_self : nodes.rethread (fun v => (nodes v).component)
    (fun v => (nodes v).memberNext) (fun v => (nodes v).members) = nodes :=
  ext_iff'.mpr fun _ => ofFn_apply ..

theorem OrderNodes.rethread_apply {comp next heads : Fin n → Option (Fin n)} (v : Fin n) :
    nodes.rethread comp next heads v =
      { nodes v with component := comp v, memberNext := next v, members := heads v } :=
  ofFn_apply ..

/-- One member. -/
theorem OrderNodes.modify_rethread {comp next heads : Fin n → Option (Fin n)} (member : Fin n) :
    ((nodes.rethread comp next heads).modify member fun node =>
        { node with component := some c, memberNext := heads c }).modify c
          (fun node => { node with members := some member }) =
      nodes.rethread (update comp member (some c)) (update next member (heads c))
        (update heads c (some member)) := by
  refine ext_iff'.mpr fun v => ?_
  by_cases hm : v = member <;> by_cases hc : v = c <;>
    simp_all [modify_apply, rethread_apply]

/-- **The loop takes the stack down to the root**: the nodes down to it name it, and are threaded
from it. -/
theorem popMembers_rethread {post : List (Fin n)} : ∀ (pre : List (Fin n))
    (comp next heads : Fin n → Option (Fin n)) {k : ℕ} {stack : Option (Fin n)}
    {acc : List (Fin n)}, pre.length < k →
    Chain (fun v => (nodes v).stackNext) stack (pre ++ c :: post) → (pre ++ [c]).Nodup →
    (∀ a ∈ acc, a ∉ pre ++ [c]) → Chain next (heads c) acc → ∃ next' heads' stack',
      popMembers c k (nodes.rethread comp next heads) stack = (nodes.rethread
        (fun v => if v ∈ pre ++ [c] then some c else comp v) next' heads', stack') ∧
      (∀ v ∉ pre ++ [c], next' v = next v) ∧ (∀ v ≠ c, heads' v = heads v) ∧
      Chain next' (heads' c) ((pre ++ [c]).reverse ++ acc) ∧
      Chain (fun v => (nodes v).stackNext) stack' post
  | [], comp, next, heads, k + 1, _, acc, _, ⟨rfl, hs⟩, _, hacc, hm => by
    have hnext : ∀ v, v ≠ c → update next c (heads c) v = next v := fun v hv => update_of_ne hv ..
    have hcomp : update comp c (some c) = fun v => if v ∈ [] ++ [c] then some c else comp v :=
      funext fun v => by simp [update_apply]
    refine ⟨_, _, _, ?_, fun v hv => hnext v fun he => hv (by simp [he]),
      fun v hv => update_of_ne hv .., ⟨update_self .., ?_⟩, hs⟩
    · rw [popMembers, if_pos rfl, ← hcomp]
      simp only [OrderNodes.rethread_apply, OrderNodes.modify_rethread]
    · rw [update_self]
      exact hm.congr fun a ha => hnext a fun he => hacc a ha (by simp [he])
  | member :: pre, comp, next, heads, k + 1, _, acc, hk, ⟨rfl, hs⟩, hn, hacc, hm => by
    obtain ⟨hmem, hn⟩ := nodup_cons.mp hn
    have hne : member ≠ c := fun he => hmem (mem_append_right _ (mem_singleton.mpr he))
    have hnext : ∀ v, v ≠ member → update next member (heads c) v = next v := fun v hv =>
      update_of_ne hv ..
    have hchain : Chain (update next member (heads c)) (update heads c (some member) c)
        (member :: acc) := by
      refine ⟨update_self .., ?_⟩
      rw [update_self]
      exact hm.congr fun a ha => hnext a fun he => hacc a ha (he ▸ mem_cons_self)
    obtain ⟨next', heads', stack', hout, hnext', hheads', hchain', hpost⟩ :=
      popMembers_rethread pre (update comp member (some c)) _ _ (Nat.lt_of_succ_lt_succ hk) hs hn
        (forall_mem_cons.mpr ⟨hmem, fun a ha ha' => hacc a ha (mem_cons_of_mem _ ha')⟩) hchain
    refine ⟨next', heads', stack', ?_, fun v hv => ?_, fun v hv => ?_,
      by simpa using hchain', hpost⟩
    · have hcomp : (fun v => if v ∈ pre ++ [c] then some c else update comp member (some c) v) =
          fun v => if v ∈ member :: pre ++ [c] then some c else comp v := funext fun v => by
        by_cases hv : v = member <;> simp [hv]
      rw [popMembers, if_neg hne, ← hcomp, ← hout]
      simp only [OrderNodes.rethread_apply, OrderNodes.modify_rethread]
    · obtain ⟨hvm, hv⟩ := not_or.mp (mt mem_cons.mpr hv)
      rw [hnext' v hv, hnext v hvm]
    · rw [hheads' v hv, update_of_ne hv]

/-! ## The search -/

/-- The marks of a node: its index, low mark, scan and parent. -/
def OrderNode.marks (node : OrderNode n) : Option ℕ × ℕ × ℕ × Option (Fin n) :=
  (node.index, node.low, node.next, node.parent)

/-- The threads of a node: its component and its places in the lists, the stack apart. -/
def OrderNode.threads (node : OrderNode n) :
    ℕ × Option (Fin n) × Option (Fin n) × Option (Fin n) × Option (Fin n) :=
  (node.rank, node.component, node.memberNext, node.members, node.componentNext)

/-- The marks of a point of a search. -/
def Dfs.marks (d : Dfs n) (v : Fin n) : Option ℕ × ℕ × ℕ × Option (Fin n) :=
  (d.index v, d.low v, d.next v, d.parent v)

namespace Ranker

variable {t : Ranker n} {d : Dfs n} {edge : Fin n → Fin n → Bool} {x : Fin n}

/-- The members of a component, as threaded. -/
def MembersOf (t : Ranker n) (d : Dfs n) (r : Fin n) : Prop :=
  ∃ l, Chain (fun v => (t.nodes v).memberNext) (t.nodes r).members l ∧ l.Nodup ∧
    ∀ u, u ∈ l ↔ d.comp u = some r

/-- **The nodes read as a search.** -/
structure Sim (t : Ranker n) (d : Dfs n) : Prop where
  count : t.index = d.count
  marks : ∀ v, (t.nodes v).marks = d.marks v
  comp : ∀ v, (t.nodes v).component = d.comp v
  current : t.current = d.path.head?
  stack : Chain (fun v => (t.nodes v).stackNext) t.stack d.stack
  order : Chain (fun v => (t.nodes v).componentNext) t.components d.order
  members : ∀ r ∈ d.order, t.MembersOf d r
  fresh : ∀ v, d.comp v = none → (t.nodes v).members = none
  rank : ∀ v, (t.nodes v).rank = 0

namespace Sim

section

variable (h : t.Sim d)
include h

theorem index (v : Fin n) : (t.nodes v).index = d.index v := congrArg (fun m => m.1) (h.marks v)

theorem low (v : Fin n) : (t.nodes v).low = d.low v := congrArg (fun m => m.2.1) (h.marks v)

theorem next (v : Fin n) : (t.nodes v).next = d.next v := congrArg (fun m => m.2.2.1) (h.marks v)

theorem parent (v : Fin n) : (t.nodes v).parent = d.parent v :=
  congrArg (fun m => m.2.2.2) (h.marks v)

/-- Marks rewritten at a node, threads kept; a node on the stack keeps its place there. -/
theorem remark {f : OrderNode n → OrderNode n} {index : Fin n → Option ℕ}
    {low next : Fin n → ℕ} {parent : Fin n → Option (Fin n)}
    (hf : ∀ node, (f node).threads = node.threads)
    (hstack : c ∈ d.stack → (f (t.nodes c)).stackNext = (t.nodes c).stackNext)
    (hself : (f (t.nodes c)).marks = (index c, low c, next c, parent c))
    (hother : ∀ v, v ≠ c → (index v, low v, next v, parent v) = d.marks v) :
    (t.modify c f).Sim { d with index, low, next, parent } := by
  have ht : ∀ v, ((t.modify c f).nodes v).threads = (t.nodes v).threads :=
    OrderNodes.map_modify OrderNode.threads hf
  have hmembers : ∀ v, ((t.modify c f).nodes v).members = (t.nodes v).members := fun v =>
    congrArg (fun m => m.2.2.2.1) (ht v)
  refine { h with
    marks := fun v => ?_
    comp := fun v => (congrArg (fun m => m.2.1) (ht v)).trans (h.comp v)
    stack := h.stack.congr fun v hv => ?_
    order := h.order.congr fun v _ => congrArg (fun m => m.2.2.2.2) (ht v)
    members := fun r hr => ?_
    fresh := fun v hv => (hmembers v).trans (h.fresh v hv)
    rank := fun v => (congrArg (fun m => m.1) (ht v)).trans (h.rank v) }
  · rcases eq_or_ne v c with rfl | hv
    · exact (congrArg _ OrderNodes.modify_self).trans hself
    · exact (congrArg _ (OrderNodes.modify_of_ne hv)).trans ((h.marks v).trans (hother v hv).symm)
  · rcases eq_or_ne v c with rfl | hvc
    · exact (congrArg _ OrderNodes.modify_self).trans (hstack hv)
    · exact congrArg _ (OrderNodes.modify_of_ne hvc)
  · obtain ⟨l, hl, hn, hu⟩ := h.members r hr
    refine ⟨l, ?_, hn, hu⟩
    rw [hmembers]
    exact hl.congr fun v _ => congrArg (fun m => m.2.2.1) (ht v)

theorem advance (c : Fin n) :
    (t.modify c fun node => { node with next := node.next + 1 }).Sim (d.advance c) := by
  refine h.remark (fun _ => rfl) (fun _ => rfl) ?_ fun v hv => ?_
  · simp [OrderNode.marks, h.index, h.low, h.next, h.parent]
  · simp [Dfs.marks, hv]

theorem lower (c : Fin n) (i : ℕ) :
    (t.modify c fun node => { node with low := i }).Sim (d.lower c i) := by
  refine h.remark (fun _ => rfl) (fun _ => rfl) ?_ fun v hv => ?_
  · simp [OrderNode.marks, h.index, h.next, h.parent]
  · simp [Dfs.marks, hv]

/-- A discovery threads the node onto the stack. -/
theorem discover (hx : x ∉ d.stack) :
    { t.discover x d.path.head? with current := some x }.Sim (d.discover x) := by
  have hmarked : (t.modify x fun v => { v with
      index := some t.index, low := t.index, parent := d.path.head?, stackNext := t.stack }).Sim
      { d with
        index := update d.index x (some d.count)
        low := update d.low x d.count
        parent := update d.parent x d.path.head? } := by
    refine h.remark (fun _ => rfl) (fun hm => absurd hm hx) ?_ fun v hv => ?_
    · simp [OrderNode.marks, h.count, h.next]
    · simp [Dfs.marks, hv]
  refine { hmarked with count := congrArg (· + 1) h.count, current := rfl, stack := ⟨rfl, ?_⟩ }
  have hself : ((t.discover x d.path.head?).nodes x).stackNext = t.stack :=
    congrArg OrderNode.stackNext OrderNodes.modify_self
  show Chain _ ((t.discover x d.path.head?).nodes x).stackNext d.stack
  exact hself.symm ▸ hmarked.stack

/-- **A closed component leaves the stack for its own list.** -/
theorem closeAt (hd : d.Inv edge) (hc : c ∈ d.stack) : (t.closeAt c).Sim (d.close c) := by
  obtain ⟨pre, post, hs, htake, hdrop⟩ := cut_at_mem hc
  have hcnone := ((hd.stack_iff c).mp hc).2
  have hsub : ∀ v ∈ pre ++ [c], v ∈ d.stack := fun v hv => by
    rw [hs, ← singleton_append, ← append_assoc]
    exact mem_append_left _ hv
  have hnone : ∀ v ∈ pre ++ [c], d.comp v = none := fun v hv => ((hd.stack_iff v).mp (hsub v hv)).2
  have hnodup : (pre ++ [c]).Nodup := by
    have hn := hd.stack_nodup
    rw [hs, ← singleton_append, ← append_assoc] at hn
    exact (nodup_append.mp hn).1
  have hlen : pre.length < n := by
    have hle := hnodup.length_le_card
    rwa [Fintype.card_fin, length_append] at hle
  obtain ⟨next, heads, stack, hout, hnext, hheads, hchain, hpost⟩ :=
    popMembers_rethread pre (fun v => (t.nodes v).component) (fun v => (t.nodes v).memberNext)
      (fun v => (t.nodes v).members) hlen (hs ▸ h.stack) hnodup (forall_mem_nil _)
      (h.fresh c hcnone)
  rw [OrderNodes.rethread_self] at hout
  have hnodes : (t.closeAt c).nodes.get = fun v => { t.nodes v with
      component := if v ∈ pre ++ [c] then some c else (t.nodes v).component
      memberNext := next v
      members := heads v
      componentNext := if v = c then t.components else (t.nodes v).componentNext } := by
    funext v
    rw [Ranker.closeAt, hout]
    rcases eq_or_ne v c with rfl | hv
    · rw [OrderNodes.modify_self, OrderNodes.rethread_apply, if_pos rfl]
    · rw [OrderNodes.modify_of_ne hv, OrderNodes.rethread_apply, if_neg hv]
  have hstack : (t.closeAt c).stack = stack := by rw [Ranker.closeAt, hout]
  have hclose : ∀ v, (d.close c).comp v = if v ∈ pre ++ [c] then some c else d.comp v := fun v => by
    refine if_congr ?_ rfl rfl
    rw [htake, mem_append, mem_singleton, or_comm]
  have hcorder : c ∉ d.order := fun hm =>
    Option.some_ne_none c (((hd.order_iff c).mp hm).symm.trans hcnone)
  refine ⟨h.count, fun v => ?_, fun v => ?_, h.current, ?_, ⟨rfl, ?_⟩, fun r hr => ?_,
    fun v hv => ?_, fun v => ?_⟩
  · rw [hnodes]
    exact h.marks v
  · rw [hnodes, hclose, ← h.comp]
  · rwa [hnodes, hstack, show (d.close c).stack = post from hdrop]
  · rw [hnodes]
    dsimp only
    rw [if_pos rfl]
    exact h.order.congr fun v hv => if_neg fun he : v = c => hcorder (he ▸ hv)
  · rw [MembersOf, hnodes]
    rcases mem_cons.mp hr with rfl | hr
    · refine ⟨(pre ++ [r]).reverse, append_nil (pre ++ [r]).reverse ▸ hchain,
        nodup_reverse.mpr hnodup, fun u => ?_⟩
      rw [mem_reverse, hclose]
      split_ifs with hu
      · exact iff_of_true hu rfl
      · exact iff_of_false hu fun hu' =>
          Option.some_ne_none r (((hd.root u r hu').1).symm.trans hcnone)
    · obtain ⟨l, hl, hn, hu⟩ := h.members r hr
      have hrc : r ≠ c := fun he => hcorder (he ▸ hr)
      refine ⟨l, ?_, hn, fun u => ?_⟩
      · dsimp only
        rw [hheads r hrc]
        refine hl.congr fun v hv => hnext v fun hv' => ?_
        exact Option.some_ne_none r (((hu v).mp hv).symm.trans (hnone v hv'))
      · rw [hu, hclose]
        split_ifs with hup
        · exact iff_of_false ((hnone u hup).trans_ne (Option.some_ne_none r).symm)
            fun he => hrc (Option.some.inj he).symm
        · rfl
  · rw [hclose] at hv
    split_ifs at hv with hvp
    have hvc : v ≠ c := fun he => hvp (mem_append_right _ (mem_singleton.mpr he))
    rw [hnodes]
    exact (hheads v hvc).trans (h.fresh v hv)
  · rw [hnodes]
    exact h.rank v

theorem handUp (c : Fin n) (p : Option (Fin n)) : (t.handUp c p).Sim (d.handUp c p) := by
  cases p with
  | none => exact h
  | some p =>
    rw [Ranker.handUp, Dfs.handUp, h.low, h.low]
    split_ifs
    · exact h.lower p _
    · exact h

end

/-- A candidate followed, the scan having moved on. -/
theorem follow (h : t.Sim (d.advance c)) (hd : d.Inv edge) (hc : d.path.head? = some c)
    (hedge : edge c x) : (t.follow c x).Sim ((d.scan edge c x).advance c) := by
  have hindex : (t.nodes x).index = d.index x := h.index x
  have hcomp : (t.nodes x).component = d.comp x := h.comp x
  have hlow : (t.nodes c).low = d.low c := h.low c
  rw [Ranker.follow, Dfs.scan, if_pos hedge, hindex, hcomp, hlow]
  cases hx : d.index x with
  | none =>
    have hxS : x ∉ (d.advance c).stack := fun hm => ((hd.stack_iff x).mp hm).1 hx
    have hdisc := h.discover hxS
    rwa [show (d.advance c).path.head? = some c from hc] at hdisc
  | some i =>
    dsimp only
    split_ifs
    · exact h.lower c i
    · exact h

theorem finish (h : t.Sim d) (hd : d.Inv edge) {rest : List (Fin n)} (hp : d.path = c :: rest) :
    (t.finish c).Sim (d.finish c rest) := by
  have hparent : (t.nodes c).parent = rest.head? := (h.parent c).trans (hd.path_parent [] c rest hp)
  have hclose : (if (t.nodes c).index = some (t.nodes c).low then t.closeAt c else t).Sim
      (if d.index c = some (d.low c) then d.close c else d) := by
    rw [h.index, h.low]
    split_ifs
    · exact h.closeAt hd (hd.top_mem hp)
    · exact h
  have hup := hclose.handUp c rest.head?
  rw [Ranker.finish, hparent]
  exact { hup with current := rfl }

/-- **A turn of the loop is a visit.** -/
theorem visit (h : t.Sim d) (hd : d.Inv edge) {rest : List (Fin n)} (hp : d.path = c :: rest) :
    (t.visit edge c).Sim (d.visit edge) := by
  have hnext := h.next c
  by_cases hx : d.next c < n
  · have hx' : (t.nodes c).next < n := by rwa [hnext]
    have hsame : (⟨(t.nodes c).next, hx'⟩ : Fin n) = ⟨d.next c, hx⟩ := Fin.ext hnext
    rw [Ranker.visit, dif_pos hx', Dfs.visit_scan edge hp hx]
    dsimp only
    rw [hsame]
    split_ifs with hedge
    · exact (h.advance c).follow hd (by rw [hp, head?_cons]) hedge
    · rw [Dfs.scan, if_neg hedge]
      exact h.advance c
  · rw [Ranker.visit, dif_neg (by rwa [hnext]), Dfs.visit_finish edge hp hx]
    exact h.finish hd hp

/-- **The loop is a number of visits.** -/
theorem traverse : ∀ (k : ℕ) {t : Ranker n} {d : Dfs n}, t.Sim d → d.Inv edge →
    (traverse edge k t).Sim (Dfs.visits edge k d)
  | 0, _, _, h, _ => h
  | k + 1, t, d, h, hd => by
    have hcur := h.current
    cases hp : d.path with
    | nil =>
      rw [hp] at hcur
      rwa [Ranker.traverse, hcur, Dfs.visits_nil edge hp]
    | cons c rest =>
      rw [hp] at hcur
      rw [Ranker.traverse, hcur]
      exact traverse k (h.visit hd hp) hd.visit

theorem visitRoot (h : t.Sim d) (hd : d.Inv edge) (hp : d.path = []) (root : Fin n) :
    (t.visitRoot edge root).Sim (Dfs.searchFrom edge d root) := by
  rw [Ranker.visitRoot, Dfs.searchFrom, h.index]
  split_ifs with hroot
  · have hrS : root ∉ d.stack := fun hm => ((hd.stack_iff root).mp hm).1 hroot
    have hdisc := h.discover hrS
    rw [hp] at hdisc
    exact hdisc.traverse _ (hd.discover hroot (by simp [hp]))
  · exact h

theorem foldl_visitRoot (l : List (Fin n)) : ∀ {t : Ranker n} {d : Dfs n}, t.Sim d → d.Inv edge →
    d.path = [] → (l.foldl (fun t root => t.visitRoot edge root) t).Sim
      (l.foldl (Dfs.searchFrom edge) d) := by
  induction l with
  | nil => exact fun h _ _ => h
  | cons root l ih =>
    intro t d h hd hp
    obtain ⟨hd', hp', -⟩ := Dfs.searchFrom_spec edge hd hp root
    exact ih (h.visitRoot hd hp root) hd' hp'

end Sim

/-- The ranker as reset. -/
theorem sim_start : Sim ({} : Ranker n) (Dfs.start 0xFFFFFFFF) where
  count := rfl
  marks _ := by rw [OrderNodes.ofFn_apply]; rfl
  comp _ := by rw [OrderNodes.ofFn_apply]; rfl
  current := rfl
  stack := rfl
  order := rfl
  members := nofun
  fresh _ _ := by rw [OrderNodes.ofFn_apply]
  rank _ := by rw [OrderNodes.ofFn_apply]

end Ranker

/-! ## The component pass -/

/-- The ranks of the nodes. -/
def OrderNodes.ranks (nodes : OrderNodes n) (v : Fin n) : ℕ := (nodes v).rank

/-- The components of the nodes. -/
def OrderNodes.comps (nodes : OrderNodes n) (v : Fin n) : Option (Fin n) := (nodes v).component

/-- The nodes under other ranks: what a pass makes of them, since the links stand. -/
def OrderNodes.withRanks (nodes : OrderNodes n) (ranks : Fin n → ℕ) : OrderNodes n :=
  .ofFn fun v => { nodes v with rank := ranks v }

theorem OrderNodes.withRanks_apply (ranks : Fin n → ℕ) (v : Fin n) :
    nodes.withRanks ranks v = { nodes v with rank := ranks v } := ofFn_apply ..

variable {ranks : Fin n → ℕ}

/-- Writing one rank. -/
theorem OrderNodes.modify_withRanks (t : Fin n) (k : ℕ) :
    (nodes.withRanks ranks).modify t (fun node => { node with rank := k }) =
      nodes.withRanks (update ranks t k) := by
  refine ext_iff'.mpr fun v => ?_
  rcases eq_or_ne v t with rfl | hv
  · simp [modify_self, withRanks_apply]
  · simp [modify_of_ne hv, withRanks_apply, hv]

section Pass

variable (edge : Fin n → Fin n → Bool)

theorem relaxNext_withRanks (r u : Fin n) (ranks : Fin n → ℕ) (x : Fin n) :
    relaxNext edge r u (nodes.withRanks ranks) x =
      nodes.withRanks (Dfs.relaxArc edge nodes.comps r u ranks x) := by
  have hrank : ∀ v, (nodes.withRanks ranks v).rank = ranks v := fun v => by
    rw [OrderNodes.withRanks_apply]
  rw [relaxNext, Dfs.relaxArc, OrderNodes.comps, OrderNodes.withRanks_apply]
  cases (nodes x).component with
  | none => rfl
  | some t =>
    simp only [hrank]
    split_ifs
    · rfl
    · exact OrderNodes.modify_withRanks t _
    · rfl

/-- The members threaded from a head. -/
theorem relaxMembers_withRanks (r : Fin n) : ∀ (l : List (Fin n)) (ranks : Fin n → ℕ) {k : ℕ}
    {head : Option (Fin n)}, l.length ≤ k → Chain (fun v => (nodes v).memberNext) head l →
    relaxMembers edge r k (nodes.withRanks ranks) head =
      nodes.withRanks (l.foldl (Dfs.relaxMember edge nodes.comps r) ranks)
  | [], _, k, _, _, rfl => by
    cases k <;> rfl
  | u :: l, ranks, k + 1, _, hk, ⟨rfl, hl⟩ => by
    rw [relaxMembers, foldl_hom nodes.withRanks (relaxNext_withRanks edge r u),
      OrderNodes.withRanks_apply]
    exact relaxMembers_withRanks r l _ (Nat.le_of_succ_le_succ hk) hl

/-- The components threaded from a head. -/
theorem relaxComponents_withRanks {members : Fin n → List (Fin n)} : ∀ (l : List (Fin n))
    (ranks : Fin n → ℕ) {k : ℕ} {head : Option (Fin n)}, l.length ≤ k →
    Chain (fun v => (nodes v).componentNext) head l →
    (∀ r ∈ l, (members r).length ≤ n ∧
      Chain (fun v => (nodes v).memberNext) (nodes r).members (members r)) →
    relaxComponents edge k (nodes.withRanks ranks) head =
      nodes.withRanks (Dfs.levels edge nodes.comps members l ranks)
  | [], _, k, _, _, rfl, _ => by
    cases k <;> rfl
  | r :: l, ranks, k + 1, _, hk, ⟨rfl, hl⟩, hm => by
    obtain ⟨hlen, hchain⟩ := hm r mem_cons_self
    have hr := relaxMembers_withRanks edge r (members r) ranks hlen hchain
    rw [relaxComponents, OrderNodes.withRanks_apply, hr, OrderNodes.withRanks_apply]
    exact relaxComponents_withRanks l _ (Nat.le_of_succ_le_succ hk) hl
      fun s hs => hm s (mem_cons_of_mem _ hs)

end Pass

/-- **The last loop gives every node its root's rank**; a root keeps its own. -/
theorem ranks_takeRank {root : Fin n → Fin n} (hroot : ∀ v, root (root v) = root v)
    (hcomp : ∀ v, nodes.comps v = some (root v)) {rank : Fin n → ℕ} (l : List (Fin n)) :
    ∀ {ranks : Fin n → ℕ}, (∀ v, ranks (root v) = rank (root v)) →
    ∀ v, v ∈ l ∨ ranks v = rank (root v) →
      (l.foldl takeRank (nodes.withRanks ranks)).ranks v = rank (root v) := by
  induction l with
  | nil =>
    intro ranks _ v hv
    rw [foldl_nil, OrderNodes.ranks, OrderNodes.withRanks_apply]
    exact hv.resolve_left not_mem_nil
  | cons i l ih =>
    intro ranks hrank v hv
    have hstep : takeRank (nodes.withRanks ranks) i =
        nodes.withRanks (update ranks i (rank (root i))) := by
      have hi : (nodes.withRanks ranks i).component = some (root i) := by
        rw [OrderNodes.withRanks_apply]
        exact hcomp i
      rw [takeRank, hi, ← hrank i]
      dsimp only
      rw [OrderNodes.withRanks_apply]
      exact OrderNodes.modify_withRanks i _
    rw [foldl_cons, hstep]
    refine ih (fun w => ?_) v ?_
    · rcases eq_or_ne (root w) i with rfl | hw
      · rw [update_self, hroot]
      · rw [update_of_ne hw, hrank]
    · rcases eq_or_ne v i with rfl | hvi
      · exact .inr (update_self ..)
      · rw [update_of_ne hvi]
        exact hv.imp_left fun hm => (mem_cons.mp hm).resolve_left hvi

/-! ## The ranks -/

/-- The passes after a complete search. -/
theorem ranking_passes {edge : Fin n → Fin n → Bool} {t : Ranker n} {d : Dfs n} (hsim : t.Sim d)
    (hd : d.Inv edge) (hall : ∀ v, d.comp v ≠ none) : Ranking (Dfs.Arc edge)
      ((finRange n).foldl takeRank (relaxComponents edge n t.nodes t.components)).ranks := by
  choose root hroot using fun v => Option.ne_none_iff_exists'.mp (hall v)
  have hroot' : ∀ v, root (root v) = root v := fun v =>
    Option.some.inj ((hroot (root v)).symm.trans (hd.root v _ (hroot v)).1)
  have hcomps : t.nodes.comps = d.comp := funext hsim.comp
  have hzero : t.nodes.ranks = fun _ => 0 := funext hsim.rank
  have hlists : ∀ r, ∃ l : List (Fin n), r ∈ d.order →
      Chain (fun v => (t.nodes v).memberNext) (t.nodes r).members l ∧ l.Nodup ∧
        ∀ u, u ∈ l ↔ d.comp u = some r := fun r => by
    by_cases hr : r ∈ d.order
    · obtain ⟨l, hl⟩ := hsim.members r hr
      exact ⟨l, fun _ => hl⟩
    · exact ⟨[], fun hr' => absurd hr' hr⟩
  choose members hmembers using hlists
  have hlen : ∀ {l : List (Fin n)}, l.Nodup → l.length ≤ n := fun hl =>
    hl.length_le_card.trans_eq (Fintype.card_fin n)
  have hpass := relaxComponents_withRanks edge d.order t.nodes.ranks
    (hlen hd.order_nodup) hsim.order fun r hr => ⟨hlen (hmembers r hr).2.1, (hmembers r hr).1⟩
  have hsame : t.nodes.withRanks t.nodes.ranks = t.nodes :=
    OrderNodes.ext_iff'.mpr fun _ => OrderNodes.withRanks_apply ..
  rw [hcomps, hsame, hzero] at hpass
  have hlevels := Dfs.ranking_levels hd (fun r hr => (hmembers r hr).2.2) hroot
  convert hlevels using 1
  funext v
  rw [hpass]
  exact ranks_takeRank hroot' (fun w => by rw [hcomps, hroot]) (finRange n)
    (fun _ => rfl) v (.inl (mem_finRange v))

/-- **`moq_stream_order_rank` computes longest-path ranks**: nodes of one strong component of the
precedence relation tie, an edge between two components goes up, a rank is the length of the
longest path of components into the node's, below the number of nodes, and permuting the nodes
permutes the ranks. -/
theorem stream_order_rank_longest (metas : Fin n → ActionMeta) :
    let E := fun u v => streamOrderEdge metas u v = true
    (∀ u v, SameComponent E u v → (streamOrderRank metas u).rank = (streamOrderRank metas v).rank) ∧
    (∀ u v, E u v → ¬ SameComponent E u v →
      (streamOrderRank metas u).rank < (streamOrderRank metas v).rank) ∧
    (∀ v, IsGreatest {k | ComponentPath E k v} (streamOrderRank metas v).rank) ∧
    (∀ v, (streamOrderRank metas v).rank < n) ∧
    ∀ (σ : Equiv.Perm (Fin n)) (v : Fin n),
      (streamOrderRank (metas ∘ σ) v).rank = (streamOrderRank metas (σ v)).rank := by
  have hranking : ∀ metas : Fin n → ActionMeta, Ranking (fun u v => streamOrderEdge metas u v)
        fun v => (streamOrderRank metas v).rank := fun metas =>
    ranking_passes (.foldl_visitRoot (finRange n) Ranker.sim_start (Dfs.inv_start _ _) rfl)
      (Dfs.search_complete _ _).1 (Dfs.search_complete _ _).2
  have h := hranking metas
  refine ⟨h.same, h.up, h.isGreatest, fun v => (h.lt_card v).trans_eq (Fintype.card_fin n),
    fun σ v => ?_⟩
  -- both ranks are the greatest element of one set
  have hedge : ∀ a b, streamOrderEdge (metas ∘ σ) a b ↔
      streamOrderEdge metas (σ a) (σ b) := fun a b => by
    simp [streamOrderEdge]
  have hset : {k | ComponentPath (fun a b => streamOrderEdge (metas ∘ σ) a b) k v} =
      {k | ComponentPath (fun a b => streamOrderEdge metas a b) k (σ v)} :=
    Set.ext fun k => componentPath_equiv σ hedge k v
  have hperm := (hranking (metas ∘ σ)).isGreatest v
  rw [hset] at hperm
  exact hperm.unique (h.isGreatest (σ v))

/-- A cycle of two nodes before a third. -/
example :
    (finRange 3).map (rankNodes fun u v : Fin 3 => u < 2 && u ≠ v).ranks = [0, 0, 1] := by
  decide +kernel

end MoqRelay
