import MoqRelay.Shard.Journal

/-!
# Shard/Bits — what a journal operation does to the candidate and last-sent bits

A journal is read as a map from namespaces (`Mgr.view`), an absent entry reading as a default.  An
insertion and a removal of an entry that reads as the default leave the map alone, and a rewrite
updates one namespace.  `Mgr.bits` reads the pair of the candidate set and the last-sent set, and
everything a shard does by itself (`Local`) moves at most its own candidate bit.
-/

namespace MoqRelay

open Function List

theorem getLsbD_shardBit (i j : ℕ) : (shardBit i).getLsbD j = decide (i = j ∧ j < 64) := by
  simp only [shardBit, BitVec.getLsbD_shiftLeft, BitVec.getLsbD_one]
  rw [Bool.eq_iff_iff]
  simp
  omega

/-- One bit of the word moves. -/
theorem getLsbD_withBit (bits : BitVec 64) (i j : ℕ) (b : Bool) :
    (withBit bits i b).getLsbD j = if i = j ∧ j < 64 then b else bits.getLsbD j := by
  by_cases hj : j < 64
  · cases b <;> by_cases hij : i = j <;>
      simp [withBit, BitVec.getLsbD_and, BitVec.getLsbD_or, BitVec.getLsbD_not, getLsbD_shardBit,
        -BitVec.getLsbD_eq_getElem, hj, hij]
  · rw [if_neg fun h => hj h.2, BitVec.getLsbD_of_ge _ _ (by omega),
      BitVec.getLsbD_of_ge _ _ (by omega)]

/-- The same beside the name it is kept under. -/
theorem getLsbD_withBit_ite {bits : BitVec 64} {i j : ℕ} {b : Bool} {p : Prop} [Decidable p]
    (h : i < 64) (hp : p ↔ j = i) :
    (withBit bits i b).getLsbD j = if p then b else bits.getLsbD j := by
  rw [getLsbD_withBit]
  exact if_congr (by rw [hp]; omega) rfl rfl

theorem getLsbD_withBit_of_ne {bits : BitVec 64} {i j : ℕ} {b : Bool} (h : i ≠ j) :
    (withBit bits i b).getLsbD j = bits.getLsbD j := by
  rw [getLsbD_withBit, if_neg fun hij => h hij.1]

/-- No candidate, no winner. -/
theorem winnerOf_zero (hash : UInt64) : winnerOf 0 hash = none := by rfl

/-! ## The map -/

/-- The two words of an entry. -/
def JEntry.bits (e : JEntry) : BitVec 64 × BitVec 64 := (e.candidates, e.sent)

namespace Mgr

variable {m m' : Mgr} {e e' : JEntry} {i j : ℕ} {c : Canon}

/-- What the journal says about a namespace. -/
def view {β : Type*} (f : JEntry → β) (d : β) (m : Mgr) (c : Canon) : β :=
  (keyed JEntry.canon m.jrn c).elim d f

/-- The candidate and last-sent words of a namespace. -/
def bits (m : Mgr) (c : Canon) : BitVec 64 × BitVec 64 :=
  (keyed JEntry.canon m.jrn c).elim (0, 0) JEntry.bits

/-- The candidate set of a namespace. -/
def candidatesOf (m : Mgr) (c : Canon) : BitVec 64 := (m.bits c).1

/-- The candidate bit of a shard. -/
def candBit (m : Mgr) (c : Canon) (o : ℕ) : Bool := (m.bits c).1.getLsbD o

/-- The last-sent bit of a destination. -/
def sentBit (m : Mgr) (c : Canon) (d : ℕ) : Bool := (m.bits c).2.getLsbD d

/-- The winner the shard computes for a namespace. -/
def winner (m : Mgr) (c : Canon) : Option ℕ :=
  (keyed JEntry.canon m.jrn c).bind fun e => winnerOf e.candidates e.hash

/-- The journal is sorted, and its hashes are those of its keys. -/
structure Wf (m : Mgr) : Prop where
  sorted : SortedBy JEntry.canon m.jrn
  hash : ∀ e ∈ m.jrn, e.hash = canonHash e.canon

/-- The winner depends on the candidate set alone. -/
theorem Wf.winner_eq (h : m.Wf) (c : Canon) :
    m.winner c = winnerOf (m.candidatesOf c) (canonHash c) := by
  rw [winner, candidatesOf, bits]
  cases hk : keyed JEntry.canon m.jrn c with
  | none => exact (winnerOf_zero _).symm
  | some e =>
    obtain ⟨hmem, rfl⟩ := key_of_keyed hk
    rw [← h.hash e hmem]
    rfl

section View

variable {β : Type*} {f : JEntry → β} {d : β}

theorem Wf.view_at (h : m.Wf) (he : m.jrn[i]? = some e) : m.view f d e.canon = f e := by
  rw [view, h.sorted.keyed_self he]
  rfl

/-- Rewriting an entry updates its namespace. -/
theorem Wf.view_putEntry (h : m.Wf) (he : m.jrn[i]? = some e) (hc : e'.canon = e.canon) :
    (m.putEntry i e').view f d = update (m.view f d) e.canon (f e') := by
  funext c
  rw [view, putEntry, h.sorted.keyed_set he hc]
  rcases eq_or_ne c e.canon with rfl | hne
  · rw [if_pos rfl, update_self]
    rfl
  · rw [if_neg hne, update_of_ne hne]
    rfl

/-- Removing an entry that reads as the default. -/
theorem Wf.view_jrnRemove (h : m.Wf) (he : m.jrn[i]? = some e) (hf : f e = d) :
    (m.jrnRemove i).view f d = m.view f d := by
  funext c
  rw [view, jrnRemove, h.sorted.keyed_eraseIdx he]
  rcases eq_or_ne c e.canon with rfl | hne
  · rw [if_pos rfl, h.view_at he, hf]
    rfl
  · rw [if_neg hne]
    rfl

/-- Rewriting every entry without a change to what is read. -/
theorem view_map {g : JEntry → JEntry} (hc : ∀ e, (g e).canon = e.canon) (hf : ∀ e, f (g e) = f e)
    (hj : m'.jrn = m.jrn.map g) : m'.view f d = m.view f d := by
  funext c
  rw [view, view, hj, keyed_map hc]
  cases keyed JEntry.canon m.jrn c with
  | none => rfl
  | some e => exact hf e

end View

theorem Wf.bits_at (h : m.Wf) (he : m.jrn[i]? = some e) : m.bits e.canon = e.bits := h.view_at he

theorem Wf.bits_putEntry (h : m.Wf) (he : m.jrn[i]? = some e) (hc : e'.canon = e.canon) :
    (m.putEntry i e').bits = update m.bits e.canon e'.bits := h.view_putEntry he hc

theorem Wf.putEntry (h : m.Wf) (he : m.jrn[i]? = some e) (hc : e'.canon = e.canon)
    (hh : e'.hash = e.hash) : (m.putEntry i e').Wf where
  sorted := h.sorted.set he hc
  hash x hx := by
    rcases mem_or_eq_of_mem_set hx with hx | rfl
    · exact h.hash x hx
    · rw [hh, hc]
      exact h.hash e (mem_of_getElem? he)

/-! ## What a shard does by itself -/

/-- **A local operation**: the manager stays well formed, tells nobody, and moves no candidate bit
but its own. -/
structure Local (m m' : Mgr) : Prop where
  shard : m'.shard = m.shard
  wf : m'.Wf
  sent : ∀ c d, m'.sentBit c d = m.sentBit c d
  cand : ∀ c o, o ≠ m.shard → m'.candBit c o = m.candBit c o

theorem Wf.local (h : m.Wf) (hs : m'.shard = m.shard) (hj : m'.jrn = m.jrn) : Local m m' where
  shard := hs
  wf := ⟨hj ▸ h.sorted, hj ▸ h.hash⟩
  sent c d := by rw [sentBit, sentBit, bits, bits, hj]
  cand c o _ := by rw [candBit, candBit, bits, bits, hj]

/-- The map as it was. -/
theorem Local.of_bits (hs : m'.shard = m.shard) (hw : m'.Wf) (hb : m'.bits = m.bits) :
    Local m m' where
  shard := hs
  wf := hw
  sent c d := by rw [sentBit, sentBit, hb]
  cand c o _ := by rw [candBit, candBit, hb]

theorem Local.trans {m'' : Mgr} (h : Local m m') (h' : Local m' m'') : Local m m'' where
  shard := h'.shard.trans h.shard
  wf := h'.wf
  sent c d := (h'.sent c d).trans (h.sent c d)
  cand c o ho := (h'.cand c o (h.shard ▸ ho)).trans (h.cand c o ho)

/-- An entry rewritten, its own-shard candidate bit apart. -/
structure Retouch (x : ℕ) (e e' : JEntry) : Prop where
  canon : e'.canon = e.canon
  hash : e'.hash = e.hash
  sent : e'.sent = e.sent
  cand : ∀ o, o ≠ x → e'.candidates.getLsbD o = e.candidates.getLsbD o

theorem Retouch.trans {x : ℕ} {e'' : JEntry} (h : Retouch x e e') (h' : Retouch x e' e'') :
    Retouch x e e'' where
  canon := h'.canon.trans h.canon
  hash := h'.hash.trans h.hash
  sent := h'.sent.trans h.sent
  cand o ho := (h'.cand o ho).trans (h.cand o ho)

/-- The words and the key kept. -/
theorem Retouch.of_eq {x : ℕ} (hc : e'.canon = e.canon := by rfl) (hh : e'.hash = e.hash := by rfl)
    (hb : e'.bits = e.bits := by rfl) : Retouch x e e' where
  canon := hc
  hash := hh
  sent := congrArg Prod.snd hb
  cand o _ := congrArg (fun b : BitVec 64 × BitVec 64 => b.1.getLsbD o) hb

theorem Wf.local_putEntry (h : m.Wf) (he : m.jrn[i]? = some e) (hr : Retouch m.shard e e') :
    Local m (m.putEntry i e') where
  shard := rfl
  wf := h.putEntry he hr.canon hr.hash
  sent c d := by
    rw [sentBit, sentBit, h.bits_putEntry he hr.canon]
    rcases eq_or_ne c e.canon with rfl | hne
    · rw [update_self, h.bits_at he, JEntry.bits, hr.sent]
      rfl
    · rw [update_of_ne hne]
  cand c o ho := by
    rw [candBit, candBit, h.bits_putEntry he hr.canon]
    rcases eq_or_ne c e.canon with rfl | hne
    · rw [update_self, h.bits_at he]
      exact hr.cand o ho
    · rw [update_of_ne hne]

theorem Wf.jrnRemove (h : m.Wf) (i : ℕ) : (m.jrnRemove i).Wf :=
  ⟨h.sorted.eraseIdx i, fun x hx => h.hash x (mem_of_mem_eraseIdx hx)⟩

/-! ## Finding, inserting, setting a bit -/

theorem Wf.jrnFind_some (h : m.Wf) (hf : (m.jrnFind c).1) :
    ∃ e, m.jrn[(m.jrnFind c).2]? = some e ∧ e.canon = c := seek_true h.sorted hf

theorem Wf.keyed_none (h : m.Wf) (hf : (m.jrnFind c).1 = false) :
    keyed JEntry.canon m.jrn c = none :=
  (h.sorted.keyed_seek c).trans (if_neg (Bool.eq_false_iff.mp hf))

/-- **`jrn_get` finds or inserts**, and changes nothing that a fresh entry does not show. -/
theorem Wf.jrnGet_view {β : Type*} (f : JEntry → β) (h : m.Wf) (hg : m.jrnGet c = some (i, m')) :
    m'.shard = m.shard ∧ m'.oom = m.oom ∧ m'.Wf ∧
      (let d := f { canon := c, hash := canonHash c }; m'.view f d = m.view f d) ∧
      ∃ e, m'.jrn[i]? = some e ∧ e.canon = c := by
  unfold Mgr.jrnGet at hg
  split_ifs at hg with hfound hcap
  · obtain ⟨rfl, rfl⟩ := hg
    exact ⟨rfl, rfl, h, rfl, h.jrnFind_some hfound⟩
  obtain ⟨rfl, rfl⟩ := hg
  have hfound : (m.jrnFind c).1 = false := Bool.eq_false_iff.mpr hfound
  let fresh : JEntry := { canon := c, hash := canonHash c }
  have hnew : ∀ x ∈ m.jrn, x.canon ≠ fresh.canon := keyed_eq_none.mp (h.keyed_none hfound)
  refine ⟨rfl, rfl, ⟨h.sorted.insertAt fresh hfound, fun x hx => ?_⟩, funext fun c' => ?_,
    fresh, getElem?_insertAt (seek_le h.sorted hfound), rfl⟩
  · rw [insertAt, mem_append, mem_cons] at hx
    rcases hx with hx | rfl | hx
    · exact h.hash x (mem_of_mem_take hx)
    · rfl
    · exact h.hash x (mem_of_mem_drop hx)
  · rw [view, keyed_insertAt hnew]
    rcases eq_or_ne c' c with rfl | hne
    · rw [if_pos rfl, view, h.keyed_none hfound]
      rfl
    · rw [if_neg hne]
      rfl

/-- `jrn_set_candidate` rewrites one entry. -/
theorem Wf.jrnSetCandidate_view {β : Type*} {f : JEntry → β} {d : β}
    (hf : ∀ e, f { e with dirty := true } = f e) (h : m.Wf) (he : m.jrn[i]? = some e) (o : ℕ)
    (b : Bool) : let m' := m.jrnSetCandidate i o b
    m'.shard = m.shard ∧ m'.oom = m.oom ∧ m'.Wf ∧ m'.view f d = update (m.view f d) e.canon
      (f { e with candidates := withBit e.candidates o b }) := by
  have hput : (m.putEntry i
    { e with candidates := withBit e.candidates o b, dirty := true }).Wf := h.putEntry he rfl rfl
  rw [Mgr.jrnSetCandidate, he, ← hf]
  exact ⟨rfl, rfl, ⟨hput.sorted, hput.hash⟩, h.view_putEntry he rfl⟩

/-- An announcement or a withdrawal noted under an origin; `none` when the journal is full. -/
def noted (m : Mgr) (c : Canon) (o : ℕ) : RouteOp → Option Mgr
  | .announce => (m.jrnGet c).map fun (i, m) => m.jrnSetCandidate i o true
  | .unannounce => some (if (m.jrnFind c).1 then m.jrnSetCandidate (m.jrnFind c).2 o false else m)

theorem recordLocal_eq (m : Mgr) (c : Canon) (op : RouteOp) :
    m.recordLocal c op = (m.noted c m.shard op).getD { m with oom := true } := by
  cases op with
  | announce =>
    rw [recordLocal, noted, jrnGet]
    split_ifs <;> rfl
  | unannounce => rfl

variable {o : ℕ} {op : RouteOp}

/-- **Noting moves one candidate bit** of the namespace, whatever is read of the entries. -/
theorem Wf.noted {β : Type*} {f : JEntry → β} {d : β} (hf : ∀ e, f { e with dirty := true } = f e)
    (hd : f { canon := c, hash := canonHash c } = d) (h : m.Wf) (hn : m.noted c o op = some m') :
    m'.shard = m.shard ∧ m'.oom = m.oom ∧ m'.Wf ∧ ∃ e, m.view f d c = f e ∧
      m'.view f d = update (m.view f d) c
        (f { e with candidates := withBit e.candidates o op.present }) := by
  subst hd
  cases op with
  | announce =>
    obtain ⟨⟨j, m₁⟩, hg, rfl⟩ := Option.map_eq_some_iff.mp hn
    obtain ⟨hs, ho, hw, hv, e, he, rfl⟩ := h.jrnGet_view f hg
    obtain ⟨hs', ho', hw', hv'⟩ := hw.jrnSetCandidate_view hf he o true
    exact ⟨hs'.trans hs, ho'.trans ho, hw', e, hv ▸ hw.view_at he, hv ▸ hv'⟩
  | unannounce =>
    cases hn
    split_ifs with hfound
    · obtain ⟨e, he, rfl⟩ := h.jrnFind_some hfound
      obtain ⟨hs, ho, hw, hv⟩ := h.jrnSetCandidate_view hf he o false
      exact ⟨hs, ho, hw, e, h.view_at he, hv⟩
    · -- no entry, so the bit is clear already
      have hnone (d : β) : m.view f d c = d := by
        rw [view, h.keyed_none (Bool.eq_false_iff.mpr hfound)]
        rfl
      refine ⟨rfl, rfl, h, _, hnone _, (update_eq_self_iff.mpr ?_).symm⟩
      rw [hnone, show withBit 0 o RouteOp.unannounce.present = 0 from BitVec.zero_and]

/-- The words after noting. -/
theorem Wf.bits_noted (h : m.Wf) (hn : m.noted c o op = some m') :
    m'.bits = update m.bits c (withBit (m.bits c).1 o op.present, (m.bits c).2) := by
  obtain ⟨-, -, -, e, he, hv⟩ := h.noted (f := JEntry.bits) (fun _ => rfl) rfl hn
  rwa [show m.bits c = e.bits from he]

/-- A candidate bit set or cleared under a namespace. -/
theorem bits_candidate {o : ℕ} {b : Bool} (ho : o < 64)
    (hb : m'.bits = update m.bits c (withBit (m.bits c).1 o b, (m.bits c).2)) :
    (∀ c' d, m'.sentBit c' d = m.sentBit c' d) ∧
      ∀ c' o', m'.candBit c' o' = if c' = c ∧ o' = o then b else m.candBit c' o' := by
  refine ⟨fun c' d => ?_, fun c' o' => ?_⟩
  · rw [sentBit, sentBit, hb]
    rcases eq_or_ne c' c with rfl | hne
    · rw [update_self]
    · rw [update_of_ne hne]
  · rw [candBit, candBit, hb]
    rcases eq_or_ne c' c with rfl | hne
    · rw [update_self]
      exact getLsbD_withBit_ite ho (and_iff_right rfl)
    · rw [update_of_ne hne, if_neg fun h => hne h.1]

/-- A last-sent bit set or cleared under a namespace. -/
theorem bits_sent {d : ℕ} {b : Bool} (hd : d < 64)
    (hb : m'.bits = update m.bits c ((m.bits c).1, withBit (m.bits c).2 d b)) :
    (∀ c' o, m'.candBit c' o = m.candBit c' o) ∧
      ∀ c' d', m'.sentBit c' d' = if c' = c ∧ d' = d then b else m.sentBit c' d' := by
  refine ⟨fun c' o => ?_, fun c' d' => ?_⟩
  · rw [candBit, candBit, hb]
    rcases eq_or_ne c' c with rfl | hne
    · rw [update_self]
    · rw [update_of_ne hne]
  · rw [sentBit, sentBit, hb]
    rcases eq_or_ne c' c with rfl | hne
    · rw [update_self]
      exact getLsbD_withBit_ite hd (and_iff_right rfl)
    · rw [update_of_ne hne, if_neg fun h => hne h.1]

/-! ## The operations of one shard -/

theorem Wf.recordLocal (h : m.Wf) (c : Canon) (op : RouteOp) : Local m (m.recordLocal c op) := by
  rw [recordLocal_eq]
  cases hn : m.noted c m.shard op with
  | none => exact h.local rfl rfl
  | some m' =>
    obtain ⟨hs, -, hw, -⟩ := h.noted (f := JEntry.bits) (fun _ => rfl) rfl hn
    refine ⟨hs, hw, fun c' d => ?_, fun c' o ho => ?_⟩
    · rw [Option.getD_some, sentBit, sentBit, h.bits_noted hn]
      rcases eq_or_ne c' c with rfl | hne
      · rw [update_self]
      · rw [update_of_ne hne]
    · rw [Option.getD_some, candBit, candBit, h.bits_noted hn]
      rcases eq_or_ne c' c with rfl | hne
      · rw [update_self]
        exact getLsbD_withBit_of_ne ho.symm
      · rw [update_of_ne hne]

/-- **The router's observation is local.** -/
theorem Wf.observe (h : m.Wf) (op : RouteOp) (canon : Option Canon) :
    Local m (m.observe op canon) := by
  cases canon with
  | none => exact h.local rfl rfl
  | some c =>
    rw [Mgr.observe]
    split_ifs with hf
    · obtain ⟨e, he, -⟩ := h.jrnFind_some hf
      rw [he]
      dsimp only
      split_ifs
      · refine h.local_putEntry he ?_
        cases op <;> exact .of_eq
      · exact h.recordLocal c op
    · exact h.recordLocal c op

/-- What a reconciliation may do: the journal and a latched failure stand, and the entry is
retouched. -/
structure Reconciled (m : Mgr) (e : JEntry) (out : Mgr × JEntry) : Prop where
  shard : out.1.shard = m.shard
  jrn : out.1.jrn = m.jrn
  entry : Retouch m.shard e out.2
  oom : m.oom → out.1.oom

theorem Reconciled.of_eq {out : Mgr × JEntry} (hs : out.1.shard = m.shard := by rfl)
    (hj : out.1.jrn = m.jrn := by rfl) (he : Retouch m.shard e out.2 := by exact .of_eq)
    (ho : m.oom → out.1.oom := by exact id) :
    Reconciled m e out := ⟨hs, hj, he, ho⟩

theorem Reconciled.after {out : Mgr × JEntry} (h : Reconciled m' e' out)
    (hs : m'.shard = m.shard) (hj : m'.jrn = m.jrn) (he : Retouch m.shard e e')
    (ho : m.oom → m'.oom := by exact id) : Reconciled m e out :=
  ⟨h.shard.trans hs, h.jrn.trans hj, he.trans (hs ▸ h.entry), h.oom ∘ ho⟩

theorem reconciled_updateHoldout (m : Mgr) (e : JEntry) (b : Bool) :
    Reconciled m e (m.updateHoldout e b) := by
  unfold updateHoldout
  split_ifs <;> exact .of_eq

theorem reconciled_installMirror (m : Mgr) (e : JEntry) (a : CoreAnswers) (desired : Option ℕ) :
    Reconciled m e (m.installMirror e a desired) := by
  cases desired with
  | none => exact .of_eq
  | some winner =>
    rw [installMirror]
    cases a.announce <;> exact .of_eq

theorem reconciled_reconcileInstall (m : Mgr) (e : JEntry) (a : CoreAnswers)
    (desired : Option ℕ) : Reconciled m e (m.reconcileInstall e a desired) := by
  unfold reconcileInstall
  split_ifs
  · exact .of_eq
  · exact (reconciled_installMirror ..).after rfl rfl .of_eq
  · exact reconciled_installMirror ..

theorem reconciled_reconcileMirror (m : Mgr) (e : JEntry) (a : CoreAnswers) :
    Reconciled m e (m.reconcileMirror e a) := by
  have hh := reconciled_updateHoldout m e
    (e.candidates.getLsbD m.shard && (m.remoteWinner e).isSome)
  rw [reconcileMirror]
  revert hh
  intro hh
  dsimp only
  split_ifs
  · exact ⟨hh.shard, hh.jrn, hh.entry.trans .of_eq, hh.oom⟩
  · exact (reconciled_reconcileInstall ..).after hh.shard hh.jrn hh.entry hh.oom
  · exact hh
  · exact (reconciled_reconcileInstall ..).after hh.shard hh.jrn (hh.entry.trans .of_eq) hh.oom

/-- **A reconciliation keeps the journal** and moves at most the entry's own-shard bit. -/
theorem reconciled_reconcileEntry (m : Mgr) (e : JEntry) (a : CoreAnswers) :
    Reconciled m e (m.reconcileEntry e a) := by
  unfold reconcileEntry
  split_ifs
  · cases a.forceWithdraw with
    | wouldBlock => exact (reconciled_updateHoldout ..).after rfl rfl .of_eq
    | ok =>
      exact (reconciled_reconcileMirror ..).after rfl rfl
        ⟨rfl, rfl, rfl, fun o ho => getLsbD_withBit_of_ne ho.symm⟩
    | _ => exact ⟨rfl, rfl, .of_eq, fun _ => rfl⟩
  · exact reconciled_reconcileMirror ..

theorem Wf.reconcileAt (h : m.Wf) (i : ℕ) (a : CoreAnswers) : Local m (m.reconcileAt i a) := by
  rw [Mgr.reconcileAt]
  cases he : m.jrn[i]? with
  | none => exact h.local rfl rfl
  | some e =>
    dsimp only
    split_ifs
    · have hr := reconciled_reconcileEntry m e a
      have hl : Local m (m.reconcileEntry e a).1 := h.local hr.shard hr.jrn
      exact hl.trans (hl.wf.local_putEntry (hr.jrn ▸ he) (hr.shard.symm ▸ hr.entry))
    · exact h.local rfl rfl

/-- A parked entry retried. -/
def retried (e : JEntry) : JEntry := if e.capBlocked then { e with dirty := true } else e

/-- What `unpark` does not touch. -/
theorem retried_eq {β : Type*} {f : JEntry → β} (hf : ∀ e, f { e with dirty := true } = f e)
    (e : JEntry) : f (retried e) = f e := by
  unfold retried
  split_ifs
  · exact hf e
  · rfl

theorem unpark_jrn (m : Mgr) (roomEpoch : ℕ) :
    (m.unpark roomEpoch).jrn = m.jrn ∨ (m.unpark roomEpoch).jrn = m.jrn.map retried := by
  unfold Mgr.unpark
  split_ifs
  · exact .inr rfl
  · exact .inl rfl

theorem Wf.unpark (h : m.Wf) (roomEpoch : ℕ) : Local m (m.unpark roomEpoch) := by
  have hcanon : ∀ e, (retried e).canon = e.canon := retried_eq fun _ => rfl
  rcases m.unpark_jrn roomEpoch with hj | hj
  · exact h.local rfl hj
  refine .of_bits rfl ⟨hj ▸ h.sorted.map hcanon, fun x hx => ?_⟩
    (view_map hcanon (retried_eq fun _ => rfl) hj)
  rw [hj] at hx
  obtain ⟨e, he, rfl⟩ := mem_map.mp hx
  rw [hcanon, retried_eq (f := JEntry.hash) fun _ => rfl, h.hash e he]

end Mgr

end MoqRelay
