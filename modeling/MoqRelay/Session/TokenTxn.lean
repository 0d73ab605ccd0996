import MoqRelay.Session.Token

/-!
# Session/TokenTxn — a prepared transaction is the direct processing, postponed

    base ──process the tokens──▸ cache'
      └──prepare──▸ overlay ──commit──▸ cache'

An overlay stands for the cache its commit gives (`Commits`): its liveness is that cache's lookup
(`Commits.live`) and its projection that cache's usage (`Commits.project`).  Preparing therefore
decides every token as the cache itself would (`resolve_commits`).
-/

namespace MoqRelay

open List

/-- The bytes an entry costs. -/
def TokenEntry.weight (e : TokenEntry) : ℕ := tokenEntryOverhead.toNat + e.value.len.toNat

namespace TokenCache

variable {c c' : TokenCache} {e : TokenEntry} {a : ℕ} {alloc : Bool}

/-- **What every reachable cache satisfies.** -/
structure Wf (c : TokenCache) : Prop where
  nodup : ((occupied c.entries).map TokenEntry.aliasId).Nodup
  used : c.usedBytes.toNat = ((occupied c.entries).map TokenEntry.weight).sum
  le : c.usedBytes ≤ c.maxBytes

/-- What a cache uses: its bytes and its active entries. -/
def usage (c : TokenCache) : UInt64 × ℕ := (c.usedBytes, (occupied c.entries).length)

/-- An entry does not fit beside what is used. -/
def noRoom (c : TokenCache) (used : UInt64 × ℕ) (e : TokenEntry) : Bool :=
  entrySize e.value < tokenEntryOverhead || c.maxBytes < used.1 ||
    c.maxBytes - used.1 < entrySize e.value || c.entries.length ≤ used.2

/-! ## One entry more -/

/-- `c'` is `c` with one entry more, whose alias is new. -/
structure More (c : TokenCache) (e : TokenEntry) (c' : TokenCache) : Prop where
  split : ∃ s t, occupied c.entries = s ++ t ∧ occupied c'.entries = s ++ e :: t
  fresh : ∀ x ∈ occupied c.entries, x.aliasId ≠ e.aliasId
  size : (entrySize e.value).toNat = e.weight
  used : c'.usedBytes.toNat = c.usedBytes.toNat + e.weight
  cap : c'.entries.length = c.entries.length
  max : c'.maxBytes = c.maxBytes

namespace More

variable (h : More c e c')
include h

theorem lookup (a : ℕ) : c'.lookup a = if a = e.aliasId then some e else c.lookup a := by
  obtain ⟨s, t, hs, ht⟩ := h.split
  have hfresh : ∀ x ∈ s, x.aliasId ≠ e.aliasId := fun x hx => h.fresh x (by simp [hs, hx])
  rw [TokenCache.lookup, TokenCache.lookup, ht, hs, keyed_middle hfresh]

theorem lookup_self : c.lookup e.aliasId = none := keyed_eq_none.mpr h.fresh

theorem length : (occupied c'.entries).length = (occupied c.entries).length + 1 := by
  obtain ⟨s, t, hs, ht⟩ := h.split
  simp [hs, ht]
  omega

theorem sum :
    ((occupied c'.entries).map TokenEntry.weight).sum =
      ((occupied c.entries).map TokenEntry.weight).sum + e.weight := by
  obtain ⟨s, t, hs, ht⟩ := h.split
  simp [hs, ht]
  omega

theorem nodup_iff :
    ((occupied c'.entries).map TokenEntry.aliasId).Nodup ↔
      ((occupied c.entries).map TokenEntry.aliasId).Nodup := by
  obtain ⟨s, t, hs, ht⟩ := h.split
  have hfresh := h.fresh
  rw [hs] at hfresh
  rw [ht, hs, map_append, map_cons, nodup_middle, nodup_cons, ← map_append]
  simp only [mem_map, and_iff_right_iff_imp]
  rintro - ⟨x, hx, hxe⟩
  exact hfresh x hx hxe

theorem usage_add : projectRegister c.usage e.value = c'.usage := by
  have hused := h.used
  have hlt := c'.usedBytes.toNat_lt
  have hsize := h.size
  have hov : tokenEntryOverhead.toNat ≤ e.weight := Nat.le_add_right ..
  have h1 : ¬ entrySize e.value < tokenEntryOverhead := by rw [UInt64.lt_iff_toNat_lt]; omega
  have hmax : sizeMax.toNat = 2 ^ 64 - 1 := rfl
  have hle : entrySize e.value ≤ sizeMax := by rw [UInt64.le_iff_toNat_le]; omega
  have h2 : ¬ sizeMax - entrySize e.value < c.usedBytes := by
    rw [UInt64.lt_iff_toNat_lt, UInt64.toNat_sub_of_le _ _ hle]; omega
  have h3 : c.usedBytes + entrySize e.value = c'.usedBytes := by
    apply UInt64.toNat_inj.mp
    rw [UInt64.toNat_add]; omega
  simp only [projectRegister, usage, if_neg h1, if_neg h2, h3, h.length]

theorem usage_sub : projectDelete c'.usage (entrySize e.value) = c.usage := by
  have hused := h.used
  have hsize := h.size
  have hle : entrySize e.value ≤ c'.usedBytes := by rw [UInt64.le_iff_toNat_le]; omega
  have h1 : c'.usedBytes - entrySize e.value = c.usedBytes := by
    apply UInt64.toNat_inj.mp
    rw [UInt64.toNat_sub_of_le _ _ hle]; omega
  simp [projectDelete, usage, if_pos hle, h1, h.length]

theorem wf_of_more (hc : c'.Wf) : c.Wf where
  nodup := h.nodup_iff.mp hc.nodup
  used := by
    have h1 := hc.used
    have h2 := h.used
    have h3 := h.sum
    omega
  le := by
    have h1 := UInt64.le_iff_toNat_le.mp hc.le
    have h2 := h.used
    rw [UInt64.le_iff_toNat_le, ← h.max]; omega

theorem wf (hc : c.Wf) (hle : c'.usedBytes ≤ c'.maxBytes) : c'.Wf where
  nodup := h.nodup_iff.mpr hc.nodup
  used := by rw [h.used, h.sum, hc.used]
  le := hle

end More

/-! ## What a register and a delete do -/

theorem entrySize_toNat (e : TokenEntry) : (entrySize e.value).toNat = e.weight % 2 ^ 64 :=
  UInt64.toNat_add ..

/-- An entry that fits, and whose slot is found, makes one entry more. -/
theorem more_of_place {entries : List (Option TokenEntry)} (hnone : c.lookup e.aliasId = none)
    (hwrap : ¬ entrySize e.value < tokenEntryOverhead)
    (hroom : ¬ (c.maxBytes < c.usedBytes || c.maxBytes - c.usedBytes < entrySize e.value))
    (hplace : place e c.entries = some entries) :
    More c e { c with entries := entries, usedBytes := c.usedBytes + entrySize e.value } ∧
      c.usedBytes + entrySize e.value ≤ c.maxBytes := by
  obtain ⟨hlen, hsplit⟩ := place_split hplace
  simp only [Bool.or_eq_true, decide_eq_true_eq, not_or] at hroom
  obtain ⟨hle, hsub⟩ := hroom
  have hle : c.usedBytes ≤ c.maxBytes := UInt64.not_lt.mp hle
  rw [UInt64.lt_iff_toNat_lt, UInt64.toNat_sub_of_le _ _ hle] at hsub
  rw [UInt64.lt_iff_toNat_lt] at hwrap
  rw [UInt64.le_iff_toNat_le] at hle
  have hlt := c.maxBytes.toNat_lt
  have hlen' := e.value.len.toNat_lt
  have hsize : (entrySize e.value).toNat = e.weight := by
    have hadd := entrySize_toNat e
    rw [TokenEntry.weight] at hadd ⊢; omega
  have hused : (c.usedBytes + entrySize e.value).toNat = c.usedBytes.toNat + e.weight := by
    rw [UInt64.toNat_add]; omega
  refine ⟨⟨hsplit, keyed_eq_none.mp hnone, hsize, hused, hlen, rfl⟩, ?_⟩
  rw [UInt64.le_iff_toNat_le]; omega

/-- **What a register does**: it refuses and leaves the cache, or there is one entry more. -/
theorem register_cases (c : TokenCache) (e : TokenEntry) (alloc : Bool) :
    (c.register e alloc).1 ≠ .ok ∧ (c.register e alloc).2 = c ∨
      (c.register e alloc).1 = .ok ∧ More c e (c.register e alloc).2 ∧
        (c.register e alloc).2.usedBytes ≤ c.maxBytes := by
  unfold register
  cases hplace : place e c.entries with
  | none => split_ifs <;> simp
  | some entries =>
    split_ifs with hdup hwrap hroom hmem
    iterate 4 simp
    · obtain ⟨hmore, hle⟩ := more_of_place (by simpa using hdup) hwrap hroom hplace
      exact .inr ⟨rfl, hmore, hle⟩

/-- **The result of a register** in terms of what the cache uses. -/
theorem register_result (c : TokenCache) (e : TokenEntry) (alloc : Bool) :
    (c.register e alloc).1 =
      if (c.lookup e.aliasId).isSome then .duplicate
      else if c.noRoom c.usage e then .overflow
      else if 0 < e.value.len && !alloc then .nomem
      else .ok := by
  have hslot := place_isSome_iff (a := e) (l := c.entries)
  cases hplace : place e c.entries with
  | none =>
    have hfull : c.entries.length ≤ (occupied c.entries).length := by simpa [hplace] using hslot
    simp only [register, noRoom, usage, hplace, hfull, decide_true, Bool.or_true, if_true]
    split_ifs <;> rfl
  | some entries =>
    have hfree : ¬ c.entries.length ≤ (occupied c.entries).length := by simpa [hplace] using hslot
    simp only [register, noRoom, usage, hplace, hfree, decide_false, Bool.or_false, Bool.or_assoc]
    by_cases hwrap : entrySize e.value < tokenEntryOverhead
    · simp only [hwrap, if_true, decide_true, Bool.true_or]
      split_ifs <;> rfl
    · simp only [hwrap, if_false, decide_false, Bool.false_or]
      split_ifs <;> first | rfl | contradiction

/-- A register whose allocation may fail, beside one whose allocation does not. -/
theorem register_alloc (c : TokenCache) (e : TokenEntry) (alloc : Bool) :
    (c.register e alloc).1 = .nomem ∨ c.register e alloc = c.register e true := by
  cases alloc with
  | true => exact .inr rfl
  | false =>
    unfold register
    cases place e c.entries with
    | none => exact .inr rfl
    | some entries => split_ifs <;> simp_all

/-- **What a delete does**: the alias is unknown, or there is one entry less. -/
theorem delete_cases (hc : c.Wf) (a : ℕ) :
    c.lookup a = none ∧ c.delete a = (.unknown, c) ∨
      ∃ e c', e.aliasId = a ∧ c.lookup a = some e ∧ c.delete a = (.ok, c') ∧ More c' e c := by
  unfold delete
  cases hclear : clear (fun e : TokenEntry => e.aliasId = a) c.entries with
  | none =>
    have hnone := clear_eq_none_iff.mp hclear
    exact .inl ⟨keyed_eq_none.mpr fun x hx => of_decide_eq_false (hnone x hx), rfl⟩
  | some r =>
    obtain ⟨e, entries⟩ := r
    obtain ⟨hlen, s, t, hs, ht, he, -⟩ := clear_split hclear
    obtain rfl : e.aliasId = a := of_decide_eq_true he
    have hnodup := hc.nodup
    rw [hs, map_append, map_cons, nodup_middle, nodup_cons, ← map_append, mem_map] at hnodup
    have hused := hc.used
    simp only [hs, map_append, map_cons, sum_append, sum_cons] at hused
    have hlt := c.usedBytes.toNat_lt
    have hsize : (entrySize e.value).toNat = e.weight :=
      (entrySize_toNat e).trans (Nat.mod_eq_of_lt (by omega))
    have hle : entrySize e.value ≤ c.usedBytes := by rw [UInt64.le_iff_toNat_le]; omega
    have hmore : More ⟨entries, c.usedBytes - entrySize e.value, c.maxBytes⟩ e c :=
      { split := ⟨s, t, ht, hs⟩
        fresh := fun x hx hxe => hnodup.1 ⟨x, ht ▸ hx, hxe⟩
        size := hsize
        used := by rw [UInt64.toNat_sub_of_le _ _ hle]; omega
        cap := hlen.symm
        max := rfl }
    exact .inr ⟨e, _, rfl, by rw [hmore.lookup, if_pos rfl], by simp [hle], hmore⟩

/-- A cache that is well formed again, within the same bounds. -/
structure Keeps (c c' : TokenCache) : Prop where
  wf : c'.Wf
  cap : c'.entries.length = c.entries.length
  max : c'.maxBytes = c.maxBytes

theorem Keeps.trans {c'' : TokenCache} (h : Keeps c c') (h' : Keeps c' c'') : Keeps c c'' :=
  ⟨h'.wf, h'.cap.trans h.cap, h'.max.trans h.max⟩

theorem register_keeps (hc : c.Wf) (e : TokenEntry) (alloc : Bool) :
    Keeps c (c.register e alloc).2 := by
  obtain ⟨-, heq⟩ | ⟨-, hmore, hle⟩ := register_cases c e alloc
  · exact heq.symm ▸ ⟨hc, rfl, rfl⟩
  · exact ⟨hmore.wf hc (hmore.max ▸ hle), hmore.cap, hmore.max⟩

theorem delete_keeps (hc : c.Wf) (a : ℕ) : Keeps c (c.delete a).2 := by
  obtain ⟨-, heq⟩ | ⟨e, c', -, -, heq, hmore⟩ := delete_cases hc a
  · exact heq.symm ▸ ⟨hc, rfl, rfl⟩
  · exact heq.symm ▸ ⟨hmore.wf_of_more hc, hmore.cap.symm, hmore.max.symm⟩

theorem apply_keeps (hc : c.Wf) (e : OvEntry) : Keeps c (c.apply e).2 := by
  cases e with
  | register e => exact register_keeps hc e true
  | delete a => exact delete_keeps hc a

end TokenCache

/-! ## What an overlay stands for -/

open TokenCache

variable {c base c' c'' : TokenCache} {ov : Overlay} {lead : Option Overlay}

/-- **An overlay all of whose entries succeed at commit**, and the cache they lead to. -/
inductive Commits (base : TokenCache) : Overlay → TokenCache → Prop
  | nil : Commits base [] base
  | snoc {ov : Overlay} {c c' : TokenCache} {e : OvEntry} :
    Commits base ov c → c.apply e = (.ok, c') → Commits base (ov ++ [e]) c'

/-- A newer entry hides the older ones of its alias. -/
theorem aliasLive_concat (below : Option TokenEntry) (ov : Overlay) (e : OvEntry) (a : ℕ) :
    aliasLive below (ov ++ [e]) a = if a = e.aliasId then e.result else aliasLive below ov a := by
  rw [aliasLive, reverse_append, reverse_singleton, singleton_append, keyed_cons]
  split_ifs <;> rfl

theorem commitResults_concat (c : TokenCache) (ov : Overlay) (e : OvEntry) :
    c.commitResults (ov ++ [e]) = c.commitResults ov ++ [((c.commit ov).apply e).1] := by
  induction ov generalizing c with
  | nil => rfl
  | cons x ov ih => simp [commitResults, commit, ih]

/-- An entry of an overlay as it succeeds. -/
inductive Applied (c c' : TokenCache) : OvEntry → Prop
  | register {e : TokenEntry} (hmore : c.More e c') : Applied c c' (.register e)
  | delete {e : TokenEntry} (hlookup : c.lookup e.aliasId = some e) (hmore : c'.More e c) :
    Applied c c' (.delete e.aliasId)

variable {e : OvEntry}

theorem applied_of_ok (hc : c.Wf) (h : c.apply e = (.ok, c')) : Applied c c' e := by
  cases e with
  | register e =>
    obtain ⟨hne, -⟩ | ⟨-, hmore, -⟩ := register_cases c e true
    · exact absurd (congrArg Prod.fst h) hne
    · obtain rfl : (c.register e true).2 = c' := congrArg Prod.snd h
      exact .register hmore
  | delete a =>
    obtain ⟨-, heq⟩ | ⟨e, c₁, rfl, hlookup, heq, hmore⟩ := delete_cases hc a
    · exact absurd (heq.symm.trans h) (by simp)
    · obtain rfl : c₁ = c' := congrArg Prod.snd (heq.symm.trans h)
      exact .delete hlookup hmore

/-- An entry that succeeds leaves its alias with its result. -/
theorem Applied.lookup (h : Applied c c' e) (a : ℕ) :
    c'.lookup a = if a = e.aliasId then e.result else c.lookup a := by
  cases h with
  | register hmore => exact hmore.lookup a
  | @delete e hlookup hmore =>
    change c'.lookup a = if a = e.aliasId then none else c.lookup a
    split_ifs with ha
    · exact ha ▸ hmore.lookup_self
    · rw [hmore.lookup, if_neg ha]

namespace Commits

variable (h : Commits base ov c)
include h

theorem keeps (hb : base.Wf) : Keeps base c := by
  induction h with
  | nil => exact ⟨hb, rfl, rfl⟩
  | @snoc _ _ _ e _ he ih =>
    have hkeeps := apply_keeps ih.wf e
    rw [he] at hkeeps
    exact ih.trans hkeeps

theorem wf (hb : base.Wf) : c.Wf := (h.keeps hb).wf

theorem commit_eq : base.commit ov = c := by
  induction h with
  | nil => rfl
  | snoc _ he ih => rw [commit, foldl_concat, ← commit, ih, he]

/-- **The liveness an overlay decides is the lookup of the cache it leads to.** -/
theorem live (hb : base.Wf) (a : ℕ) : aliasLive (base.lookup a) ov a = c.lookup a := by
  induction h with
  | nil => rfl
  | snoc hc he ih => rw [aliasLive_concat, ih, (applied_of_ok (hc.wf hb) he).lookup]

theorem results : ∀ r ∈ base.commitResults ov, r = .ok := by
  induction h with
  | nil => simp [commitResults]
  | @snoc ov c c' e hc he ih =>
    rw [commitResults_concat, hc.commit_eq, he]
    exact forall_mem_append.mpr ⟨ih, by simp⟩

end Commits

/-! ## What an overlay projects -/

/-- The share of one entry, in the light of what the entries before it leave. -/
def projectEntry (used : UInt64 × ℕ) (live : Option TokenEntry) : OvEntry → UInt64 × ℕ
  | .register e => projectRegister used e.value
  | .delete _ =>
    match live with
    | some e => projectDelete used (entrySize e.value)
    | none => used

/-- **The share of an entry is exact**: it takes the usage of a cache to that of the next. -/
theorem Applied.project (h : Applied c c' e) :
    projectEntry c.usage (c.lookup e.aliasId) e = c'.usage := by
  cases h with
  | register hmore => exact hmore.usage_add
  | delete hlookup hmore => rw [OvEntry.aliasId, hlookup]; exact hmore.usage_sub

theorem ovProjectFrom_concat (before : List OvEntry) (used : UInt64 × ℕ) (ov : Overlay)
    (e : OvEntry) :
    ovProjectFrom c before used (ov ++ [e]) =
      ovProjectFrom c (ov.reverse ++ before) (ovProjectFrom c before used ov) [e] := by
  induction ov generalizing before used with
  | nil => rfl
  | cons x ov ih => cases x <;> simp [ovProjectFrom, ih]

theorem ovProjectAfterFrom_concat (lead before : Overlay) (used : UInt64 × ℕ) (ov : Overlay)
    (e : OvEntry) :
    ovProjectAfterFrom c lead before used (ov ++ [e]) =
      projectEntry (ovProjectAfterFrom c lead before used ov)
        (ovAliasLiveAfter c (some lead) (before ++ ov) e.aliasId) e := by
  induction ov generalizing before used with
  | nil => rw [append_nil]; cases e <;> rfl
  | cons x ov ih => cases x <;> simp [ovProjectAfterFrom, ih]

/-- A live alias was registered last, or lies in the cache. -/
theorem deletedLen_of_live {a : ℕ} {e : TokenEntry} (h : aliasLive (c.lookup a) ov a = some e) :
    deletedLen c ov.reverse a = e.value.len := by
  unfold aliasLive at h
  unfold deletedLen
  generalize ov.reverse = entries at h ⊢
  induction entries with
  | nil =>
    have hlookup : c.lookup a = some e := h
    simp [keyed, hlookup]
  | cons x entries ih =>
    rw [keyed_cons] at h
    rcases eq_or_ne a x.aliasId with rfl | hne
    · rw [if_pos rfl] at h
      cases x with
      | register e' =>
        cases h
        simp [OvEntry.result, keyed_cons, OvEntry.aliasId]
      | delete b => exact absurd h (by simp [OvEntry.result])
    · rw [if_neg hne] at h
      have hskip : keyed TokenEntry.aliasId ((x :: entries).filterMap OvEntry.result) a =
          keyed TokenEntry.aliasId (entries.filterMap OvEntry.result) a := by
        cases x with
        | register e' =>
          exact (keyed_cons e' (entries.filterMap OvEntry.result) a).trans (if_neg hne)
        | delete b => rfl
      rw [hskip]
      exact ih h

namespace Commits

/-- **The projection of an overlay is the usage of the cache it leads to.** -/
theorem project (h : Commits base ov c) (hb : base.Wf) : ovProject base ov = c.usage := by
  induction h with
  | nil => rfl
  | @snoc ov c c' e hc he ih =>
    have happ := applied_of_ok (hc.wf hb) he
    rw [ovProject, ovProjectFrom_concat, append_nil, ← ovProject, ih]
    cases happ with
    | register hmore => exact hmore.usage_add
    | @delete e hlookup hmore =>
      have hlen := deletedLen_of_live ((hc.live hb e.aliasId).trans hlookup)
      change projectDelete c.usage (tokenEntryOverhead + _) = _
      rw [hlen]
      exact hmore.usage_sub

end Commits

/-- The cache below an overlay: that of the session, or the one a prepared overlay leads to. -/
def Leads (c : TokenCache) : Option Overlay → TokenCache → Prop
  | none, base => base = c
  | some lead, base => Commits c lead base

section Below

variable (hc : c.Wf) (hl : Leads c lead base)
include hc hl

theorem Leads.keeps : Keeps c base := by
  cases lead with
  | none =>
    obtain rfl : base = c := hl
    exact ⟨hc, rfl, rfl⟩
  | some lead => exact Commits.keeps hl hc

theorem Leads.wf : base.Wf := (hl.keeps hc).wf

variable (h : Commits base ov c')
include h

theorem Leads.live (a : ℕ) : ovAliasLiveAfter c lead ov a = c'.lookup a := by
  have hbelow := h.live (hl.wf hc) a
  cases lead with
  | none =>
    obtain rfl : base = c := hl
    exact hbelow
  | some lead =>
    have hlead : ovAliasLive lead c a = base.lookup a := Commits.live hl hc a
    rw [← hbelow, ← hlead]
    rfl

theorem Leads.project : ovProjectAfter c lead ov = c'.usage := by
  cases lead with
  | none =>
    obtain rfl : base = c := hl
    exact h.project hc
  | some lead =>
    induction h with
    | nil => exact Commits.project hl hc
    | @snoc ov c' c'' e hov he ih =>
      have hlive := Leads.live hc hl hov e.aliasId
      have happ := applied_of_ok (hov.wf (Leads.wf hc hl)) he
      rw [ovProjectAfter, ovProjectAfterFrom_concat, nil_append, hlive]
      exact (congrArg (projectEntry · _ e) ih).trans happ.project

/-! ## Deciding a token -/

/-- **A transaction decides a DELETE as the cache does.** -/
theorem delete_commits (hlen : ov.length < cacheOverlayCap) (a : ℕ) :
    (txnStore c lead).delete ov a = none ∧ directStore.delete c' a = none ∨
      ∃ c'', (txnStore c lead).delete ov a = some (ov ++ [.delete a]) ∧
        directStore.delete c' a = some c'' ∧ Commits base (ov ++ [.delete a]) c'' := by
  have hlive := hl.live hc h a
  obtain ⟨hnone, heq⟩ | ⟨e, c'', -, hsome, heq, -⟩ := delete_cases (h.wf (hl.wf hc)) a
  · exact .inl (by simp [txnStore, directStore, hlive, hnone, heq])
  · refine .inr ⟨c'', ?_, by simp [directStore, heq], h.snoc heq⟩
    simp [txnStore, hlive, hsome, Overlay.push, hlen]

/-- **A transaction decides a REGISTER as the cache does**, memory apart. -/
theorem register_commits (hlen : ov.length < cacheOverlayCap) (e : TokenEntry) :
    (∃ res, (res = .duplicate ∨ res = .overflow) ∧ stageRegister c lead ov e = (res, ov) ∧
        (c'.register e true).1 = res) ∨
      stageRegister c lead ov e = (.ok, ov ++ [.register e]) ∧
        Commits base (ov ++ [.register e]) (c'.register e true).2 ∧
        (c'.register e true).1 = .ok := by
  obtain ⟨-, hcap, hmax⟩ := (hl.keeps hc).trans (h.keeps (hl.wf hc))
  have hroom : c.noRoom c'.usage e = c'.noRoom c'.usage e := by simp only [noRoom, hcap, hmax]
  have hstage : stageRegister c lead ov e =
      if (c'.lookup e.aliasId).isSome then (.duplicate, ov)
      else if c'.noRoom c'.usage e then (.overflow, ov)
      else (.ok, ov.push (.register e)) := by
    rw [← hroom, ← hl.live hc h, ← hl.project hc h]
    rfl
  have hresult := register_result c' e true
  rw [Bool.not_true, Bool.and_false, if_neg Bool.false_ne_true] at hresult
  rw [hstage]
  split_ifs at hresult ⊢ with hdup hfull
  · exact .inl ⟨_, .inl rfl, rfl, hresult⟩
  · exact .inl ⟨_, .inr rfl, rfl, hresult⟩
  · exact .inr ⟨by simp [Overlay.push, hlen], h.snoc (Prod.ext hresult rfl), hresult⟩

end Below

/-! ## Resolving a list of tokens -/

section Resolve

variable {σ : Type} {st : TokenStore σ} {I : σ → Prop} (maxTokens : ℕ) (alloc : ℕ → Bool)

variable {b : ℕ → Bool} {i : ℕ} {s : σ} {r : Resolved} {tok : AuthToken} {toks : List AuthToken}

theorem resolveTokens_ok {r' : Resolved}
    (h : (resolveToken st maxTokens (b i) s r tok).2 = .ok r') :
    resolveTokens st maxTokens b i s r (tok :: toks) =
      resolveTokens st maxTokens b (i + 1) (resolveToken st maxTokens (b i) s r tok).1 r' toks := by
  rw [resolveTokens, ← Prod.mk.eta (p := resolveToken st maxTokens (b i) s r tok), h]

theorem resolveTokens_error {f : AuthFailure}
    (h : (resolveToken st maxTokens (b i) s r tok).2 = .error f) :
    resolveTokens st maxTokens b i s r (tok :: toks) =
      ((resolveToken st maxTokens (b i) s r tok).1, .error f) := by
  rw [resolveTokens, ← Prod.mk.eta (p := resolveToken st maxTokens (b i) s r tok), h]

/-- A token leaves the store, or deletes or registers there once. -/
theorem resolveToken_store (hs : I s) (hdelete : ∀ a s', st.delete s a = some s' → I s')
    (hregister : ∀ e b, I (st.register s e b).2) (b : Bool) (r : Resolved) (tok : AuthToken) :
    I (resolveToken st maxTokens b s r tok).1 := by
  unfold resolveToken
  split
  · split
    · exact hdelete _ _ ‹_›
    · exact hs
  · exact hregister tok.entry b
  · split_ifs
    · exact hs
    · split
      · exact hs
      · split_ifs <;> exact hs
  · exact hs

/-- What deletes and registers keep, resolving keeps. -/
theorem resolve_inv (hdelete : ∀ s a s', I s → st.delete s a = some s' → I s')
    (hregister : ∀ s e b, I s → I (st.register s e b).2) (toks : List AuthToken) :
    ∀ (i : ℕ) (s : σ) (r : Resolved), I s → I (resolveTokens st maxTokens alloc i s r toks).1 := by
  induction toks with
  | nil => exact fun _ _ _ hs => hs
  | cons tok toks ih =>
    intro i s r hs
    have htok := resolveToken_store maxTokens hs (hdelete s · · hs) (hregister s · · hs) (alloc i) r
      tok
    cases hnext : (resolveToken st maxTokens (alloc i) s r tok).2 with
    | ok r' => rw [resolveTokens_ok maxTokens hnext]; exact ih _ _ _ htok
    | error f => rw [resolveTokens_error maxTokens hnext]; exact htok

/-- A token runs out of memory only if its allocation failed. -/
theorem resolveToken_nomem (hregister : ∀ s e, (st.register s e true).1 ≠ .nomem) (s : σ)
    (r : Resolved) (tok : AuthToken) :
    (resolveToken st maxTokens true s r tok).2 ≠ .error .nomem := by
  have hreg := hregister s tok.entry
  unfold resolveToken
  split
  · split <;> simp
  · change registerOutcome maxTokens r tok (st.register s tok.entry true).1 ≠ _
    cases hres : (st.register s tok.entry true).1 with
    | nomem => exact absurd hres hreg
    | _ => simp [registerOutcome]
  · split_ifs
    · simp
    · split <;> simp
  · simp

theorem resolve_nomem (hregister : ∀ s e, (st.register s e true).1 ≠ .nomem)
    (toks : List AuthToken) :
    ∀ (i : ℕ) (s : σ) (r : Resolved),
      (resolveTokens st maxTokens alloc i s r toks).2 = .error .nomem → ∃ j, alloc j = false := by
  induction toks with
  | nil => intro i s r h; simp [resolveTokens] at h
  | cons tok toks ih =>
    intro i s r h
    cases hi : alloc i with
    | false => exact ⟨i, hi⟩
    | true =>
      have htok := resolveToken_nomem maxTokens hregister s r tok
      rw [← hi] at htok
      cases hnext : (resolveToken st maxTokens (alloc i) s r tok).2 with
      | ok r' => rw [resolveTokens_ok maxTokens hnext] at h; exact ih _ _ _ h
      | error f =>
        rw [resolveTokens_error maxTokens hnext] at h
        exact absurd (hnext.trans h) htok

end Resolve

/-- An overlay grows by one entry at most. -/
theorem resolveToken_length (c : TokenCache) (lead : Option Overlay) (maxTokens : ℕ) (b : Bool)
    (ov : Overlay) (r : Resolved) (tok : AuthToken) :
    (resolveToken (txnStore c lead) maxTokens b ov r tok).1.length ≤ ov.length + 1 := by
  have hpush (e : OvEntry) : (ov.push e).length ≤ ov.length + 1 := by
    unfold Overlay.push
    split_ifs <;> simp
  refine resolveToken_store (I := fun ov' : Overlay => ov'.length ≤ ov.length + 1) maxTokens
    (Nat.le_succ _) ?_ ?_ b r tok
  · intro a ov' hov'
    simp only [txnStore] at hov'
    split_ifs at hov'
    exact Option.some.inj hov' ▸ hpush _
  · intro e b
    simp only [txnStore, stageRegister]
    split_ifs
    iterate 2 exact Nat.le_succ _
    · exact hpush _

theorem txnStore_register_ne (ov : Overlay) (e : TokenEntry) :
    ((txnStore c lead).register ov e true).1 ≠ .nomem := by
  simp only [txnStore, stageRegister]
  split_ifs <;> simp

theorem directStore_register_ne (c : TokenCache) (e : TokenEntry) :
    (directStore.register c e true).1 ≠ .nomem := by
  rw [show (directStore.register c e true).1 = _ from register_result c e true]
  split_ifs <;> simp_all

/-- A run over an overlay beside one over the cache it stands for: one of them is out of memory, or
they end alike. -/
def Agree (base : TokenCache) (p : Overlay × Except AuthFailure Resolved)
    (d : TokenCache × Except AuthFailure Resolved) : Prop :=
  p.2 = .error .nomem ∨ d.2 = .error .nomem ∨
    (∃ f, p.2 = .error f ∧ d.2 = .error f) ∨ ∃ r, p.2 = .ok r ∧ d.2 = .ok r ∧ Commits base p.1 d.1

section Resolve

variable (hc : c.Wf) (hl : Leads c lead base)
include hc hl

/-- **A transaction resolves a token as the cache does.** -/
theorem resolveToken_agree (h : Commits base ov c') (hlen : ov.length < cacheOverlayCap)
    (maxTokens : ℕ) (b b' : Bool) (r : Resolved) (tok : AuthToken) :
    Agree base (resolveToken (txnStore c lead) maxTokens b ov r tok)
      (resolveToken directStore maxTokens b' c' r tok) := by
  unfold resolveToken
  cases hop : tok.op with
  | delete =>
    obtain ⟨hp, hd⟩ | ⟨c'', hp, hd, hcommit⟩ := delete_commits hc hl h hlen tok.aliasId
    · simp only [hp, hd]
      exact .inr (.inr (.inr ⟨_, rfl, rfl, h⟩))
    · simp only [hp, hd]
      exact .inr (.inr (.inr ⟨_, rfl, rfl, hcommit⟩))
  | register =>
    obtain hmem | heq := register_alloc c' tok.entry b'
    · exact .inr (.inl (congrArg (registerOutcome maxTokens r tok) hmem))
    · have hdirect : directStore.register c' tok.entry b' = c'.register tok.entry true := heq
      have hstaged :
          (txnStore c lead).register ov tok.entry b = stageRegister c lead ov tok.entry := rfl
      obtain ⟨res, hcases, hstage, hres⟩ | ⟨hstage, hcommit, hok⟩ :=
        register_commits hc hl h hlen tok.entry
      · simp only [hdirect, hstaged, hstage, hres]
        obtain rfl | rfl := hcases <;> exact .inr (.inr (.inl ⟨_, rfl, rfl⟩))
      · simp only [hdirect, hstaged, hstage, hok]
        exact .inr (.inr (.inr ⟨_, rfl, rfl, hcommit⟩))
  | useAlias =>
    have hlook : (txnStore c lead).lookup ov tok.aliasId = directStore.lookup c' tok.aliasId :=
      hl.live hc h tok.aliasId
    simp only [hlook]
    split_ifs
    · exact .inr (.inr (.inr ⟨_, rfl, rfl, h⟩))
    · cases directStore.lookup c' tok.aliasId with
      | none => exact .inr (.inr (.inr ⟨_, rfl, rfl, h⟩))
      | some e =>
        dsimp only
        split_ifs
        · exact .inl rfl
        · exact .inl rfl
        · exact .inr (.inl rfl)
        · exact .inr (.inr (.inr ⟨_, rfl, rfl, h⟩))
  | useValue => exact .inr (.inr (.inr ⟨_, rfl, rfl, h⟩))

/-- An overlay grows by what succeeds, or not at all. -/
theorem resolve_commits (maxTokens : ℕ) (alloc : ℕ → Bool) (toks : List AuthToken) :
    ∃ c', Commits base (resolveTokens (txnStore c lead) maxTokens alloc 0 [] {} toks).1 c' := by
  refine resolve_inv (I := fun ov => ∃ c', Commits base ov c') maxTokens alloc ?_ ?_ toks 0 [] {}
    ⟨base, .nil⟩
  · rintro ov a ov' ⟨c', h⟩ hov'
    by_cases hlen : ov.length < cacheOverlayCap
    · obtain ⟨hp, -⟩ | ⟨c'', hp, -, hcommit⟩ := delete_commits hc hl h hlen a
      · simp [hp] at hov'
      · cases hp.symm.trans hov'
        exact ⟨c'', hcommit⟩
    · have hfull : ov = ov' := by
        simp only [txnStore, Overlay.push, hlen, if_false] at hov'
        split_ifs at hov'
        exact Option.some.inj hov'
      exact hfull ▸ ⟨c', h⟩
  · rintro ov e - ⟨c', h⟩
    by_cases hlen : ov.length < cacheOverlayCap
    · change ∃ c', Commits base (stageRegister c lead ov e).2 c'
      obtain ⟨res, -, hstage, -⟩ | ⟨hstage, hcommit, -⟩ := register_commits hc hl h hlen e
      · exact ⟨c', by rwa [hstage]⟩
      · exact ⟨_, by rwa [hstage]⟩
    · have hfull : (stageRegister c lead ov e).2 = ov := by
        simp only [stageRegister, Overlay.push, hlen, if_false]
        split_ifs <;> rfl
      exact ⟨c', hfull.symm ▸ h⟩

/-- **A transaction resolves a list of tokens as the cache does.** -/
theorem resolveTokens_agree (maxTokens : ℕ) (alloc alloc' : ℕ → Bool) (toks : List AuthToken) :
    ∀ (i : ℕ) (ov : Overlay) (c' : TokenCache) (r : Resolved), Commits base ov c' →
      ov.length + toks.length ≤ cacheOverlayCap →
      Agree base (resolveTokens (txnStore c lead) maxTokens alloc i ov r toks)
        (resolveTokens directStore maxTokens alloc' i c' r toks) := by
  induction toks with
  | nil => exact fun _ _ _ r h _ => .inr (.inr (.inr ⟨r, rfl, rfl, h⟩))
  | cons tok toks ih =>
    intro i ov c' r h hlen
    rw [length_cons] at hlen
    have hgrow := resolveToken_length c lead maxTokens (alloc i) ov r tok
    obtain hmem | hmem | ⟨f, hp, hd⟩ | ⟨r', hp, hd, hcommit⟩ :=
      resolveToken_agree hc hl h (by omega) maxTokens (alloc i) (alloc' i) r tok
    · exact .inl (by rw [resolveTokens_error maxTokens hmem])
    · exact .inr (.inl (by rw [resolveTokens_error maxTokens hmem]))
    · refine .inr (.inr (.inl ⟨f, ?_, ?_⟩))
      · rw [resolveTokens_error maxTokens hp]
      · rw [resolveTokens_error maxTokens hd]
    · rw [resolveTokens_ok maxTokens hp, resolveTokens_ok maxTokens hd]
      exact ih (i + 1) _ _ r' hcommit (by omega)

end Resolve

/-! ## Preparing, committing, and runs -/

/-- The cache a transaction starts from: the session's, with the one prepared before committed. -/
def TokenCache.after (c : TokenCache) : Option Overlay → TokenCache
  | none => c
  | some lead => c.commit lead

/-- A transaction comes first, or after one that was prepared on the cache. -/
def PreparedLead (c : TokenCache) : Option Overlay → Prop
  | none => True
  | some lead =>
    ∃ maxTokens alloc own toks r, prepareTxn c none maxTokens alloc own toks = .ok (lead, r)

/-- How preparing ends, from how resolving ended. -/
theorem prepareTxn_cases (c : TokenCache) (lead : Option Overlay) (maxTokens : ℕ)
    (alloc own : ℕ → Bool) (toks : List AuthToken) :
    let p := resolveTokens (txnStore c lead) maxTokens alloc 0 [] {} toks
    (∃ f, p.2 = .error f ∧ prepareTxn c lead maxTokens alloc own toks = .error f) ∨
      ∃ r, p.2 = .ok r ∧
        (prepareTxn c lead maxTokens alloc own toks = .ok (p.1, r) ∨
          prepareTxn c lead maxTokens alloc own toks = .error .nomem ∧ ∃ i, own i = false) := by
  rcases hp : resolveTokens (txnStore c lead) maxTokens alloc 0 [] {} toks with ⟨ov, f | r⟩
  · exact .inl ⟨f, rfl, by simp [prepareTxn, hp]⟩
  · refine .inr ⟨r, rfl, ?_⟩
    cases hown : ownValues own ov with
    | true => exact .inl (by simp [prepareTxn, hp, hown])
    | false =>
      refine .inr ⟨by simp [prepareTxn, hp, hown], ?_⟩
      by_contra hall
      simp only [not_exists, Bool.not_eq_false] at hall
      simp [ownValues, hall] at hown

theorem PreparedLead.leads (hc : c.Wf) (h : PreparedLead c lead) : Leads c lead (c.after lead) := by
  cases lead with
  | none => rfl
  | some lead =>
    obtain ⟨maxTokens, alloc, own, toks, r, hready⟩ := h
    have hnone : Leads c none c := rfl
    obtain ⟨c', hcommit⟩ := resolve_commits hc hnone maxTokens alloc toks
    obtain ⟨f, -, hp⟩ | ⟨r', -, hp | ⟨hp, -⟩⟩ := prepareTxn_cases c none maxTokens alloc own toks
    · exact absurd (hp.symm.trans hready) (by simp)
    · obtain ⟨rfl, -⟩ : _ = lead ∧ r' = r := by simpa using hp.symm.trans hready
      rwa [TokenCache.after, hcommit.commit_eq]
    · exact absurd (hp.symm.trans hready) (by simp)

section Step

variable {I : TokenCache → Prop} (hregister : ∀ c e alloc, I c → I (c.register e alloc).2)
  (hdelete : ∀ c a, I c → I (c.delete a).2)
include hregister hdelete

theorem settle_inv (hI : I c) (commit : Bool) (ov : Overlay) : I (c.settle commit ov) := by
  cases commit with
  | false => exact hI
  | true =>
    refine run_inv (I := I) (fun c e hI => ?_) ov hI
    cases e with
    | register e => exact hregister c e true hI
    | delete a => exact hdelete c a hI

/-- What registers and deletes keep, every step keeps. -/
theorem step_inv (hI : I c) (step : TokenStep) : I (c.step step) := by
  cases step with
  | register e alloc => exact hregister c e alloc hI
  | delete a => exact hdelete c a hI
  | process maxTokens alloc toks =>
    refine resolve_inv maxTokens alloc (fun c a c' hI hdel => ?_) hregister toks 0 c {} hI
    have hkeep := hdelete c a hI
    simp only [directStore] at hdel
    split at hdel <;> simp_all
  | transact commit maxTokens alloc own toks =>
    simp only [TokenCache.step]
    split
    · exact settle_inv hregister hdelete hI commit _
    · exact hI
  | transactAfter commit commit' maxTokens alloc own alloc' own' first toks =>
    simp only [TokenCache.step]
    split
    · split
      · exact settle_inv hregister hdelete (settle_inv hregister hdelete hI commit _) _ _
      · exact hI
    · exact hI

end Step

/-- **Every reachable cache is well formed**, and keeps its maximum. -/
theorem tokenCacheRun_wf (maxBytes : UInt64) (maxEntries : ℕ) (steps : List TokenStep) :
    (tokenCacheRun maxBytes maxEntries steps).Wf ∧
      (tokenCacheRun maxBytes maxEntries steps).maxBytes = maxBytes := by
  have hempty : occupied (TokenCache.init maxBytes maxEntries).entries = [] := by
    simp [TokenCache.init, occupied]
  refine run_inv (I := fun c : TokenCache => c.Wf ∧ c.maxBytes = maxBytes)
    (fun c step hI => step_inv (I := fun c => c.Wf ∧ c.maxBytes = maxBytes) ?_ ?_ hI step) steps
    ⟨⟨by simp [hempty], by rw [hempty]; rfl, UInt64.zero_le⟩, rfl⟩
  · exact fun c e alloc ⟨hc, hmax⟩ =>
      ⟨(register_keeps hc e alloc).wf, (register_keeps hc e alloc).max.trans hmax⟩
  · exact fun c a ⟨hc, hmax⟩ => ⟨(delete_keeps hc a).wf, (delete_keeps hc a).max.trans hmax⟩

/-- **A transaction is the direct processing, postponed.**  In every reachable cache aliases are
unique and the bytes used are what the entries cost, within the maximum; and every list an overlay
can hold, prepared first or after another, ends as the direct processing does.  Then every entry
succeeds at commit, which gives the cache of the direct processing, and what was projected is what
that cache uses.  Memory apart: either way of processing gives up only if an allocation fails. -/
theorem prepared_txn_eq_direct (maxBytes : UInt64) (maxEntries : ℕ) (steps : List TokenStep) :
    let c := tokenCacheRun maxBytes maxEntries steps
    (c.Wf ∧ c.maxBytes = maxBytes) ∧
      ∀ lead, PreparedLead c lead → ∀ maxTokens alloc own alloc' (toks : List AuthToken),
        toks.length ≤ cacheOverlayCap →
        let base := c.after lead
        let direct := processTokens maxTokens alloc' base toks
        let starved := direct.2 = .error .nomem ∧ ∃ i, alloc' i = false
        match prepareTxn c lead maxTokens alloc own toks with
        | .error .nomem => ∃ i, alloc i = false ∨ own i = false
        | .error f => direct.2 = .error f ∨ starved
        | .ok (ov, r) =>
          (direct = (base.commit ov, .ok r) ∨ starved) ∧
            (∀ res ∈ base.commitResults ov, res = .ok) ∧
            ovProjectAfter c lead ov = (base.commit ov).usage ∧ base.abort ov = base := by
  intro c
  have hc := tokenCacheRun_wf maxBytes maxEntries steps
  refine ⟨hc, fun lead hlead maxTokens alloc own alloc' toks hlen => ?_⟩
  intro base direct starved
  have hl : Leads c lead base := hlead.leads hc.1
  have hagree := resolveTokens_agree hc.1 hl maxTokens alloc alloc' toks 0 [] base {} .nil
    (by simpa using hlen)
  have hstarved (h : direct.2 = .error .nomem) : starved :=
    ⟨h, resolve_nomem maxTokens alloc' directStore_register_ne toks 0 base {} h⟩
  obtain ⟨f, hp, hprepare⟩ | ⟨r, hp, hprepare | ⟨hprepare, i, hi⟩⟩ :=
    prepareTxn_cases c lead maxTokens alloc own toks
  · rw [hprepare]
    cases f with
    | nomem =>
      obtain ⟨i, hi⟩ := resolve_nomem maxTokens alloc txnStore_register_ne toks 0 [] {} hp
      exact ⟨i, .inl hi⟩
    | closed code reason =>
      obtain hmem | hmem | ⟨f, hf, hd⟩ | ⟨r, hr, -⟩ := hagree
      · exact absurd (hp.symm.trans hmem) (by simp)
      · exact .inr (hstarved hmem)
      · exact .inl (hd.trans (hf.symm.trans hp))
      · exact absurd (hp.symm.trans hr) (by simp)
  · rw [hprepare]
    obtain ⟨c', hcommit⟩ := resolve_commits hc.1 hl maxTokens alloc toks
    refine ⟨?_, hcommit.results, ?_, rfl⟩
    · obtain hmem | hmem | ⟨f, hf, -⟩ | ⟨r', hr, hd, hcommit⟩ := hagree
      · exact absurd (hp.symm.trans hmem) (by simp)
      · exact .inr (hstarved hmem)
      · exact absurd (hp.symm.trans hf) (by simp)
      · obtain rfl : r = r' := by simpa using hp.symm.trans hr
        exact .inl (Prod.ext hcommit.commit_eq.symm hd)
    · rw [hcommit.commit_eq]
      exact hl.project hc.1 hcommit
  · rw [hprepare]
    exact ⟨i, .inr hi⟩

/-- After a register that was prepared and not yet committed, its alias can be used. -/
example : let c := TokenCache.init 100 2
    let value : Rcbuf := ⟨[7], 1, rfl⟩
    ∃ lead, PreparedLead c (some lead) ∧ lead ≠ [] ∧
      (prepareTxn c (some lead) 4 (fun _ => true) (fun _ => true)
        [⟨.useAlias, 5, 0, value⟩]).toBool := by
  refine ⟨_, ⟨4, fun _ => true, fun _ => true, [⟨.register, 5, 0, ⟨[7], 1, rfl⟩⟩], _, rfl⟩, ?_, ?_⟩
  · decide
  · decide +kernel

/-- **The cache is a map by alias.**  In every reachable cache a register or delete that succeeds
sets or clears its alias alone, and one that fails changes nothing. -/
theorem tokenCache_map (maxBytes : UInt64) (maxEntries : ℕ) (steps : List TokenStep) (e : OvEntry) :
    let c := tokenCacheRun maxBytes maxEntries steps
    ((c.apply e).1 = .ok → (c.apply e).2.lookup = Function.update c.lookup e.aliasId e.result) ∧
      ((c.apply e).1 ≠ .ok → (c.apply e).2 = c) := by
  intro c
  have hc := (tokenCacheRun_wf maxBytes maxEntries steps).1
  refine ⟨fun hok => funext fun a => ?_, fun hne => ?_⟩
  · rw [Function.update_apply]
    exact (applied_of_ok hc (Prod.ext hok rfl)).lookup a
  · cases e with
    | register e => exact ((register_cases c e true).resolve_right fun h => hne h.1).2
    | delete a =>
      obtain ⟨-, heq⟩ | ⟨_, c', -, -, heq, -⟩ := delete_cases hc a
      · exact congrArg Prod.snd heq
      · exact absurd (congrArg Prod.fst heq) hne

end MoqRelay
