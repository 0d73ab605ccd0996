import MoqRelay.Fetch.Cover

/-!
# Fetch/Drive — driving a fetch accounts for every Location of its range

A caller drives a fetch: peek, commit, and again, until the item that finishes.  `turn` says what
one peek and commit do from the place where the cursor stands: finish, with nothing left that could
exist; hand out an item that accounts for the Locations up to its own and move right past it; or be
refused, by the pin budget or an allocation, and stand where it stood.  A whole drive is the
sequence of such turns (`Fetch.Accounts`).
-/

namespace MoqRelay

open List

/-- `fetch_pin_cap`: the configured bytes, floored to the byte budget of a track's log. -/
def fetchPinCap (pinBytes : UInt64) (lim : LogLimits) : UInt64 :=
  if pinBytes < lim.maxBytes then lim.maxBytes else pinBytes

theorem le_fetchPinCap (pinBytes : UInt64) (lim : LogLimits) :
    lim.maxBytes ≤ fetchPinCap pinBytes lim := by
  unfold fetchPinCap
  split
  · exact UInt64.le_refl _
  · rename_i h
    exact UInt64.not_lt.mp h

/-- An environment that refuses no peek: nothing else is pinned, and allocations succeed. -/
def PeekEnv.grants (env : PeekEnv) : Bool := env.pinUsed = 0 && env.memTmp && env.memBuf

/-! ## Serving -/

variable {log : Log} {t : Track} {f : Fetch} {env : PeekEnv} {r : Rec} {pinCap : UInt64}

variable {maxBytes : UInt64} {l : List ℕ}

/-- A chunked object coalesces: its chain is there, and its bytes are the declared ones. -/
theorem coalesceFrom_eq (h : r.Stores log.pool maxBytes l) :
    ∀ (n i : ℕ) (tmp : Bytes), n + i = l.length → ∃ out,
      coalesceFrom log r n i ((l.take i).map log.pool.len).sum tmp
        = some ((l.map log.pool.len).sum, out)
  | 0, i, tmp, hi => ⟨tmp, by rw [coalesceFrom, take_of_length_le (by omega)]⟩
  | n + 1, i, tmp, hi => by
      obtain ⟨node, hnode, hview⟩ := Log.viewChunk_eq h (show i < l.length by omega)
      have hsum : ((l.take i).map log.pool.len).sum + log.pool.len node
          = ((l.take (i + 1)).map log.pool.len).sum := by
        rw [take_add_one, hnode]
        simp
      obtain ⟨out, hout⟩ := coalesceFrom_eq h n (i + 1)
        (tmp ++ ((log.pool.nodes node).buf.map Rcbuf.data).getD []) (by omega)
      refine ⟨out, ?_⟩
      rw [coalesceFrom, hview]
      dsimp only
      rwa [hsum, if_neg (UInt64.not_lt.mpr (h.upTo (i + 1)))]

theorem fetchCoalesceChunks_eq (env : PeekEnv)
    (h : r.Stores log.pool maxBytes l) (hc : r.objState = .complete) (hl : l ≠ []) :
    (∃ out, fetchCoalesceChunks log r env = .ok out) ∨
      fetchCoalesceChunks log r env = .error .nomem ∧ env.grants = false := by
  have hgr : ∀ b, env.memTmp = b ∨ env.memBuf = b → b = false → env.grants = false := by
    rintro b (hb | hb) rfl <;> simp [PeekEnv.grants, hb]
  unfold fetchCoalesceChunks
  split
  · rename_i hm
    exact .inr ⟨rfl, hgr _ (.inl rfl) (by simpa using hm.2)⟩
  · obtain ⟨out, hout⟩ := coalesceFrom_eq h l.length 0 [] rfl
    have htotal : (l.map log.pool.len).sum = r.declaredLen :=
      (h.sum (h.bare (.inr hl))).symm.trans (h.whole hc hl)
    rw [h.count]
    simp only [take_zero, map_nil, sum_nil] at hout
    simp only [hout, htotal, ne_eq, not_true_eq_false, if_false]
    cases hb : env.memBuf with
    | true => exact .inl ⟨out, by simp⟩
    | false => exact .inr ⟨by simp, hgr _ (.inr rfl) hb⟩

/-- **Serving a complete record** succeeds, or waits for pins or memory. -/
theorem Fetch.serve_cases (env : PeekEnv) (h : r.Stores log.pool maxBytes l)
    (hc : r.objState = .complete) (hcap : maxBytes ≤ pinCap) :
    (∃ payload bytes, f.serve log r pinCap env
        = (.ok, some (.object (f.hold r payload bytes).heldObject), f.hold r payload bytes)) ∨
      ∃ rc, f.serve log r pinCap env = (rc, none, f) ∧ rc ≠ .ok ∧ env.grants = false := by
  have hfit : r.pinSize ≤ maxBytes := by
    unfold Rec.pinSize
    split
    · rename_i hpos
      exact h.chunked_le (.inr fun hl => by rw [h.count, hl] at hpos; simp at hpos)
    · exact h.payload_le hc (length_eq_zero_iff.mp (by rw [← h.count]; omega))
  unfold Fetch.serve
  rw [if_neg (UInt64.not_lt.mpr (UInt64.le_trans hfit hcap))]
  by_cases hpin : pinCap < env.pinUsed + r.pinSize
  · rw [if_pos hpin]
    refine .inr ⟨.wouldBlock, rfl, nofun, Bool.eq_false_iff.mpr fun hg => ?_⟩
    simp only [PeekEnv.grants, Bool.and_eq_true, decide_eq_true_eq] at hg
    rw [hg.1.1, UInt64.zero_add] at hpin
    exact absurd (UInt64.le_trans hfit hcap) (UInt64.not_le.mpr hpin)
  · rw [if_neg hpin]
    unfold fetchPayload
    by_cases hpos : 0 < r.chunkCount
    · have hl : l ≠ [] := fun hl => by rw [h.count, hl] at hpos; cases hpos
      rw [if_pos hpos]
      rcases fetchCoalesceChunks_eq env h hc hl with ⟨out, hout⟩ | ⟨hout, hg⟩
      · rw [hout]
        exact .inl ⟨_, _, rfl⟩
      · rw [hout]
        exact .inr ⟨.nomem, rfl, nofun, hg⟩
    · rw [if_neg hpos]
      exact .inl ⟨_, _, rfl⟩

/-! ## One peek -/

/-- The Location an item ends at; a marker ends right before its group. -/
def FetchItem.last? : FetchItem → Option (ℕ × ℕ)
  | .object v => some (v.groupId, v.objectId)
  | .finish => none
  | .marker g => some (g - 1, u64Max)
  | .gap g o | .unknown g o | .pending g o => some (g, o)

/-- An object item at a record's Location. -/
def FetchItem.serves (r : Rec) : FetchItem → Bool
  | .object v => v.groupId = r.groupId && v.objectId = r.objectId
  | _ => false

/-- The runs: what an item reports as a gap, as unknown, or as evicted before the log. -/
def FetchItem.isRun : FetchItem → Bool
  | .marker _ | .gap _ _ | .unknown _ _ => true
  | _ => false

theorem FetchItem.last?_of_serves {item : FetchItem} (h : item.serves r) :
    item.last? = some (r.groupId, r.objectId) := by
  cases item with
  | object v =>
    simp only [serves, Bool.and_eq_true, decide_eq_true_eq] at h
    rw [last?, h.1, h.2]
  | _ => simp [serves] at h

/-- An object of the log that a fetch serves: whole, and not expired from the cache. -/
def Track.Servable (t : Track) (nowUs : ℕ) (r : Rec) : Prop :=
  r.status = .normal ∧ r.objState = .complete ∧ t.recExpired r.arrivalUs nowUs = false

/-- **What an item says about the Locations from `lo` to `hi`**, its own being `hi`.  An object and
a pending one stand at their Location with nothing before them; a run or a marker passes over
nothing that could be served; the end leaves nothing. -/
def FetchItem.Tells (t : Track) (nowUs lo hi : ℕ) : FetchItem → Prop
  | .object v => t.log.AbsentBetween lo hi ∧ ∃ r ∈ t.log.allRecs, t.Servable nowUs r ∧
      r.locNum = hi ∧ v.groupId = r.groupId ∧ v.objectId = r.objectId ∧
      v.subgroupId = r.subgroupId
  | .pending _ _ => t.log.AbsentBetween lo hi ∧ ∃ r ∈ t.log.allRecs, r.status = .normal ∧
      r.objState = .open ∧ r.locNum = hi
  | .marker _ | .gap _ _ | .unknown _ _ => ∀ r ∈ t.log.allRecs, t.Servable nowUs r →
      ¬ (lo ≤ r.locNum ∧ r.locNum ≤ hi)
  | .finish => t.log.AbsentBetween lo (hi + 1)

/-- An item that accounts for the Locations from `lo` to its own, `l`, after which the cursor can
stand. -/
structure FetchItem.Reaches (t : Track) (nowUs lo stop : ℕ) (item : FetchItem) (l : ℕ × ℕ) :
    Prop where
  last : item.last? = some l
  object_le : l.2 ≤ u64Max
  ge : lo ≤ locNum l
  le : locNum l ≤ stop
  stands : locNum l + 1 ∈ t.log.breaks stop
  tells : item.Tells t nowUs lo (locNum l)

/-- A fetch that walks: in place, reporting everything, holding nothing, on its live track. -/
structure Fetch.Walking (t : Track) (f : Fetch) : Prop where
  placed : f.Placed
  gaps : f.reportGaps
  unknown : f.reportUnknown
  pending : f.reportPending
  exhausted : f.exhausted = false
  outActive : f.outActive = false
  track : t.gen = f.trackGenSlot
  horizon : f.retrievalOwner ∨ t.log.groups = [] ∨ t.log.oldestGroupId ≤ f.curGroup

/-- The fetch remembers the Location `(g, o)` of the item it handed out. -/
def Fetch.Offers (f f' : Fetch) (g o : ℕ) : Prop :=
  f' = f.report g o ∨ ∃ r payload bytes, f' = f.hold r payload bytes ∧ r.groupId = g ∧
    r.objectId = o

/-- What the log has to satisfy: its own invariant and its storage. -/
structure Fetch.Holds (t : Track) (pinCap : UInt64) : Prop where
  wf : t.log.Wf
  stored : ∃ free chain, t.log.Stored free chain
  live : t.gen % 2 = 1
  cap : t.log.lim.maxBytes ≤ pinCap

theorem Fetch.Holds.object_le (h : Fetch.Holds t pinCap) :
    ∀ r ∈ t.log.allRecs, r.objectId ≤ u64Max := fun r hr => by
  obtain ⟨_, _, hst⟩ := h.stored
  exact (hst.stores r hr).object_le

/-- The outcome of a peek: the end, an item, or a refusal that changes nothing. -/
inductive Fetch.Peeked (t : Track) (f : Fetch) (env : PeekEnv) :
    Result × Option FetchItem × Fetch → Prop
  | finish (h : FetchItem.finish.Tells t env.nowUs f.pos f.stop) :
      Peeked t f env (.ok, some .finish, f)
  | item {item : FetchItem} {f' : Fetch} {g o : ℕ}
      (h : item.Reaches t env.nowUs f.pos f.stop (g, o))
      (hf : f.Offers f' g o) : Peeked t f env (.ok, some item, f')
  | refused {rc : Result} (hrc : rc ≠ .ok) (hg : env.grants = false) : Peeked t f env (rc, none, f)

namespace Fetch

theorem FirstOf.exists_le {p : Rec → Bool} {v : Option Rec} (h : FirstOf log.allRecs f p v)
    (hr : r ∈ log.allRecs) (hp : p r) (h1 : f.pos ≤ r.locNum) (h2 : r.locNum ≤ f.stop) :
    ∃ x ∈ v, x.locNum ≤ r.locNum := by
  cases v with
  | none => exact absurd ⟨h1, h2⟩ (h r hr hp)
  | some v => exact ⟨v, rfl, h.2 r hr hp h1 h2⟩

/-- The pending record when it comes first, else the next to serve, is not after either. -/
theorem exists_first_le {next pending : Option Rec} {v : Rec} (hlt : ∀ p ∈ pending, ∀ v ∈ next,
      locLt (p.groupId, p.objectId) (v.groupId, v.objectId) ↔ p.locNum < v.locNum)
    (hv : v ∈ pending ∨ v ∈ next) :
    ∃ x ∈ (pending.filter fun p => next.all fun v =>
      locLt (p.groupId, p.objectId) (v.groupId, v.objectId)).or next, x.locNum ≤ v.locNum := by
  rcases pending with - | p
  · exact ⟨v, by simpa using hv, le_rfl⟩
  rcases next with - | n
  · exact ⟨v, by simpa using hv, le_rfl⟩
  cases h : locLt (p.groupId, p.objectId) (n.groupId, n.objectId) <;>
    simp [Option.filter_some, h] at hlt hv ⊢ <;> rcases hv with rfl | rfl <;> omega

/-- The bound a peek works with: the pending object when it comes first, else the next to serve. -/
theorem bound_of_scans (hw : t.log.Wf) (h64 : ∀ r ∈ t.log.allRecs, r.objectId ≤ u64Max)
    (hf : f.Placed) (nowUs : ℕ) :
    Bound t.log f t nowUs ((((f.scanPending t.log).filter fun p => (f.scanNext t.log t nowUs).all
      fun v => locLt (p.groupId, p.objectId) (v.groupId, v.objectId)).or
        (f.scanNext t.log t nowUs)).map fun v => (v.groupId, v.objectId)) := by
  have hnext : FirstOf t.log.allRecs f _ (f.scanNext t.log t nowUs) := scan_spec hw h64 hf _
  have hpend : FirstOf t.log.allRecs f _ (f.scanPending t.log) := scan_spec hw h64 hf _
  generalize f.scanNext t.log t nowUs = next at hnext
  generalize f.scanPending t.log = pending at hpend
  have hmem : ∀ v, v ∈ pending ∨ v ∈ next →
      v ∈ t.log.allRecs ∧ f.pos ≤ v.locNum ∧ v.locNum ≤ f.stop := by
    rintro v (rfl | rfl)
    · exact ⟨hpend.1.1, hpend.1.2.2⟩
    · exact ⟨hnext.1.1, hnext.1.2.2⟩
  constructor
  · intro l hl
    obtain ⟨v, hv, rfl⟩ := Option.map_eq_some_iff.mp hl
    have hfrom : v ∈ pending ∨ v ∈ next := (Option.or_eq_some_iff.mp hv).imp
      (fun h => (Option.filter_eq_some_iff.mp h).1) And.right
    exact ⟨⟨v, (hmem v hfrom).1, rfl⟩, h64 v (hmem v hfrom).1, (hmem v hfrom).2⟩
  · rintro r hr ⟨hst, hkind⟩ h1 h2
    -- what is awaited is not before what one of the scans found
    obtain ⟨v, hv, hle⟩ : ∃ v, (v ∈ pending ∨ v ∈ next) ∧ v.locNum ≤ r.locNum := by
      rcases hkind with ⟨hc, he⟩ | ho
      · obtain ⟨v, hv, hle⟩ := hnext.exists_le hr (by simp [hst, hc, he]) h1 h2
        exact ⟨v, .inr hv, hle⟩
      · obtain ⟨v, hv, hle⟩ := hpend.exists_le hr (by simp [hst, ho]) h1 h2
        exact ⟨v, .inl hv, hle⟩
    obtain ⟨x, hx, hle'⟩ := exists_first_le (fun p hp v hv =>
      locLt_iff (h64 p (hmem p (.inl hp)).1) (h64 v (hmem v (.inr hv)).1)) hv
    exact ⟨_, Option.mem_map_of_mem _ hx, hle'.trans hle⟩

/-- **The next item of a walking fetch.** -/
theorem peekNext_peeked (env : PeekEnv) (h : Holds t pinCap) (hf : f.Walking t) :
    Peeked t f env (f.peekNext t.log t pinCap env) := by
  have h64 := h.object_le
  have hb := bound_of_scans h.wf h64 hf.placed env.nowUs
  have hrun := runBefore_spec h.wf h64 hf.placed hb
  have hlimit := hb.limit_le
  have hnext : FirstOf t.log.allRecs f _ (f.scanNext t.log t env.nowUs) :=
    scan_spec h.wf h64 hf.placed _
  have hpend : FirstOf t.log.allRecs f _ (f.scanPending t.log) := scan_spec h.wf h64 hf.placed _
  unfold peekNext
  simp only [hf.gaps, if_true, hf.pending]
  generalize hx : ((((f.scanPending t.log).filter fun p => (f.scanNext t.log t env.nowUs).all
    fun v => locLt (p.groupId, p.objectId) (v.groupId, v.objectId)).or
      (f.scanNext t.log t env.nowUs)).map fun v => (v.groupId, v.objectId)) = x at hb hrun hlimit ⊢
  -- Below the limit nothing can be served.
  have hclear : ∀ g o, locNum (g, o) < f.limit x → ∀ r ∈ t.log.allRecs, t.Servable env.nowUs r →
      ¬ (f.pos ≤ r.locNum ∧ r.locNum ≤ locNum (g, o)) := by
    intro g o hlt r hr hs hin
    obtain ⟨l, hl, hle⟩ := hb.first r hr ⟨hs.1, .inl hs.2⟩ hin.1 (by omega)
    rw [hl, limit] at hlt
    omega
  cases hr : f.runBefore t.log t env.nowUs x with
  | hole g o | unknown g o =>
    rw [hr] at hrun
    obtain ⟨ho, hge, hlt, hbr⟩ := hrun
    exact .item ⟨rfl, ho, hge, by omega, hbr, hclear g o hlt⟩ (.inl rfl)
  | none =>
    rw [hr] at hrun
    replace hrun := hrun hf.unknown
    cases hp : (f.scanPending t.log).filter fun p => (f.scanNext t.log t env.nowUs).all
        fun v => locLt (p.groupId, p.objectId) (v.groupId, v.objectId) with
    | some p =>
      rw [hp] at hx
      rw [(Option.filter_eq_some_iff.mp hp).1] at hpend
      obtain ⟨⟨hpm, hpp, hp1, hp2⟩, -⟩ := hpend
      simp only [Bool.and_eq_true, decide_eq_true_eq] at hpp
      rw [← hx] at hrun
      exact .item ⟨rfl, h64 p hpm, hp1, hp2, Log.mem_breaks.mpr (.inl ⟨p, hpm, .inr rfl⟩),
        hrun, p, hpm, hpp.1, hpp.2, rfl⟩ (.inl rfl)
    | none =>
      rw [hp] at hx
      cases hn : f.scanNext t.log t env.nowUs with
      | none =>
        rw [hn] at hx
        rw [← hx] at hrun
        exact .finish hrun
      | some v =>
        rw [hn] at hx
        rw [hn] at hnext
        obtain ⟨⟨hvm, hvp, hv1, hv2⟩, -⟩ := hnext
        simp only [Bool.and_eq_true, decide_eq_true_eq, Bool.not_eq_true'] at hvp
        rw [← hx] at hrun
        obtain ⟨free, chain, hst⟩ := h.stored
        rcases serve_cases (f := f) env (hst.stores v hvm) hvp.1.2 h.cap with
          ⟨payload, bytes, hs⟩ | ⟨rc, hs, hrc, hg⟩
        · dsimp only
          rw [hs]
          exact .item ⟨rfl, h64 v hvm, hv1, hv2, Log.mem_breaks.mpr (.inl ⟨v, hvm, .inr rfl⟩),
            hrun, v, hvm, ⟨hvp.1.1, hvp.1.2, hvp.2⟩, rfl, rfl, rfl, rfl⟩
            (.inr ⟨v, payload, bytes, rfl, rfl, rfl⟩)
        · dsimp only
          rw [hs]
          exact .refused hrc hg

/-! ## One turn -/

/-- **Where a fetch stands**, `p` being the first Location it has not accounted for: past its range,
walking from its cursor, or before the marker of an evicted part. -/
inductive At (t : Track) (stop : ℕ) : Fetch → ℕ → Prop
  | done {f : Fetch} (hex : f.exhausted) : At t stop f (stop + 1)
  | walk {f : Fetch} (h : f.Walking t) (hm : f.leadMarker = false) (hs : f.stop = stop) :
      At t stop f f.pos
  | marker {f : Fetch} {p : ℕ} (h : f.Walking t) (hm : f.leadMarker) (hs : f.stop = stop)
      (hcur : f.curGroup = f.leadMarkerGroup ∧ f.curObject = 0)
      (hhead : ∃ y ∈ t.log.groups, y.groupId = f.leadMarkerGroup)
      (holdest : ∀ y ∈ t.log.groups, f.leadMarkerGroup ≤ y.groupId) (hp : p < f.pos) :
      At t stop f p

variable {g o stop p : ℕ} {f' : Fetch}

/-- What a peek or a commit leaves of the marks changes no walk. -/
theorem Walking.marks (hf : f.Walking t) {a m : Bool} :
    Walking t { f with gapActive := a, gapGroup := g, gapObject := o, leadMarker := m } :=
  { hf with placed := { hf.placed with } }

theorem Walking.move (hf : f.Walking t) (ho : o ≤ u64Max) (hle : locNum (g, o) ≤ f.stop)
    (hg : f.curGroup ≤ g) : Walking t { f with curGroup := g, curObject := o } :=
  { hf with
    placed := ⟨ho, hf.placed.endGroup_le, hf.placed.endObject_le, hle⟩
    horizon := hf.horizon.imp_right (Or.imp_right fun h => h.trans hg) }

/-- Moving the cursor past a Location of the rest of the range. -/
theorem Walking.advance (hf : f.Walking t) (hm : f.leadMarker = false)
    (ho : o ≤ u64Max) (hge : f.pos ≤ locNum (g, o)) (hle : locNum (g, o) ≤ f.stop) :
    At t f.stop (f.advance g o) (locNum (g, o) + 1) := by
  have hend := hf.placed.rangeEnd_le
  have hlt := locLt_iff (a := (g, o)) ho hend
  have hcg : f.curGroup ≤ g := by
    unfold pos locNum at hge
    unfold u64Max at ho
    omega
  unfold Fetch.advance
  cases hc : locLt (g, o) f.rangeEnd with
  | false =>
    have hstop : locNum (g, o) = f.stop := by
      rw [hc] at hlt
      simp only [Bool.false_eq_true, false_iff, Nat.not_lt] at hlt
      exact Nat.le_antisymm hle hlt
    rw [hstop]
    exact .done rfl
  | true =>
    rw [hc] at hlt
    have hlt : locNum (g, o) < f.stop := hlt.mp rfl
    rw [if_neg (by simp)]
    split
    · rename_i homax
      have hnext := locNum_carry (g := g) homax
      rw [← hnext]
      exact .walk (hf.move (Nat.zero_le _) (by omega) (by omega)) hm rfl
    · have hnext := locNum_succ g o
      rw [← hnext]
      exact .walk (hf.move (by omega) (by omega) hcg) hm rfl

theorem unpin_advance (f : Fetch) (g o : ℕ) : (f.advance g o).unpin = f.unpin.advance g o := by
  have hend : f.unpin.rangeEnd = f.rangeEnd := by
    unfold unpin
    split <;> rfl
  unfold Fetch.advance
  rw [hend]
  split_ifs <;> (unfold unpin; split <;> rfl)

/-- Committing what was handed out moves the cursor past it. -/
theorem Offers.commit (hof : f.Offers f' g o) (hf : f.Walking t)
    (hm : f.leadMarker = false) (hgap : f.gapActive = false) (ho : o ≤ u64Max)
    (hge : f.pos ≤ locNum (g, o)) (hle : locNum (g, o) ≤ f.stop) :
    f'.commit.1 = .ok ∧ At t f.stop f'.commit.2 (locNum (g, o) + 1) := by
  rcases hof with rfl | ⟨r, payload, bytes, rfl, rfl, rfl⟩
  · have heq : (f.report g o).commit
        = (.ok, { f with gapActive := false, gapGroup := g, gapObject := o }.advance g o) := by
      simp [Fetch.commit, report, hm]
    have hf' : Walking t { f with gapActive := false, gapGroup := g, gapObject := o } := hf.marks
    rw [heq]
    exact ⟨rfl, hf'.advance hm ho hge hle⟩
  · have heq : (f.hold r payload bytes).commit
        = (.ok, (f.hold r payload bytes).unpin.advance r.groupId r.objectId) := by
      rw [← unpin_advance]
      simp [Fetch.commit, hold, hm, hgap]
    have hf' : Walking t (f.hold r payload bytes).unpin :=
      { hf with placed := { hf.placed with }, outActive := rfl }
    rw [heq]
    exact ⟨rfl, hf'.advance hm ho hge hle⟩

/-- A walking fetch passes every gate of a peek. -/
theorem Walking.peek_eq (h : Holds t pinCap) (hf : f.Walking t) (env : PeekEnv) :
    f.peek t pinCap env = if f.leadMarker then
      (.ok, some (.marker f.leadMarkerGroup), { f with gapActive := false })
    else { f with gapActive := false }.peekNext t.log t pinCap env := by
  have hlive : ¬ (t.gen % 2 = 0 ∨ t.gen ≠ f.trackGenSlot) := by
    have := h.live
    have := hf.track
    omega
  have hhor : ¬ ((!f.retrievalOwner) ∧ t.log.groups.length ≠ 0 ∧
      f.curGroup < t.log.oldestGroupId) := by
    rintro ⟨h1, h2, h3⟩
    rcases hf.horizon with h | h | h
    · simp [h] at h1
    · simp [h] at h2
    · omega
  unfold peek
  rw [if_neg (by simp [hf.exhausted]), if_neg (by simp [hf.outActive]), if_neg hlive, if_neg hhor]

/-- **One turn of a drive.** -/
theorem turn (h : Holds t pinCap) (ha : At t stop f p) (env : PeekEnv) :
    (∃ f', f.peek t pinCap env = (.ok, some .finish, f') ∧
      FetchItem.finish.Tells t env.nowUs p stop) ∨
    (∃ item f' l, f.peek t pinCap env = (.ok, some item, f') ∧
      item.Reaches t env.nowUs p stop l ∧ f'.commit.1 = .ok ∧
      At t stop f'.commit.2 (locNum l + 1)) ∨
    ∃ rc f', f.peek t pinCap env = (rc, none, f') ∧ rc ≠ .ok ∧ env.grants = false ∧
      At t stop f' p := by
  cases ha with
  | done hex => exact .inl ⟨_, by simp [peek, hex]; rfl, Log.AbsentBetween.of_le le_rfl⟩
  | walk hf hm hs =>
    subst hs
    have hf' : Walking t { f with gapActive := false } := hf.marks
    have hpeek : f.peek t pinCap env
        = { f with gapActive := false }.peekNext t.log t pinCap env := by
      rw [hf.peek_eq h, hm, if_neg Bool.false_ne_true]
    have hout := peekNext_peeked env h hf'
    rw [hpeek]
    generalize { f with gapActive := false }.peekNext t.log t pinCap env = out at hout
    cases hout with
    | finish htells => exact .inl ⟨_, rfl, htells⟩
    | item hr hof =>
      exact .inr (.inl ⟨_, _, _, rfl, hr, hof.commit hf' hm rfl hr.object_le hr.ge hr.le⟩)
    | refused hrc hg => exact .inr (.inr ⟨_, _, rfl, hrc, hg, .walk hf' hm rfl⟩)
  | marker hf hm hs hcur hhead holdest hp =>
    subst hs
    have hpos : f.pos = locNum (f.leadMarkerGroup, 0) := by rw [pos, hcur.1, hcur.2]
    have hprev : locNum (f.leadMarkerGroup - 1, u64Max) + 1 = f.pos := by
      rw [hpos] at hp ⊢
      unfold locNum at hp ⊢
      unfold u64Max
      omega
    have hpstop := hf.placed.cur_le
    change f.pos ≤ f.stop at hpstop
    obtain ⟨y, hy, hyg⟩ := hhead
    refine .inr (.inl ⟨.marker f.leadMarkerGroup, { f with gapActive := false }, _, ?_,
      ⟨rfl, le_rfl, by omega, by omega, ?_, fun r hr _ hin => ?_⟩, ?_, ?_⟩)
    · rw [hf.peek_eq h, hm, if_pos rfl]
    · exact Log.mem_breaks.mpr (.inr (.inl ⟨y, hy, by rw [hyg, hprev, hpos]⟩))
    · -- No record lies before the oldest group.
      obtain ⟨z, hz, hrz⟩ := mem_flatMap.mp hr
      have hzg := holdest z hz
      have hown := (h.wf.group z hz).owner r hrz
      have hle : f.pos ≤ r.locNum := by
        rw [hpos]
        unfold Rec.locNum locNum
        omega
      omega
    · simp [Fetch.commit, hm]
    · have hcommit : ({ f with gapActive := false } : Fetch).commit.2
          = { f with gapActive := false, leadMarker := false } := by simp [Fetch.commit, hm]
      rw [hcommit, hprev]
      exact .walk (f := { f with gapActive := false, leadMarker := false }) hf.marks rfl rfl

/-! ## A whole drive -/

/-- **Drive a fetch**: peek and commit, a refused peek being tried again in the next environment,
until the end is handed out.  Each item is paired with the environment of its peek. -/
def drive (t : Track) (pinCap : UInt64) : List PeekEnv → Fetch → List (PeekEnv × FetchItem)
  | [], _ => []
  | env :: envs, f =>
    match f.peek t pinCap env with
    | (.ok, some .finish, _) => [(env, .finish)]
    | (.ok, some item, f') => (env, item) :: drive t pinCap envs f'.commit.2
    | (_, _, f') => drive t pinCap envs f'

/-- The items account for the Locations from `lo` on, one right after the other. -/
inductive Accounts (t : Track) (stop : ℕ) : ℕ → List (PeekEnv × FetchItem) → Prop
  | nil {lo : ℕ} : Accounts t stop lo []
  | finish {lo : ℕ} {env : PeekEnv} (htells : FetchItem.finish.Tells t env.nowUs lo stop) :
      Accounts t stop lo [(env, .finish)]
  | item {lo : ℕ} {env : PeekEnv} {item : FetchItem} {l : ℕ × ℕ}
      {rest : List (PeekEnv × FetchItem)} (h : item.Reaches t env.nowUs lo stop l)
      (hrest : Accounts t stop (locNum l + 1) rest) : Accounts t stop lo ((env, item) :: rest)

theorem drive_cons_item {item : FetchItem} {l : ℕ × ℕ} (hlast : item.last? = some l)
    (hp : f.peek t pinCap env = (.ok, some item, f')) (envs : List PeekEnv) :
    f.drive t pinCap (env :: envs) = (env, item) :: f'.commit.2.drive t pinCap envs := by
  rw [drive, hp]
  cases item <;> first | rfl | simp [FetchItem.last?] at hlast

theorem drive_cons_refused {rc : Result} (hp : f.peek t pinCap env = (rc, none, f'))
    (envs : List PeekEnv) : f.drive t pinCap (env :: envs) = f'.drive t pinCap envs := by
  rw [drive, hp]
  cases rc <;> rfl

/-- **A drive accounts for its range**, from where the fetch stands. -/
theorem drive_accounts (h : Holds t pinCap) (envs : List PeekEnv)
    (ha : At t stop f p) : Accounts t stop p (f.drive t pinCap envs) := by
  induction envs generalizing f p with
  | nil => exact .nil
  | cons env envs ih =>
    rcases turn h ha env with ⟨f', hp, htells⟩ |
      ⟨item, f', l, hp, hr, -, hat⟩ | ⟨rc, f', hp, -, -, hat⟩
    · rw [drive, hp]
      exact .finish htells
    · rw [drive_cons_item hr.last hp]
      exact .item hr (ih hat)
    · rw [drive_cons_refused hp]
      exact ih hat

/-- The environments of the items are those of the drive. -/
theorem drive_env_mem {envs : List PeekEnv} {x : PeekEnv × FetchItem}
    (hx : x ∈ f.drive t pinCap envs) : x.1 ∈ envs := by
  induction envs generalizing f with
  | nil => simp [drive] at hx
  | cons env envs ih =>
    rw [drive] at hx
    split at hx
    · rw [mem_singleton.mp hx]
      exact mem_cons_self
    · rcases mem_cons.mp hx with rfl | hx
      · exact mem_cons_self
      · exact mem_cons_of_mem _ (ih hx)
    · exact mem_cons_of_mem _ (ih hx)

/-- **Progress**: an environment that refuses nothing yields an item. -/
theorem grants_le_drive (h : Holds t pinCap) (envs : List PeekEnv)
    (ha : At t stop f p) : FetchItem.finish ∈ (f.drive t pinCap envs).map Prod.snd ∨
      envs.countP PeekEnv.grants ≤ (f.drive t pinCap envs).length := by
  induction envs generalizing f p with
  | nil => exact .inr (Nat.zero_le _)
  | cons env envs ih =>
    rcases turn h ha env with ⟨f', hp, -⟩ | ⟨item, f', l, hp, hr, -, hat⟩ |
      ⟨rc, f', hp, -, hg, hat⟩
    · rw [drive, hp]
      exact .inl (by simp)
    · rw [drive_cons_item hr.last hp]
      rcases ih hat with hfin | hle
      · exact .inl (by simp [hfin])
      · rw [countP_cons, length_cons]
        split <;> omega
    · rw [drive_cons_refused hp, countP_cons_of_neg (by simp [hg])]
      exact ih hat

variable {stop lo : ℕ} {items : List (PeekEnv × FetchItem)}

/-- Each item moves the cursor to a later place where one can stand. -/
theorem Accounts.length_le (h : Accounts t stop lo items) :
    items.length ≤ (t.log.breaks stop).countP (fun b => lo < b) + 1 := by
  induction h with
  | nil => exact Nat.zero_le _
  | finish => exact Nat.succ_le_succ (Nat.zero_le _)
  | @item lo _ _ l _ hr _ ih =>
    have hge := hr.ge
    have hlt : (t.log.breaks stop).countP (fun b => locNum l + 1 < b)
        < (t.log.breaks stop).countP fun b => lo < b :=
      countP_lt_of_imp (fun b _ hb => by simp only [decide_eq_true_eq] at hb ⊢; omega) hr.stands
        (by simp only [decide_eq_true_eq]; omega) (by simp)
    rw [length_cons]
    omega

/-- The ends of the items ascend, inside the range. -/
theorem Accounts.ascend (h : Accounts t stop lo items) :
    (items.filterMap fun i => i.2.last?).Pairwise (fun a b => locLt a b) ∧
      ∀ l ∈ items.filterMap fun i => i.2.last?, l.2 ≤ u64Max ∧ lo ≤ locNum l ∧ locNum l ≤ stop := by
  induction h with
  | nil => exact ⟨List.Pairwise.nil, by simp⟩
  | finish => simp [FetchItem.last?]
  | item hr _ ih =>
    obtain ⟨hasc, hin⟩ := ih
    have hge := hr.ge
    simp only [filterMap_cons, hr.last]
    refine ⟨pairwise_cons.mpr ⟨fun l' hl' => ?_, hasc⟩, fun l' hl' => ?_⟩
    · obtain ⟨h1, h2, -⟩ := hin l' hl'
      exact (locLt_iff hr.object_le h1).mpr (by omega)
    · rcases mem_cons.mp hl' with rfl | hl'
      · exact ⟨hr.object_le, hge, hr.le⟩
      · obtain ⟨h1, h2, h3⟩ := hin l' hl'
        exact ⟨h1, by omega, h3⟩

/-! ## Coverage -/

/-- An item with the Locations it accounts for. -/
structure Span where
  env : PeekEnv
  item : FetchItem
  (lo hi : ℕ)

/-- The spans of consecutive items: each starts right after the one before, the end runs to the end
of the range. -/
def spans (stop : ℕ) : ℕ → List (PeekEnv × FetchItem) → List Span
  | _, [] => []
  | lo, (env, item) :: rest =>
    let hi := (item.last?.map locNum).getD stop
    ⟨env, item, lo, hi⟩ :: spans stop (hi + 1) rest

variable {s : Span}

/-- Every span is told by its item, and starts at or after the place where the spans start. -/
theorem Accounts.tells (h : Accounts t stop lo items) (hs : s ∈ spans stop lo items) :
    (s.env, s.item) ∈ items ∧ lo ≤ s.lo ∧ s.item.Tells t s.env.nowUs s.lo s.hi ∧
      s.hi = (s.item.last?.map locNum).getD stop := by
  induction h with
  | nil => simp [spans] at hs
  | finish htells =>
    obtain rfl := mem_singleton.mp hs
    exact ⟨mem_cons_self, le_rfl, htells, rfl⟩
  | item hr _ ih =>
    rw [spans, mem_cons, hr.last] at hs
    rcases hs with rfl | hs
    · exact ⟨mem_cons_self, le_rfl, hr.tells, by simp [hr.last]⟩
    · obtain ⟨hm, hlo, ht⟩ := ih hs
      have hge := hr.ge
      exact ⟨mem_cons_of_mem _ hm, by omega, ht⟩

/-- **Exactly once**: once the end was handed out, every Location of the range lies in one span. -/
theorem Accounts.span_unique (h : Accounts t stop lo items)
    (hfin : FetchItem.finish ∈ items.map Prod.snd) {n : ℕ} (hn : lo ≤ n) (hle : n ≤ stop) :
    ∃! s, s ∈ spans stop lo items ∧ s.lo ≤ n ∧ n ≤ s.hi := by
  induction h with
  | nil => cases hfin
  | finish => exact ⟨_, ⟨mem_cons_self, hn, hle⟩, fun s hs => mem_singleton.mp hs.1⟩
  | @item lo env item l items hr hrest ih =>
    have hsp : spans stop lo ((env, item) :: items)
        = ⟨env, item, lo, locNum l⟩ :: spans stop (locNum l + 1) items := by
      simp [spans, hr.last]
    rw [hsp]
    by_cases hin : n ≤ locNum l
    · refine ⟨⟨env, item, lo, locNum l⟩, ⟨mem_cons_self, hn, hin⟩, fun s hs => ?_⟩
      rcases mem_cons.mp hs.1 with rfl | hs'
      · rfl
      · have := (hrest.tells hs').2.1
        omega
    · have hfin' : FetchItem.finish ∈ items.map Prod.snd := by
        refine (mem_cons.mp hfin).resolve_left fun he => ?_
        obtain rfl : FetchItem.finish = item := he
        exact nomatch hr.last
      obtain ⟨s, ⟨hs, h1, h2⟩, huniq⟩ := ih hfin' (by omega)
      refine ⟨s, ⟨mem_cons_of_mem _ hs, h1, h2⟩, fun s' hs' => ?_⟩
      rcases mem_cons.mp hs'.1 with rfl | hs''
      · exact absurd hs'.2.2 hin
      · exact huniq s' ⟨hs'', hs'.2⟩

/-- Records of one Location are one record. -/
theorem Holds.rec_unique (h : Holds t pinCap) {r' : Rec} (hr : r ∈ t.log.allRecs)
    (hr' : r' ∈ t.log.allRecs) (heq : r.locNum = r'.locNum) : r = r' := by
  have hloc := locNum_inj (a := (r.groupId, r.objectId)) (b := (r'.groupId, r'.objectId))
    (h.object_le r hr) (h.object_le r' hr') heq
  rw [Prod.mk.injEq] at hloc
  have h1 := h.wf.findRec_eq_some_iff.mpr ⟨hr, hloc.1, hloc.2⟩
  have h2 := h.wf.findRec_eq_some_iff.mpr ⟨hr', rfl, rfl⟩
  exact Option.some_inj.mp (h1.symm.trans h2)

/-- A Location known not to exist holds no object. -/
theorem Holds.status_ne (h : Holds t pinCap) (hr : r ∈ t.log.allRecs)
    (ha : t.log.KnownAbsent r.groupId r.objectId) : r.status ≠ .normal := by
  rcases ha with ⟨r', hr', hg, ho, hs⟩ | ⟨q, hq, hlt⟩
  · rwa [← h.rec_unique hr' hr (by rw [Rec.locNum, Rec.locNum, hg, ho])]
  · exact absurd (h.wf.groupFinal_le hq hr rfl) (by omega)

/-- **The item whose span holds a servable record is the object itself.** -/
theorem Accounts.serves_of_mem (h : Holds t pinCap) (ha : Accounts t stop lo items)
    (hs : s ∈ spans stop lo items) (hr : r ∈ t.log.allRecs)
    (hserv : t.Servable s.env.nowUs r) (h1 : s.lo ≤ r.locNum) (h2 : r.locNum ≤ s.hi) :
    s.item.serves r := by
  obtain ⟨-, -, htells, hhi⟩ := ha.tells hs
  -- before the item's own Location nothing can exist, so the record is at it
  have hat : t.log.AbsentBetween s.lo s.hi → r.locNum = s.hi := fun habs =>
    (Nat.lt_or_eq_of_le h2).resolve_left fun hlt =>
      h.status_ne hr (habs _ _ (h.object_le r hr) h1 hlt) hserv.1
  cases hitem : s.item with
  | object v =>
    rw [hitem] at htells
    obtain ⟨habs, r', hr', -, heq, hg, ho, -⟩ := htells
    obtain rfl := h.rec_unique hr' hr (heq.trans (hat habs).symm)
    simp [FetchItem.serves, hg, ho]
  | pending g o =>
    rw [hitem] at htells
    obtain ⟨habs, r', hr', -, hopen, heq⟩ := htells
    obtain rfl := h.rec_unique hr' hr (heq.trans (hat habs).symm)
    exact absurd (hserv.2.1.symm.trans hopen) nofun
  | finish =>
    rw [hitem] at htells
    exact absurd hserv.1 (h.status_ne hr (htells _ _ (h.object_le r hr) h1 (by
      change r.locNum < _; omega)))
  | marker g | gap g o | unknown g o =>
    rw [hitem] at htells
    exact absurd ⟨h1, h2⟩ (htells r hr hserv)

/-- The objects handed out are at different Locations. -/
theorem Accounts.countP_serves_le (ha : Accounts t stop lo items) :
    (items.map Prod.snd).countP (FetchItem.serves r) ≤ 1 := by
  have hasc := ha.ascend.1
  have hle : (items.map Prod.snd).countP (FetchItem.serves r)
      ≤ (items.filterMap fun i => i.2.last?).count (r.groupId, r.objectId) := by
    clear hasc ha
    induction items with
    | nil => simp
    | cons x items ih =>
      obtain ⟨env, item⟩ := x
      rw [map_cons, countP_cons, filterMap_cons]
      by_cases hsv : item.serves r
      · simp only [FetchItem.last?_of_serves hsv, hsv, if_true, count_cons_self]
        omega
      · rw [if_neg hsv]
        cases item.last? with
        | none => exact ih
        | some l => exact ih.trans count_le_count_cons
  refine hle.trans (nodup_iff_count_le_one.mp (hasc.imp fun {a b} hlt he => ?_) _)
  subst he
  simp [locLt] at hlt

/-- A Location of a span is known not to exist unless the span is a run or ends there. -/
theorem Accounts.absent_or_told (ha : Accounts t stop lo items)
    (hs : s ∈ spans stop lo items) (ho : o ≤ u64Max) (h1 : s.lo ≤ locNum (g, o))
    (h2 : locNum (g, o) ≤ s.hi) :
    (s.item.isRun ∨ s.item.last? = some (g, o)) ∨ t.log.KnownAbsent g o := by
  obtain ⟨hmem, -, htells, hhi⟩ := ha.tells hs
  -- the Location of an object or a pending one is 64-bit, as all ends are
  have hend : t.log.AbsentBetween s.lo s.hi → ∀ l, s.item.last? = some l →
      (s.item.isRun ∨ s.item.last? = some (g, o)) ∨ t.log.KnownAbsent g o := by
    intro habs l hl
    rcases Nat.lt_or_eq_of_le h2 with hlt | heq
    · exact .inr (habs g o ho h1 hlt)
    · have hl64 := (ha.ascend.2 l (mem_filterMap.mpr ⟨_, hmem, hl⟩)).1
      rw [hhi, hl] at heq
      exact .inl (.inr (by rw [hl, locNum_inj (a := (g, o)) ho hl64 heq]))
  cases hitem : s.item with
  | object v | pending g o =>
    rw [hitem] at htells hend
    exact hend htells.1 _ rfl
  | finish =>
    rw [hitem] at htells
    exact .inr (htells g o ho h1 (by omega))
  | marker g | gap g o | unknown g o => exact .inl (.inl rfl)

/-! ## Admission -/

theorem locNum_le_of_not_before {e : FetchEnd} (ho : o ≤ u64Max) (he : e.object ≤ u64Max)
    (h : e.before g o = false) :
    locNum (g, o) ≤ locNum (e.group, if e.whole then u64Max else e.object) := by
  unfold FetchEnd.before at h
  unfold locNum
  unfold u64Max at ho he ⊢
  split_ifs at h ⊢ <;> simp at h <;> omega

variable {req : FetchReq} {retrieval : Bool} {f₀ : Fetch} {plan : FetchPlan}

/-- Where the cursor of an admitted fetch starts: after the evicted part, if there is one. -/
theorem admitted_cur (f₀ : Fetch) (t : Track) (req : FetchReq) (retrieval : Bool) (sg so : ℕ)
    (e : FetchEnd) : ((f₀.admitted t req retrieval sg so e).curGroup,
      (f₀.admitted t req retrieval sg so e).curObject) =
        if evictedPrefix t retrieval sg then (t.log.oldestGroupId, 0) else (sg, so) := by
  unfold admitted
  cases evictedPrefix t retrieval sg <;> rfl

/-- The cursor of an admitted fetch is inside its range. -/
theorem fetchAdmit_placed (hlg : t.largestGroup ≤ u64Max) (hlo : t.largestObject ≤ u64Max)
    (hadm : fetchAdmit t req retrieval f₀ = .ok (plan, f)) : f.Placed := by
  obtain ⟨sg, so, e, hs, he, -, hbefore, hevict, rfl⟩ := fetchAdmit_eq_ok hadm
  have hso : so ≤ u64Max := resolveStart_le hlo hs
  have hend : e.group ≤ u64Max ∧ e.object ≤ u64Max :=
    he ▸ effectiveEnd_le (resolveEnd_le hlo) hlg hlo
  have hcur := admitted_cur f₀ t req retrieval sg so e
  split at hcur
  · rename_i hev
    have hge := hevict hev
    refine ⟨(congrArg Prod.snd hcur).le.trans (Nat.zero_le _), hend.1, hend.2, ?_⟩
    rw [hcur]
    change t.log.oldestGroupId * 2 ^ 64 + 0 ≤ e.group * 2 ^ 64 + _
    omega
  · refine ⟨(congrArg Prod.snd hcur).le.trans hso, hend.1, hend.2, ?_⟩
    rw [hcur]
    exact locNum_le_of_not_before hso hend.2 hbefore

/-- **An admitted fetch stands at its start**, or before the marker of the part evicted there. -/
theorem fetchAdmit_at (h : Holds t pinCap) (hlg : t.largestGroup ≤ u64Max)
    (hlo : t.largestObject ≤ u64Max) (hadm : fetchAdmit t req retrieval f₀ = .ok (plan, f))
    (hrep : f.reportGaps ∧ f.reportUnknown ∧ f.reportPending) :
    At t f.stop f (locNum (f.startGroup, f.startObject)) := by
  have hplaced := fetchAdmit_placed hlg hlo hadm
  obtain ⟨sg, so, e, hs, -, hempty, -, -, rfl⟩ := fetchAdmit_eq_ok hadm
  have hso : so ≤ u64Max := resolveStart_le hlo hs
  have hcur := admitted_cur f₀ t req retrieval sg so e
  have hwalk : (retrieval ∨ t.log.oldestGroupId ≤
      (f₀.admitted t req retrieval sg so e).curGroup) →
      (f₀.admitted t req retrieval sg so e).Walking t := fun hor =>
    ⟨hplaced, hrep.1, hrep.2.1, hrep.2.2, rfl, rfl, rfl, hor.imp_right .inr⟩
  cases hev : evictedPrefix t retrieval sg with
  | false =>
    rw [hev] at hcur
    have hge : retrieval ∨ t.log.oldestGroupId ≤ sg := by
      simpa [evictedPrefix, or_iff_not_imp_left] using hev
    have hat := At.walk (hwalk (hge.imp_right (·.trans_eq (congrArg Prod.fst hcur).symm))) hev rfl
    rwa [pos, hcur] at hat
  | true =>
    rw [hev, if_pos rfl] at hcur
    have hmark : (f₀.admitted t req retrieval sg so e).leadMarkerGroup = t.log.oldestGroupId := by
      simp [admitted, hev]
    simp only [evictedPrefix, Bool.and_eq_true, Bool.not_eq_true', decide_eq_true_eq] at hev
    have hne : t.log.groups ≠ [] := fun h0 => by simp [hempty h0] at hev
    obtain ⟨y, ys, hy⟩ := exists_cons_of_ne_nil hne
    have hold : t.log.oldestGroupId = y.groupId := by simp [Log.oldestGroupId, hy]
    refine .marker (hwalk (.inr (congrArg Prod.fst hcur).ge))
      (by simp [admitted, evictedPrefix, hev])
      rfl ⟨(congrArg Prod.fst hcur).trans hmark.symm, congrArg Prod.snd hcur⟩
      ⟨y, by simp [hy], ?_⟩ (fun z hz => ?_) ?_
    · rw [hmark, hold]
    · rw [hmark, hold]
      have hsorted := h.wf.sorted
      rw [hy] at hz hsorted
      rcases mem_cons.mp hz with rfl | hz
      · exact le_rfl
      · exact ((pairwise_cons.mp hsorted).1 z hz).le
    · rw [pos, hcur]
      change sg * 2 ^ 64 + so < t.log.oldestGroupId * 2 ^ 64 + 0
      unfold u64Max at hso
      omega

/-- **A fetch accounts for every Location of its range, exactly once.**  On a log held fixed, an
admitted fetch that reports everything hands out a bounded number of items, and the end once enough
peeks were not refused.  The items ascend inside the range.  Once the end was handed out, every
object that could be served all along was served once, the range is partitioned into the spans of
the items, and a Location that is no object's, pending, or part of a reported run is known not to
exist. -/
theorem fetch_accounts (t : Track) (hlog : t.log.Reachable) (hlive : t.gen % 2 = 1)
    (hlg : t.largestGroup ≤ u64Max) (hlo : t.largestObject ≤ u64Max) (req : FetchReq)
    (retrieval : Bool) (f₀ : Fetch) (plan : FetchPlan) (f : Fetch)
    (hadm : fetchAdmit t req retrieval f₀ = .ok (plan, f))
    (hrep : f.reportGaps ∧ f.reportUnknown ∧ f.reportPending)
    (pinBytes : UInt64) (envs : List PeekEnv) (start : ℕ)
    (hstart : start = locNum (f.startGroup, f.startObject)) (items : List (PeekEnv × FetchItem))
    (hitems : items = f.drive t (fetchPinCap pinBytes t.log.lim) envs) :
    items.length ≤ (t.log.breaks f.stop).length + 1 ∧
    ((t.log.breaks f.stop).length + 1 < envs.countP PeekEnv.grants →
      FetchItem.finish ∈ items.map Prod.snd) ∧
    (items.filterMap fun i => i.2.last?).Pairwise (fun a b => locLt a b) ∧
    (∀ l ∈ items.filterMap fun i => i.2.last?,
      l.2 ≤ u64Max ∧ start ≤ locNum l ∧ locNum l ≤ f.stop) ∧
    (FetchItem.finish ∈ items.map Prod.snd →
      (∀ r ∈ t.log.allRecs, start ≤ r.locNum → r.locNum ≤ f.stop →
        (∀ env ∈ envs, t.Servable env.nowUs r) →
          (items.map Prod.snd).countP (FetchItem.serves r) = 1) ∧
      (∀ n, start ≤ n → n ≤ f.stop →
        ∃! s, s ∈ spans f.stop start items ∧ s.lo ≤ n ∧ n ≤ s.hi) ∧
      ∀ g o, o ≤ u64Max → start ≤ locNum (g, o) → locNum (g, o) ≤ f.stop →
        (∃ s ∈ spans f.stop start items, (s.lo ≤ locNum (g, o) ∧ locNum (g, o) ≤ s.hi) ∧
          (s.item.isRun ∨ s.item.last? = some (g, o))) ∨ t.log.KnownAbsent g o) := by
  have h : Holds t (fetchPinCap pinBytes t.log.lim) :=
    ⟨hlog.wf, hlog.stored, hlive, le_fetchPinCap _ _⟩
  have hat := fetchAdmit_at h hlg hlo hadm hrep
  have ha : Accounts t f.stop start items := by
    rw [hitems, hstart]
    exact drive_accounts h envs hat
  have hlen := ha.length_le.trans (Nat.succ_le_succ countP_le_length)
  refine ⟨hlen, fun hgr => ?_, ha.ascend.1, ha.ascend.2, fun hfin => ⟨fun r hr h1 h2 hsv => ?_,
    fun n h1 h2 => ha.span_unique hfin h1 h2, fun g o ho h1 h2 => ?_⟩⟩
  · have := grants_le_drive h envs hat
    rw [← hitems] at this
    exact this.resolve_right (by omega)
  · obtain ⟨s, ⟨hs, hlo', hhi'⟩, -⟩ := ha.span_unique hfin h1 h2
    have hmem := (ha.tells hs).1
    refine le_antisymm ha.countP_serves_le (countP_pos_iff.mpr ⟨s.item, ?_, ?_⟩)
    · exact mem_map.mpr ⟨_, hmem, rfl⟩
    · exact ha.serves_of_mem h hs hr (hsv _ (drive_env_mem (hitems ▸ hmem))) hlo' hhi'
  · obtain ⟨s, ⟨hs, hlo', hhi'⟩, -⟩ := ha.span_unique hfin h1 h2
    exact (ha.absent_or_told hs ho hlo' hhi').imp_left fun hx => ⟨s, hs, ⟨hlo', hhi'⟩, hx⟩

/-- A track with an object in group 1 and one in group 3. -/
def smallTrack : Track :=
  { Track.cleared (Log.smallLog.run [.append (Log.payloadDesc 1 3) ⟨true, true, true⟩,
      .append (Log.payloadDesc 3 3) ⟨true, true, true⟩]) with
    gen := 1
    hasLargest := true
    largestGroup := 3 }

/-- Everything up to the Largest, with all reports. -/
def smallReq : FetchReq where
  structSize := 112
  name := ⟨[], []⟩
  startGroup := 0
  startObject := 0
  endGroup := 3
  endObject := 0
  groupOrder := .ascending
  subscriberPriority := 0
  cookie := 0
  reportGaps := true
  reportUnknown := true
  relativeStart := 0
  rangeForm := 0
  reportPending := true
  startGroup_le := Nat.zero_le _
  startObject_le := Nat.zero_le _
  endGroup_le := by decide
  endObject_le := Nat.zero_le _

theorem fetch_accounts_small : ∃ plan f,
    fetchAdmit smallTrack smallReq false Fetch.cleared = .ok (plan, f) ∧
      FetchItem.finish ∈ (f.drive smallTrack (fetchPinCap 0 smallTrack.log.lim)
        (List.replicate 20 ⟨0, 0, true, true⟩)).map Prod.snd :=
  ⟨_, _, rfl, (fetch_accounts smallTrack ⟨Log.smallCfg, true, Log.smallLog, _, rfl, rfl⟩ rfl
    (by decide) (by decide) smallReq false Fetch.cleared _ _ rfl ⟨rfl, rfl, rfl⟩ 0
    (List.replicate 20 ⟨0, 0, true, true⟩) _ rfl _ rfl).2.1 (by decide +kernel)⟩

end Fetch

end MoqRelay
