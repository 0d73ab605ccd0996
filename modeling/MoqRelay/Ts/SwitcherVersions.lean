import Mathlib.Data.Finset.Card
import MoqRelay.Ts.SwitcherRewrite

/-!
# Ts/SwitcherVersions — how the versions of a table go on

The log of a run of the switcher: its switches, and the versions of sections as they pass.  While
the tables hold every program of the log (`TablesLike.room`), a table remembers its last current
section (`Remembers`), so consecutive ones carry versions that differ exactly where they should
(`VersionLaw`).
-/

namespace MoqRelay

open List

/-! ## The versions of a table -/

/-- What names the table of a section. -/
def VersionNote.key (n : VersionNote) : UInt8 × ℕ := (n.tableId, n.ext)

/-- The log of a run: switches, and the versions of sections. -/
inductive SwitcherNote
  | switch
  | version (n : VersionNote)
  deriving DecidableEq, Repr

/-- The programs whose PMT sections pass. -/
def programs (log : List SwitcherNote) : Finset ℕ :=
  (log.filterMap fun
    | .version n => if n.tableId = 0x02 then some n.ext else none
    | .switch => none).toFinset

/-- **The law of the versions**: of two consecutive current sections of a table, the versions
emitted differ if a switch comes between them, and otherwise are equal exactly when those received
are. -/
def VersionLaw (log : List SwitcherNote) : Prop :=
  ∀ (l₁ : List SwitcherNote) (a : VersionNote) (l₂ : List SwitcherNote) (b : VersionNote)
    (l₃ : List SwitcherNote), log = l₁ ++ .version a :: l₂ ++ .version b :: l₃ →
    a.current → b.current → a.key = b.key →
    (∀ n, .version n ∈ l₂ → n.key = b.key → n.current = false) →
    if .switch ∈ l₂ then a.emitted ≠ b.emitted else (a.emitted = b.emitted ↔ a.version = b.version)

/-- The last current section of a table, and whether a switch came since. -/
def lastCurrent (k : UInt8 × ℕ) (log : List SwitcherNote) : Option (VersionNote × Bool) :=
  log.foldl (fun acc n =>
    match n with
    | .switch => acc.map fun a => (a.1, true)
    | .version n => if n.key = k && n.current then some (n, false) else acc) none

theorem lastCurrent_switch (k : UInt8 × ℕ) (log : List SwitcherNote) :
    lastCurrent k (log ++ [.switch]) = (lastCurrent k log).map fun a => (a.1, true) := by
  rw [lastCurrent, foldl_concat]
  rfl

theorem lastCurrent_version (k : UInt8 × ℕ) (log : List SwitcherNote) (n : VersionNote) :
    lastCurrent k (log ++ [.version n]) =
      if n.key = k && n.current then some (n, false) else lastCurrent k log := by
  rw [lastCurrent, foldl_concat]
  rfl

theorem lastCurrent_append {k : UInt8 × ℕ} {a : VersionNote} (l₁ : List SwitcherNote)
    (ha : a.current) (hk : a.key = k) (l₂ : List SwitcherNote)
    (h : ∀ n, .version n ∈ l₂ → n.key = k → n.current = false) :
    lastCurrent k (l₁ ++ .version a :: l₂) = some (a, decide (.switch ∈ l₂)) := by
  induction l₂ using reverseRecOn with
  | nil => rw [lastCurrent_version]; simp [ha, hk]
  | append_singleton l₂ n ih =>
    have ih := ih fun m hm => h m (mem_append_left _ hm)
    rw [← cons_append, ← append_assoc]
    cases n with
    | switch => rw [lastCurrent_switch, ih]; simp
    | version n =>
      have hn : ¬ (n.key = k && n.current) := by
        simp only [Bool.and_eq_true, decide_eq_true_eq]
        rintro ⟨hkey, hcur⟩
        exact Bool.false_ne_true ((h n (by simp) hkey).symm.trans hcur)
      rw [lastCurrent_version, if_neg hn, ih]
      simp

/-- What the next current section of a table owes the last. -/
def Follow (last : Option (VersionNote × Bool)) (b : VersionNote) : Prop :=
  ∀ a s, last = some (a, s) →
    if s then a.emitted ≠ b.emitted else (a.emitted = b.emitted ↔ a.version = b.version)

theorem VersionLaw.nil : VersionLaw [] := by
  intro l₁ a l₂ b l₃ h
  simp at h

variable {log : List SwitcherNote} {n : VersionNote}

theorem VersionLaw.switch (h : VersionLaw log) : VersionLaw (log ++ [.switch]) := by
  intro l₁ a l₂ b l₃ hlog
  rcases eq_nil_or_concat l₃ with rfl | ⟨l₃, x, rfl⟩
  · have := append_inj_right' hlog rfl
    cases this
  · rw [concat_eq_append, ← cons_append, ← append_assoc] at hlog
    exact h l₁ a l₂ b l₃ (append_inj_left' hlog rfl)

theorem VersionLaw.version (h : VersionLaw log)
    (hn : n.current → Follow (lastCurrent n.key log) n) : VersionLaw (log ++ [.version n]) := by
  intro l₁ a l₂ b l₃ hlog ha hb hkey hl₂
  rcases eq_nil_or_concat l₃ with rfl | ⟨l₃, x, rfl⟩
  · obtain ⟨rfl⟩ : n = b := by simpa using append_inj_right' hlog rfl
    have hlast := lastCurrent_append l₁ ha hkey l₂ hl₂
    rw [← append_inj_left' hlog rfl] at hlast
    simpa using hn hb a _ hlast
  · rw [concat_eq_append, ← cons_append, ← append_assoc] at hlog
    exact h l₁ a l₂ b l₃ (append_inj_left' hlog rfl) ha hb hkey hl₂

/-! ## The tables behind them -/

/-- What a table remembers of its sections. -/
inductive Remembers (switched : Bool) : Option SwitchTable → Option (VersionNote × Bool) → Prop
  | absent : Remembers switched none none
  | unused {t : SwitchTable} (hout : t.outVersion = none) (hoff : t.offset = none) :
      Remembers switched (some t) none
  | before {t : SwitchTable} {a : VersionNote} (hs : switched)
      (hout : t.outVersion = some a.emitted) (hoff : t.offset = none) (ha : a.emitted < 32) :
      Remembers switched (some t) (some (a, true))
  | since {t : SwitchTable} {a : VersionNote} (o : ℕ) (hout : t.outVersion = some a.emitted)
      (hoff : switched → t.offset = some o) (hv : a.version < 32)
      (ha : a.emitted = (a.version + if switched then o else 0) % 32) :
      Remembers switched (some t) (some (a, false))

/-- The tables whose sections pass: of the PAT, and of the programs of the log. -/
def Known (log : List SwitcherNote) (k : UInt8 × ℕ) : Prop :=
  k = (0x00, 0) ∨ ∃ e ∈ programs log, k = (0x02, e)

/-- **The tables and the log**: distinct tables of the programs of the log, each of which remembers
its last current section. -/
structure TablesLike (switched : Bool) (ts : List SwitchTable) (log : List SwitcherNote) :
    Prop where
  nodup : (ts.map SwitchTable.key).Nodup
  known : ∀ t ∈ ts, Known log t.key
  remembers : ∀ k, Remembers switched (keyed SwitchTable.key ts k) (lastCurrent k log)

/-- The notes a section can give. -/
def VersionNote.Ok (n : VersionNote) : Prop :=
  n.version < 32 ∧ (n.key = (0x00, 0) ∨ n.tableId = 0x02)

theorem versionNote_ok (pid : ℕ) (s : List (UInt8 × UInt8)) : (versionNote pid s).Ok := by
  refine ⟨Nat.mod_lt _ (by omega), ?_⟩
  by_cases h : pid = pidPat
  · simp [VersionNote.key, versionNote, wantedTable, h]
  · simp [versionNote, wantedTable, h]

theorem programs_append (l₁ l₂ : List SwitcherNote) :
    programs (l₁ ++ l₂) = programs l₁ ∪ programs l₂ := by
  rw [programs, filterMap_append, toFinset_append]
  rfl

theorem card_programs_le (l₁ l₂ : List SwitcherNote) :
    (programs l₁).card ≤ (programs (l₁ ++ l₂)).card := by
  rw [programs_append]
  exact Finset.card_le_card Finset.subset_union_left

theorem Known.append {k : UInt8 × ℕ} (h : Known log k) (l : List SwitcherNote) :
    Known (log ++ l) k := by
  rw [Known, programs_append]
  exact h.imp_right (Exists.imp fun _ he => ⟨Finset.mem_union_left _ he.1, he.2⟩)

theorem VersionNote.Ok.known (h : n.Ok) (log : List SwitcherNote) :
    Known (log ++ [.version n]) n.key := by
  rw [Known, programs_append]
  refine h.2.imp_right fun h2 => ⟨n.ext, Finset.mem_union_right _ (by simp [programs, h2]), ?_⟩
  rw [VersionNote.key, h2]

theorem swVersion_key (switched : Bool) (t : SwitchTable) (v : ℕ) (cur : Bool) :
    (swVersion switched t v cur).2.key = t.key := by
  unfold swVersion
  split_ifs
  · rfl
  · split <;> rfl
  · rfl
  · rfl

variable {switched : Bool} {ts : List SwitchTable} {o : Option SwitchTable}
  {last : Option (VersionNote × Bool)}

/-- There is room for the table of a note. -/
theorem TablesLike.room (h : TablesLike switched ts log) (hn : n.Ok)
    (hcard : (programs (log ++ [.version n])).card ≤ switcherMaxPmt)
    (hnew : keyed SwitchTable.key ts n.key = none) : ts.length < 1 + switcherMaxPmt := by
  have hsub : insert n.key (ts.map SwitchTable.key).toFinset ⊆
      insert (0x00, 0) ((programs (log ++ [.version n])).image fun e => ((0x02 : UInt8), e)) := by
    intro k hk
    have hknown : Known (log ++ [.version n]) k := by
      rcases Finset.mem_insert.mp hk with rfl | hk
      · exact hn.known log
      · obtain ⟨t, ht, rfl⟩ := mem_map.mp (mem_toFinset.mp hk)
        exact (h.known t ht).append _
    simpa [Known, eq_comm] using hknown
  have hfresh : n.key ∉ (ts.map SwitchTable.key).toFinset := by
    intro hk
    obtain ⟨t, ht, hkey⟩ := mem_map.mp (mem_toFinset.mp hk)
    exact keyed_eq_none.mp hnew t ht hkey
  have hle := (Finset.card_le_card hsub).trans (Finset.card_insert_le _ _)
  rw [Finset.card_insert_of_notMem hfresh, toFinset_card_of_nodup h.nodup, length_map] at hle
  have himg := Finset.card_image_le (s := programs (log ++ [.version n]))
    (f := fun e => ((0x02 : UInt8), e))
  omega

theorem keyed_setTable (ts : List SwitchTable) (t : SwitchTable) (k : UInt8 × ℕ) :
    keyed SwitchTable.key (setTable ts t) k =
      if k = t.key then (keyed SwitchTable.key ts k).map fun _ => t
      else keyed SwitchTable.key ts k := by
  rw [setTable, keyed_map (key_replace t)]
  cases hk : keyed SwitchTable.key ts k with
  | none => split_ifs <;> rfl
  | some u =>
    obtain rfl := (key_of_keyed hk).2
    rw [Option.map_some]
    split_ifs <;> rfl

theorem map_key_setTable (ts : List SwitchTable) (t : SwitchTable) :
    (setTable ts t).map SwitchTable.key = ts.map SwitchTable.key := by
  rw [setTable, map_map]
  exact map_congr_left fun u _ => key_replace t u

/-- **What a note does to the tables**: the note's table answers, and is the only one to change. -/
theorem bumpVersion_spec (switched : Bool) {id : UInt8} {ext : ℕ}
    (v : ℕ) (cur : Bool) (hroom : keyed SwitchTable.key ts (id, ext) = none →
      ts.length < 1 + switcherMaxPmt) :
    ∃ t, (keyed SwitchTable.key ts (id, ext) = some t ∨
        keyed SwitchTable.key ts (id, ext) = none ∧ t = { tableId := id, ext := ext }) ∧
      (bumpVersion switched ts id ext v cur).1 = (swVersion switched t v cur).1 ∧
      (∀ k, keyed SwitchTable.key (bumpVersion switched ts id ext v cur).2 k =
        if k = (id, ext) then some (swVersion switched t v cur).2
        else keyed SwitchTable.key ts k) ∧
      (bumpVersion switched ts id ext v cur).2.map SwitchTable.key =
        ts.map SwitchTable.key ++
          if keyed SwitchTable.key ts (id, ext) = none then [(id, ext)] else [] := by
  cases hk : keyed SwitchTable.key ts (id, ext) with
  | some t =>
    have hkey : (swVersion switched t v cur).2.key = (id, ext) := by
      rw [swVersion_key, (key_of_keyed hk).2]
    have hb : bumpVersion switched ts id ext v cur =
        ((swVersion switched t v cur).1, setTable ts (swVersion switched t v cur).2) := by
      simp only [bumpVersion, swTable, hk]
    refine ⟨t, .inl rfl, by rw [hb], fun k => ?_, by rw [hb, map_key_setTable]; simp⟩
    rw [hb, keyed_setTable, hkey]
    split_ifs with h
    · rw [h, hk]; rfl
    · rfl
  | none =>
    have hkey : (swVersion switched { tableId := id, ext := ext } v cur).2.key = (id, ext) :=
      swVersion_key ..
    have hb : bumpVersion switched ts id ext v cur =
        ((swVersion switched { tableId := id, ext := ext } v cur).1,
          setTable (ts ++ [{ tableId := id, ext := ext }])
            (swVersion switched { tableId := id, ext := ext } v cur).2) := by
      simp only [bumpVersion, swTable, hk, if_pos (hroom hk)]
    refine ⟨_, .inr ⟨rfl, rfl⟩, by rw [hb], fun k => ?_, ?_⟩
    · rw [hb, keyed_setTable, hkey, keyed_append, keyed_cons]
      split_ifs with h h'
      · rw [h, hk]; rfl
      · exact absurd h h'
      · exact absurd ‹_› h
      · simp [keyed]
    · rw [hb, map_key_setTable, map_append]
      rfl

theorem swVersion_other (switched : Bool) (t : SwitchTable) (v : ℕ) :
    (swVersion switched t v false).2 = t := by
  unfold swVersion
  cases switched with
  | false => rfl
  | true => simp only [if_true, Bool.false_eq_true, if_false]; split <;> rfl

/-- The offset of a current section after a switch. -/
def switchOffset (t : SwitchTable) (v : ℕ) : ℕ :=
  t.offset.getD ((t.outVersion.map fun out => (out + 1 + 32 - v) % 32).getD 0)

theorem swVersion_current (switched : Bool) (t : SwitchTable) {v : ℕ} (hv : v < 32) :
    (swVersion switched t v true).1 = (v + if switched then switchOffset t v else 0) % 32 ∧
      (swVersion switched t v true).2.outVersion = some (swVersion switched t v true).1 ∧
      (switched → (swVersion switched t v true).2.offset = some (switchOffset t v)) := by
  cases switched with
  | false => exact ⟨(Nat.mod_eq_of_lt hv).symm, rfl, nofun⟩
  | true => exact ⟨rfl, rfl, fun _ => rfl⟩

/-- **What a note does to its table**: a current section is remembered, and its version follows the
last one's. -/
theorem Remembers.version (h : Remembers switched o last) {t : SwitchTable}
    (ht : o = some t ∨ o = none ∧ t.outVersion = none ∧ t.offset = none)
    (hn : n.emitted = (swVersion switched t n.version n.current).1) (hv : n.version < 32) :
    Remembers switched (some (swVersion switched t n.version n.current).2)
        (if n.current then some (n, false) else last) ∧
      (n.current → Follow last n) := by
  cases hcur : n.current with
  | false =>
    rw [swVersion_other]
    refine ⟨?_, nofun⟩
    rcases ht with rfl | ⟨rfl, hout, hoff⟩
    · exact h
    · cases h with
      | absent => exact .unused hout hoff
  | true =>
    rw [hcur] at hn
    obtain ⟨hnv, hout, hoff⟩ := swVersion_current switched t hv
    refine ⟨.since (switchOffset t n.version) (by rw [hout, hn]) hoff hv (hn.trans hnv), ?_⟩
    rintro - a s rfl
    rw [hnv] at hn
    rcases ht with rfl | ⟨rfl, -, -⟩
    · cases h with
      | before hs hout hoff ha =>
        rw [if_pos rfl]
        rw [if_pos hs, switchOffset, hoff, hout] at hn
        simp only [Option.getD_none, Option.map_some, Option.getD_some] at hn
        omega
      | since o hout hoff hv' ha =>
        rw [if_neg (by simp), ha, hn]
        cases switched with
        | false => simp only [Bool.false_eq_true, if_false]; omega
        | true =>
          rw [switchOffset, hoff rfl]
          simp only [if_true, Option.getD_some]
          omega
    · cases h

/-- **A note passes**: the tables still match the log, and the note follows the last of its table.
-/
theorem TablesLike.version (h : TablesLike switched ts log) (hok : n.Ok)
    (hcard : (programs (log ++ [.version n])).card ≤ switcherMaxPmt)
    (hn : n.emitted = (bumpVersion switched ts n.tableId n.ext n.version n.current).1) :
    TablesLike switched (bumpVersion switched ts n.tableId n.ext n.version n.current).2
        (log ++ [.version n]) ∧
      (n.current → Follow (lastCurrent n.key log) n) := by
  obtain ⟨t, ht, hnv, hkeyed, hkeys⟩ :=
    bumpVersion_spec switched n.version n.current (h.room hok hcard)
  have hstep := (h.remembers n.key).version
    (t := t) (ht.imp_right fun ht => ⟨ht.1, by rw [ht.2], by rw [ht.2]⟩) (hn.trans hnv) hok.1
  refine ⟨⟨?_, ?_, fun k => ?_⟩, hstep.2⟩
  · rw [hkeys]
    split_ifs with hnew
    · exact nodup_concat_key h.nodup hnew
    · rw [append_nil]
      exact h.nodup
  · intro u hu
    have hmem : u.key ∈ ts.map SwitchTable.key ++
        if keyed SwitchTable.key ts n.key = none then [n.key] else [] :=
      hkeys ▸ mem_map_of_mem hu
    rcases mem_append.mp hmem with hold | hnew
    · obtain ⟨w, hw, hkey⟩ := mem_map.mp hold
      exact hkey ▸ (h.known w hw).append _
    · have hkey : u.key = n.key := by
        split_ifs at hnew
        · exact mem_singleton.mp hnew
        · cases hnew
      exact hkey ▸ hok.known log
  · rw [hkeyed k, lastCurrent_version]
    by_cases hk : k = n.key
    · subst hk
      rw [if_pos (show n.key = (n.tableId, n.ext) from rfl)]
      simpa using hstep.1
    · rw [if_neg (show ¬ k = (n.tableId, n.ext) from hk), if_neg (by simp [Ne.symm hk])]
      exact h.remembers k

/-- **Notes pass**, one after the other. -/
theorem Versioned.law {ts' : List SwitchTable} {ns : List VersionNote}
    (h : Versioned switched ts ns ts') (hok : ∀ n ∈ ns, n.Ok) :
    ∀ {log : List SwitcherNote}, (programs (log ++ ns.map .version)).card ≤ switcherMaxPmt →
      TablesLike switched ts log → VersionLaw log →
      TablesLike switched ts' (log ++ ns.map .version) ∧ VersionLaw (log ++ ns.map .version) := by
  induction h with
  | nil ts =>
    intro log _ ht hl
    rw [map_nil, append_nil]
    exact ⟨ht, hl⟩
  | @cons ts ts' n ns hn _ ih =>
    intro log hcard ht hl
    have happ : log ++ (n :: ns).map SwitcherNote.version =
        log ++ [.version n] ++ ns.map .version := by simp
    rw [happ] at hcard ⊢
    have hle := (card_programs_le _ (ns.map .version)).trans hcard
    obtain ⟨ht', hfollow⟩ := ht.version (hok n (by simp)) hle hn
    exact ih (fun m hm => hok m (by simp [hm])) hcard ht' (hl.version hfollow)

/-! ## Switches -/

theorem Remembers.switch (h : Remembers switched o last) :
    Remembers true (o.map fun t => { t with offset := none }) (last.map fun a => (a.1, true)) := by
  cases h with
  | absent => exact .absent
  | unused hout _ => exact .unused hout rfl
  | before _ hout _ ha => exact .before rfl hout rfl ha
  | since o hout _ _ ha => exact .before rfl hout rfl (ha ▸ Nat.mod_lt _ (by omega))

/-- **A switch**: every table starts over, but for the version it emitted last. -/
theorem TablesLike.switch (h : TablesLike switched ts log) :
    TablesLike true (ts.map fun t => { t with offset := none }) (log ++ [.switch]) where
  nodup := by
    rw [map_map]
    exact h.nodup
  known := by
    intro t ht
    obtain ⟨u, hu, rfl⟩ := mem_map.mp ht
    exact (h.known u hu).append _
  remembers := by
    intro k
    rw [keyed_map, lastCurrent_switch]
    · exact (h.remembers k).switch
    · exact fun _ => rfl

end MoqRelay
