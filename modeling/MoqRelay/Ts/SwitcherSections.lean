import MoqRelay.Ts.SwitcherRewrite

/-!
# Ts/SwitcherSections — the switcher and the reader cut the same sections

`sw_feed`, `sw_psi` and the payloads of a PID, next to the reader of the pairs (octet received,
octet emitted): both take the same octets to a section (`Lockstep`), so what the switcher did to a
payload is read off the pieces the reader cuts (`PieceLaw`).
-/

namespace MoqRelay

open List

/-! ## A section's octets -/

variable {s acc : List (UInt8 × UInt8)} {sw : Switcher} {sp : SwitchPid} {d : Bytes}

theorem isLost_map {t : List (UInt8 × UInt8)} (h : s.map Prod.fst = t.map Prod.fst) :
    isLost Prod.fst s = isLost Prod.fst t := by
  rw [isLost, isLost, ← length_map (f := Prod.fst), h, length_map]

theorem versionNote_append (pid : ℕ) (t : List (UInt8 × UInt8))
    (h : 5 < s.length) : versionNote pid (s ++ t) = versionNote pid s := by
  have hfst : 5 < (s.map Prod.fst).length := by simpa using h
  have hsnd : 5 < (s.map Prod.snd).length := by simpa using h
  simp only [versionNote, rd16, map_append]
  rw [octet_append hfst, octet_append hsnd, octet_append (by omega : 3 < (s.map Prod.fst).length),
    octet_append (by omega : 3 + 1 < (s.map Prod.fst).length)]

theorem versionNotes_none (pid : ℕ) {taken : List (UInt8 × UInt8)}
    (h : 5 < acc.length ∨ (acc ++ taken).length ≤ 5) : versionNotes pid acc taken = [] := by
  rw [versionNotes, if_neg]
  simp only [Bool.and_eq_true, decide_eq_true_eq]
  omega

theorem versionNotes_cons (pid : ℕ) (acc taken : List (UInt8 × UInt8)) (x : UInt8 × UInt8) :
    versionNotes pid acc (x :: taken) =
      versionNotes pid acc [x] ++ versionNotes pid (acc ++ [x]) taken := by
  have hcons : acc ++ x :: taken = acc ++ [x] ++ taken := by simp
  rcases Nat.lt_trichotomy acc.length 5 with h | h | h
  · have hshort : (acc ++ [x]).length ≤ 5 := by simp; omega
    rw [versionNotes_none pid (.inr hshort), nil_append, versionNotes, versionNotes, hcons]
    simp only [h.le, hshort]
  · have h6 : 5 < (acc ++ [x]).length := by simp; omega
    have h6' : 5 < (acc ++ [x] ++ taken).length := by simp; omega
    rw [versionNotes_none pid (.inl h6), append_nil, versionNotes, versionNotes, hcons,
      versionNote_append pid taken h6, map_append, isTable_append (by simp; omega)]
    simp only [h6, h6']
  · rw [versionNotes_none pid (.inl h), versionNotes_none pid (.inl h),
      versionNotes_none pid (.inl (by simp; omega))]
    rfl

/-- **The switcher and the reader on the octets of a section**: both take the same octets, and the
switcher's emission is the reader's second components. -/
structure Lockstep (sw : Switcher) (sp : SwitchPid) (acc : List (UInt8 × UInt8)) (d : Bytes)
    (r : Bytes × Bytes × Switcher × SwitchPid)
    (f : List (UInt8 × UInt8) × List (UInt8 × UInt8) × Filled) : Prop where
  length : (r.1 ++ r.2.1).length = d.length
  body : ∃ sp', Body sp' (acc ++ f.1) ∧ sp'.pid = sp.pid ∧ (f.2.2 ≠ .lost → sp' = r.2.2.2)
  same : ∀ x ∈ f.2.1, x.1 = x.2
  rest : r.2.1 = if f.2.2 = .whole then f.2.1.map Prod.fst else []
  pid : r.2.2.2.pid = sp.pid
  last : r.2.2.2.last = sp.last
  inSection : r.2.2.2.inSection = decide (f.2.2 = .more)
  lost : f.2.2 ≠ .more → (r.2.2.2.secLen = 0 ↔ f.2.2 = .lost)
  whole : isWhole Prod.fst (acc ++ f.1) = decide (f.2.2 = .whole)
  tuned : Tuned sw (versionNotes sp.pid acc f.1) r.2.2.1

theorem swFeed_idle (h : sp.inSection = false) (d : Bytes) : swFeed sw sp d = ([], d, sw, sp) := by
  cases d with
  | nil => rfl
  | cons orig d => simp [swFeed, h]

theorem eq_of_mem_zip_self : ∀ x ∈ d.zip d, x.1 = x.2 := by
  intro x hx
  obtain ⟨i, hi⟩ := mem_iff_getElem?.mp hx
  obtain ⟨h1, h2⟩ := getElem?_zip_eq_some.mp hi
  exact Option.some.inj (h1.symm.trans h2)

theorem versionNotes_nil (pid : ℕ) (acc : List (UInt8 × UInt8)) : versionNotes pid acc [] = [] :=
  versionNotes_none pid (by rw [append_nil]; omega)

/-- **Octet by octet**, the switcher feeds what the reader takes. -/
theorem swFeed_lockstep (d : Bytes) :
    ∀ (sw : Switcher) {sp : SwitchPid} {acc : List (UInt8 × UInt8)}, Body sp acc →
      sp.inSection → isWhole Prod.fst acc = false →
      Lockstep sw sp acc d (swFeed sw sp d) (fillSection Prod.fst acc
        (d.zip ((swFeed sw sp d).1 ++ (swFeed sw sp d).2.1))) := by
  induction d with
  | nil =>
    intro sw sp acc h hin hopen
    exact {
      length := rfl
      body := ⟨sp, by simpa [fillSection] using h, rfl, fun _ => rfl⟩
      same := by simp [fillSection]
      rest := rfl
      pid := rfl
      last := rfl
      inSection := hin
      lost := fun h' => absurd rfl h'
      whole := by simpa [fillSection] using hopen
      tuned := (versionNotes_nil sp.pid acc).symm ▸ .refl sw }
  | cons orig d ih =>
    intro sw sp acc h hin hopen
    rcases h.feed sw orig with ⟨hlost, hnone⟩ | ⟨hlost, b, sw', sp', hsome, hfed⟩
    · have hr : swFeed sw sp (orig :: d) =
          (orig :: d, [], sw, { sp with inSection := false, secLen := 0 }) := by
        simp [swFeed, hin, hnone]
      have hf : fillSection Prod.fst acc ((orig :: d).zip (orig :: d)) =
          ([], (orig :: d).zip (orig :: d), .lost) := by
        rw [zip_cons_cons, fillSection, if_pos hlost]
      simp only [hr, append_nil, hf]
      exact {
        length := by simp
        body := ⟨sp, by simpa using h, rfl, fun h' => absurd rfl h'⟩
        same := eq_of_mem_zip_self
        rest := rfl
        pid := rfl
        last := rfl
        inSection := rfl
        lost := fun _ => iff_of_true rfl rfl
        whole := by simpa using hopen
        tuned := (versionNotes_nil sp.pid acc).symm ▸ .refl sw }
    · have hlost' : isLost Prod.fst (acc ++ [(orig, b)]) = false := by
        rw [← hlost]
        exact isLost_map (by simp)
      have hr : swFeed sw sp (orig :: d) =
          (b :: (swFeed sw' sp' d).1, (swFeed sw' sp' d).2) := by
        simp [swFeed, hin, hsome]
      cases hw : isWhole Prod.fst (acc ++ [(orig, b)]) with
      | true =>
        have hidle : sp'.inSection = false := by simp [hfed.inSection, hw]
        have hf : fillSection Prod.fst acc ((orig, b) :: d.zip d) =
            ([(orig, b)], d.zip d, .whole) := by
          rw [fillSection, if_neg (by simp [hlost']), if_pos hw]
        rw [swFeed_idle hidle] at hr
        simp only [hr, cons_append, nil_append, zip_cons_cons, hf]
        exact {
          length := rfl
          body := ⟨sp', hfed.body, hfed.pid, fun _ => rfl⟩
          same := eq_of_mem_zip_self
          rest := by simp [map_fst_zip]
          pid := hfed.pid
          last := hfed.last
          inSection := hidle
          lost := by
            have hlen := hfed.body.len
            simp only [isWhole, Bool.and_eq_true, decide_eq_true_eq] at hw
            rw [if_neg (by omega)] at hlen
            simp [hlen]
          whole := by simpa using hw
          tuned := hfed.tuned }
      | false =>
        have hstep := ih sw' hfed.body (by rw [hfed.inSection, hin, hw]; rfl) hw
        have hf : ∀ l, fillSection Prod.fst acc ((orig, b) :: l) =
            ((orig, b) :: (fillSection Prod.fst (acc ++ [(orig, b)]) l).1,
              (fillSection Prod.fst (acc ++ [(orig, b)]) l).2) := by
          intro l
          rw [fillSection, if_neg (by simp [hlost']), if_neg (by simp [hw])]
        simp only [hr, cons_append, zip_cons_cons, hf]
        have happ : ∀ l, acc ++ (orig, b) :: l = acc ++ [(orig, b)] ++ l := by simp
        obtain ⟨spb, hbody, hpid, hsame⟩ := hstep.body
        exact { hstep with
          length := by simpa using hstep.length
          body := ⟨spb, by rw [happ]; exact hbody, hpid.trans hfed.pid, hsame⟩
          pid := hstep.pid.trans hfed.pid
          last := hstep.last.trans hfed.last
          whole := by rw [happ]; exact hstep.whole
          tuned := by
            rw [versionNotes_cons]
            exact hfed.tuned.trans (hfed.pid ▸ hstep.tuned) }

/-! ## Pieces of a payload -/

/-- What the switcher may change in a section: the version field and the checksum, in the sections
of the table looked for on the PID. -/
def Rewritten (pid : ℕ) (s : List (UInt8 × UInt8)) : Prop :=
  ∀ i x, s[i]? = some x → x.1 ≠ x.2 → isTable pid (s.map Prod.fst) ∧
    (i = 5 ∧ x.2 &&& 0xC1 = x.1 &&& 0xC1 ∨ 3 + SectionState.sectionLength (s.map Prod.fst) ≤ i + 4)

/-- **The law of a piece**: octets outside the sections are kept, a section's are only rewritten,
and a whole one passes its check exactly as the one received does. -/
structure PieceLaw (pid : ℕ) (piece : Piece (UInt8 × UInt8)) : Prop where
  plain : piece.before = none → ∀ x ∈ piece.octets, x.1 = x.2
  rewritten : ∀ acc, piece.before = some acc → Rewritten pid (acc ++ piece.octets)
  checked : ∀ acc, piece.before = some acc → isWhole Prod.fst (acc ++ piece.octets) →
    (crc32 ((acc ++ piece.octets).map Prod.snd) = 0 ↔
      crc32 ((acc ++ piece.octets).map Prod.fst) = 0)

/-- The versions that pass with a piece. -/
def pieceNotes (pid : ℕ) (piece : Piece (UInt8 × UInt8)) : List VersionNote :=
  piece.before.elim [] fun acc => versionNotes pid acc piece.octets

theorem Body.rewritten (h : Body sp s) : Rewritten sp.pid s := by
  intro i x hx hne
  obtain ⟨hr, hi⟩ := h.only i x hx hne
  obtain ⟨h5, ht⟩ := h.table hr
  rw [h.len, if_neg (by omega)] at hi
  exact ⟨ht, hi⟩

variable {pid : ℕ} {l : List (UInt8 × UInt8)} {cur : Option (List (UInt8 × UInt8))}
  {r : Bytes × Bytes × Switcher × SwitchPid}
  {f : List (UInt8 × UInt8) × List (UInt8 × UInt8) × Filled}
  {c : List (Piece (UInt8 × UInt8)) × Option (List (UInt8 × UInt8))} {sw' : Switcher}
  {sp' : SwitchPid} {out : Bytes}

theorem PieceLaw.of_same (h : ∀ x ∈ l, x.1 = x.2) :
    PieceLaw pid ⟨none, l⟩ := ⟨fun _ => h, nofun, nofun⟩

theorem PieceLaw.of_body (h : Body sp (acc ++ l)) : PieceLaw sp.pid ⟨some acc, l⟩ where
  plain := nofun
  rewritten := by
    rintro _ ⟨rfl⟩
    exact h.rewritten
  checked := by
    rintro _ ⟨rfl⟩ hw
    rw [h.crc_eq hw]

/-- Where the switcher stands in the section that the reader has in progress. -/
inductive InStep (sp : SwitchPid) : Option (List (UInt8 × UInt8)) → Prop
  | idle (h : sp.inSection = false) : InStep sp none
  | within {acc : List (UInt8 × UInt8)} (h : sp.inSection) (hb : Body sp acc)
      (hopen : isWhole Prod.fst acc = false) : InStep sp (some acc)

/-- **A stretch of a payload**, emitted and cut. -/
structure IsCut (sw : Switcher) (sp : SwitchPid) (d : Bytes)
    (r : Bytes × Switcher × SwitchPid)
    (c : List (Piece (UInt8 × UInt8)) × Option (List (UInt8 × UInt8))) : Prop where
  length : r.1.length = d.length
  octets : c.1.flatMap Piece.octets = d.zip r.1
  pieces : ∀ piece ∈ c.1, PieceLaw sp.pid piece
  follows : InStep r.2.2 c.2
  pid : r.2.2.pid = sp.pid
  last : r.2.2.last = sp.last
  tuned : Tuned sw (c.1.flatMap (pieceNotes sp.pid)) r.2.1

theorem IsCut.plain (sw : Switcher) (h : InStep sp cur) (d : Bytes) :
    IsCut sw sp d (d, sw, sp) ([⟨none, d.zip d⟩], cur) where
  length := rfl
  octets := by simp
  pieces := by
    rintro _ (_ | ⟨_, ⟨⟩⟩)
    exact .of_same eq_of_mem_zip_self
  follows := h
  pid := rfl
  last := rfl
  tuned := .refl sw

/-- A section of which only some octets come, or whose end cannot be found. -/
theorem Lockstep.cut (h : Lockstep sw sp acc d r f) (hf : f.1 ++ f.2.1 = d.zip (r.1 ++ r.2.1)) :
    IsCut sw sp d (r.1 ++ r.2.1, r.2.2)
      ([⟨some acc, f.1⟩, ⟨none, f.2.1⟩], if f.2.2 = .more then some (acc ++ f.1) else none) := by
  obtain ⟨spb, hbody, hpid, hsame⟩ := h.body
  refine ⟨h.length, by simpa using hf, ?_, ?_, h.pid, h.last, ?_⟩
  · rintro _ (_ | ⟨_, _ | ⟨_, ⟨⟩⟩⟩)
    · exact hpid ▸ .of_body hbody
    · exact .of_same h.same
  · split_ifs with hmore
    · obtain rfl := hsame (by simp [hmore])
      refine .within (by simp [h.inSection, hmore]) hbody ?_
      rw [h.whole, hmore]
      rfl
    · exact .idle (by simp [h.inSection, hmore])
  · simpa [pieceNotes] using h.tuned

theorem continueSection_cut (sw : Switcher) (h : InStep sp cur) (d : Bytes) :
    IsCut sw sp d (continueSection sw sp d)
      (cutContinued Prod.fst cur (d.zip (continueSection sw sp d).1)) := by
  cases h with
  | idle hin =>
    rw [continueSection, if_neg (by simp [hin])]
    exact .plain sw (.idle hin) d
  | within hin hb hopen =>
    rw [continueSection, if_pos hin]
    exact (swFeed_lockstep d sw hb hin hopen).cut (fillSection_append _ _)

/-- A section that ends does not depend on what comes after it. -/
theorem fillSection_whole {taken rest rest' : List (UInt8 × UInt8)}
    (h : fillSection Prod.fst acc (taken ++ rest) = (taken, rest, .whole)) :
    fillSection Prod.fst acc (taken ++ rest') = (taken, rest', .whole) := by
  induction taken generalizing acc with
  | nil =>
    cases rest with
    | nil => simp [fillSection] at h
    | cons x rest =>
      rw [nil_append, fillSection] at h
      split_ifs at h <;> cases h
  | cons x taken ih =>
    rw [cons_append, fillSection] at h ⊢
    split_ifs at h ⊢ with hl hw
    · cases h
    · obtain ⟨rfl⟩ : taken = [] := by simpa using h
      rfl
    · have hf : fillSection Prod.fst (acc ++ [x]) (taken ++ rest) = (taken, rest, .whole) := by
        generalize fillSection Prod.fst (acc ++ [x]) (taken ++ rest) = f at h
        obtain ⟨a, b, c⟩ := f
        simpa using h
      simp only [ih hf]

/-- A section that ends takes the pairs of its own octets. -/
theorem Lockstep.split (h : Lockstep sw sp acc d r f)
    (hf : f.1 ++ f.2.1 = d.zip (r.1 ++ r.2.1)) (hw : f.2.2 = .whole) :
    ∃ d', d = d' ++ r.2.1 ∧ d'.length = r.1.length ∧ f.1 = d'.zip r.1 := by
  have hrest := h.rest
  rw [if_pos hw] at hrest
  have hlen := h.length
  have hd : f.1.map Prod.fst ++ r.2.1 = d := by rw [hrest, ← map_append, hf, map_fst_zip hlen.ge]
  have hl : (f.1.map Prod.fst).length = r.1.length := by
    rw [← hd] at hlen
    simp only [length_append] at hlen
    omega
  refine ⟨_, hd.symm, hl, ?_⟩
  rw [← hd, zip_append hl] at hf
  refine (append_inj hf ?_).1
  rw [length_zip, hl, min_self, ← hl, length_map]

theorem IsCut.of_start {r : Bytes × Switcher × SwitchPid}
    (h : IsCut sw (sectionStart sp) d r c) : IsCut sw sp d r c :=
  { h with }

theorem headD_zip (h : out.length = d.length) :
    ((d.zip out).map Prod.fst).headD 0xFF = 0xFF ↔ d = [] ∨ octet d 0 = 0xFF := by
  rw [map_fst_zip h.ge]
  cases d with
  | nil => simp
  | cons x d => simp [octet]

/-- **Sections back to back**: each one that ends hands over to the next, in the switcher as in the
reader. -/
theorem newSections_cut (n : ℕ) :
    ∀ (sw : Switcher) {sp : SwitchPid} (d : Bytes), sp.inSection = false →
      IsCut sw sp d (newSections n sw sp d)
        (cutSections Prod.fst n (d.zip (newSections n sw sp d).1)) := by
  induction n with
  | zero => exact fun sw _ d h => .plain sw (.idle h) d
  | succ n ih =>
    intro sw sp d h
    by_cases hstop : d = [] ∨ octet d 0 = 0xFF
    · have hr : newSections (n + 1) sw sp d = (d, sw, sp) := by
        rw [newSections, if_pos (by simpa using hstop)]
      rw [hr, cutSections, if_pos ((headD_zip rfl).mpr hstop)]
      exact .plain sw (.idle h) d
    · have hstep := swFeed_lockstep d sw (Body.start sp) rfl rfl
      rcases hr : swFeed sw (sectionStart sp) d with ⟨out, rest, sw', sp'⟩
      rw [hr] at hstep
      rw [newSections, if_neg (by simpa using hstop)]
      simp only [hr, Bool.or_eq_true, decide_eq_true_eq]
      rcases hf : fillSection Prod.fst [] (d.zip (out ++ rest)) with ⟨taken, left, st⟩
      rw [hf] at hstep
      have hfill : taken ++ left = d.zip (out ++ rest) := by
        have := @fillSection_append _ Prod.fst [] (d.zip (out ++ rest))
        rwa [hf] at this
      cases st with
      | more =>
        rw [if_pos (.inl hstep.inSection), cutSections,
          if_neg (mt (headD_zip hstep.length).mp hstop), hf]
        exact (hstep.cut hfill).of_start
      | lost =>
        rw [if_pos (.inr ((hstep.lost nofun).mpr rfl)), cutSections,
          if_neg (mt (headD_zip hstep.length).mp hstop), hf]
        exact (hstep.cut hfill).of_start
      | whole =>
        have hidle : sp'.inSection = false := hstep.inSection
        have hlen : sp'.secLen ≠ 0 := fun h0 => nomatch (hstep.lost nofun).mp h0
        rw [if_neg (by simp [hidle, hlen])]
        obtain ⟨d', hd, hd', rfl⟩ := hstep.split hfill rfl
        have hnext := ih sw' rest hidle
        have hzip : d.zip (out ++ (newSections n sw' sp' rest).1) =
            d'.zip out ++ rest.zip (newSections n sw' sp' rest).1 := by
          rw [hd, zip_append hd']
        have hout : (out ++ (newSections n sw' sp' rest).1).length = d.length := by
          rw [hd, length_append, length_append, hnext.length, hd']
        rw [cutSections, if_neg (mt (headD_zip hout).mp hstop), hzip]
        rw [← hfill] at hf
        rw [fillSection_whole hf]
        obtain ⟨spb, hbody, hpid, -⟩ := hstep.body
        exact {
          length := hout
          octets := by rw [flatMap_cons, hnext.octets, hzip]
          pieces := by
            rintro piece (_ | ⟨_, hp⟩)
            · exact hpid ▸ .of_body hbody
            · exact hstep.pid ▸ hnext.pieces piece hp
          follows := hnext.follows
          pid := hnext.pid.trans hstep.pid
          last := hnext.last.trans hstep.last
          tuned := by exact hstep.tuned.trans (hstep.pid ▸ hnext.tuned) }

/-! ## Payloads -/

/-- Two stretches, one after the other. -/
theorem IsCut.append {spm : SwitchPid} {d' : Bytes} {ps : List (Piece (UInt8 × UInt8))}
    {r : Bytes × Switcher × SwitchPid}
    (h : IsCut sw sp d (out, sw', spm) (ps, cur)) (hpid : sp'.pid = spm.pid)
    (hlast : sp'.last = spm.last) (h' : IsCut sw' sp' d' r c) :
    IsCut sw sp (d ++ d') (out ++ r.1, r.2) (ps ++ c.1, c.2) where
  length := by rw [length_append, length_append, h.length, h'.length]
  octets := by rw [flatMap_append, h.octets, h'.octets, zip_append h.length.symm]
  pieces := by
    intro piece hp
    rcases mem_append.mp hp with hp | hp
    · exact h.pieces piece hp
    · exact (hpid.trans h.pid) ▸ h'.pieces piece hp
  follows := h'.follows
  pid := h'.pid.trans (hpid.trans h.pid)
  last := h'.last.trans (hlast.trans h.last)
  tuned := by
    rw [flatMap_append]
    exact h.tuned.trans ((hpid.trans h.pid) ▸ h'.tuned)

theorem cutPayload_start (cur : Option (List (UInt8 × UInt8))) (x : UInt8)
    {a b : List (UInt8 × UInt8)} (ha : a.length = x.toNat) :
    cutPayload Prod.fst cur true ((x, x) :: (a ++ b)) =
      ([⟨none, [(x, x)]⟩] ++ (cutContinued Prod.fst cur a).1 ++
        (cutSections Prod.fst b.length b).1, (cutSections Prod.fst b.length b).2) := by
  have hptr : ((((x, x) :: (a ++ b)).map Prod.fst).headD 0).toNat = a.length := by simp [ha]
  rw [cutPayload, hptr, drop_one, tail_cons]
  dsimp only
  rw [take_left, drop_left]
  rfl

/-- **A payload**, emitted and cut. -/
theorem psiPayload_cut (sw : Switcher) (h : InStep sp cur) (pusi : Bool)
    (hptr : pusi → 1 + (octet d 0).toNat ≤ d.length) :
    IsCut sw sp d (psiPayload sw sp pusi d)
      (cutPayload Prod.fst cur pusi (d.zip (psiPayload sw sp pusi d).1)) := by
  cases pusi with
  | false => exact continueSection_cut sw h d
  | true =>
    rcases d with _ | ⟨x, d⟩
    · exact absurd (hptr rfl) (by simp)
    have hx : x.toNat ≤ d.length := by
      have := hptr rfl
      simp only [octet, getD_cons_zero, length_cons] at this
      omega
    -- the pointer, the rest of the section in progress, and the sections that start here
    have hcont := continueSection_cut sw h (d.take x.toNat)
    simp only [psiPayload, if_true, octet, getD_cons_zero, drop_one, tail_cons, take_succ_cons,
      take_zero]
    generalize continueSection sw sp (d.take x.toNat) = c at hcont ⊢
    obtain ⟨cont, sw', sp'⟩ := c
    have hnew := @newSections_cut (d.drop x.toNat).length sw' { sp' with inSection := false }
      (d.drop x.toNat) rfl
    generalize newSections (d.drop x.toNat).length sw' _ (d.drop x.toNat) = n at hnew ⊢
    obtain ⟨new, swn, spn⟩ := n
    have hall := IsCut.append ((IsCut.plain sw h [x]).append rfl rfl hcont)
      (show ({ sp' with inSection := false } : SwitchPid).pid = sp'.pid from rfl) rfl hnew
    have hlen : ((d.take x.toNat).zip cont).length = x.toNat := by
      rw [length_zip, hcont.length, min_self, length_take, min_eq_left hx]
    have hzip : (x :: d).zip ([x] ++ cont ++ new) =
        (x, x) :: ((d.take x.toNat).zip cont ++ (d.drop x.toNat).zip new) := by
      rw [← zip_append hcont.length.symm, take_append_drop]
      rfl
    rw [hzip, cutPayload_start cur x hlen]
    have hb : ((d.drop x.toNat).zip new).length = (d.drop x.toNat).length := by
      rw [length_zip, hnew.length, min_self]
    rw [hb]
    have hd : [x] ++ d.take x.toNat ++ d.drop x.toNat = x :: d := by simp
    rwa [hd] at hall

/-! ## The reader of a PID -/

/-- The last payload of a PID, received and emitted, and as it was read. -/
inductive LastLike (pid : ℕ) : Option LastSwitched → Option (LastRead (UInt8 × UInt8)) → Prop
  | none : LastLike pid none none
  | some {cc : ℕ} {pusi : Bool} {input output : Bytes} {pieces : List (Piece (UInt8 × UInt8))}
      (hlen : output.length = input.length)
      (hoctets : pieces.flatMap Piece.octets = input.zip output)
      (hlaw : ∀ piece ∈ pieces, PieceLaw pid piece) :
      LastLike pid (some ⟨cc, pusi, input, output⟩) (some ⟨cc, pusi, input.zip output, pieces⟩)

/-- **A PID and its reader**: the section in progress and the last payload are the same. -/
structure Matches (sp : SwitchPid) (r : Reader (UInt8 × UInt8)) : Prop where
  follows : InStep sp r.cur
  last : LastLike sp.pid sp.last r.last

/-- **A payload of a tracked PID**, emitted and read. -/
structure IsRead (sw : Switcher) (sp : SwitchPid) (p : TsPacket) (r : Reader (UInt8 × UInt8))
    (out : Bytes × Switcher × SwitchPid)
    (read : List (Piece (UInt8 × UInt8)) × Reader (UInt8 × UInt8)) : Prop where
  length : out.1.length = p.payload.length
  octets : read.1.flatMap Piece.octets = p.payload.zip out.1
  pieces : ∀ piece ∈ read.1, PieceLaw sp.pid piece
  pid : out.2.2.pid = sp.pid
  reader : Matches out.2.2 read.2
  repeated : ∀ l, r.repeated Prod.fst p.continuityCounter p.payloadUnitStart
    (p.payload.zip out.1) = some l → out.1 = l.octets.map Prod.snd
  tuned : Tuned sw (if (r.repeated Prod.fst p.continuityCounter p.payloadUnitStart
    (p.payload.zip out.1)).isSome then [] else read.1.flatMap (pieceNotes sp.pid)) out.2.1

variable {l' : Option (LastRead (UInt8 × UInt8))} {p : TsPacket}

/-- The PID's own test for a repetition is the reader's. -/
theorem LastLike.repeated {l : Option LastSwitched} (h : LastLike pid l l')
    (cur : Option (List (UInt8 × UInt8))) (hout : out.length = p.payload.length) :
    LastLike pid (l.filter fun l =>
        l.cc = p.continuityCounter && l.pusi = p.payloadUnitStart && l.input = p.payload)
      (Reader.repeated Prod.fst ⟨cur, l'⟩ p.continuityCounter p.payloadUnitStart
        (p.payload.zip out)) := by
  cases h with
  | none => exact .none
  | some hlen hoctets hlaw =>
    rw [Reader.repeated, Option.filter_some, Option.filter_some, map_fst_zip hlen.ge,
      map_fst_zip hout.ge]
    split_ifs
    · exact .some hlen hoctets hlaw
    · exact .none

theorem LastLike.follows {l : Option LastSwitched} (h : LastLike pid l l') (cc : ℕ) :
    (l.any fun l => cc = (l.cc + 1) % 16) = l'.any fun l => cc = (l.cc + 1) % 16 := by
  cases h <;> rfl

theorem Body.set (h : Body sp s) (i : Bool)
    (l : Option LastSwitched) : Body { sp with inSection := i, last := l } s :=
  { h with }

/-- The section in progress is given up, unless this packet follows the last. -/
theorem InStep.continued (h : InStep sp cur) (next : Bool) :
    InStep { sp with inSection := sp.inSection && next } (if next then cur else none) := by
  cases next with
  | false => exact .idle (by simp)
  | true =>
    cases h with
    | idle hin => exact .idle (by simp [hin])
    | within hin hb hopen => exact .within (by simp [hin]) (hb.set _ _) hopen

theorem InStep.setLast
    (h : InStep sp cur) (l : Option LastSwitched) : InStep { sp with last := l } cur := by
  cases h with
  | idle hin => exact .idle hin
  | within hin hb hopen => exact .within hin (hb.set _ _) hopen

/-- **The switcher and the reader on a payload**: a repetition is emitted as before; any other is
cut. -/
theorem swPsi_read {r : Reader (UInt8 × UInt8)} (h : Matches sp r)
    (hptr : p.payloadUnitStart → 1 + (octet p.payload 0).toNat ≤ p.payload.length) :
    IsRead sw sp p r (swPsi sw sp p)
      (r.read Prod.fst p.continuityCounter p.payloadUnitStart
        (p.payload.zip (swPsi sw sp p).1)) := by
  obtain ⟨cur, last⟩ := r
  rcases hrep : sp.last.filter fun l =>
      l.cc = p.continuityCounter && l.pusi = p.payloadUnitStart && l.input = p.payload with _ | l
  · have hcut := psiPayload_cut sw
      (h.follows.continued (sp.last.any fun l => p.continuityCounter = (l.cc + 1) % 16))
      p.payloadUnitStart hptr
    simp only [swPsi, hrep]
    generalize psiPayload sw _ p.payloadUnitStart p.payload = out at hcut ⊢
    have hlike := h.last.repeated cur hcut.length
    rw [hrep] at hlike
    cases hr : Reader.repeated Prod.fst ⟨cur, last⟩ p.continuityCounter p.payloadUnitStart
      (p.payload.zip out.1) with
    | some l => rw [hr] at hlike; cases hlike
    | none =>
      rw [Reader.read, hr, ← h.last.follows]
      exact { hcut with
        reader := ⟨hcut.follows.setLast _, .some hcut.length hcut.octets (hcut.pid ▸ hcut.pieces)⟩
        repeated := by
          intro l hl
          rw [hr] at hl
          cases hl
        tuned := by
          rw [hr]
          exact hcut.tuned }
  · obtain ⟨hl, hmatch⟩ := Option.filter_eq_some_iff.mp hrep
    simp only [Bool.and_eq_true, decide_eq_true_eq] at hmatch
    have hpsi : swPsi sw sp p = (l.output, sw, sp) := by rw [swPsi, hrep]
    have hlen : l.output.length = p.payload.length := by
      have hlast := h.last
      rw [hl] at hlast
      cases hlast with
      | some hlen _ _ => rw [hlen, ← hmatch.2]
    have hlike := h.last.repeated cur hlen
    rw [hrep] at hlike
    rw [hpsi]
    cases hr : Reader.repeated Prod.fst ⟨cur, last⟩ p.continuityCounter p.payloadUnitStart
      (p.payload.zip l.output) with
    | none => rw [hr] at hlike; cases hlike
    | some l' =>
      rw [hr] at hlike
      rw [Reader.read, hr]
      cases hlike with
      | some hlen' hoctets hlaw =>
        exact {
          length := hlen
          octets := by rw [← hmatch.2]; exact hoctets
          pieces := hlaw
          pid := rfl
          reader := h
          repeated := by
            intro l hl
            rw [hr] at hl
            cases hl
            exact (map_snd_zip hlen'.le).symm
          tuned := by
            rw [hr]
            exact .refl sw }

end MoqRelay
