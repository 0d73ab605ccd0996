import MoqRelay.Lib.Trace
import MoqRelay.Ts.Sections
import MoqRelay.Ts.Switcher

/-!
# Ts/SwitcherRewrite — what the switcher changes, section by section

The switcher beside a reader of the pairs (octet received, octet emitted): wherever the switcher
takes up a section, the reader cuts the same one (`Body`).  So every octet that differs is a version
field or a `CRC_32` octet of a PAT or PMT section; the two checksums of a section differ by a word
that the patched field cancels, octet by octet (`crcStep_diff`), so both sections check to the same
value.
-/

namespace MoqRelay

open List

open SectionState (sectionLength)

/-! ## The patched checksum -/

/-- **A difference of two checksums moves up** when the octets differ by its top octet. -/
theorem crcStep_diff (c δ : UInt32) (b : UInt8) :
    crcStep (c ^^^ δ) (b ^^^ (δ >>> 24).toUInt8) = crcStep c b ^^^ (δ <<< 8) := by
  have htop : ((δ >>> 24).toUInt8).toUInt32 = δ >>> 24 := by
    apply UInt32.toNat_inj.mp
    have := δ.toNat_lt
    simp [Nat.shiftRight_eq_div_pow]
    omega
  have hidx : ((c ^^^ δ) >>> 24) ^^^ (b ^^^ (δ >>> 24).toUInt8).toUInt32 =
      (c >>> 24) ^^^ b.toUInt32 := by
    rw [UInt8.toUInt32_xor, htop, UInt32.shiftRight_xor, UInt32.xor_comm b.toUInt32,
      UInt32.xor_assoc, ← UInt32.xor_assoc (δ >>> 24), UInt32.xor_self, UInt32.zero_xor]
  rw [crcStep, crcStep, hidx, UInt32.shiftLeft_xor, UInt32.xor_assoc, UInt32.xor_assoc,
    UInt32.xor_comm (δ <<< 8)]

/-- The octets of a word come to its top one by one. -/
theorem wordOctet_top (w : UInt32) :
    wordOctet w 0 = (w >>> 24).toUInt8 ∧ wordOctet w 1 = ((w <<< 8) >>> 24).toUInt8 ∧
      wordOctet w 2 = ((w <<< 8 <<< 8) >>> 24).toUInt8 ∧
      wordOctet w 3 = ((w <<< 8 <<< 8 <<< 8) >>> 24).toUInt8 := by
  refine ⟨rfl, ?_, ?_, ?_⟩ <;> apply UInt8.toNat_inj.mp <;>
    simp [wordOctet, Nat.shiftRight_eq_div_pow, Nat.shiftLeft_eq] <;> omega

theorem wordOctet_xor (v w : UInt32) (i : ℕ) :
    wordOctet (v ^^^ w) i = wordOctet v i ^^^ wordOctet w i := by
  rw [wordOctet, UInt32.shiftRight_xor, UInt32.toUInt8_xor, wordOctet, wordOctet]

theorem shiftLeft_word (w : UInt32) : w <<< 8 <<< 8 <<< 8 <<< 8 = 0 := by
  apply UInt32.toNat_inj.mp
  simp [Nat.shiftLeft_eq]
  omega

/-- **A patched checksum field** brings both checksums to the same value. -/
theorem crc_patch (c c' : UInt32) (a b d e : UInt8) :
    [a ^^^ wordOctet c 0 ^^^ wordOctet c' 0, b ^^^ wordOctet c 1 ^^^ wordOctet c' 1,
      d ^^^ wordOctet c 2 ^^^ wordOctet c' 2, e ^^^ wordOctet c 3 ^^^ wordOctet c' 3].foldl
        crcStep c' = [a, b, d, e].foldl crcStep c := by
  obtain ⟨δ, rfl⟩ : ∃ δ, c' = c ^^^ δ :=
    ⟨c ^^^ c', by rw [← UInt32.xor_assoc, UInt32.xor_self, UInt32.zero_xor]⟩
  have hword : ∀ (x : UInt8) (i : ℕ),
      x ^^^ wordOctet c i ^^^ wordOctet (c ^^^ δ) i = x ^^^ wordOctet δ i := by
    intro x i
    rw [wordOctet_xor, UInt8.xor_assoc, ← UInt8.xor_assoc (wordOctet c i), UInt8.xor_self,
      UInt8.zero_xor]
  obtain ⟨h0, h1, h2, h3⟩ := wordOctet_top δ
  simp only [hword, foldl_cons, foldl_nil]
  rw [h0, crcStep_diff, h1, crcStep_diff, h2, crcStep_diff, h3, crcStep_diff, shiftLeft_word,
    UInt32.xor_zero]

/-! ## The section in progress -/

/-- A section of the table looked for on a PID, with a header and a checksum. -/
def isTable (pid : ℕ) (s : Bytes) : Bool :=
  octet s 0 = wantedTable pid && (octet s 1 &&& 0x80 ≠ 0) && 12 ≤ 3 + sectionLength s

/-- How many octets of a section its checksums have run over, of `k`. -/
def checkedLen (secLen k : ℕ) : ℕ := if secLen = 0 then k else secLen - 4

/-- **A PID in the middle of a section**, next to the pairs of its octets received and emitted. -/
structure Body (sp : SwitchPid) (s : List (UInt8 × UInt8)) : Prop where
  pos : sp.secPos = s.length
  hdr : sp.hdr = (s.map Prod.fst).take 8
  len : sp.secLen = if s.length < 3 then 0 else 3 + sectionLength (s.map Prod.fst)
  /-- What differs is a version field or the checksum of a section marked for rewriting. -/
  only : ∀ i x, s[i]? = some x → x.1 ≠ x.2 → sp.rewrite ∧
    (i = 5 ∧ x.2 &&& 0xC1 = x.1 &&& 0xC1 ∨ sp.secLen ≤ i + 4)
  table : sp.rewrite → 5 < s.length ∧ isTable sp.pid (s.map Prod.fst)
  crc : sp.secLen = 0 ∨ 12 ≤ sp.secLen →
    sp.crcOrig = crc32 ((s.map Prod.fst).take (checkedLen sp.secLen s.length)) ∧
      sp.crcNew = crc32 ((s.map Prod.snd).take (checkedLen sp.secLen s.length))
  patch : sp.rewrite → ∀ i x, s[i]? = some x → sp.secLen ≤ i + 4 →
    x.2 = x.1 ^^^ wordOctet sp.crcOrig (i + 4 - sp.secLen) ^^^
      wordOctet sp.crcNew (i + 4 - sp.secLen)

theorem Body.start (sp : SwitchPid) : Body (sectionStart sp) [] where
  pos := rfl
  hdr := rfl
  len := rfl
  only := by simp
  table := by simp [sectionStart]
  crc := fun _ => ⟨rfl, rfl⟩
  patch := by simp

/-! ## Sections by prefix -/

variable {s t : Bytes} {i n : ℕ}

theorem octet_append (h : i < s.length) : octet (s ++ t) i = octet s i := by
  simp [octet, getD, getElem?_append_left h]

theorem octet_take (h : i < n) : octet (s.take n) i = octet s i := by simp [octet, getD, h]

theorem sectionLength_append (h : 3 ≤ s.length) : sectionLength (s ++ t) = sectionLength s := by
  rw [sectionLength, sectionLength, octet_append (by omega), octet_append (by omega)]

theorem sectionLength_take (h : 3 ≤ n) : sectionLength (s.take n) = sectionLength s := by
  rw [sectionLength, sectionLength, octet_take (by omega), octet_take (by omega)]

theorem isTable_append {pid : ℕ} (h : 3 ≤ s.length) : isTable pid (s ++ t) = isTable pid s := by
  rw [isTable, isTable, octet_append (by omega), octet_append (by omega), sectionLength_append h]

theorem crc32_concat (s : Bytes) (b : UInt8) : crc32 (s ++ [b]) = crcStep (crc32 s) b := by
  rw [crc32, crc32, foldl_concat]

/-! ## The whole section -/

variable {sp : SwitchPid}

/-- **Both sections check alike**: the one received and the one emitted have the same checksum. -/
theorem Body.crc_eq {s : List (UInt8 × UInt8)} (h : Body sp s)
    (hw : isWhole Prod.fst s) : crc32 (s.map Prod.snd) = crc32 (s.map Prod.fst) := by
  simp only [isWhole, Bool.and_eq_true, decide_eq_true_eq] at hw
  have hlen : sp.secLen = s.length := by rw [h.len, if_neg (by omega)]; exact hw.2.symm
  cases hr : sp.rewrite with
  | false =>
    refine congrArg crc32 (map_congr_left fun x hx => Eq.symm ?_)
    obtain ⟨i, hi⟩ := mem_iff_getElem?.mp hx
    by_contra hne
    exact Bool.false_ne_true (hr.symm.trans (h.only i x hi hne).1)
  | true =>
    have htab := (h.table hr).2
    simp only [isTable, Bool.and_eq_true, decide_eq_true_eq] at htab
    obtain ⟨horig, hnew⟩ := h.crc (.inr (by omega))
    rw [checkedLen, hlen] at horig hnew
    -- the last four pairs, against the two checksums of what comes before them
    obtain ⟨t, f, rfl, hf⟩ : ∃ t f, s = t ++ f ∧ f.length = 4 :=
      ⟨_, _, (take_append_drop (s.length - 4) s).symm, by simp; omega⟩
    obtain ⟨a, b, d, e, rfl⟩ : ∃ a b d e, f = [a, b, d, e] := by
      rcases f with _ | ⟨a, _ | ⟨b, _ | ⟨d, _ | ⟨e, _ | ⟨_, _⟩⟩⟩⟩⟩ <;> cases hf
      exact ⟨a, b, d, e, rfl⟩
    have ht : (t ++ [a, b, d, e]).length - 4 = t.length := by simp
    rw [map_append, take_left' (by simp)] at horig hnew
    have hp : ∀ j x, [a, b, d, e][j]? = some x →
        x.2 = x.1 ^^^ wordOctet sp.crcOrig j ^^^ wordOctet sp.crcNew j := by
      intro j x hx
      have := h.patch hr (t.length + j) x
        (by rw [getElem?_append_right (by omega)]; simpa using hx)
        (by omega)
      rwa [show t.length + j + 4 - sp.secLen = j by omega] at this
    rw [crc32, map_append, foldl_append, crc32, map_append, foldl_append]
    change [a.2, b.2, d.2, e.2].foldl crcStep (crc32 (t.map Prod.snd)) =
      [a.1, b.1, d.1, e.1].foldl crcStep (crc32 (t.map Prod.fst))
    rw [hp 0 a rfl, hp 1 b rfl, hp 2 d rfl, hp 3 e rfl, ← horig, ← hnew, crc_patch]

/-! ## Versions, as they pass -/

/-- The version octet of a section of a table, as it passes. -/
structure VersionNote where
  tableId : UInt8
  ext : ℕ
  current : Bool
  (version emitted : ℕ)
  deriving DecidableEq, Repr

/-- The version octet of a section of a table, received and emitted. -/
def versionNote (pid : ℕ) (s : List (UInt8 × UInt8)) : VersionNote where
  tableId := wantedTable pid
  ext := if wantedTable pid = 0x02 then rd16 (s.map Prod.fst) 3 else 0
  current := octet (s.map Prod.fst) 5 &&& 1 ≠ 0
  version := (octet (s.map Prod.fst) 5).toNat / 2 % 32
  emitted := (octet (s.map Prod.snd) 5).toNat / 2 % 32

/-- The notes of octets that go on with a section: one, if its version octet is among them. -/
def versionNotes (pid : ℕ) (acc taken : List (UInt8 × UInt8)) : List VersionNote :=
  if acc.length ≤ 5 && 5 < (acc ++ taken).length && isTable pid ((acc ++ taken).map Prod.fst)
  then [versionNote pid (acc ++ taken)] else []

/-- **The tables follow the notes**: each version emitted is the table's answer. -/
inductive Versioned (switched : Bool) :
    List SwitchTable → List VersionNote → List SwitchTable → Prop
  | nil (ts : List SwitchTable) : Versioned switched ts [] ts
  | cons {ts ts' : List SwitchTable} {n : VersionNote} {ns : List VersionNote}
      (hn : n.emitted = (bumpVersion switched ts n.tableId n.ext n.version n.current).1)
      (h : Versioned switched
        (bumpVersion switched ts n.tableId n.ext n.version n.current).2 ns ts') :
      Versioned switched ts (n :: ns) ts'

variable {b : Bool} {ts ts' : List SwitchTable} {ns ns' : List VersionNote} {sw : Switcher}

theorem Versioned.eq_of_nil (h : Versioned b ts [] ts') : ts' = ts := by
  cases h
  rfl

theorem Versioned.trans {ts'' : List SwitchTable}
    (h : Versioned b ts ns ts') (h' : Versioned b ts' ns' ts'') :
    Versioned b ts (ns ++ ns') ts'' := by
  induction h with
  | nil ts => exact h'
  | cons hn _ ih => exact .cons hn (ih h')

/-- **What feeding octets does to the switcher** besides the PID in hand: versions pass, and fresh
PIDs are learned. -/
structure Tuned (sw : Switcher) (ns : List VersionNote) (sw' : Switcher) : Prop where
  packetSize : sw'.packetSize = sw.packetSize
  switched : sw'.switched = sw.switched
  tables : Versioned sw.switched sw.tables ns sw'.tables
  pids : ∃ new : List ℕ, sw'.pids = sw.pids ++ new.map fun p => { pid := p }
  nodup : (sw.pids.map SwitchPid.pid).Nodup → (sw'.pids.map SwitchPid.pid).Nodup

theorem Tuned.refl (sw : Switcher) : Tuned sw [] sw := ⟨rfl, rfl, .nil _, ⟨[], by simp⟩, id⟩

theorem Tuned.trans {a b c : Switcher} (h : Tuned a ns b)
    (h' : Tuned b ns' c) : Tuned a (ns ++ ns') c := by
  obtain ⟨new, hnew⟩ := h.pids
  obtain ⟨new', hnew'⟩ := h'.pids
  refine ⟨h'.packetSize.trans h.packetSize, h'.switched.trans h.switched,
    h.tables.trans (h.switched ▸ h'.tables), ⟨new ++ new', ?_⟩, h'.nodup ∘ h.nodup⟩
  rw [hnew', hnew, map_append, append_assoc]

theorem Tuned.trackPmt (sw : Switcher) (pid : ℕ) : Tuned sw [] (sw.trackPmt pid) := by
  rw [Switcher.trackPmt]
  split_ifs with hskip
  · exact .refl sw
  · refine ⟨rfl, rfl, .nil _, ⟨[pid], rfl⟩, fun hn => ?_⟩
    have hnone : sw.findPid pid = none := by
      simp only [Bool.or_eq_true, decide_eq_true_eq, not_or] at hskip
      exact Option.not_isSome_iff_eq_none.mp hskip.2
    rw [map_append]
    exact nodup_concat_key hn hnone
  · exact .refl sw

/-- What each element of a list leaves of the switcher, they all leave. -/
theorem Tuned.foldl {α : Type*} {f : Switcher → α → Switcher} (hf : ∀ sw a, Tuned sw [] (f sw a))
    (l : List α) (sw : Switcher) : Tuned sw [] (l.foldl f sw) :=
  run_rel Tuned.refl (fun _ _ _ h h' => h.trans h') hf l sw

theorem Tuned.learnPat (sw : Switcher) : Tuned sw [] sw.learnPat := by
  rw [Switcher.learnPat]
  split_ifs
  · exact .refl sw
  · refine .foldl (fun sw e => ?_) _ sw
    split_ifs
    · exact .refl sw
    · exact .trackPmt sw e.2

theorem Tuned.patSec {sw' : Switcher} (h : Tuned sw ns sw')
    (d : Bytes) : Tuned sw ns { sw' with patSec := d } :=
  { h with }

/-! ## One octet -/

/-- The octets of the header, and with the third one the length. -/
def headed (sp : SwitchPid) (orig : UInt8) : SwitchPid :=
  { sp with
    hdr := if sp.secPos < 8 then sp.hdr ++ [orig] else sp.hdr
    secLen := if sp.secPos = 2 then 3 + sectionLength (sp.hdr ++ [orig]) else sp.secLen }

/-- The version octet, where it is. -/
def versioned (sw : Switcher) (sp : SwitchPid) (orig : UInt8) : UInt8 × Switcher × SwitchPid :=
  if sp.secPos = 5 then versionOctet sw sp orig else (orig, sw, sp)

theorem feedOctet_eq (sw : Switcher) (sp : SwitchPid) (orig : UInt8) :
    feedOctet sw sp orig =
      if sp.secPos = 2 ∧ sectionLength (headed sp orig).hdr > sectionMax - 3 then none
      else
        let v := versioned sw (headed sp orig) orig
        let c := checksumOctet v.2.2 sp.secPos orig v.1
        some (c.1, (advance v.2.1 c.2 orig).1, (advance v.2.1 c.2 orig).2) := by
  by_cases h2 : sp.secPos = 2
  · simp [feedOctet, versioned, headed, h2]
  · by_cases h8 : sp.secPos < 8 <;> simp [feedOctet, versioned, headed, h2, h8]

theorem advance_sw (sw : Switcher) (sp : SwitchPid) (orig : UInt8) :
    Tuned sw [] (advance sw sp orig).1 := by
  have hcopy : Tuned sw [] (if sp.patCopy && 5 ≤ sp.secPos && sp.secPos < sectionMax
      then { sw with patSec := sw.patSec ++ [orig] } else sw) := by
    split_ifs
    · exact (Tuned.refl sw).patSec _
    · exact .refl sw
  simp only [advance]
  generalize (if sp.patCopy && 5 ≤ sp.secPos && sp.secPos < sectionMax
    then { sw with patSec := sw.patSec ++ [orig] } else sw) = sw' at hcopy ⊢
  split_ifs
  · exact hcopy.trans (.learnPat sw')
  · exact hcopy
  · exact hcopy

theorem advance_sp (sw : Switcher) (sp : SwitchPid) (orig : UInt8) :
    (advance sw sp orig).2 = { sp with
        secPos := sp.secPos + 1
        inSection := sp.inSection && !(sp.secLen ≠ 0 && sp.secPos + 1 = sp.secLen) } := by
  simp only [advance]
  cases h : (decide (sp.secLen ≠ 0) && decide (sp.secPos + 1 = sp.secLen)) <;> simp

section Concat

variable {sp sp' : SwitchPid} {s : List (UInt8 × UInt8)} {orig b : UInt8}

theorem Body.secLen_concat (h : Body sp s) (hlen : sp'.secLen = if s.length + 1 < 3 then 0
      else 3 + sectionLength (s.map Prod.fst ++ [orig])) (h3 : 3 ≤ s.length) :
    sp'.secLen = sp.secLen := by
  rw [hlen, h.len, if_neg (by omega), if_neg (by omega), sectionLength_append (by simpa using h3)]

/-- **One octet more.**  Before the checksum field it runs through both checksums; in the field it
is patched, if the section is rewritten. -/
theorem Body.concat (h : Body sp s) (hpos : sp'.secPos = s.length + 1)
    (hhdr : sp'.hdr = (s.map Prod.fst ++ [orig]).take 8)
    (hlen : sp'.secLen = if s.length + 1 < 3 then 0
      else 3 + sectionLength (s.map Prod.fst ++ [orig]))
    (hrw : sp.rewrite → sp'.rewrite)
    (htab : sp'.rewrite → 5 ≤ s.length ∧ isTable sp'.pid (s.map Prod.fst ++ [orig]))
    (hb : orig ≠ b → sp'.rewrite ∧ (s.length = 5 ∧ b &&& 0xC1 = orig &&& 0xC1 ∨
      sp'.secLen ≤ s.length + 4))
    (hcrc : (sp'.secLen = 0 ∨ s.length + 4 < sp'.secLen) ∧
        sp'.crcOrig = crcStep sp.crcOrig orig ∧ sp'.crcNew = crcStep sp.crcNew b ∨
      (sp'.secLen ≠ 0 ∧ sp'.secLen ≤ s.length + 4) ∧
        sp'.crcOrig = sp.crcOrig ∧ sp'.crcNew = sp.crcNew ∧ (sp'.rewrite → sp.rewrite ∧
          b = orig ^^^ wordOctet sp.crcOrig (s.length + 4 - sp'.secLen) ^^^
            wordOctet sp.crcNew (s.length + 4 - sp'.secLen))) : Body sp' (s ++ [(orig, b)]) where
  pos := by simpa using hpos
  hdr := by simpa using hhdr
  len := by simpa using hlen
  only := by
    intro i x hx hne
    rw [getElem?_snoc] at hx
    split_ifs at hx with hi
    · cases hx
      exact hi ▸ hb hne
    · obtain ⟨hr, hi⟩ := h.only i x hx hne
      rw [h.secLen_concat hlen (by have := (h.table hr).1; omega)]
      exact ⟨hrw hr, hi⟩
  table := by
    intro hr
    rw [map_append]
    exact ⟨by simpa using (htab hr).1, (htab hr).2⟩
  crc := by
    intro h12
    have hold : sp.secLen = 0 ∨ 12 ≤ sp.secLen := by
      by_cases h3 : s.length < 3
      · left; rw [h.len, if_pos h3]
      · rwa [h.secLen_concat hlen (by omega)] at h12
    obtain ⟨ho, hn⟩ := h.crc hold
    rw [map_append, map_append]
    rcases hcrc with ⟨hfar, horig, hnew⟩ | ⟨⟨h0, hnear⟩, horig, hnew, -⟩
    · have hall : s.length ≤ checkedLen sp.secLen s.length := by
        rw [checkedLen]
        split_ifs with h0
        · exact le_rfl
        · have h3 : ¬ s.length < 3 := fun h3 => h0 (by rw [h.len, if_pos h3])
          rw [h.secLen_concat hlen (by omega)] at hfar
          omega
      have hall' : s.length + 1 ≤ checkedLen sp'.secLen (s.length + 1) := by
        rw [checkedLen]
        split_ifs with h0
        · exact le_rfl
        · omega
      rw [take_of_length_le (by simpa using hall)] at ho hn
      rw [take_of_length_le (by simpa using hall'), take_of_length_le (by simpa using hall'),
        horig, hnew, ho, hn]
      exact ⟨(crc32_concat _ _).symm, (crc32_concat _ _).symm⟩
    · have hs := h.secLen_concat hlen (by omega)
      rw [checkedLen, if_neg (hs ▸ h0), ← hs] at ho hn
      rw [checkedLen, if_neg h0, take_append_of_le_length (by simp; omega),
        take_append_of_le_length (by simp; omega), horig, hnew]
      exact ⟨ho, hn⟩
  patch := by
    intro hr i x hx hi
    obtain ⟨h5, ht⟩ := htab hr
    have hs := h.secLen_concat hlen (by omega)
    rcases hcrc with ⟨hfar, -, -⟩ | ⟨-, horig, hnew, hpatch⟩
    · have hi' : i < (s ++ [(orig, b)]).length := (List.getElem?_eq_some_iff.mp hx).1
      rw [if_neg (by omega)] at hlen
      simp at hi'
      omega
    · rw [horig, hnew]
      rw [getElem?_snoc] at hx
      split_ifs at hx with hlast
      · cases hx
        exact hlast ▸ (hpatch hr).2
      · rw [hs] at hi ⊢
        exact h.patch (hpatch hr).1 i x hx hi

end Concat

/-! ## The version octet -/

theorem withVersion_spec (b : UInt8) {nv : ℕ} (h : nv < 32) :
    withVersion b nv &&& 0xC1 = b &&& 0xC1 ∧ (withVersion b nv).toNat / 2 % 32 = nv := by
  have hall : ∀ (b : Fin 256) (nv : Fin 32),
      withVersion (UInt8.ofNat b) nv &&& 0xC1 = UInt8.ofNat b &&& 0xC1 ∧
        (withVersion (UInt8.ofNat b) nv).toNat / 2 % 32 = nv := by decide +kernel
  simpa using hall ⟨b.toNat, b.toNat_lt⟩ ⟨nv, h⟩

variable {v : ℕ}

theorem swVersion_lt (switched : Bool) (t : SwitchTable) (cur : Bool) (hv : v < 32) :
    (swVersion switched t v cur).1 < 32 := by
  unfold swVersion
  split_ifs
  · exact Nat.mod_lt _ (by omega)
  · split
    iterate 2 exact Nat.mod_lt _ (by omega)
    · exact hv
  all_goals exact hv

theorem bumpVersion_lt (switched : Bool) (ts : List SwitchTable) (id : UInt8) (ext : ℕ)
    (cur : Bool) (hv : v < 32) : (bumpVersion switched ts id ext v cur).1 < 32 := by
  unfold bumpVersion
  split
  · exact hv
  · exact swVersion_lt switched _ cur hv

theorem versionOctet_skip {orig : UInt8}
    (hlen : sp.secLen = 3 + sectionLength sp.hdr) (ht : isTable sp.pid sp.hdr = false) :
    versionOctet sw sp orig = (orig, sw, sp) := by
  rw [isTable, ← hlen] at ht
  simp only [versionOctet, ht, Bool.false_eq_true, if_false]

/-- The answer of the tables to the version octet of a section, with its header before it. -/
def bumped (sw : Switcher) (pid : ℕ) (hdr : Bytes) (orig : UInt8) : ℕ × List SwitchTable :=
  bumpVersion sw.switched sw.tables (wantedTable pid)
    (if wantedTable pid = 0x02 then rd16 hdr 3 else 0) (orig.toNat / 2 % 32) (orig &&& 1 ≠ 0)

/-- **The version octet of a table's section** gets the version the table answers, and nothing else
of it changes. -/
theorem versionOctet_table (sw : Switcher) (orig : UInt8)
    (hlen : sp.secLen = 3 + sectionLength sp.hdr) (ht : isTable sp.pid sp.hdr) :
    ∃ (b : UInt8) (d : Bytes) (r c : Bool), versionOctet sw sp orig =
        (b, { sw with tables := (bumped sw sp.pid sp.hdr orig).2, patSec := d },
          { sp with rewrite := sp.rewrite || r, patCopy := c }) ∧
        b &&& 0xC1 = orig &&& 0xC1 ∧ (orig ≠ b → r) ∧
        b.toNat / 2 % 32 = (bumped sw sp.pid sp.hdr orig).1 := by
  have hlt : (bumped sw sp.pid sp.hdr orig).1 < 32 :=
    bumpVersion_lt _ _ _ _ _ (Nat.mod_lt _ (by omega))
  rw [isTable, ← hlen] at ht
  simp only [versionOctet, ht, if_true]
  rw [bumped] at hlt ⊢
  generalize bumpVersion _ _ _ _ _ _ = out at hlt ⊢
  refine ⟨_, _, _, _, rfl, ?_, ?_, ?_⟩
  · split_ifs
    · exact (withVersion_spec orig hlt).1
    · rfl
  · intro hne
    by_contra hr
    rw [if_neg (by simpa using hr)] at hne
    exact hne rfl
  · split_ifs with hnv
    · exact (withVersion_spec orig hlt).2
    · exact (not_ne_iff.mp hnv).symm

/-! ## The octet fed -/

section Feed

variable {sp : SwitchPid} {s : List (UInt8 × UInt8)} {orig : UInt8}

theorem Body.headed_hdr (h : Body sp s) :
    (headed sp orig).hdr = (s.map Prod.fst ++ [orig]).take 8 := by
  simp only [headed, h.hdr, h.pos]
  split_ifs with h8
  · rw [take_of_length_le (by simp; omega), take_of_length_le (by simp; omega)]
  · rw [take_append_of_le_length (by simp; omega)]

theorem Body.headed_secLen (h : Body sp s) (orig : UInt8) :
    (headed sp orig).secLen = if s.length + 1 < 3 then 0
      else 3 + sectionLength (s.map Prod.fst ++ [orig]) := by
  simp only [headed, h.hdr, h.pos, h.len]
  rcases Nat.lt_trichotomy s.length 2 with h2 | h2 | h2
  · rw [if_neg h2.ne, if_pos (by omega), if_pos (by omega)]
  · rw [if_pos h2, if_neg (by omega), take_of_length_le (by simp; omega)]
  · rw [if_neg h2.ne', if_neg (by omega), if_neg (by omega), sectionLength_append (by simp; omega)]

/-- **What feeding one octet does**, next to a reader of the pairs. -/
structure Fed (sw : Switcher) (sp : SwitchPid) (s : List (UInt8 × UInt8)) (orig b : UInt8)
    (sw' : Switcher) (sp' : SwitchPid) : Prop where
  body : Body sp' (s ++ [(orig, b)])
  pid : sp'.pid = sp.pid
  last : sp'.last = sp.last
  inSection : sp'.inSection = (sp.inSection && !isWhole Prod.fst (s ++ [(orig, b)]))
  tuned : Tuned sw (versionNotes sp.pid s [(orig, b)]) sw'

theorem octet_length (s : Bytes) (b : UInt8) : octet (s ++ [b]) s.length = b := by
  simp [octet, getD]

theorem isWhole_concat (h : Body sp s) (b : UInt8) :
    isWhole Prod.fst (s ++ [(orig, b)]) =
      (decide ((headed sp orig).secLen ≠ 0) &&
        decide (s.length + 1 = (headed sp orig).secLen)) := by
  rw [h.headed_secLen, isWhole]
  by_cases h3 : s.length + 1 < 3
  · simp [if_pos h3]
    omega
  · simp [if_neg h3]
    omega

variable {k : ℕ}

theorem checksumOctet_body {d : UInt8} (h : sp.secLen = 0 ∨ k + 4 < sp.secLen) :
    checksumOctet sp k orig d =
      (d, { sp with crcOrig := crcStep sp.crcOrig orig, crcNew := crcStep sp.crcNew d }) := by
  rw [checksumOctet, if_neg]
  simp only [Bool.and_eq_true, decide_eq_true_eq]
  omega

theorem checksumOctet_crc (h0 : sp.secLen ≠ 0) (h : sp.secLen ≤ k + 4) :
    checksumOctet sp k orig orig =
      (if sp.rewrite then orig ^^^ wordOctet sp.crcOrig (k + 4 - sp.secLen) ^^^
        wordOctet sp.crcNew (k + 4 - sp.secLen) else orig, sp) := by
  rw [checksumOctet, if_pos (by simp only [Bool.and_eq_true, decide_eq_true_eq]; exact ⟨h0, h⟩)]
  split_ifs <;> rfl

/-- The end of the loop body, after the octet is settled. -/
theorem Fed.of_advance {sw sw' : Switcher} {sp' : SwitchPid} {b : UInt8} (h : Body sp s)
    (hpid : sp'.pid = sp.pid) (hlast : sp'.last = sp.last) (hin : sp'.inSection = sp.inSection)
    (hpos : sp'.secPos = s.length) (hlen : sp'.secLen = (headed sp orig).secLen)
    (hbody : ∀ i, Body { sp' with secPos := s.length + 1, inSection := i } (s ++ [(orig, b)]))
    (ht : Tuned sw (versionNotes sp.pid s [(orig, b)]) sw') :
    Fed sw sp s orig b (advance sw' sp' orig).1 (advance sw' sp' orig).2 where
  body := by rw [advance_sp, hpos]; exact hbody _
  pid := by rw [advance_sp]; exact hpid
  last := by rw [advance_sp]; exact hlast
  inSection := by rw [advance_sp, isWhole_concat h, hin, hpos, hlen]
  tuned := by simpa using ht.trans (advance_sw sw' sp' orig)

/-- The version octet of a section of a table. -/
theorem Body.feed_version (h : Body sp s) (h5 : s.length = 5)
    (ht : isTable sp.pid (s.map Prod.fst ++ [orig])) (sw : Switcher) :
    ∃ b sw' sp', feedOctet sw sp orig = some (b, sw', sp') ∧ Fed sw sp s orig b sw' sp' := by
  have hhdr : (headed sp orig).hdr = s.map Prod.fst ++ [orig] := by
    rw [h.headed_hdr, take_of_length_le (by simp; omega)]
  have hlen := h.headed_secLen orig
  have h12 : 12 ≤ (headed sp orig).secLen := by
    simp only [isTable, Bool.and_eq_true, decide_eq_true_eq] at ht
    rw [hlen, if_neg (by omega)]
    exact ht.2
  obtain ⟨b, d, r, c, hv, hmask, hr, hnv⟩ := versionOctet_table sw orig
    (by rw [hlen, hhdr, if_neg (by omega)]) (show isTable sp.pid (headed sp orig).hdr by
      rwa [hhdr])
  have hfeed := feedOctet_eq sw sp orig
  rw [if_neg (by rw [h.pos]; omega), versioned, show (headed sp orig).secPos = _ from h.pos,
    if_pos h5, h.pos] at hfeed
  simp only [hv] at hfeed
  rw [checksumOctet_body] at hfeed
  swap
  · exact .inr (show _ < (headed sp orig).secLen by omega)
  refine ⟨b, _, _, hfeed, Fed.of_advance h rfl rfl rfl h.pos rfl (fun i => ?_) ?_⟩
  · refine h.concat rfl h.headed_hdr hlen ?_ (fun _ => ⟨h5.ge, ht⟩) ?_ (.inl ⟨.inr ?_, rfl, rfl⟩)
    · simp +contextual [headed]
    · exact fun hne => ⟨by simp [hr hne], .inl ⟨h5, hmask⟩⟩
    · exact (show _ < (headed sp orig).secLen by omega)
  · have hsrc : octet (s.map Prod.fst ++ [orig]) 5 = orig := by
      rw [← h5, ← length_map (f := Prod.fst), octet_length]
    have hout : octet ((s ++ [(orig, b)]).map Prod.snd) 5 = b := by
      rw [map_append, ← h5, ← length_map (f := Prod.snd)]
      exact octet_length _ b
    have hnote : versionNotes sp.pid s [(orig, b)] = [versionNote sp.pid (s ++ [(orig, b)])] := by
      simp [versionNotes, h5, ht]
    have hbump : bumped sw sp.pid (headed sp orig).hdr orig =
        bumpVersion sw.switched sw.tables (versionNote sp.pid (s ++ [(orig, b)])).tableId
          (versionNote sp.pid (s ++ [(orig, b)])).ext
          (versionNote sp.pid (s ++ [(orig, b)])).version
          (versionNote sp.pid (s ++ [(orig, b)])).current := by
      simp only [bumped, versionNote, map_append, map_cons, map_nil, hsrc, hhdr]
    change _ = (bumped sw sp.pid _ orig).1 at hnv
    rw [hbump] at hnv
    rw [hnote]
    refine ⟨rfl, rfl, .cons ?_ (hbump ▸ .nil _), ⟨[], by simp⟩, id⟩
    rw [← hnv]
    exact congrArg (fun b : UInt8 => b.toNat / 2 % 32) hout

/-- Any other octet. -/
theorem Body.feed_other (h : Body sp s)
    (hother : ¬ (s.length = 5 ∧ isTable sp.pid (s.map Prod.fst ++ [orig])))
    (hlost : isLost Prod.fst (s ++ [(orig, orig)]) = false) (sw : Switcher) :
    ∃ b sw' sp', feedOctet sw sp orig = some (b, sw', sp') ∧ Fed sw sp s orig b sw' sp' := by
  have hlen := h.headed_secLen orig
  have hver : versioned sw (headed sp orig) orig = (orig, sw, headed sp orig) := by
    rw [versioned, show (headed sp orig).secPos = _ from h.pos]
    split_ifs with h5
    · have hhdr : (headed sp orig).hdr = s.map Prod.fst ++ [orig] := by
        rw [h.headed_hdr, take_of_length_le (by simp; omega)]
      refine versionOctet_skip (by rw [hlen, hhdr, if_neg (by omega)]) ?_
      rw [hhdr]
      exact Bool.not_eq_true _ ▸ fun ht => hother ⟨h5, ht⟩
    · rfl
  have hfeed := feedOctet_eq sw sp orig
  rw [if_neg, hver, h.pos] at hfeed
  swap
  · rintro ⟨h2, hbig⟩
    rw [h.pos] at h2
    rw [h.headed_hdr, sectionLength_take (by omega)] at hbig
    simp [isLost, h2] at hlost
    omega
  have hnotes : ∀ b, versionNotes sp.pid s [(orig, b)] = [] := by
    intro b
    rw [versionNotes, if_neg]
    simp only [Bool.and_eq_true, decide_eq_true_eq, length_append, length_singleton, map_append]
    exact fun h' => hother ⟨by omega, h'.2⟩
  have htab : sp.rewrite → 5 ≤ s.length ∧ isTable sp.pid (s.map Prod.fst ++ [orig]) := by
    intro hr
    obtain ⟨h5, ht⟩ := h.table hr
    exact ⟨by omega, by rwa [isTable_append (by simp; omega)]⟩
  by_cases hfar : (headed sp orig).secLen = 0 ∨ s.length + 4 < (headed sp orig).secLen
  · simp only [checksumOctet_body hfar] at hfeed
    refine ⟨orig, _, _, hfeed, Fed.of_advance h rfl rfl rfl h.pos rfl (fun i => ?_)
      (hnotes orig ▸ .refl sw)⟩
    exact h.concat rfl h.headed_hdr hlen id htab (fun hne => absurd rfl hne)
      (.inl ⟨hfar, rfl, rfl⟩)
  · obtain ⟨h0, hnear⟩ := not_or.mp hfar
    simp only [checksumOctet_crc h0 (by omega : _ ≤ s.length + 4)] at hfeed
    refine ⟨_, _, _, hfeed, Fed.of_advance h rfl rfl rfl h.pos rfl (fun i => ?_)
      (hnotes _ ▸ .refl sw)⟩
    have hle : (headed sp orig).secLen ≤ s.length + 4 := by omega
    refine h.concat rfl h.headed_hdr hlen id htab (fun hne => ⟨?_, .inr hle⟩)
      (.inr ⟨⟨h0, hle⟩, rfl, rfl, fun hr => ⟨hr, if_pos hr⟩⟩)
    by_contra hr
    exact hne (if_neg hr).symm

/-- **One octet of a section**, received and emitted, unless the end of the section cannot be
found. -/
theorem Body.feed (h : Body sp s) (sw : Switcher) (orig : UInt8) :
    isLost Prod.fst (s ++ [(orig, orig)]) ∧ feedOctet sw sp orig = none ∨
      isLost Prod.fst (s ++ [(orig, orig)]) = false ∧
        ∃ b sw' sp', feedOctet sw sp orig = some (b, sw', sp') ∧ Fed sw sp s orig b sw' sp' := by
  cases hlost : isLost Prod.fst (s ++ [(orig, orig)]) with
  | true =>
    refine .inl ⟨rfl, ?_⟩
    simp only [isLost, length_append, length_singleton, map_append,
      Bool.and_eq_true, decide_eq_true_eq] at hlost
    rw [feedOctet_eq, if_pos]
    rw [h.pos, h.headed_hdr, sectionLength_take (by omega)]
    exact ⟨by omega, hlost.2⟩
  | false =>
    refine .inr ⟨rfl, ?_⟩
    by_cases hver : s.length = 5 ∧ isTable sp.pid (s.map Prod.fst ++ [orig])
    · exact h.feed_version hver.1 hver.2 sw
    · exact h.feed_other hver hlost sw

end Feed

end MoqRelay
