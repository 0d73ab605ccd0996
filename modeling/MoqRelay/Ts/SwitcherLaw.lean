import MoqRelay.Ts.SwitcherSections
import MoqRelay.Ts.SwitcherVersions

/-!
# Ts/SwitcherLaw — the switcher over whole runs of packets and switches

A run of the switcher beside one reader for each PID, all fresh after a switch, and the log of the
versions that pass (`Watched`).  Two laws hold in every state reached: what any further packet comes
out as (`PacketLaw`), and how the versions of a table go on (`VersionLaw`), while the tables hold
every program.
-/

namespace MoqRelay

open List Function

/-! ## The shape of a packet -/

/-- **Where the payload of a packet lies**: at the end of the transport packet, after the flags of
an adaptation field that has any. -/
structure Shape (pkt : Bytes) (ps : ℕ) (p : TsPacket) : Prop where
  fits : tsOffset ps + tsPacketSize ≤ pkt.length
  payload : p.payload =
    ((pkt.drop (tsOffset ps)).take tsPacketSize).drop (tsPacketSize - p.payload.length)
  flags : p.adaptationField.any (1 ≤ ·) → 6 + p.payload.length ≤ tsPacketSize
  pcr : p.pcr.isSome → p.adaptationField.any (1 ≤ ·)

variable {d pkt : Bytes} {p : TsPacket} {ps : ℕ}

theorem parseAdaptation_some {n : ℕ} {q : TsPacket} (h : parseAdaptation d n p = some q) :
    q.adaptationField = p.adaptationField ∧ q.payload = p.payload := by
  simp only [parseAdaptation, Option.bind_eq_bind] at h
  generalize 1 + (if octet d 5 &&& 0x10 ≠ 0 then 6 else 0) +
    (if octet d 5 &&& 0x08 ≠ 0 then 6 else 0) + (if octet d 5 &&& 0x04 ≠ 0 then 1 else 0) = used
    at h
  by_cases hused : used > n
  · rw [if_pos hused] at h
    cases h
  · rw [if_neg hused] at h
    obtain ⟨used₁, -, h⟩ := Option.bind_eq_some_iff.mp h
    obtain ⟨used₂, -, h⟩ := Option.bind_eq_some_iff.mp h
    split_ifs at h
    all_goals
      obtain ⟨pcr, -, h⟩ := Option.bind_eq_some_iff.mp h
      cases h
      exact ⟨rfl, rfl⟩

theorem parseTs_shape (h : parseTs d = some p) (hd : tsPacketSize ≤ d.length) :
    p.payload = (d.take tsPacketSize).drop (tsPacketSize - p.payload.length) ∧
      (p.adaptationField.any (1 ≤ ·) → 6 + p.payload.length ≤ tsPacketSize) ∧
      (p.pcr.isSome → p.adaptationField.any (1 ≤ ·)) := by
  have hdrop : ∀ n ≤ tsPacketSize, (d.take tsPacketSize).drop n =
      (d.take tsPacketSize).drop (tsPacketSize - ((d.take tsPacketSize).drop n).length) := by
    intro n hn
    rw [length_drop, length_take_of_le hd, Nat.sub_sub_self hn]
  have hnil : ([] : Bytes) = (d.take tsPacketSize).drop tsPacketSize := by
    rw [drop_eq_nil_of_le (by rw [length_take_of_le hd])]
  simp only [parseTs] at h
  split_ifs at h with hsync h0 h1 h2 hlong hlen h3 h3
  · cases h
    exact ⟨hdrop 4 (by decide), nofun, nofun⟩
  all_goals
    obtain ⟨q, hq, h⟩ := Option.bind_eq_some_iff.mp h
    cases h
  · have hfit : 5 + (octet d 4).toNat ≤ tsPacketSize := by
      simp only [Bool.and_eq_true, decide_eq_true_eq, not_and] at hlong
      rw [tsPacketSize]
      omega
    have haf : q.adaptationField = some (octet d 4).toNat := (parseAdaptation_some hq).1
    refine ⟨hdrop _ hfit, fun _ => ?_, fun _ => ?_⟩
    · rw [length_drop, length_take_of_le hd]
      omega
    · rw [haf]
      exact decide_eq_true hlen
  · obtain ⟨haf, hpay⟩ := parseAdaptation_some hq
    rw [hpay, haf]
    exact ⟨hnil, fun _ => show 6 + 0 ≤ tsPacketSize by decide, fun _ => decide_eq_true hlen⟩
  · cases hq
    have h0 : (octet d 4).toNat = 0 := by omega
    refine ⟨hdrop _ (by rw [h0]; decide), fun haf => ?_, nofun⟩
    simp [h0] at haf
  · cases hq
    exact ⟨hnil, fun _ => show 6 + 0 ≤ tsPacketSize by decide, nofun⟩

theorem parsePacket_shape (h : parsePacket pkt ps = .ok p) : Shape pkt ps p := by
  unfold parsePacket at h
  split_ifs at h with hbad
  simp only [Bool.or_eq_true, not_or, Bool.not_eq_true', decide_eq_true_eq,
    Bool.not_eq_false] at hbad
  have hfits : tsOffset ps + tsPacketSize ≤ pkt.length := by
    have hps := hbad.1
    simp only [packetSizeOk, Bool.or_eq_true, decide_eq_true_eq] at hps
    rcases hps with rfl | rfl
    · simpa [tsOffset, tsPacketSize, m2tsPacketSize] using hbad.2
    · simpa [tsOffset, tsPacketSize, m2tsPacketSize, tsPrefixSize] using hbad.2
  cases hts : parseTs (pkt.drop (tsOffset ps)) with
  | none => simp [hts] at h
  | some q =>
    obtain rfl : q = p := by simpa [hts] using h
    obtain ⟨h1, h2, h3⟩ := parseTs_shape hts (by rw [length_drop]; omega)
    exact ⟨hfits, h1, h2, h3⟩

/-! ## A packet, rebuilt -/

theorem modify_append {α : Type*} [Inhabited α] {l : List α} {i : ℕ} (h : i < l.length)
    (l' : List α) (f : α → α) : (l ++ l').modify i f = l.modify i f ++ l' := by
  rw [modify_eq_set, modify_eq_set, getElem?_append_left h, set_append_left _ _ h]

/-- **What a packet consists of**, and comes out as: the part before the payload is kept, but for
the `discontinuity_indicator`, and so is what comes after it. -/
structure Rebuilt (pkt out : Bytes) (off : ℕ) (p : TsPacket)
    (head head' payload' tail : Bytes) : Prop where
  before : pkt = head ++ p.payload ++ tail
  after : out = head' ++ payload' ++ tail
  mark : head' = head ∨ p.adaptationField.any (1 ≤ ·) ∧ off + 5 < head.length ∧
    head' = head.modify (off + 5) (· ||| 0x80)
  length : payload'.length = p.payload.length
  place : head.length + p.payload.length = off + tsPacketSize

variable {payload' : Bytes}

theorem Shape.rebuilt (h : Shape pkt ps p) (hlen : payload'.length = p.payload.length) {di : Bool}
    (hdi : di → p.adaptationField.any (1 ≤ ·)) :
    ∃ head head' tail,
      Rebuilt pkt (Switcher.rebuild pkt (tsOffset ps) payload' di) (tsOffset ps) p head head'
        payload' tail := by
  have hle : p.payload.length ≤ tsPacketSize := by
    rw [h.payload, length_drop, length_take]
    omega
  have hfits := h.fits
  have hhead : (pkt.take (tsOffset ps + tsPacketSize - p.payload.length)).length =
      tsOffset ps + tsPacketSize - p.payload.length := length_take_of_le (by omega)
  have hpay : p.payload =
      (pkt.take (tsOffset ps + tsPacketSize)).drop
        (tsOffset ps + tsPacketSize - p.payload.length) := by
    have := h.payload
    rw [take_drop, drop_drop] at this
    rwa [Nat.add_sub_assoc hle]
  have hpkt : pkt = pkt.take (tsOffset ps + tsPacketSize - p.payload.length) ++ p.payload ++
      pkt.drop (tsOffset ps + tsPacketSize) := by
    have hsplit := take_append_drop (tsOffset ps + tsPacketSize - p.payload.length)
      (pkt.take (tsOffset ps + tsPacketSize))
    rw [← hpay, take_take, min_eq_left (Nat.sub_le _ _)] at hsplit
    rw [hsplit, take_append_drop]
  cases di with
  | false =>
    refine ⟨_, _, _, hpkt, ?_, .inl rfl, hlen, by omega⟩
    simp [Switcher.rebuild, hlen]
  | true =>
    have haf := hdi rfl
    have hflags := h.flags haf
    have h5 : tsOffset ps + 5 <
        (pkt.take (tsOffset ps + tsPacketSize - p.payload.length)).length := by
      omega
    refine ⟨_, _, _, hpkt, ?_, .inr ⟨haf, h5, rfl⟩, hlen, by omega⟩
    rw [← modify_append h5, ← modify_append (by rw [length_append]; omega)]
    simp [Switcher.rebuild, hlen]

/-- The payload in a packet of a transport stream. -/
def payloadOf (ps n : ℕ) (out : Bytes) : Bytes :=
  (out.take (tsOffset ps + tsPacketSize)).drop (tsOffset ps + tsPacketSize - n)

theorem Rebuilt.payloadOf {out : Bytes} {head head' tail : Bytes}
    (h : Rebuilt pkt out (tsOffset ps) p head head' payload' tail) :
    payloadOf ps p.payload.length out = payload' := by
  have hhead : head'.length = head.length := by
    rcases h.mark with hm | ⟨-, -, hm⟩
    · rw [hm]
    · rw [hm, length_modify]
  have hplace := h.place
  have hlen := h.length
  rw [MoqRelay.payloadOf, h.after, take_left' (by simp; omega), drop_left' (by omega)]

/-! ## Runs -/

/-- A call of the switcher. -/
inductive SwitcherCall
  | packet (pkt : Bytes)
  | switch (pmtPids : List ℕ)

/-- **A switcher beside its readers**: one for each PID, of what it receives and emits since the
last switch, and the log of the run. -/
structure Watched where
  sw : Switcher
  readers : ℕ → Reader (UInt8 × UInt8) := fun _ => {}
  log : List SwitcherNote := []

namespace Watched

variable (w : Watched)

/-- The packets whose payloads are read: those of the tracked PIDs. -/
def reads (p : TsPacket) : Bool := (w.sw.findPid p.pid).isSome && p.payload ≠ []

/-- The payload of a packet, received and emitted. -/
def pairs (pkt : Bytes) (p : TsPacket) : List (UInt8 × UInt8) :=
  p.payload.zip (payloadOf w.sw.packetSize p.payload.length (w.sw.process pkt).2.1)

/-- The payload of a packet, read. -/
def read (pkt : Bytes) (p : TsPacket) : List (Piece (UInt8 × UInt8)) × Reader (UInt8 × UInt8) :=
  (w.readers p.pid).read Prod.fst p.continuityCounter p.payloadUnitStart (w.pairs pkt p)

/-- The versions that pass with a packet; a repetition brings no further section. -/
def notes (pkt : Bytes) (p : TsPacket) : List VersionNote :=
  if ((w.readers p.pid).repeated Prod.fst p.continuityCounter p.payloadUnitStart
    (w.pairs pkt p)).isSome then [] else (w.read pkt p).1.flatMap (pieceNotes p.pid)

/-- A call, watched. -/
def step : SwitcherCall → Watched
  | .switch pmtPids =>
    { sw := w.sw.switch pmtPids, readers := fun _ => {}, log := w.log ++ [.switch] }
  | .packet pkt =>
    match parsePacket pkt w.sw.packetSize with
    | .error _ => { w with sw := (w.sw.process pkt).2.2 }
    | .ok p =>
      if (w.sw.process pkt).1 = .ok && w.reads p then
        { sw := (w.sw.process pkt).2.2
          readers := update w.readers p.pid (w.read pkt p).2
          log := w.log ++ (w.notes pkt p).map .version }
      else { w with sw := (w.sw.process pkt).2.2 }

end Watched

/-- **The law of a packet**: one that fails is left as it is, with the switcher; one that passes
differs in the pieces of its payload as each of them may, and in the `discontinuity_indicator`; and
a repetition comes out as what it repeats did. -/
structure PacketLaw (w : Watched) (pkt : Bytes) : Prop where
  fails : (w.sw.process pkt).1 ≠ .ok → (w.sw.process pkt).2 = (pkt, w.sw)
  passes : (w.sw.process pkt).1 = .ok → ∃ p head head' payload' tail,
    parsePacket pkt w.sw.packetSize = .ok p ∧
    Rebuilt pkt (w.sw.process pkt).2.1 (tsOffset w.sw.packetSize) p head head' payload' tail ∧
    (w.reads p = false → payload' = p.payload) ∧
    (w.reads p → (w.read pkt p).1.flatMap Piece.octets = p.payload.zip payload' ∧
      (∀ piece ∈ (w.read pkt p).1, PieceLaw p.pid piece) ∧
      ∀ l, (w.readers p.pid).last = some l → l.cc = p.continuityCounter →
        l.pusi = p.payloadUnitStart → l.octets.map Prod.fst = p.payload →
        payload' = l.octets.map Prod.snd)

/-! ## PIDs and readers -/

/-- **The tracked PIDs and the readers**: each PID matches its reader, and the others' are fresh. -/
structure PidsLike (pids : List SwitchPid) (readers : ℕ → Reader (UInt8 × UInt8)) : Prop where
  nodup : (pids.map SwitchPid.pid).Nodup
  tracked : ∀ sp ∈ pids, Matches sp (readers sp.pid)
  untracked : ∀ pid, keyed SwitchPid.pid pids pid = none → readers pid = {}

section Pids

variable {pids : List SwitchPid} {readers : ℕ → Reader (UInt8 × UInt8)}

variable {sp : SwitchPid}

theorem Matches.fresh (hin : sp.inSection = false) (hlast : sp.last = none) :
    Matches sp {} := ⟨.idle hin, hlast ▸ .none⟩

theorem PidsLike.grow (h : PidsLike pids readers) {new : List ℕ}
    (hn : ((pids ++ new.map fun p => ({ pid := p } : SwitchPid)).map SwitchPid.pid).Nodup) :
    PidsLike (pids ++ new.map fun p => { pid := p }) readers where
  nodup := hn
  tracked := by
    intro sp hsp
    rcases mem_append.mp hsp with hold | hnew
    · exact h.tracked sp hold
    · obtain ⟨pid, -, rfl⟩ := mem_map.mp hnew
      have hnone : keyed SwitchPid.pid pids pid = none := by
        refine keyed_eq_none.mpr fun u hu hpid => ?_
        rw [map_append, nodup_append] at hn
        exact hn.2.2 u.pid (mem_map_of_mem hu) pid
          (mem_map.mpr ⟨_, hnew, rfl⟩) hpid
      rw [h.untracked pid hnone]
      exact .fresh rfl rfl
  untracked := by
    intro pid hpid
    refine h.untracked pid (keyed_eq_none.mpr fun u hu => ?_)
    exact keyed_eq_none.mp hpid u (mem_append_left _ hu)

theorem PidsLike.set (h : PidsLike pids readers) {sp' : SwitchPid} (hsp : sp ∈ pids)
    (hpid : sp'.pid = sp.pid) {r : Reader (UInt8 × UInt8)} (hr : Matches sp' r) :
    PidsLike (pids.map fun u => if u.pid = sp'.pid then sp' else u)
      (update readers sp.pid r) := by
  have hkey : ∀ u : SwitchPid, (if u.pid = sp'.pid then sp' else u).pid = u.pid := key_replace sp'
  refine ⟨?_, ?_, ?_⟩
  · rw [map_map]
    exact (map_congr_left fun u _ => hkey u) ▸ h.nodup
  · intro u hu
    obtain ⟨v, hv, rfl⟩ := mem_map.mp hu
    rw [hkey]
    split_ifs with hvp
    · rwa [hvp, hpid, update_self]
    · rw [update_of_ne (by rwa [← hpid])]
      exact h.tracked v hv
  · intro pid hnone
    rw [keyed_map hkey, Option.map_eq_none_iff] at hnone
    have hne : pid ≠ sp.pid := fun he => keyed_eq_none.mp hnone sp hsp he.symm
    rw [update_of_ne hne]
    exact h.untracked pid hnone

end Pids

/-- **What every run keeps**: the PIDs match the readers and, while the programs fit, the tables
match the log. -/
structure Synced (w : Watched) : Prop where
  pids : PidsLike w.sw.pids w.readers
  tables : (programs w.log).card ≤ switcherMaxPmt →
    TablesLike w.sw.switched w.sw.tables w.log ∧ VersionLaw w.log

/-! ## One packet -/

variable {sw : Switcher} {w : Watched}

theorem process_cases (sw : Switcher) (pkt : Bytes) :
    sw.process pkt = (.proto, pkt, sw) ∨
      ∃ p, parsePacket pkt sw.packetSize = .ok p ∧ sw.badPointer p = false ∧
        sw.process pkt =
          (.ok, Switcher.rebuild pkt (tsOffset (sw.processPsi p).2.packetSize) (sw.processPsi p).1
            ((sw.processPsi p).2.setsDiscontinuity p), (sw.processPsi p).2.markSeen p) := by
  rw [Switcher.process]
  rcases parsePacket pkt sw.packetSize with e | p
  · exact .inl rfl
  · dsimp only
    split_ifs with hbad
    · exact .inl rfl
    · exact .inr ⟨p, rfl, by simpa using hbad, rfl⟩

theorem process_fails (h : (sw.process pkt).1 ≠ .ok) : (sw.process pkt).2 = (pkt, sw) := by
  obtain hfail | ⟨p, -, -, hok⟩ := process_cases sw pkt
  · rw [hfail]
  · exact absurd (congrArg Prod.fst hok) h

theorem setsDiscontinuity_flags (sw : Switcher)
    (h : Shape pkt ps p) (hdi : sw.setsDiscontinuity p) : p.adaptationField.any (1 ≤ ·) := by
  simp only [Switcher.setsDiscontinuity, Bool.or_eq_true, Bool.and_eq_true] at hdi
  exact hdi.elim And.right fun hpcr => h.pcr hpcr.1

/-- The packets of other PIDs pass as they are. -/
theorem processPsi_skip (h : w.reads p = false) : w.sw.processPsi p = (p.payload, w.sw) := by
  unfold Switcher.processPsi
  cases hf : w.sw.findPid p.pid with
  | none => rfl
  | some sp =>
    have hp : p.payload = [] := by simpa [Watched.reads, hf] using h
    simp only [if_pos hp]

/-- **The payload of a tracked PID**, beside its reader. -/
theorem processPsi_read (hw : Synced w) (h : w.reads p) (hptr : w.sw.badPointer p = false) :
    ∃ sp out, sp ∈ w.sw.pids ∧ sp.pid = p.pid ∧
      w.sw.processPsi p = (out.1, out.2.1.setPid out.2.2) ∧
      IsRead w.sw sp p (w.readers p.pid) out
        ((w.readers p.pid).read Prod.fst p.continuityCounter p.payloadUnitStart
          (p.payload.zip out.1)) := by
  simp only [Watched.reads, Bool.and_eq_true, decide_eq_true_eq] at h
  obtain ⟨sp, hsp⟩ := Option.isSome_iff_exists.mp h.1
  obtain ⟨hmem, hpid⟩ := key_of_keyed hsp
  have hmatch : Matches sp (w.readers p.pid) := hpid ▸ hw.pids.tracked sp hmem
  have hfit : p.payloadUnitStart → 1 + (octet p.payload 0).toNat ≤ p.payload.length := by
    intro hpusi
    by_contra hlt
    simp [Switcher.badPointer, hsp, hpusi, h.2, Nat.lt_of_not_le hlt] at hptr
  refine ⟨sp, swPsi w.sw sp p, hmem, hpid, ?_, swPsi_read hmatch hfit⟩
  simp only [Switcher.processPsi, hsp, if_neg h.2]

/-- **A packet that passes**: how it comes out, and what it leaves of the switcher. -/
theorem Synced.passes (hw : Synced w) (h : (w.sw.process pkt).1 = .ok) :
    ∃ p head head' tail, parsePacket pkt w.sw.packetSize = .ok p ∧
      Rebuilt pkt (w.sw.process pkt).2.1 (tsOffset w.sw.packetSize) p head head'
        (w.sw.processPsi p).1 tail ∧
      (w.sw.process pkt).2.2 = (w.sw.processPsi p).2.markSeen p ∧
      (w.reads p → ∃ sp out, sp ∈ w.sw.pids ∧ sp.pid = p.pid ∧
        w.sw.processPsi p = (out.1, out.2.1.setPid out.2.2) ∧
        w.pairs pkt p = p.payload.zip out.1 ∧
        IsRead w.sw sp p (w.readers p.pid) out (w.read pkt p)) := by
  obtain hfail | ⟨p, hp, hptr, hprocess⟩ := process_cases w.sw pkt
  · exact nomatch (congrArg Prod.fst hfail).symm.trans h
  have hshape := parsePacket_shape hp
  have hkept : (w.sw.processPsi p).1.length = p.payload.length ∧
      (w.sw.processPsi p).2.packetSize = w.sw.packetSize := by
    cases hr : w.reads p with
    | false => rw [processPsi_skip hr]; exact ⟨rfl, rfl⟩
    | true =>
      obtain ⟨sp, out, -, -, hpsi, hread⟩ := processPsi_read hw hr hptr
      rw [hpsi]
      exact ⟨hread.length, hread.tuned.packetSize⟩
  rw [hkept.2] at hprocess
  obtain ⟨head, head', tail, hrebuilt⟩ := hshape.rebuilt hkept.1 (setsDiscontinuity_flags _ hshape)
  have hout : (w.sw.process pkt).2.1 = Switcher.rebuild pkt (tsOffset w.sw.packetSize)
      (w.sw.processPsi p).1 ((w.sw.processPsi p).2.setsDiscontinuity p) :=
    congrArg (·.2.1) hprocess
  rw [← hout] at hrebuilt
  refine ⟨p, head, head', tail, hp, hrebuilt, congrArg (·.2.2) hprocess, fun hr => ?_⟩
  obtain ⟨sp, out, hmem, hpid, hpsi, hread⟩ := processPsi_read hw hr hptr
  have hpairs : w.pairs pkt p = p.payload.zip out.1 := by
    rw [Watched.pairs, hrebuilt.payloadOf, hpsi]
  refine ⟨sp, out, hmem, hpid, hpsi, hpairs, ?_⟩
  rwa [Watched.read, hpairs]

theorem Synced.packetLaw (hw : Synced w) (pkt : Bytes) : PacketLaw w pkt where
  fails := process_fails
  passes := by
    intro h
    obtain ⟨p, head, head', tail, hp, hrebuilt, -, hreads⟩ := hw.passes h
    refine ⟨p, head, head', _, tail, hp, hrebuilt, fun hr => by rw [processPsi_skip hr],
      fun hr => ?_⟩
    obtain ⟨sp, out, hmem, hpid, hpsi, hpairs, hread⟩ := hreads hr
    rw [hpsi]
    refine ⟨hread.octets, hpid ▸ hread.pieces, fun l hl hcc hpusi hin => hread.repeated l ?_⟩
    rw [Reader.repeated, hl, map_fst_zip hread.length.ge]
    simp [hcc, hpusi, hin]

/-- The notes of a payload are those a section can give. -/
theorem pieceNotes_ok {pid : ℕ} {ps : List (Piece (UInt8 × UInt8))} {n : VersionNote}
    (h : n ∈ ps.flatMap (pieceNotes pid)) : n.Ok := by
  obtain ⟨⟨before, octets⟩, -, hn⟩ := mem_flatMap.mp h
  cases before with
  | none => cases hn
  | some acc =>
    simp only [pieceNotes, Option.elim_some, versionNotes] at hn
    split_ifs at hn
    · rw [mem_singleton.mp hn]
      exact versionNote_ok pid _
    · cases hn

/-- **A packet keeps what every run keeps.** -/
theorem Synced.packet (hw : Synced w) (pkt : Bytes) : Synced (w.step (.packet pkt)) := by
  by_cases hok : (w.sw.process pkt).1 = .ok
  · obtain ⟨p, head, head', tail, hp, -, hsw, hreads⟩ := hw.passes hok
    cases hr : w.reads p with
    | false =>
      have hstep : w.step (.packet pkt) = { w with sw := w.sw.markSeen p } := by
        simp [Watched.step, hp, hsw, processPsi_skip hr, hr]
      rw [hstep]
      exact ⟨hw.pids, hw.tables⟩
    | true =>
      obtain ⟨sp, out, hmem, hpid, hpsi, hpairs, hread⟩ := hreads hr
      have hstep : w.step (.packet pkt) =
          { sw := (out.2.1.setPid out.2.2).markSeen p
            readers := update w.readers p.pid (w.read pkt p).2
            log := w.log ++ (w.notes pkt p).map .version } := by
        simp [Watched.step, hp, hsw, hpsi, hok, hr]
      have hnotes : Tuned w.sw (w.notes pkt p) out.2.1 := by
        have := hread.tuned
        rwa [← hpairs, hpid] at this
      rw [hstep]
      constructor
      · obtain ⟨new, hnew⟩ := hnotes.pids
        have hgrow := hw.pids.grow (hnew ▸ hnotes.nodup hw.pids.nodup)
        have hset := hgrow.set (mem_append_left _ hmem) hread.pid hread.reader
        rwa [← hnew, hpid] at hset
      · intro hcard
        have hn : ∀ n ∈ w.notes pkt p, n.Ok := by
          intro n hn
          rw [Watched.notes] at hn
          split_ifs at hn
          · cases hn
          · exact pieceNotes_ok hn
        obtain ⟨htables, hlaw⟩ := hw.tables ((card_programs_le ..).trans hcard)
        have hlaw := hnotes.tables.law hn hcard htables hlaw
        rwa [← hnotes.switched] at hlaw
  · have hstep : w.step (.packet pkt) = w := by
      rw [Watched.step]
      rcases parsePacket pkt w.sw.packetSize with e | p
      · simp only [process_fails hok]
      · simp [process_fails hok, hok]
    rwa [hstep]

/-! ## A switch -/

/-- The PIDs kept over a switch start afresh. -/
theorem PidsLike.restart {pids : List SwitchPid} {readers : ℕ → Reader (UInt8 × UInt8)}
    (h : PidsLike pids readers) :
    PidsLike ((pids.take 1).map fun sp => { sp with inSection := false, last := none })
      fun _ => {} where
  nodup := by
    rw [map_map]
    exact h.nodup.sublist ((take_sublist 1 pids).map SwitchPid.pid)
  tracked := by
    intro sp hsp
    obtain ⟨u, -, rfl⟩ := mem_map.mp hsp
    exact .fresh rfl rfl
  untracked := fun _ _ => rfl

/-- **A switch keeps what every run keeps.** -/
theorem Synced.switch (hw : Synced w) (pmtPids : List ℕ) : Synced (w.step (.switch pmtPids)) := by
  have htrack := Tuned.foldl Tuned.trackPmt pmtPids { w.sw with
    switched := true
    pcrPending := true
    seen := fun _ => false
    pids := (w.sw.pids.take 1).map fun sp => { sp with inSection := false, last := none }
    tables := w.sw.tables.map fun t => { t with offset := none } }
  have hsw : (w.step (.switch pmtPids)).sw = w.sw.switch pmtPids := rfl
  rw [Switcher.switch] at hsw
  rw [← hsw] at htrack
  constructor
  · obtain ⟨new, hnew⟩ := htrack.pids
    rw [hnew]
    exact hw.pids.restart.grow (hnew ▸ htrack.nodup hw.pids.restart.nodup)
  · intro hcard
    obtain ⟨htables, hlaw⟩ := hw.tables ((card_programs_le w.log [.switch]).trans hcard)
    have hnone : (w.step (.switch pmtPids)).sw.tables =
        w.sw.tables.map fun t => { t with offset := none } := htrack.tables.eq_of_nil
    rw [htrack.switched, hnone]
    exact ⟨htables.switch, hlaw.switch⟩

theorem Synced.step (hw : Synced w) (call : SwitcherCall) : Synced (w.step call) := by
  cases call with
  | packet pkt => exact hw.packet pkt
  | switch pmtPids => exact hw.switch pmtPids

variable {size : ℕ}

theorem Synced.start (h : switcherInit size = some sw) : Synced { sw := sw } := by
  rw [switcherInit] at h
  split_ifs at h
  cases h
  refine ⟨⟨nodup_singleton _, ?_, fun _ _ => rfl⟩, fun _ => ⟨⟨nodup_nil, nofun, ?_⟩, .nil⟩⟩
  · intro sp hsp
    obtain rfl := mem_singleton.mp hsp
    exact .fresh rfl rfl
  · exact fun _ => .absent

/-- **The law of the switcher.**  In every state that packets and switches lead to, any packet is
changed only as `PacketLaw` allows; and while the tables hold every program, the versions go on as
`VersionLaw` says. -/
theorem switcher_law {size : ℕ} {sw : Switcher} (h : switcherInit size = some sw)
    (calls : List SwitcherCall) : (∀ pkt, PacketLaw (calls.foldl Watched.step { sw := sw }) pkt) ∧
      ((programs (calls.foldl Watched.step { sw := sw }).log).card ≤ switcherMaxPmt →
        VersionLaw (calls.foldl Watched.step { sw := sw }).log) := by
  have hsynced : Synced (calls.foldl Watched.step { sw := sw }) :=
    run_inv (I := Synced) (fun w call hw => hw.step call) calls (.start h)
  exact ⟨hsynced.packetLaw, fun hcard => (hsynced.tables hcard).2⟩

/-- A packet with a whole PAT section of version 0 that names one program, and stuffing. -/
def patPacket : Bytes :=
  [0x47, 0x40, 0x00, 0x10, 0x00, 0x00, 0xB0, 0x0D, 0x00, 0x01, 0xC1, 0x00, 0x00, 0x00, 0x01, 0xE1,
    0x00, 0xE8, 0xF9, 0x5E, 0x7D] ++ List.replicate 167 0xFF

theorem switcher_law_pat : switcherInit tsPacketSize = some { packetSize := tsPacketSize } ∧
      VersionLaw ([.packet patPacket, .switch [], .packet patPacket].foldl Watched.step
        { sw := { packetSize := tsPacketSize } }).log :=
  ⟨rfl, (@switcher_law tsPacketSize _ rfl
    [.packet patPacket, .switch [], .packet patPacket]).2 (by decide +kernel)⟩

/-- The same PAT packet on both sides of a switch: PID 0 stays tracked, and its second emission
carries another version. -/
theorem repeated_over_switch :
    ∃ sw : Switcher, switcherInit tsPacketSize = some sw ∧ (sw.findPid pidPat).isSome ∧
      ((sw.process patPacket).2.2.findPid pidPat).isSome ∧
      (((sw.process patPacket).2.2.switch []).findPid pidPat).isSome ∧
      (sw.process patPacket).1 = .ok ∧
      (((sw.process patPacket).2.2.switch []).process patPacket).1 = .ok ∧
      payloadOf tsPacketSize 184 (sw.process patPacket).2.1 ≠
        payloadOf tsPacketSize 184 (((sw.process patPacket).2.2.switch []).process patPacket).2.1 :=
  ⟨{ packetSize := tsPacketSize }, rfl, rfl, by decide +kernel, by decide +kernel,
    by decide +kernel, by decide +kernel, by decide +kernel⟩

end MoqRelay
