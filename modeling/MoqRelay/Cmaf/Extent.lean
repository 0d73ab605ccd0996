import MoqRelay.Cmaf.InitTrip

/-!
# Cmaf/Extent — how far the init parser reads

`find_box_nested_rc` finds a box inside its parent, but its two callers read the box they found
again with a length that runs past the parent: to the end of the segment for the `trak` of the
`moov`, to the end of the `sinf` for the `tenc` of the `schi`.  The second reading gives the same
box, unless its size field is zero, which means "up to the end of the length that was passed".
Every other box is read with what is left of its parent.
-/

namespace MoqRelay.Cmaf

open List

/-! ## Readings that agree -/

variable {d d' p t : Bytes} {b head : BoxHead} {type outer inner start offset : ℕ}

theorem rd32_congr {n k : ℕ} (heq : d'.take n = d.take n) (hk : k + 4 ≤ n) :
    rd32 (d'.drop k) = rd32 (d.drop k) := by
  have hshort : d'.take (k + 4) = d.take (k + 4) := by
    rw [← Nat.min_eq_left hk, ← take_take, heq, take_take]
  rw [rd32, rd32, take_drop, take_drop, hshort]

/-- **A box is read from its own octets**: a region that starts with them gives the same box, and
has to end with them where the size field is zero. -/
theorem readBox_congr (h : readBox d = some b) (heq : d'.take b.size = d.take b.size)
    (hopen : rd32 d = 0 → d'.length = b.size) : readBox d' = some b := by
  have hsize := readBox_size h
  have hlen : b.size ≤ d'.length := by
    have := congrArg length heq
    rw [length_take, length_take, Nat.min_eq_left (readBox_length h).2] at this
    omega
  have hword : rd32 d' = rd32 d := rd32_congr (k := 0) heq (by omega)
  have hfits {size hdr : ℕ} (hb : boxHead size hdr d.length = some b) (hle : b.size ≤ d'.length) :
      boxHead size hdr d'.length = some b := by
    obtain ⟨rfl, hhdr, -⟩ := boxHead_eq_some hb
    rw [boxHead, if_neg]
    rw [Bool.or_eq_true, decide_eq_true_eq, decide_eq_true_eq]
    dsimp only at hle
    omega
  rw [readBox] at h ⊢
  rw [if_neg (by omega)]
  split_ifs at h with hshort hone hlong hzero
  · -- The long form has its size in the sixteen octets of its header.
    obtain ⟨hb, hhdr, -⟩ := boxHead_eq_some h
    rw [hb] at hlen heq
    dsimp only at hlen heq
    have hwide : rd64 (d'.drop 8) = rd64 (d.drop 8) := by
      rw [rd64, rd64, drop_drop, drop_drop, rd32_congr heq (by omega), rd32_congr heq (by omega)]
    rw [if_pos (hword.trans hone), if_neg (by omega), hwide]
    exact hfits h (by rw [hb]; exact hlen)
  · obtain ⟨hb, -, -⟩ := boxHead_eq_some h
    rw [if_neg (by omega), if_pos (hword.trans hzero), hopen hzero, hb, boxHead, if_neg]
    rw [Bool.or_eq_true, decide_eq_true_eq, decide_eq_true_eq]
    dsimp only
    omega
  · rw [if_neg (by omega), if_neg (by omega), hword]
    exact hfits h hlen

/-- More octets after a box leave it as it is, unless its size field is zero: then it takes them
all. -/
theorem readBox_append (h : readBox d = some b) (t : Bytes) :
    rd32 (d ++ t) = rd32 d ∧
      readBox (d ++ t) = some (if rd32 d = 0 then ⟨(d ++ t).length, 8⟩ else b) := by
  have hsize := readBox_size h
  have hle := (readBox_length h).2
  have hword : rd32 (d ++ t) = rd32 d := by rw [rd32, rd32, take_append_of_le_length (by omega)]
  refine ⟨hword, ?_⟩
  split_ifs with hzero
  · have hlen : (d ++ t).length = d.length + t.length := length_append
    rw [readBox, hword, hzero, if_neg (by omega), if_neg (by decide), if_pos rfl, boxHead, if_neg]
    rw [Bool.or_eq_true, decide_eq_true_eq, decide_eq_true_eq]
    omega
  · exact readBox_congr h (take_append_of_le_length hle) fun h0 => absurd h0 hzero

/-! ## What a search passes -/

/-- A search for a box that ends at an offset: it is here, or behind the box that is here. -/
inductive FoundAt (type : ℕ) : Bytes → ℕ → Prop
  | here {d : Bytes} {b : BoxHead} (hb : readBox d = some b) (htype : boxType d = type) :
      FoundAt type d 0
  | next {d : Bytes} {b : BoxHead} {offset : ℕ} (hb : readBox d = some b)
      (htype : boxType d ≠ type) (hrest : FoundAt type (d.drop b.size) offset) :
      FoundAt type d (b.size + offset)

theorem foundAt_of_findBox (n : ℕ) : ∀ {d : Bytes} {offset : ℕ}, d.length ≤ n →
    findBox d type = .at offset → FoundAt type d offset := by
  induction n using Nat.strong_induction_on with
  | _ n ih =>
    intro d offset hn h
    cases hb : readBox d with
    | none =>
      -- A search that cannot read the box it stands at does not answer an offset.
      rw [findBox] at h
      cases hlen : d.length with
      | zero => rw [length_eq_zero_iff.mp hlen] at h; cases h
      | succ k =>
        rw [hlen, findBoxLoop, hb] at h
        split_ifs at h
    | some b =>
      have hsize := readBox_size hb
      have hle := (readBox_length hb).2
      rw [findBox_eq hb] at h
      split_ifs at h with htype
      · cases h
        exact .here hb htype
      · cases hrest : findBox (d.drop b.size) type with
        | absent | malformed => rw [hrest] at h; cases h
        | «at» k =>
          rw [hrest] at h
          cases h
          exact .next hb htype (ih (n - 8) (by omega) (by rw [length_drop]; omega) hrest)

theorem findBox_eq_at : findBox d type = .at offset ↔ FoundAt type d offset := by
  refine ⟨foundAt_of_findBox d.length le_rfl, fun h => ?_⟩
  induction h with
  | here hb htype => rw [findBox_eq hb, if_pos htype]
  | next hb htype _ ih =>
    rw [findBox_eq hb, if_neg htype, ih]
    rfl

/-- The box a search answers can be read, and has the type. -/
theorem FoundAt.readBox (h : FoundAt type d offset) :
    ∃ b, readBox (d.drop offset) = some b ∧ boxType (d.drop offset) = type := by
  induction h with
  | here hb htype => exact ⟨_, hb, htype⟩
  | next _ _ _ ih => rwa [← drop_drop]

theorem FoundAt.ne_nil (h : FoundAt type d offset) : d ≠ [] := by
  rintro rfl
  cases h with
  | here hb _ | next hb _ _ => cases hb

theorem readBox_open (h : readBox d = some b) (hzero : rd32 d = 0) : b = ⟨d.length, 8⟩ := by
  have hagain := (readBox_append h []).2
  rw [append_nil, if_pos hzero, h] at hagain
  exact Option.some.inj hagain

/-- A region with other octets from some place on. -/
theorem drop_front {n k : ℕ} (h : n + k ≤ d.length) (t : Bytes) :
    (d.take (n + k) ++ t).drop n = (d.drop n).take k ++ t := by
  rw [drop_append_of_le_length (by rw [length_take]; omega), drop_take, Nat.add_sub_cancel_left]

theorem take_front {n k : ℕ} (h : n + k ≤ d.length) (t : Bytes) :
    (d.take (n + k) ++ t).take n = d.take n := by
  rw [take_append_of_le_length (by rw [length_take]; omega), take_take,
    Nat.min_eq_left (Nat.le_add_right n k)]

theorem readBox_end (hb : readBox (d.drop offset) = some b) : offset + b.size ≤ d.length := by
  have hle := (readBox_length hb).2
  have hsize := readBox_size hb
  rw [length_drop] at hle
  omega

/-- **What follows the box does not matter to the search**: the boxes before it have a size. -/
theorem FoundAt.stable (h : FoundAt type d offset) (hb : Cmaf.readBox (d.drop offset) = some b)
    (hsized : rd32 (d.drop offset) ≠ 0) (t : Bytes) :
    FoundAt type (d.take (offset + b.size) ++ t) offset := by
  have hend := readBox_end hb
  induction h with
  | @here d b' hb' htype =>
    rw [Nat.zero_add] at hend ⊢
    have heq := take_front (n := b.size) (k := 0) hend t
    exact .here (readBox_congr hb heq fun h0 => absurd h0 hsized)
      ((rd32_congr heq (readBox_size hb)).trans htype)
  | @next d b' k hb' htype hrest ih =>
    rw [Nat.add_assoc] at hend ⊢
    have heq := take_front hend t
    have hfirst : rd32 d ≠ 0 := by
      intro h0
      refine hrest.ne_nil ?_
      rw [readBox_open hb' h0, drop_length]
    rw [← drop_drop] at hb hsized
    refine .next (readBox_congr hb' heq fun h0 => absurd h0 hfirst) ?_ ?_
    · rwa [boxType, rd32_congr heq (readBox_size hb')]
    · rw [drop_front hend]
      exact ih hb hsized (readBox_end hb)

/-- The octets of the first box of a type. -/
def firstBox (d : Bytes) (type : ℕ) : Option Bytes :=
  match findBox d type with
  | .at start => (readBox (d.drop start)).map fun b => (d.drop start).take b.size
  | _ => none

/-- **The first box of a type, and its place.** -/
theorem firstBox_eq_some : firstBox d type = some p ↔ ∃ start b, FoundAt type d start ∧
    readBox (d.drop start) = some b ∧ p = (d.drop start).take b.size := by
  rw [firstBox]
  constructor
  · intro h
    split at h
    · rename_i start hfind
      obtain ⟨b, hb, -⟩ := (findBox_eq_at.mp hfind).readBox
      rw [hb] at h
      exact ⟨start, b, findBox_eq_at.mp hfind, hb, (Option.some.inj h).symm⟩
    · cases h
  · rintro ⟨start, b, hfound, hb, rfl⟩
    rw [findBox_eq_at.mpr hfound]
    dsimp only
    rw [hb]
    rfl

/-- No octets behind a first box that has a size change it. -/
theorem firstBox_stable (h : FoundAt type d start) (hb : readBox (d.drop start) = some b)
    (hsized : rd32 (d.drop start) ≠ 0) (t : Bytes) :
    firstBox (d.take (start + b.size) ++ t) type = firstBox d type := by
  have heq : ((d.take (start + b.size) ++ t).drop start).take b.size =
      (d.drop start).take b.size := by
    rw [drop_front (readBox_end hb)]
    exact take_front (k := 0) (readBox_length hb).2 t
  exact (firstBox_eq_some.mpr ⟨start, b, h.stable hb hsized t,
    readBox_congr hb heq fun h0 => absurd h0 hsized, heq.symm⟩).trans
      (firstBox_eq_some.mpr ⟨start, b, h, hb, rfl⟩).symm

/-! ## A box in a box -/

/-- Where a box in a box was found: the outer box, and the inner one in its payload. -/
structure BoxPath where
  start : ℕ
  outer : BoxHead
  offset : ℕ

/-- What `find_box_nested_rc` has found on a path of two. -/
structure NestedAt (d : Bytes) (outer inner : ℕ) (x : BoxPath) : Prop where
  found : findBox d outer = .at x.start
  head : readBox (d.drop x.start) = some x.outer
  nested : findBox (x.outer.payload (d.drop x.start)) inner = .at x.offset

/-- The octets from the inner box on, as its readers see them. -/
def BoxPath.octets (x : BoxPath) (d : Bytes) : Bytes := d.drop (x.start + x.outer.hdr + x.offset)

variable {x : BoxPath}

/-- **The inner box is read with the octets of its parent, then with those behind it.** -/
theorem NestedAt.octets_eq (h : NestedAt d outer inner x) :
    ∃ own head, own = (x.outer.payload (d.drop x.start)).drop x.offset ∧
      readBox own = some head ∧ own.length + x.offset + x.outer.hdr = x.outer.size ∧
      x.octets d = own ++ d.drop (x.start + x.outer.size) := by
  obtain ⟨head, hhead, -⟩ := (findBox_eq_at.mp h.nested).readBox
  have hsize := readBox_size hhead
  have hle := (readBox_length hhead).2
  obtain ⟨hhdr, hfits⟩ := readBox_length h.head
  rw [BoxHead.payload, drop_drop, length_drop, length_take] at hle
  refine ⟨_, head, rfl, hhead, ?_, ?_⟩
  · rw [BoxHead.payload, drop_drop, length_drop, length_take]
    omega
  · calc x.octets d = (d.drop x.start).drop (x.outer.hdr + x.offset) := by
          rw [BoxPath.octets, drop_drop, Nat.add_assoc]
      _ = ((d.drop x.start).take x.outer.size ++ (d.drop x.start).drop x.outer.size).drop
            (x.outer.hdr + x.offset) := by rw [take_append_drop]
      _ = _ := by
          rw [drop_append_of_le_length (by rw [length_take]; omega),
            drop_drop, BoxHead.payload, drop_drop]

/-- The inner box has a size of zero in an outer box that has a size. -/
def OpenIn (d : Bytes) (outer inner : ℕ) : Prop :=
  ∃ x, NestedAt d outer inner x ∧ rd32 (x.octets d) = 0 ∧ rd32 (d.drop x.start) ≠ 0

theorem readBox_own (h : readBox d = some b) : readBox (d.take b.size) = some b :=
  readBox_congr h (by rw [take_take, Nat.min_self]) fun _ => by
    rw [length_take, Nat.min_eq_left (readBox_length h).2]

/-- A search for a box in a box stays in the octets of the outer box. -/
theorem NestedAt.transfer (h : NestedAt d outer inner x)
    (hfirst : firstBox d' outer = firstBox d outer) :
    ∃ start, NestedAt d' outer inner ⟨start, x.outer, x.offset⟩ ∧
      (d'.drop start).take x.outer.size = (d.drop x.start).take x.outer.size := by
  rw [firstBox_eq_some.mpr ⟨_, _, findBox_eq_at.mp h.found, h.head, rfl⟩] at hfirst
  obtain ⟨start, b, hfound, hb, heq⟩ := firstBox_eq_some.mp hfirst
  have hown := readBox_own h.head
  rw [heq, readBox_own hb] at hown
  cases hown
  refine ⟨start, ⟨findBox_eq_at.mpr hfound, hb, ?_⟩, heq.symm⟩
  rw [BoxHead.payload, ← heq]
  exact h.nested

/-- **What is read of an inner box**, with the octets behind its parent as `tail`. -/
theorem NestedAt.payload_eq (h : NestedAt d outer inner x) :
    ∃ own head tail, own = (x.outer.payload (d.drop x.start)).drop x.offset ∧
      tail = d.drop (x.start + x.outer.size) ∧ rd32 (x.octets d) = rd32 own ∧
      nestedPayload d outer inner =
        .ok (if rd32 own = 0 then (own ++ tail).drop 8 else head.payload own) ∧
      readBox own = some head := by
  obtain ⟨own, head, rfl, hown, -, hoct⟩ := h.octets_eq
  have hle := (readBox_length hown).2
  obtain ⟨hword, hread⟩ := readBox_append hown (d.drop (x.start + x.outer.size))
  refine ⟨_, head, _, rfl, rfl, by rw [hoct, hword], ?_, hown⟩
  rw [← hoct] at hread
  rw [nestedPayload, needBox, h.found]
  dsimp only
  rw [h.head]
  dsimp only
  rw [needBox, h.nested]
  dsimp only
  rw [hown]
  dsimp only
  rw [← BoxPath.octets, hread]
  dsimp only
  rw [BoxHead.payload, hoct]
  split_ifs with hzero
  · rw [take_length]
  · rw [take_append_of_le_length hle]
    rfl

/-- **Octets behind the outer box are read as octets of the inner one**, if it leaves its end
open. -/
theorem NestedAt.reads_behind (hx : NestedAt d outer inner x) (hzero : rd32 (x.octets d) = 0)
    (hsized : rd32 (d.drop x.start) ≠ 0) (t : Bytes) :
    nestedPayload (d.take (x.start + x.outer.size) ++ t) outer inner =
      .ok ((x.outer.payload (d.drop x.start)).drop (x.offset + 8) ++ t) := by
  obtain ⟨own, -, -, hown, -, hword, -⟩ := hx.payload_eq
  have hfound := findBox_eq_at.mp hx.found
  obtain ⟨start, hx', hstart⟩ := hx.transfer (firstBox_stable hfound hx.head hsized t)
  cases hx'.found.symm.trans (findBox_eq_at.mpr (hfound.stable hx.head hsized t))
  obtain ⟨own', head, tail, hown', htail, -, hread, hhead⟩ := hx'.payload_eq
  rw [BoxHead.payload, hstart, ← BoxHead.payload, ← hown] at hown'
  rw [drop_left' (by rw [length_take, Nat.min_eq_left (readBox_end hx.head)])] at htail
  have hlong := (readBox_size hhead).trans (readBox_length hhead).2
  subst hown' htail
  rw [hread, if_pos (hword.symm.trans hzero), drop_append_of_le_length hlong, hown, drop_drop]

/-! ## The init segment -/

/-- What `parse_init_full` makes of the payload of the `trak`. -/
def parseTrak (trak : Bytes) : Except CmafError InitInfo := do
  let mdia ← needPayload trak (fourccOf "mdia")
  let mdhd ← needPayload mdia (fourccOf "mdhd")
  let timescale ← parseMdhdTimescale mdhd
  let minf ← needPayload mdia (fourccOf "minf")
  let stbl ← needPayload minf (fourccOf "stbl")
  let stsd ← needPayload stbl (fourccOf "stsd")
  parseStsdEntry stsd { trackId := trakTrackId trak, timescale }

theorem parseInitFull_eq (d : Bytes) :
    parseInitFull d = (nestedPayload d (fourccOf "moov") (fourccOf "trak")).bind parseTrak := rfl

/-- A `moov` that holds the header of a `trak` of size zero, and these octets of it. -/
def openMoov (own : Bytes) : Bytes :=
  boxOctets (fourccOf "moov") (beBytes 4 0 ++ beBytes 4 (fourccOf "trak") ++ own)

/-- An open `trak` whose first box is broken is refused, whatever stands behind the `moov`. -/
theorem parseInitFull_open_refused : ∃ d, OpenIn d (fourccOf "moov") (fourccOf "trak") ∧
    ∀ t, parseInitFull (d ++ t) = .error .proto := by
  have hx : NestedAt (openMoov (beBytes 8 (2 ^ 34))) (fourccOf "moov") (fourccOf "trak")
      ⟨0, ⟨24, 8⟩, 0⟩ := ⟨by decide +kernel, by decide +kernel, by decide +kernel⟩
  refine ⟨_, ⟨_, hx, by decide +kernel, by decide +kernel⟩, fun t => ?_⟩
  have hread := hx.reads_behind (by decide +kernel) (by decide +kernel) t
  rw [parseInitFull_eq]
  exact congrArg (Except.bind · parseTrak) hread

end MoqRelay.Cmaf
