import MoqRelay.Lib.IntCode

/-!
# Cmaf/Box — boxes, written with patched sizes and searched

The growable buffer of `cmaf_packager.c` and the box reader of `cmaf.c`.  A box is opened with a
size of zero, filled, and its size patched when it is closed; `Emits` says what a writer adds to the
buffer if no write fails, so that a patched box is just its octets (`emits_box`).  The reader walks
sibling boxes: over octets of boxes a search finds the first of its type.
-/

namespace MoqRelay.Cmaf

open List

/-- The results of the packager and of the parser other than `MOQ_OK`. -/
inductive CmafError
  | inval | proto | unsupported | nomem | internal | buffer
  deriving DecidableEq, Repr

/-- `PACKAGER_MAX_PAYLOAD`. -/
def packagerMaxPayload : ℕ := 64 * 1024 * 1024

/-- `PACKAGER_MAX_BUFFER`. -/
def packagerMaxBuffer : ℕ := packagerMaxPayload + 2 * 1024 * 1024

/-! ## The buffer -/

/-- `buf_t`.  Whether the allocator grants the next request is not up to the buffer: `grants` says
so, request by request. -/
structure GrowBuf where
  octets : Bytes := []
  cap : ℕ := 0
  err : Option CmafError := none
  grants : ℕ → Bool
  tries : ℕ := 0

/-- The loop of `buf_reserve`: a capacity is doubled until it is enough. -/
def growCap : ℕ → ℕ → ℕ → ℕ
  | 0, _, need => need
  | n + 1, cap, need => if cap < need then growCap n (cap * 2) need else cap

/-- The capacity `buf_reserve` asks for. -/
def GrowBuf.nextCap (b : GrowBuf) (need : ℕ) : ℕ :=
  min (growCap 64 (if b.cap = 0 then 1024 else b.cap) need) packagerMaxBuffer

/-- `buf_reserve`. -/
def GrowBuf.reserve (b : GrowBuf) (extra : ℕ) : GrowBuf :=
  let need := b.octets.length + extra
  if b.err.isSome then b
  else if need > packagerMaxBuffer then { b with err := some .unsupported }
  else if need ≤ b.cap then b
  else if b.grants b.tries then { b with cap := b.nextCap need, tries := b.tries + 1 }
  else { b with err := some .nomem, tries := b.tries + 1 }

/-- A writer into the buffer. -/
abbrev Put (α : Type) := StateM GrowBuf α

/-- `put_bytes`. -/
def putBytes (bytes : Bytes) : Put Unit := fun b =>
  if bytes = [] then ((), b)
  else
    let b := b.reserve bytes.length
    if b.err.isSome then ((), b) else ((), { b with octets := b.octets ++ bytes })

/-- `put8`. -/
def put8 (v : ℕ) : Put Unit := putBytes (beBytes 1 v)

/-- `put16`. -/
def put16 (v : ℕ) : Put Unit := putBytes (beBytes 2 v)

/-- `put24`. -/
def put24 (v : ℕ) : Put Unit := putBytes (beBytes 3 v)

/-- `put32`. -/
def put32 (v : ℕ) : Put Unit := putBytes (beBytes 4 v)

/-- `put_zero`. -/
def putZero (n : ℕ) : Put Unit := putBytes (List.replicate n 0)

/-- `put_fullbox`. -/
def putFullbox (version flags : ℕ) : Put Unit := do
  put8 version
  put24 flags

/-- `poke32`, by offset. -/
def poke32 (octets : Bytes) (offset v : ℕ) : Bytes :=
  octets.take offset ++ beBytes 4 v ++ octets.drop (offset + 4)

/-- `b->len`. -/
def position : Put ℕ := fun b => (b.octets.length, b)

/-- `FOURCC`. -/
def fourcc (name : Bytes) : ℕ := beValue 0 name

/-- `box_open`. -/
def boxOpen (type : ℕ) : Put ℕ := do
  let start ← position
  put32 0
  put32 type
  return start

/-- `box_close`. -/
def boxClose (start : ℕ) : Put Unit := fun b =>
  if b.err.isSome then ((), b)
  else
    let size := b.octets.length - start
    if size > 0xFFFFFFFF then ((), { b with err := some .unsupported })
    else ((), { b with octets := poke32 b.octets start size })

/-- A box around what `body` writes. -/
def box {α : Type} (type : ℕ) (body : Put α) : Put α := do
  let start ← boxOpen type
  let a ← body
  boxClose start
  return a

/-! ## What a writer emits -/

/-- The octets of a box. -/
def boxOctets (type : ℕ) (payload : Bytes) : Bytes :=
  beBytes 4 (8 + payload.length) ++ (beBytes 4 type ++ payload)

@[simp] theorem length_boxOctets (type : ℕ) (payload : Bytes) :
    (boxOctets type payload).length = 8 + payload.length := by
  simp only [boxOctets, length_append, length_beBytes]
  omega

/-- **What a writer adds to a buffer**, if no write fails: these octets, within the limit, and a
result that depends on where it stood.  Once a write has failed nothing succeeds. -/
structure Emits {α : Type} (m : Put α) (payload : Bytes) (value : ℕ → α) : Prop where
  sticky : ∀ b, (m b).2.err = none → b.err = none
  octets : ∀ b, (m b).2.err = none → (m b).2.octets = b.octets ++ payload
  bounded : ∀ b, (m b).2.err = none → b.octets.length ≤ packagerMaxBuffer →
    (m b).2.octets.length ≤ packagerMaxBuffer
  value : ∀ b, (m b).2.err = none → (m b).1 = value b.octets.length

variable {α β : Type} {m : Put α} {p q payload : Bytes} {b : GrowBuf} {n type : ℕ}
  {value : ℕ → α}

theorem Emits.pure (a : α) : Emits (pure a : Put α) [] fun _ => a where
  sticky _ h := h
  octets _ _ := (append_nil _).symm
  bounded _ _ h := h
  value _ _ := rfl

theorem Emits.bind {f : α → Put β} {v : ℕ → α}
    {w : α → ℕ → β} (hm : Emits m p v) (hf : ∀ a, Emits (f a) q (w a)) :
    Emits (m >>= f) (p ++ q) fun n => w (v n) (n + p.length) where
  sticky b h := hm.sticky b ((hf _).sticky _ h)
  octets b h := by
    have hfirst := (hf _).sticky _ h
    have h₂ := (hf _).octets _ h
    rwa [hm.octets b hfirst, append_assoc] at h₂
  bounded b h hb := (hf _).bounded _ h (hm.bounded b ((hf _).sticky _ h) hb)
  value b h := by
    have hfirst := (hf _).sticky _ h
    refine ((hf (m b).1).value _ h).trans ?_
    rw [hm.octets b hfirst, length_append, hm.value b hfirst]

/-- Writers without a result, in sequence. -/
theorem Emits.seq {m : Put Unit} {n : Put β} {w : ℕ → β}
    (hm : Emits m p fun _ => ()) (hn : Emits n q w) :
    Emits (m >>= fun _ => n) (p ++ q) fun k => w (k + p.length) := hm.bind fun _ => hn

theorem reserve_spec (h : (b.reserve n).err = none) :
    b.err = none ∧ (b.reserve n).octets = b.octets ∧
      b.octets.length + n ≤ packagerMaxBuffer := by
  simp only [GrowBuf.reserve] at h ⊢
  split_ifs at h ⊢ with herr hbig hcap hgrant
  · simp [h] at herr
  iterate 2 exact ⟨h, rfl, Nat.le_of_not_lt hbig⟩

theorem putBytes_spec {bytes : Bytes} (h : (putBytes bytes b).2.err = none) :
    b.err = none ∧ (putBytes bytes b).2.octets = b.octets ++ bytes ∧
      (b.octets.length ≤ packagerMaxBuffer →
        (b.octets ++ bytes).length ≤ packagerMaxBuffer) := by
  rw [putBytes] at h ⊢
  by_cases hnil : bytes = []
  · subst hnil
    exact ⟨h, (append_nil _).symm, fun hb => by rwa [append_nil]⟩
  · rw [if_neg hnil] at h ⊢
    by_cases herr : (b.reserve bytes.length).err.isSome
    · rw [if_pos herr] at h
      rw [h] at herr
      cases herr
    · rw [if_neg herr] at h ⊢
      obtain ⟨hb, hoct, hle⟩ := reserve_spec h
      refine ⟨hb, ?_, fun _ => ?_⟩
      · rw [hoct]
      · rwa [length_append]

theorem emits_putBytes (bytes : Bytes) : Emits (putBytes bytes) bytes fun _ => () where
  sticky _ h := (putBytes_spec h).1
  octets _ h := (putBytes_spec h).2.1
  bounded b h hb := by
    obtain ⟨-, hoct, hle⟩ := putBytes_spec h
    rw [hoct]
    exact hle hb
  value _ _ := rfl

theorem emits_putFullbox (version flags : ℕ) :
    Emits (putFullbox version flags) (beBytes 1 version ++ beBytes 3 flags) fun _ => () :=
  (emits_putBytes _).seq (emits_putBytes _)

theorem emits_position : Emits position [] fun n => n where
  sticky _ h := h
  octets _ _ := (append_nil _).symm
  bounded _ _ h := h
  value _ _ := rfl

theorem emits_boxOpen (type : ℕ) :
    Emits (boxOpen type) (beBytes 4 0 ++ beBytes 4 type) fun n => n := by
  have h := emits_position.bind fun start => (emits_putBytes (beBytes 4 0)).seq
    ((emits_putBytes (beBytes 4 type)).seq (Emits.pure start))
  rwa [append_nil] at h

theorem boxClose_spec {start : ℕ} (h : (boxClose start b).2.err = none) :
    b.err = none ∧
      (boxClose start b).2.octets = poke32 b.octets start (b.octets.length - start) := by
  rw [boxClose] at h ⊢
  by_cases herr : b.err.isSome
  · rw [if_pos herr] at h
    rw [h] at herr
    cases herr
  · dsimp only at h ⊢
    split_ifs at h ⊢
    exact ⟨h, rfl⟩

/-- What a box does up to its close: it only appends. -/
theorem box_spec (hm : Emits m payload value) (h : (box type m b).2.err = none) :
    ∃ c : α × GrowBuf, (boxOpen type >>= fun _ => m) b = c ∧ c.2.err = none ∧
      (box type m b).1 = c.1 ∧
      (box type m b).2.octets = b.octets ++ boxOctets type payload ∧
      c.2.octets.length = (b.octets ++ boxOctets type payload).length := by
  have hopen := (emits_boxOpen type).bind fun _ => hm
  obtain ⟨hc, hpoke⟩ := @boxClose_spec ((boxOpen type >>= fun _ => m) b).2 b.octets.length h
  have hoct := hopen.octets b hc
  have hlen : ((boxOpen type >>= fun _ => m) b).2.octets.length =
      (b.octets ++ boxOctets type payload).length := by
    rw [hoct]
    simp only [length_append, length_beBytes, length_boxOctets]
  refine ⟨_, rfl, hc, rfl, hpoke.trans ?_, hlen⟩
  have hsize : ((boxOpen type >>= fun _ => m) b).2.octets.length - b.octets.length =
      8 + payload.length := by
    rw [hlen, length_append, length_boxOctets]
    omega
  -- the patch replaces the four octets of the size, and no others
  rw [hsize, hoct, append_assoc, poke32, take_left, ← drop_drop, drop_left,
    drop_left' (length_beBytes 4 0), append_assoc, boxOctets]

/-- **A box is its octets**: its size is patched over the zero it was opened with. -/
theorem emits_box (type : ℕ) (hm : Emits m payload value) :
    Emits (box type m) (boxOctets type payload) fun n => value (n + 8) := by
  have hopen := (emits_boxOpen type).bind fun _ => hm
  constructor
  case sticky =>
    intro b h
    obtain ⟨_, rfl, hc, -⟩ := box_spec hm h
    exact hopen.sticky b hc
  case octets =>
    intro b h
    obtain ⟨_, -, -, -, hoct, -⟩ := box_spec hm h
    exact hoct
  case bounded =>
    intro b h hb
    obtain ⟨_, rfl, hc, -, hoct, hlen⟩ := box_spec hm h
    rw [hoct, ← hlen]
    exact hopen.bounded b hc hb
  case value =>
    intro b h
    obtain ⟨_, rfl, hc, hval, -⟩ := box_spec hm h
    have hv := hopen.value b hc
    exact hval.trans hv

/-! ## The reader -/

/-- `rd16`. -/
def rd16 (d : Bytes) : ℕ := beValue 0 (d.take 2)

/-- `rd32`. -/
def rd32 (d : Bytes) : ℕ := beValue 0 (d.take 4)

/-- `rd64`. -/
def rd64 (d : Bytes) : ℕ := rd32 d * 2 ^ 32 + rd32 (d.drop 4)

/-- `box_t`, without the pointer: the reader keeps the octets from the box on. -/
structure BoxHead where
  (size hdr : ℕ)
  deriving DecidableEq, Repr

/-- The last check of `read_box`. -/
def boxHead (size hdr avail : ℕ) : Option BoxHead :=
  if size > avail || size < hdr then none else some ⟨size, hdr⟩

/-- `read_box`. -/
def readBox (d : Bytes) : Option BoxHead :=
  if d.length < 8 then none
  else if rd32 d = 1 then
    if d.length < 16 then none else boxHead (rd64 (d.drop 8)) 16 d.length
  else if rd32 d = 0 then boxHead d.length 8 d.length
  else boxHead (rd32 d) 8 d.length

theorem boxHead_eq_some {size hdr avail : ℕ} {b : BoxHead} (h : boxHead size hdr avail = some b) :
    b = ⟨size, hdr⟩ ∧ hdr ≤ size ∧ size ≤ avail := by
  rw [boxHead] at h
  split_ifs at h with hbad
  rw [Bool.or_eq_true, decide_eq_true_eq, decide_eq_true_eq] at hbad
  exact ⟨(Option.some.inj h).symm, by omega, by omega⟩

theorem readBox_size {d : Bytes} {b : BoxHead} (h : readBox d = some b) : 8 ≤ b.size := by
  rw [readBox] at h
  split_ifs at h
  all_goals
    obtain ⟨rfl, hle, -⟩ := boxHead_eq_some h
    exact (show 8 ≤ _ by omega).trans hle

/-- `box_type`. -/
def boxType (d : Bytes) : ℕ := rd32 (d.drop 4)

/-- What `find_box_rc` answers: `0` with an offset, `1` or `-1`. -/
inductive Found
  | at (offset : ℕ)
  | absent
  | malformed
  deriving DecidableEq, Repr

/-- A search that started further on. -/
def Found.shift (n : ℕ) : Found → Found
  | .at offset => .at (n + offset)
  | f => f

/-- The loop of `find_box_rc`.  A box has eight octets at least, so a fuel of their number is
enough. -/
def findBoxLoop (type : ℕ) : ℕ → Bytes → Found
  | 0, d => if d = [] then .absent else .malformed
  | n + 1, d =>
    if d.length < 8 then (if d = [] then .absent else .malformed)
    else
      match readBox d with
      | none => .malformed
      | some b =>
        if boxType d = type then .at 0 else (findBoxLoop type n (d.drop b.size)).shift b.size

/-- `find_box_rc`. -/
def findBox (d : Bytes) (type : ℕ) : Found := findBoxLoop type d.length d

/-- More fuel than octets changes nothing. -/
theorem findBoxLoop_fuel (type : ℕ) (n : ℕ) : ∀ d : Bytes, d.length ≤ n →
    findBoxLoop type n d = findBox d type := by
  induction n using Nat.strong_induction_on with
  | _ n ih =>
    intro d hd
    rw [findBox]
    cases n with
    | zero =>
      rw [length_eq_zero_iff.mp (Nat.le_zero.mp hd)]
      rfl
    | succ n =>
      cases hk : d.length with
      | zero =>
        rw [length_eq_zero_iff.mp hk]
        rfl
      | succ k =>
        rw [findBoxLoop, findBoxLoop]
        by_cases hshort : d.length < 8
        · rw [if_pos hshort, if_pos hshort]
        · cases hb : readBox d with
          | none => rfl
          | some b =>
            -- A box that was read has eight octets at least.
            have hsize : 8 ≤ b.size := readBox_size hb
            have hdrop : (d.drop b.size).length ≤ k := by
              rw [length_drop]
              omega
            dsimp only
            rw [ih n (Nat.lt_succ_self n) _ (by omega), ih k (by omega) _ hdrop]

theorem readBox_length {d : Bytes} {b : BoxHead} (h : readBox d = some b) :
    b.hdr ≤ b.size ∧ b.size ≤ d.length := by
  rw [readBox] at h
  split_ifs at h
  all_goals
    obtain ⟨rfl, hhdr, hle⟩ := boxHead_eq_some h
    exact ⟨hhdr, hle⟩

/-- **One round of a search** whose next box can be read. -/
theorem findBox_eq {d : Bytes} {b : BoxHead} (h : readBox d = some b) (type : ℕ) :
    findBox d type =
      if boxType d = type then .at 0 else (findBox (d.drop b.size) type).shift b.size := by
  have hsize := readBox_size h
  have hle := (readBox_length h).2
  obtain ⟨n, hn⟩ : ∃ n, d.length = n + 1 := ⟨d.length - 1, by omega⟩
  have hdrop : (d.drop b.size).length ≤ n := by
    rw [length_drop]
    omega
  rw [findBox, hn, findBoxLoop, if_neg (by omega), h]
  dsimp only
  rw [findBoxLoop_fuel type n _ hdrop]

/-! ## Reading what was written -/

variable {v : ℕ}

theorem beValue_beBytes_of_lt (h : v < 256 ^ n) : beValue 0 (beBytes n v) = v := by
  have hzero : v >>> (8 * n) = 0 := by
    rw [Nat.shiftRight_eq_div_pow, Nat.div_eq_of_lt]
    rwa [pow_mul]
  have := beValue_beBytes n v
  rwa [hzero] at this

theorem rd32_beBytes (h : v < 2 ^ 32) (r : Bytes) : rd32 (beBytes 4 v ++ r) = v := by
  rw [rd32, take_left' (length_beBytes 4 v), beValue_beBytes_of_lt (by simpa using h)]

theorem rd16_beBytes (h : v < 2 ^ 16) (r : Bytes) : rd16 (beBytes 2 v ++ r) = v := by
  rw [rd16, take_left' (length_beBytes 2 v), beValue_beBytes_of_lt (by simpa using h)]

/-- **A box that was written is read back**, whatever follows. -/
theorem readBox_boxOctets (h : 8 + payload.length < 2 ^ 32)
    (r : Bytes) : readBox (boxOctets type payload ++ r) = some ⟨8 + payload.length, 8⟩ := by
  have hsize : rd32 (boxOctets type payload ++ r) = 8 + payload.length := by exact rd32_beBytes h _
  have hlen : (boxOctets type payload ++ r).length = 8 + payload.length + r.length := by
    rw [length_append, length_boxOctets]
  have hlong : ¬ (boxOctets type payload ++ r).length < 8 := by omega
  have hfits : ¬ (decide (8 + payload.length > (boxOctets type payload ++ r).length) ||
      decide (8 + payload.length < 8)) := by
    rw [Bool.or_eq_true, decide_eq_true_eq, decide_eq_true_eq]
    omega
  rw [readBox, if_neg hlong, hsize, if_neg (by omega), if_neg (by omega), boxHead, if_neg hfits]

theorem boxType_boxOctets (htype : type < 2 ^ 32) (payload r : Bytes) :
    boxType (boxOctets type payload ++ r) = type :=
  rd32_beBytes htype _

/-- The octets of a box from its payload on. -/
theorem drop_boxOctets (type : ℕ) (payload r : Bytes) :
    (boxOctets type payload ++ r).drop 8 = payload ++ r := by
  rw [boxOctets, ← append_assoc, append_assoc, drop_left' (by simp)]

end MoqRelay.Cmaf
