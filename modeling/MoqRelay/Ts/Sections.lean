import MoqRelay.Ts.Psi

/-!
# Ts/Sections — the sections of a PID, as a reader cuts them out of its payloads

What a section is, apart from any code that rewrites or collects one: the octets from a start that
the pointer of a packet names, or that follows another section there, up to the length it states,
over packets whose counters follow each other.  A reader reads *marked* octets, `src` of each being
the octet itself; with a pair of octets, one received and one emitted, for each mark, it says what
became of every section.
-/

namespace MoqRelay

open SectionState (sectionLength)

/-- A run of octets of a payload: `before` holds the octets of their section in the packets before,
and is `none` for octets of no section. -/
structure Piece (α : Type) where
  before : Option (List α)
  octets : List α
  deriving DecidableEq, Repr

/-- How far a section got. -/
inductive Filled
  | more | whole | lost
  deriving DecidableEq, Repr

section Cut

variable {α : Type} (src : α → UInt8)

/-- All the octets of a section are there. -/
def isWhole (s : List α) : Bool := 3 ≤ s.length && s.length = 3 + sectionLength (s.map src)

/-- The end of a section cannot be found: it states a length no section has. -/
def isLost (s : List α) : Bool := s.length = 3 && sectionMax - 3 < sectionLength (s.map src)

/-- The octets that belong to a section of which some are read, those after it, and how far it
got. -/
def fillSection : List α → List α → List α × List α × Filled
  | _, [] => ([], [], .more)
  | acc, x :: d =>
    if isLost src (acc ++ [x]) then ([], x :: d, .lost)
    else if isWhole src (acc ++ [x]) then ([x], d, .whole)
    else let (taken, rest, st) := fillSection (acc ++ [x]) d; (x :: taken, rest, st)

/-- Sections back to back, until stuffing; and the one that goes on in the next packet. -/
def cutSections : ℕ → List α → List (Piece α) × Option (List α)
  | 0, d => ([⟨none, d⟩], none)
  | n + 1, d =>
    if (d.map src).headD 0xFF = 0xFF then ([⟨none, d⟩], none)
    else
      match fillSection src [] d with
      | (taken, rest, .more) => ([⟨some [], taken⟩, ⟨none, rest⟩], some taken)
      | (taken, rest, .lost) => ([⟨some [], taken⟩, ⟨none, rest⟩], none)
      | (taken, rest, .whole) => let (ps, cur) := cutSections n rest; (⟨some [], taken⟩ :: ps, cur)

/-- The octets before the pointer, or of a packet without one: they go on with the section in
progress. -/
def cutContinued (cur : Option (List α)) (d : List α) : List (Piece α) × Option (List α) :=
  match cur with
  | none => ([⟨none, d⟩], none)
  | some acc =>
    let (taken, rest, st) := fillSection src acc d
    ([⟨some acc, taken⟩, ⟨none, rest⟩], if st = .more then some (acc ++ taken) else none)

/-- A payload, cut.  A pointer ends the section in progress. -/
def cutPayload (cur : Option (List α)) (pusi : Bool) (d : List α) :
    List (Piece α) × Option (List α) :=
  if pusi then
    let ptr := ((d.map src).headD 0).toNat
    let new := (d.drop 1).drop ptr
    let (ps, next) := cutSections src new.length new
    (⟨none, d.take 1⟩ :: ((cutContinued src cur ((d.drop 1).take ptr)).1 ++ ps), next)
  else cutContinued src cur d

end Cut

/-- The last payload read. -/
structure LastRead (α : Type) where
  cc : ℕ
  pusi : Bool
  octets : List α
  pieces : List (Piece α)
  deriving DecidableEq, Repr

/-- A reader of the payloads of one PID: the section in progress, and the last payload. -/
structure Reader (α : Type) where
  cur : Option (List α) := none
  last : Option (LastRead α) := none
  deriving DecidableEq, Repr

/-- The last payload, if this one repeats it: its counter, start indicator and octets. -/
def Reader.repeated {α : Type} (src : α → UInt8) (r : Reader α) (cc : ℕ) (pusi : Bool)
    (d : List α) : Option (LastRead α) :=
  r.last.filter fun l => l.cc = cc && l.pusi = pusi && l.octets.map src = d.map src

/-- A payload is read: cut like the one it repeats, or on its own. -/
def Reader.read {α : Type} (src : α → UInt8) (r : Reader α) (cc : ℕ) (pusi : Bool) (d : List α) :
    List (Piece α) × Reader α :=
  match r.repeated src cc pusi d with
  | some l => (l.pieces, r)
  | none =>
    let cur := if r.last.any fun l => cc = (l.cc + 1) % 16 then r.cur else none
    let (pieces, next) := cutPayload src cur pusi d
    (pieces, { cur := next, last := some ⟨cc, pusi, d, pieces⟩ })

section Lemmas

variable {α : Type} {src : α → UInt8}

theorem fillSection_append (acc d : List α) :
    (fillSection src acc d).1 ++ (fillSection src acc d).2.1 = d := by
  induction d generalizing acc with
  | nil => rfl
  | cons x d ih =>
    rw [fillSection]
    split_ifs
    · rfl
    · rfl
    · exact congrArg (x :: ·) (ih (acc ++ [x]))

end Lemmas

end MoqRelay
