import MoqRelay.Wire.Buf

/-!
# Wire/D22Params — draft-22 parameters

`params_d22.c` and the values of `control_d22.c` they hold: the legal parameters of each scope, the
value of each type, the sequence with its checks across parameters, and the encoder, which reads
back what it wrote.  Members of a parameter that its type does not select are not looked at on
encode and are zero on decode.
-/

namespace MoqRelay

/-! ## Types and scopes -/

/-- `MOQ_D22_HOP_PATH`. -/
def d22HopPath : UInt64 := 0x40B57

/-- `MOQ_D22_ROUTE_COST`. -/
def d22RouteCost : UInt64 := 0x40B58

/-- `moq_d22_param_scope_t`. -/
inductive D22Scope
  | subscribe | publish | fetch | trackStatus | publishNamespace | subscribeNamespace
  | subscribeTracks | subscribeOk | publishOk | updateOk | trackStatusOk | namespaceOk | fetchOk
  | notify | updateSubscriber | updatePublisher | updateFetch | updatePublishNamespace
  | updateSubscribeNamespace | updateSubscribeTracks | fill | ns
  deriving DecidableEq, Repr

/-- `B(t) | …` over a list of types. -/
def paramBits (ts : List ℕ) : ℕ := ts.foldl (fun m t => m ||| 1 <<< t) 0

/-- The types of `RANGES`. -/
def rangeTypes : List ℕ := [0x25, 0x26, 0x27, 0x28]

/-- `allowed`. -/
def D22Scope.allowed : D22Scope → ℕ
  | .subscribe => paramBits ([2, 3, 4, 6, 16, 32, 33, 34, 35] ++ rangeTypes ++ [50, 53])
  | .publish => paramBits [2, 3, 6, 8, 9, 16, 32, 33, 34]
  | .fetch => paramBits ([3, 10, 32, 33, 34] ++ rangeTypes ++ [53])
  | .trackStatus => paramBits [3, 53]
  | .publishNamespace => paramBits [3, 63]
  | .subscribeNamespace => paramBits [3]
  | .subscribeTracks => paramBits ([3, 16, 34] ++ rangeTypes ++ [41, 53])
  | .subscribeOk => paramBits [8, 9]
  | .publishOk => paramBits [8]
  | .updateOk => paramBits [8, 9]
  | .trackStatusOk => paramBits [9]
  | .namespaceOk => paramBits [8]
  | .fetchOk => 0
  | .notify => paramBits [9, 16, 33]
  | .updateSubscriber => paramBits ([2, 3, 6, 16, 32, 33, 35] ++ rangeTypes ++ [50])
  | .updatePublisher => paramBits [2, 3, 6, 16, 32, 33, 50]
  | .updateFetch => paramBits [3, 32]
  | .updatePublishNamespace => paramBits [3, 63]
  | .updateSubscribeNamespace => paramBits [3, 52]
  | .updateSubscribeTracks => paramBits [3, 16, 41, 52]
  | .fill => paramBits ([10, 32, 33, 34] ++ rangeTypes)
  | .ns => paramBits [63]

/-- `cluster_type`. -/
def clusterType (type : UInt64) : Bool := type = d22HopPath || type = d22RouteCost

/-- `is_range`. -/
def isRangeType (type : UInt64) : Bool := 0x25 ≤ type && type ≤ 0x29

/-- A type is one of a set of legal ones; both cluster types share a bit. -/
def paramLegal (legal : ℕ) (type : UInt64) : Bool :=
  if clusterType type then legal.testBit 63 else type < 63 && legal.testBit type.toNat

/-- What a parameter holds: the cases of both switches over its type. -/
inductive D22ParamKind
  | integer | hopPath | token | location | byte | filter | fill | ranges | ns
  deriving DecidableEq, Repr

/-- The kind of a type; `none` for one that no switch has. -/
def paramKind (type : UInt64) : Option D22ParamKind :=
  if type = d22RouteCost || type ∈ [2, 4, 6, 8, 10, 50] then some .integer
  else if type = d22HopPath then some .hopPath
  else if type = 3 then some .token
  else if type = 9 then some .location
  else if type ∈ [16, 32, 34, 53] then some .byte
  else if type = 33 then some .filter
  else if type = 35 then some .fill
  else if type ∈ [37, 38, 39, 40, 41] then some .ranges
  else if type = 52 then some .ns
  else none

/-! ## Values -/

/-- `moq_d22_location_t`. -/
structure D22Location where
  group : UInt64 := 0
  object : UInt64 := 0
  deriving DecidableEq, Repr

/-- `moq_d22_filter_type_t`. -/
inductive D22FilterType
  | none | relative | absolute | groupEnd | range | nextObject
  deriving DecidableEq, Repr

/-- The code of a filter type. -/
def D22FilterType.code : D22FilterType → UInt64
  | .none => 0
  | .relative => 1
  | .absolute => 2
  | .groupEnd => 3
  | .range => 4
  | .nextObject => 5

/-- The filter type of a code. -/
def D22FilterType.ofCode (code : UInt64) : Option D22FilterType :=
  [.none, .relative, .absolute, .groupEnd, .range, .nextObject].find? fun t => t.code = code

/-- `moq_d22_location_filter_t`. -/
structure D22LocationFilter where
  type : D22FilterType := .none
  startGroup : UInt64 := 0
  startObject : UInt64 := 0
  endGroupDelta : UInt64 := 0
  endObject : UInt64 := 0
  deriving DecidableEq, Repr

/-- `moq_d22_namespace_t`. -/
structure D22Namespace where
  encoded : Bytes := []
  fields : Bytes := []
  count : ℕ := 0
  valueBytes : ℕ := 0
  deriving DecidableEq, Repr

/-- `moq_d22_token_t`. -/
structure D22Token where
  aliasType : UInt64 := 0
  aliasId : UInt64 := 0
  type : UInt64 := 0
  value : Bytes := []
  deriving DecidableEq, Repr

/-- `moq_d22_range_t`. -/
structure D22Range where
  start : UInt64 := 0
  stop : UInt64 := uint64Max
  openEnd : Bool := false
  deriving DecidableEq, Repr

/-- `moq_d22_range_filter_t`. -/
structure D22RangeFilter where
  clear : Bool := false
  setId : UInt8 := 0
  propertyType : UInt64 := 0
  ranges : Bytes := []
  count : ℕ := 0
  deriving DecidableEq, Repr

/-- `moq_d22_param_t`, with the members of its union side by side. -/
structure D22Param where
  type : UInt64
  hopIds : Option (List UInt64) := none
  integer : UInt64 := 0
  location : D22Location := {}
  filter : D22LocationFilter := {}
  token : D22Token := {}
  ranges : D22RangeFilter := {}
  ns : D22Namespace := {}
  hopPath : Bytes := []
  fill : Bytes := []
  deriving DecidableEq, Repr

/-- `moq_d22_params_t`. -/
structure D22Params where
  encoded : Bytes := []
  count : ℕ := 0
  present : ℕ := 0
  rangeCount : ℕ := 0
  hasHopPath : Bool := false
  hasRouteCost : Bool := false
  deriving DecidableEq, Repr

/-! ## Reading a value -/

/-- `moq_d22_decode_location_filter`. -/
def decodeLocationFilter : Read D22LocationFilter := do
  let code ← readVi64
  failWhen (code > 5) .proto
  let startGroup ← readWhen (1 ≤ code && code ≤ 4) readVi64 0
  let startObject ← readWhen (2 ≤ code && code ≤ 4) readVi64 0
  let endGroupDelta ← readWhen (3 ≤ code && code ≤ 4) readVi64 0
  failWhen (3 ≤ code && code ≤ 4 && endGroupDelta > uint64Max - startGroup) .proto
  let endObject ← readWhen (code = 4) readVi64 0
  match D22FilterType.ofCode code with
  | some type => return { type, startGroup, startObject, endGroupDelta, endObject }
  | none => throw .proto

/-- The loop of `moq_d22_decode_namespace`: the octets of the fields so far. -/
def readNsFields : ℕ → ℕ → Read ℕ
  | 0, valueBytes => pure valueBytes
  | n + 1, valueBytes => do
    let field ← readSpan (4096 - valueBytes)
    failWhen (field.length = 0) .proto
    readNsFields n (valueBytes + field.length)

/-- A namespace without its own octets. -/
def readNsBody : Read D22Namespace := do
  let count ← readVi64
  failWhen (count > 32) .proto
  let fields ← withSpan (readNsFields count.toNat 0)
  return { fields := fields.2, count := count.toNat, valueBytes := fields.1 }

/-- `moq_d22_decode_namespace`. -/
def decodeNamespace : Read D22Namespace := do
  let ns ← withSpan readNsBody
  return { ns.1 with encoded := ns.2 }

/-- Whether a token of this alias type has a type and a value. -/
def tokenHasValue (aliasType : UInt64) : Bool := aliasType = 1 || aliasType = 3

/-- The fields of a token, up to the end of its octets. -/
def readToken : Read D22Token := do
  let aliasType ← readVi64
  failWhen (aliasType > 3) .kvpFormat
  let aliasId ← readWhen (aliasType ≠ 3) readVi64 0
  let type ← readWhen (tokenHasValue aliasType) readVi64 0
  let value ← readWhen (tokenHasValue aliasType) readRest []
  readEnd .kvpFormat
  return { aliasType, aliasId, type, value }

/-- `decode_token`. -/
def decodeToken (bytes : Bytes) : Except D22Error D22Token :=
  match readToken bytes with
  | .error _ => .error .kvpFormat
  | .ok (t, _) => .ok t

/-- `scan_range`: the range, and whether one of its ends is out of range. -/
def scanRange (previousEnd : UInt64) : Read (D22Range × Bool) := fun d => do
  let (delta, d) ← readVi64 d
  let badStart : Bool := delta > uint64Max - previousEnd
  let start := if badStart then 0 else previousEnd + delta
  if d = [] then .ok (({ start, openEnd := true }, badStart), d)
  else
    let (delta, d) ← readVi64 d
    let badStop : Bool := delta > uint64Max - start
    let stop := if badStop then uint64Max else start + delta
    .ok (({ start, stop }, badStart || badStop), d)

/-- The loop of `decode_ranges`: how many ranges, and whether one is invalid.  Each takes an octet
at least, so a fuel of their number is enough. -/
def scanRanges (type : UInt64) : ℕ → UInt64 → Bytes → Except D22Error (ℕ × Bool)
  | 0, _, _ => .ok (0, false)
  | n + 1, previousEnd, d =>
    if d = [] then .ok (0, false)
    else
      match scanRange previousEnd d with
      | .error e => .error (truncated e)
      | .ok ((range, bad), d) =>
        let wide : Bool := type = 0x27 &&
          (range.start > 255 || !range.openEnd && range.stop > 255)
        (scanRanges type n range.stop d).map fun x => (x.1 + 1, bad || wide || x.2)

/-- Whether the type of a range filter names a property. -/
def isPropertyRange (type : UInt64) : Bool := type = 0x28 || type = 0x29

/-- `decode_ranges`. -/
def decodeRanges (type : UInt64) (bytes : Bytes) : Except D22Error (D22RangeFilter × Bool) :=
  match bytes with
  | [] => .ok ({ clear := true }, false)
  | setId :: d =>
    match readWhen (isPropertyRange type) readVi64 0 d with
    | .error _ => .error .proto
    | .ok (propertyType, d) =>
      let odd : Bool := isPropertyRange type && propertyType &&& 1 ≠ 0
      (scanRanges type d.length 0 d).map fun x =>
        ({ setId, propertyType, ranges := d, count := x.1 }, odd || x.2)

/-! ## Hop paths -/

/-- The bits of an identifier that a partition fixes. -/
def hopMask (bits : ℕ) : UInt64 := if bits = 0 then 0 else uint64Max <<< UInt64.ofNat (64 - bits)

/-- The hash of an identifier. -/
def hopHash (id : UInt64) : UInt64 :=
  let hash := (id ^^^ (id >>> 33)) * 0xff51afd7ed558ccd
  hash ^^^ (hash >>> 33)

/-- The slot of an identifier: its own, or the first free one. -/
def hopSlot (seen : ℕ → UInt64) (id : UInt64) : ℕ → ℕ → ℕ
  | 0, slot => slot
  | n + 1, slot =>
    if seen slot ≠ 0 && seen slot ≠ id then hopSlot seen id n ((slot + 1) % 512) else slot

/-- One pass over the path, for the identifiers of a partition: whether it has to be split. -/
def hopPass (mask part : UInt64) : ℕ → Bytes → (ℕ → UInt64) → ℕ → Except D22Error Bool
  | 0, _, _, _ => .ok false
  | n + 1, d, seen, used =>
    if d = [] then .ok false
    else
      match readVi64 d with
      | .error _ => .error .proto
      | .ok (id, d) =>
        if id = 0 || id &&& mask ≠ part then hopPass mask part n d seen used
        else
          let slot := hopSlot seen id 512 ((hopHash id).toNat % 512)
          if seen slot = id then .error .proto
          else if used + 1 > 256 then .ok true
          else hopPass mask part n d (Function.update seen slot id) (used + 1)

/-- The loop of `moq_d22_validate_hop_path` from one partition on, with `bits` of an identifier left
to split by and `count` partitions pending below it.  The partition pushed last is taken up first.
-/
def hopPartition (path : Bytes) : ℕ → UInt64 → ℕ → Except D22Error Unit
  | 0, part, _ => do
    if ← hopPass (hopMask 64) part path.length path (fun _ => 0) 0 then throw .proto
  | bits + 1, part, count => do
    if ← hopPass (hopMask (63 - bits)) part path.length path (fun _ => 0) 0 then
      if count + 2 > 65 then throw .proto
      hopPartition path bits (part ||| 1 <<< UInt64.ofNat bits) (count + 1)
      hopPartition path bits part count

/-- `moq_d22_validate_hop_path`. -/
def validateHopPath (path : Bytes) : Except D22Error Unit :=
  if path = [] then .error .proto else hopPartition path 64 0 0

/-! ## Reading a parameter -/

/-- The switch of `scan_param`: the parameter, and whether it is an invalid filter. -/
def scanValue (type : UInt64) : Read (D22Param × Bool) :=
  match paramKind type with
  | some .integer => do
    let integer ← readVi64
    return ({ type, integer }, false)
  | some .hopPath => do
    let hopPath ← readSpan uint16Max
    Parser.ofExcept (validateHopPath hopPath)
    return ({ type, hopPath }, false)
  | some .token => do
    let span ← readSpan uint16Max
    let token ← Parser.ofExcept (decodeToken span)
    return ({ type, token }, false)
  | some .location => do
    let group ← readVi64
    let object ← readVi64
    return ({ type, location := { group, object } }, false)
  | some .byte => do
    let byte ← readByte
    failWhen ((type = 16 || type = 53) && byte > 1 ||
      type = 34 && (byte < 1 || byte > 2)) .proto
    return ({ type, integer := byte.toUInt64 }, false)
  | some .filter => do
    let filter ← decodeLocationFilter
    return ({ type, filter }, false)
  | some .fill => do
    let fill ← readSpan uint16Max
    return ({ type, fill }, false)
  | some .ranges => do
    let span ← readSpan uint16Max
    let ranges ← Parser.ofExcept (decodeRanges type span)
    return ({ type, ranges := ranges.1 }, ranges.2)
  | some .ns => do
    let ns ← decodeNamespace
    return ({ type, ns }, false)
  | none => throw .proto

/-- `scan_param`. -/
def scanParam (legal : ℕ) (previousType : UInt64) : Read (D22Param × Bool) := do
  let delta ← readVi64
  failWhen (delta > uint64Max - previousType) .proto
  failWhen (!paramLegal legal (previousType + delta)) .proto
  scanValue (previousType + delta)

/-- `UINT64_MAX`, as a set of legal types. -/
def anyParam : ℕ := uint64Max.toNat

/-- `moq_d22_param_next`. -/
def paramNext (previousType : UInt64) : Read D22Param := do
  let p ← scanParam anyParam previousType
  failWhen p.2 .invalidFilter
  return p.1

/-- All the parameters of a block, by `moq_d22_param_next` until none remains. -/
def paramList : ℕ → UInt64 → Bytes → Except D22Error (List D22Param)
  | 0, _, _ => .ok []
  | n + 1, previousType, d =>
    if d = [] then .ok []
    else
      match paramNext previousType d with
      | .error e => .error e
      | .ok (p, d) => (paramList n p.type d).map (p :: ·)

/-! ## Sequences -/

/-- The loop of `check_range_key`. -/
def checkRangeKey (p : D22Param) : ℕ → UInt64 → Bytes → Except D22Error Unit
  | 0, _, _ => .ok ()
  | n + 1, previous, d =>
    if d = [] then .ok ()
    else
      match scanParam anyParam previous d with
      | .error e => .error e
      | .ok ((earlier, _), d) =>
        if earlier.type = p.type && !earlier.ranges.clear && !p.ranges.clear &&
            earlier.ranges.setId = p.ranges.setId &&
            earlier.ranges.propertyType = p.ranges.propertyType then .error .invalidFilter
        else checkRangeKey p n earlier.type d

/-- Whether a parameter of this type came before. -/
def D22Params.repeats (v : D22Params) (type : UInt64) : Bool :=
  if type = d22HopPath then v.hasHopPath
  else if type = d22RouteCost then v.hasRouteCost
  else v.present.testBit type.toNat

/-- What a range filter adds to the verdict on the sequence. -/
def rangeVerdict (max : UInt64) (v : D22Params) (invalid : Bool) (p : D22Param) :
    Except D22Error Bool :=
  let invalid : Bool := invalid || max = 0 || v.rangeCount > max.toNat ||
    p.ranges.count > max.toNat - v.rangeCount
  if !invalid && v.repeats p.type && !p.ranges.clear then
    match checkRangeKey p v.encoded.length 0 v.encoded with
    | .error .invalidFilter => .ok true
    | .error e => .error e
    | .ok () => .ok false
  else .ok invalid

section

variable (fill : Bytes → Except D22Error Bool)

/-- The verdict on the sequence after a parameter; `fill` checks the value of a fill. -/
def stepVerdict (max : UInt64) (v : D22Params)
    (invalid : Bool) (p : D22Param) : Except D22Error Bool :=
  if isRangeType p.type then rangeVerdict max v invalid p
  else if p.type = 35 then (fill p.fill).map (invalid || ·)
  else .ok invalid

/-- The loop body of `decode_sequence`, after the parameter is scanned; `bytes` are its octets. -/
def sequenceStep (max : UInt64) (v : D22Params)
    (invalid : Bool) (p : D22Param) (bytes : Bytes) : Except D22Error (D22Params × Bool) := do
  refuse (v.repeats p.type && p.type ≠ 3 && !isRangeType p.type) .proto
  let invalid ← stepVerdict fill max v invalid p
  refuse ((v.encoded ++ bytes).length > uint16Max) .proto
  return ({ encoded := v.encoded ++ bytes
            count := v.count + 1
            present := if clusterType p.type then v.present
              else v.present ||| 1 <<< p.type.toNat
            rangeCount := v.rangeCount + if isRangeType p.type then p.ranges.count else 0
            hasHopPath := v.hasHopPath || p.type = d22HopPath
            hasRouteCost := v.hasRouteCost || p.type = d22RouteCost }, invalid)

/-- The loop of `decode_sequence`, for as many more parameters. -/
def sequenceLoop (legal : ℕ) (max : UInt64) :
    ℕ → UInt64 → D22Params → Bool → Read (D22Params × Bool)
  | 0, _, v, invalid => pure (v, invalid)
  | n + 1, previous, v, invalid => do
    let p ← withSpan (scanParam legal previous)
    let s ← Parser.ofExcept (sequenceStep fill max v (invalid || p.1.2) p.1.1 p.2)
    sequenceLoop legal max n p.1.1.type s.1 s.2

end

/-- `decode_fill_value`: whether it holds an invalid filter.  A fill is not legal in a fill, so the
sequence inside never comes to one. -/
def decodeFillValue (max : UInt64) (value : Bytes) : Except D22Error Bool :=
  match readVi64 value with
  | .error _ => .error .proto
  | .ok (count, d) =>
    match sequenceLoop (fun _ => .error .proto) D22Scope.fill.allowed max count.toNat 0 {}
        false d with
    | .error e => .error (truncated e)
    | .ok (s, d) => if d = [] then .ok s.2 else .error .proto

/-- `moq_d22_scan_params`. -/
def scanParams (count : ℕ) (scope : D22Scope) (max : UInt64) : Read (D22Params × Bool) :=
  sequenceLoop (decodeFillValue max) scope.allowed max count 0 {} false

/-- `moq_d22_decode_params`. -/
def decodeParams (count : ℕ) (scope : D22Scope) (max : UInt64) : Read D22Params := do
  let s ← scanParams count scope max
  failWhen s.2 .invalidFilter
  return s.1

/-! ## Writing -/

/-- `write_span`; parameters are limited by `UINT16_MAX`. -/
def writeSpan (w : BufWriter) (bytes : Bytes) (limit : ℕ) : Except D22Error BufWriter := do
  refuse (bytes.length > limit) .inval
  writeRaw (← writeVi64 w (UInt64.ofNat bytes.length)) bytes

/-- `write_namespace`: a namespace is written as the octets it came in, if they are one. -/
def writeNamespace (w : BufWriter) (ns : D22Namespace) : Except D22Error BufWriter :=
  if ns.encoded.length > uint16Max then .error .inval
  else
    match decodeNamespace ns.encoded with
    | .ok (_, []) => writeRaw w ns.encoded
    | _ => .error .inval

/-- `moq_d22_encode_location_filter`. -/
def encodeLocationFilter (w : BufWriter) (f : D22LocationFilter) : Except D22Error BufWriter := do
  let code := f.type.code
  refuse ((code = 3 || code = 4) && f.endGroupDelta > uint64Max - f.startGroup) .inval
  let w ← writeVi64 w code
  let w ← writeWhen (1 ≤ code && code ≤ 4) (writeVi64 · f.startGroup) w
  let w ← writeWhen (2 ≤ code && code ≤ 4) (writeVi64 · f.startObject) w
  let w ← writeWhen (3 ≤ code && code ≤ 4) (writeVi64 · f.endGroupDelta) w
  writeWhen (code = 4) (writeVi64 · f.endObject) w

/-- The octets of a token before its value. -/
def tokenHead (t : D22Token) : ℕ :=
  vi64Len t.aliasType.toNat + (if t.aliasType ≠ 3 then vi64Len t.aliasId.toNat else 0) +
    if tokenHasValue t.aliasType then vi64Len t.type.toNat else 0

/-- The token of `encode_value`. -/
def encodeToken (w : BufWriter) (t : D22Token) : Except D22Error BufWriter := do
  refuse (t.aliasType > 3) .inval
  refuse (tokenHasValue t.aliasType && t.value.length > uint16Max - tokenHead t) .inval
  let size := tokenHead t + if tokenHasValue t.aliasType then t.value.length else 0
  let w ← writeVi64 w (UInt64.ofNat size)
  let w ← writeVi64 w t.aliasType
  let w ← writeWhen (t.aliasType ≠ 3) (writeVi64 · t.aliasId) w
  let w ← writeWhen (tokenHasValue t.aliasType) (writeVi64 · t.type) w
  writeWhen (tokenHasValue t.aliasType) (writeRaw · t.value) w

/-- The range filter of `encode_value`. -/
def encodeRanges (w : BufWriter) (type : UInt64) (f : D22RangeFilter) : Except D22Error BufWriter :=
  if f.clear then writeVi64 w 0
  else do
    let head := 1 + if isPropertyRange type then vi64Len f.propertyType.toNat else 0
    refuse (f.ranges.length > uint16Max - head) .inval
    let w ← writeVi64 w (UInt64.ofNat (head + f.ranges.length))
    let w ← writeRaw w [f.setId]
    let w ← writeWhen (isPropertyRange type) (writeVi64 · f.propertyType) w
    writeRaw w f.ranges

/-- The loop that writes hop identifiers. -/
def writeHopIds : List UInt64 → BufWriter → Except D22Error BufWriter
  | [], w => .ok w
  | id :: ids, w => do writeHopIds ids (← writeVi64 w id)

/-- The hop path of `encode_value`: its identifiers if they are given, or its octets. -/
def encodeHopPath (w : BufWriter) (p : D22Param) : Except D22Error BufWriter :=
  match p.hopIds with
  | none => writeSpan w p.hopPath uint16Max
  | some ids => do
    refuse (ids.length > uint16Max) .inval
    let bytes := (ids.map fun id => vi64Len id.toNat).sum
    refuse (bytes > uint16Max) .inval
    writeHopIds ids (← writeVi64 w (UInt64.ofNat bytes))

/-- The one-octet value of `encode_value`. -/
def encodeByte (w : BufWriter) (p : D22Param) : Except D22Error BufWriter := do
  let n := p.integer
  refuse (n > 255 || (p.type = 16 || p.type = 53) && n > 1 ||
    p.type = 34 && (n < 1 || n > 2)) .inval
  writeRaw w [n.toUInt8]

/-- `encode_value`. -/
def encodeValue (w : BufWriter) (p : D22Param) : Except D22Error BufWriter :=
  match paramKind p.type with
  | some .integer => writeVi64 w p.integer
  | some .byte => encodeByte w p
  | some .location => do writeVi64 (← writeVi64 w p.location.group) p.location.object
  | some .filter => encodeLocationFilter w p.filter
  | some .hopPath => encodeHopPath w p
  | some .fill => writeSpan w p.fill uint16Max
  | some .ns => writeNamespace w p.ns
  | some .token => encodeToken w p.token
  | some .ranges => encodeRanges w p.type p.ranges
  | none => .error .inval

/-- The loop of `moq_d22_encode_params`, from a writer that stood at `start`. -/
def encodeParamLoop (legal start : ℕ) :
    List D22Param → UInt64 → BufWriter → Except D22Error BufWriter
  | [], _, w => .ok w
  | p :: ps, previous, w => do
    refuse (p.type < previous) .inval
    refuse (!paramLegal legal p.type) .inval
    let w ← writeVi64 w (p.type - previous)
    let w ← encodeValue w p
    refuse (w.written.length - start > uint16Max) .inval
    encodeParamLoop legal start ps p.type w

/-- `moq_d22_encode_params`: what it wrote has to decode. -/
def encodeParams (w : BufWriter) (ps : List D22Param) (scope : D22Scope) (max : UInt64) :
    Except D22Error BufWriter := do
  refuse (w.written.length > w.cap || ps.length > uint16Max / 2) .inval
  let w' ← encodeParamLoop scope.allowed w.written.length ps 0 w
  match decodeParams ps.length scope max (w'.written.drop w.written.length) with
  | .ok _ => return w'
  | .error _ => throw .inval

end MoqRelay
