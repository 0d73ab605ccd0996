import MoqRelay.Lib.Levels

/-!
# Bridge/StreamOrder — ranking the data streams of one subscription

`stream_order.c`: the precedence relation between two scheduling nodes, and the ranker that reads
it: an iterative Tarjan search whose stack, member lists and component list are threaded through
the nodes, then one pass over the components in the order of that list.  The sentinel `UINT32_MAX`
of an index is `none`; the relation counter of a node, which nothing reads, is left out.
-/

namespace MoqRelay

/-- The scheduling fields of `moq_action_meta_t`. -/
structure ActionMeta where
  (owner groupId subgroupId : UInt64)
  (subscriberPriority publisherPriority mode groupOrder fillGroupOrder : UInt8)
  hasLocation : Bool
  deriving DecidableEq, Repr

/-- `MOQ_SCHED_MODE_SUBGROUP`, `MOQ_SCHED_MODE_FILL`. -/
def schedModeSubgroup : UInt8 := 1
def schedModeFill : UInt8 := 3

/-- `MOQ_GROUP_ORDER_ASCENDING`, `MOQ_GROUP_ORDER_DESCENDING`. -/
def groupOrderAscending : UInt8 := 1
def groupOrderDescending : UInt8 := 2

/-- `stream_order_resolved`. -/
def streamOrderResolved (order : UInt8) : Bool :=
  order = groupOrderAscending || order = groupOrderDescending

/-- The guards of `stream_order_edge`: two located heads of one subscription and one priority, not
both fills, their orders resolved and agreeing. -/
def streamOrderComparable (x y : ActionMeta) : Bool :=
  let xf : Bool := x.mode = schedModeFill
  let yf : Bool := y.mode = schedModeFill
  x.hasLocation && y.hasLocation && x.owner ≠ 0 && x.owner = y.owner &&
    x.subscriberPriority = y.subscriberPriority && x.publisherPriority = y.publisherPriority &&
    (xf || x.mode = schedModeSubgroup) && (yf || y.mode = schedModeSubgroup) && !(xf && yf) &&
    streamOrderResolved x.groupOrder && x.groupOrder = y.groupOrder &&
    (!xf || streamOrderResolved x.fillGroupOrder) && (!yf || streamOrderResolved y.fillGroupOrder)

/-- The order of two comparable heads. -/
def streamOrderBefore (x y : ActionMeta) : Bool :=
  let xf : Bool := x.mode = schedModeFill
  let yf : Bool := y.mode = schedModeFill
  let fill := if xf then x else y
  if x.groupId ≠ y.groupId then
    if xf ≠ yf ∧ fill.fillGroupOrder ≠ fill.groupOrder then !xf
    else if x.groupOrder = groupOrderDescending then y.groupId < x.groupId
    else x.groupId < y.groupId
  else if xf ≠ yf then xf
  else x.subgroupId < y.subgroupId

/-- `stream_order_edge`. -/
def streamOrderEdge {n : ℕ} (metas : Fin n → ActionMeta) (x y : Fin n) : Bool :=
  x ≠ y && streamOrderComparable (metas x) (metas y) && streamOrderBefore (metas x) (metas y)

/-! ## The nodes -/

/-- The rank and the scratch of `moq_stream_order_node_t`, as reset. -/
structure OrderNode (n : ℕ) where
  rank : ℕ := 0
  index : Option ℕ := none
  low : ℕ := 0xFFFFFFFF
  parent : Option (Fin n) := none
  next : ℕ := 0
  stackNext : Option (Fin n) := none
  component : Option (Fin n) := none
  memberNext : Option (Fin n) := none
  members : Option (Fin n) := none
  componentNext : Option (Fin n) := none

/-- The nodes of a call, in their array. -/
structure OrderNodes (n : ℕ) where
  toVector : Vector (OrderNode n) n

/-- One node. -/
def OrderNodes.get {n : ℕ} (nodes : OrderNodes n) (i : Fin n) : OrderNode n := nodes.toVector[i]

instance {n : ℕ} : CoeFun (OrderNodes n) fun _ => Fin n → OrderNode n := ⟨OrderNodes.get⟩

/-- Nodes by their index. -/
def OrderNodes.ofFn {n : ℕ} (node : Fin n → OrderNode n) : OrderNodes n := ⟨Vector.ofFn node⟩

/-- The nodes and the loop variables of the search. -/
structure Ranker (n : ℕ) where
  nodes : OrderNodes n := .ofFn fun _ => {}
  index : ℕ := 0
  stack : Option (Fin n) := none
  components : Option (Fin n) := none
  current : Option (Fin n) := none

/-- Rewrite one node. -/
def OrderNodes.modify {n : ℕ} (nodes : OrderNodes n) (i : Fin n)
    (f : OrderNode n → OrderNode n) : OrderNodes n := ⟨nodes.toVector.set i (f (nodes i))⟩

/-- The do-while loop that takes a component off the stack; reading a node past the end of the
stack is not modelled. -/
def popMembers {n : ℕ} (current : Fin n) :
    ℕ → OrderNodes n → Option (Fin n) → OrderNodes n × Option (Fin n)
  | k + 1, nodes, some member =>
    let stack := (nodes member).stackNext
    let nodes := nodes.modify member fun node =>
      { node with component := some current, memberNext := (nodes current).members }
    let nodes := nodes.modify current fun node => { node with members := some member }
    if member = current then (nodes, stack) else popMembers current k nodes stack
  | _, nodes, stack => (nodes, stack)

namespace Ranker

variable {n : ℕ} (t : Ranker n) (edge : Fin n → Fin n → Bool)

/-- Rewrite one node of the search. -/
def modify (i : Fin n) (f : OrderNode n → OrderNode n) : Ranker n :=
  { t with nodes := t.nodes.modify i f }

/-- `stream_order_discover`, and the count of its caller. -/
def discover (node : Fin n) (parent : Option (Fin n)) : Ranker n :=
  { t.modify node fun v => { v with
      index := some t.index, low := t.index, parent := parent, stackNext := t.stack } with
    stack := some node
    index := t.index + 1 }

/-- A finished root: its members taken off the stack, its component put first. -/
def closeAt (current : Fin n) : Ranker n :=
  let out := popMembers current n t.nodes t.stack
  { t with
    nodes := out.1.modify current fun node => { node with componentNext := t.components }
    stack := out.2
    components := some current }

/-- A low mark handed to the parent. -/
def handUp (current : Fin n) : Option (Fin n) → Ranker n
  | none => t
  | some parent =>
    if (t.nodes current).low < (t.nodes parent).low then
      t.modify parent fun node => { node with low := (t.nodes current).low }
    else t

/-- The second half of the search loop: every candidate of the node was scanned. -/
def finish (current : Fin n) : Ranker n :=
  let parent := (t.nodes current).parent
  { (if (t.nodes current).index = some (t.nodes current).low then t.closeAt current
      else t).handUp current parent with
    current := parent }

/-- A candidate with an edge from the current node. -/
def follow (current next : Fin n) : Ranker n :=
  match (t.nodes next).index with
  | none => { t.discover next (some current) with current := some next }
  | some i =>
    if (t.nodes next).component = none ∧ i < (t.nodes current).low then
      t.modify current fun node => { node with low := i }
    else t

/-- One turn of the search loop. -/
def visit (current : Fin n) : Ranker n :=
  if h : (t.nodes current).next < n then
    let next : Fin n := ⟨(t.nodes current).next, h⟩
    let t := t.modify current fun node => { node with next := node.next + 1 }
    if edge current next then t.follow current next else t
  else t.finish current

/-- The search loop, while there is a current node. -/
def traverse : ℕ → Ranker n → Ranker n
  | k + 1, t =>
    match t.current with
    | none => t
    | some current => traverse k (t.visit edge current)
  | 0, t => t

/-- The body of the loop over the roots. -/
def visitRoot (root : Fin n) : Ranker n :=
  if (t.nodes root).index = none then
    traverse edge (2 * (n * n) + 1) { t.discover root none with current := some root }
  else t

end Ranker

/-! ## The component pass -/

section Pass

variable {n : ℕ} (edge : Fin n → Fin n → Bool)

/-- One candidate of one member: a target component rises above this one. -/
def relaxNext (component member : Fin n) (nodes : OrderNodes n) (next : Fin n) : OrderNodes n :=
  match (nodes next).component with
  | none => nodes
  | some target =>
    if target = component ∨ edge member next = false then nodes
    else if (nodes target).rank < (nodes component).rank + 1 then
      nodes.modify target fun node => { node with rank := (nodes component).rank + 1 }
    else nodes

/-- The members of a component, from one on. -/
def relaxMembers (component : Fin n) : ℕ → OrderNodes n → Option (Fin n) → OrderNodes n
  | k + 1, nodes, some member =>
    let nodes := (List.finRange n).foldl (relaxNext edge component member) nodes
    relaxMembers component k nodes (nodes member).memberNext
  | _, nodes, _ => nodes

/-- The components, from one on. -/
def relaxComponents : ℕ → OrderNodes n → Option (Fin n) → OrderNodes n
  | k + 1, nodes, some component =>
    let nodes := relaxMembers edge component n nodes (nodes component).members
    relaxComponents k nodes (nodes component).componentNext
  | _, nodes, _ => nodes

/-- The last loop: a node takes its component's rank. -/
def takeRank (nodes : OrderNodes n) (i : Fin n) : OrderNodes n :=
  match (nodes i).component with
  | none => nodes
  | some component => nodes.modify i fun node => { node with rank := (nodes component).rank }

/-- The ranker over any relation. -/
def rankNodes : OrderNodes n :=
  let t : Ranker n := (List.finRange n).foldl (fun t root => t.visitRoot edge root) {}
  (List.finRange n).foldl takeRank (relaxComponents edge n t.nodes t.components)

end Pass

/-- `moq_stream_order_rank`. -/
def streamOrderRank {n : ℕ} (metas : Fin n → ActionMeta) : OrderNodes n :=
  rankNodes (streamOrderEdge metas)

end MoqRelay
