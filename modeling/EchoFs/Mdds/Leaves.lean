import EchoFs.Library.Checked
import EchoFs.Library.IntervalMap
import EchoFs.Library.Linked

/-! `mdds::flat_segment_tree` over its leaf nodes: a doubly linked list in memory that
`insert_front` and `insert_back` change. A leaf that nothing points to any more is
left in memory. -/

namespace EchoFs.Mdds
open Checked Linked

abbrev Leaf := IntervalMap.Leaf

/-- `node`: a leaf with its neighbours. -/
abbrev Node (β : Type) := Cell (Leaf β)

/-- `node_base*`: a leaf, or a node of the pool. -/
inductive NodePtr where
  | leaf (a : Nat)
  | nonleaf (i : Nat)
deriving DecidableEq, Repr

/-- `nonleaf_node` with its `nonleaf_value_type`. -/
structure NonleafNode where
  low : Int
  high : Int
  left : Option NodePtr
  right : Option NodePtr
deriving DecidableEq, Repr

/-- The memory of the leaves, with the number of leaves that were ever made: it is the
address of the next one and bounds every loop over them. -/
structure FlatSegmentTree (β : Type) where
  mem : Nat → Option (Node β)
  allocs : Nat
  mNonleafNodePool : List NonleafNode
  mRootNode : Option Nat
  mLeftLeaf : Nat
  mRightLeaf : Nat
  mInitVal : β
  mValidTree : Bool

namespace FlatSegmentTree
variable {β : Type}

/-- The constructor. -/
def new (minVal maxVal : Int) (initVal : β) : FlatSegmentTree β where
  mem := Function.update
    (Function.update (fun _ => none) 0 (some ⟨⟨minVal, initVal⟩, none, some 1⟩)) 1
    (some ⟨⟨maxVal, initVal⟩, some 0, none⟩)
  allocs := 2
  mNonleafNodePool := []
  mRootNode := none
  mLeftLeaf := 0
  mRightLeaf := 1
  mInitVal := initVal
  mValidTree := false

def node (t : FlatSegmentTree β) (p : Option Nat) : Result (Node β) :=
  match p.bind t.mem with
  | some n => .ok n
  | none => .error .badPointer

def store (t : FlatSegmentTree β) (a : Nat) (n : Node β) : FlatSegmentTree β :=
  { t with mem := Function.update t.mem a (some n) }

def modify (t : FlatSegmentTree β) (p : Option Nat) (f : Node β → Node β) :
    Result (FlatSegmentTree β) :=
  match p with
  | none => .error .badPointer
  | some a => do
    let n ← t.node (some a)
    return t.store a (f n)

def setNext (t : FlatSegmentTree β) (p next : Option Nat) : Result (FlatSegmentTree β) :=
  t.modify p fun n => { n with next := next }

def setPrev (t : FlatSegmentTree β) (p prev : Option Nat) : Result (FlatSegmentTree β) :=
  t.modify p fun n => { n with prev := prev }

def linkNodes (t : FlatSegmentTree β) (left right : Option Nat) : Result (FlatSegmentTree β) := do
  let t ← t.setNext left right
  t.setPrev right left

/-- `new node` with its key and value -/
def newNode (t : FlatSegmentTree β) (l : Leaf β) : FlatSegmentTree β × Nat :=
  ({ t.store t.allocs ⟨l, none, none⟩ with allocs := t.allocs + 1 }, t.allocs)

def disconnectAllNodes (t : FlatSegmentTree β) (p : Option Nat) : Result (FlatSegmentTree β) := do
  let t ← t.setPrev p none
  t.setNext p none

def getInsertionPosLeaf (t : FlatSegmentTree β) (key : Int) : Nat → Option Nat → Result (Option Nat)
  | 0, _ => .error .unfinished
  | _ + 1, none => return none
  | fuel + 1, some a => do
    let n ← t.node (some a)
    if key ≤ n.data.key then
      return some a
    else
      t.getInsertionPosLeaf key fuel n.next

def getInsertionPosLeafReverse (t : FlatSegmentTree β) (key : Int) :
    Nat → Option Nat → Result (Option Nat)
  | 0, _ => .error .unfinished
  | _ + 1, none => return none
  | fuel + 1, some a => do
    let n ← t.node (some a)
    if key > n.data.key then
      return some a
    else
      t.getInsertionPosLeafReverse key fuel n.prev

def adjustSegmentRange (t : FlatSegmentTree β) (startKey endKey : Int) :
    Result (Option (Int × Int)) :=
  if startKey ≥ endKey then return none else do
    let left ← t.node (some t.mLeftLeaf)
    let right ← t.node (some t.mRightLeaf)
    if endKey < left.data.key ∨ startKey > right.data.key then
      return none
    else
      return some (if startKey < left.data.key then left.data.key else startKey,
        if endKey > right.data.key then right.data.key else endKey)

/-- What the first and the last part of `insert_to_pos` hand on. -/
structure Start (β : Type) where
  newStartNode : Option Nat
  oldValue : β
  changed : Bool

section Insert
variable [DecidableEq β]

/-- The first part of `insert_to_pos`: the start node. -/
def setStart (t : FlatSegmentTree β) (startPos : Option Nat) (startKey : Int) (val : β) :
    Result (FlatSegmentTree β × Start β) := do
  let n ← t.node startPos
  if n.data.key = startKey then
    let joins ← match n.prev with
      | none => pure false
      | some _ => do
        let left ← t.node n.prev
        pure (decide (left.data.val = val))
    if joins then
      return (t, ⟨n.prev, n.data.val, false⟩)
    else
      let t ← t.modify startPos fun n => { n with data := ⟨n.data.key, val⟩ }
      return (t, ⟨startPos, n.data.val, decide (n.data.val ≠ val)⟩)
  else
    let left ← t.node n.prev
    if left.data.val = val then
      return (t, ⟨n.prev, left.data.val, false⟩)
    else
      let (t, a) := t.newNode ⟨startKey, val⟩
      let t ← t.linkNodes n.prev (some a)
      let t ← t.linkNodes (some a) startPos
      return (t, ⟨some a, left.data.val, true⟩)

/-- The loop that disconnects the nodes up to `endPos`. -/
def disconnect (endPos : Option Nat) :
    Nat → FlatSegmentTree β → Option Nat → β → Bool → Result (FlatSegmentTree β × β × Bool)
  | 0, _, _, _, _ => .error .unfinished
  | fuel + 1, t, cur, oldValue, changed =>
    if cur = endPos then return (t, oldValue, changed) else do
      let n ← t.node cur
      let t ← t.setNext n.prev none
      let t ← t.setPrev cur none
      let n ← t.node cur
      disconnect endPos fuel t n.next n.data.val true

/-- The last part of `insert_to_pos`: the end node. -/
def setEnd (t : FlatSegmentTree β) (newStartNode endPos : Option Nat) (endKey : Int)
    (val oldValue : β) (changed : Bool) : Result (FlatSegmentTree β × Bool) := do
  let n ← t.node endPos
  let start ← t.node newStartNode
  if n.data.key = endKey then
    if n.next ≠ none ∧ n.data.val = val then
      let t ← t.setNext newStartNode n.next
      let t ← t.setPrev n.next newStartNode
      let t ← t.disconnectAllNodes endPos
      return (t, true)
    else if start.next ≠ endPos then
      let t ← t.setNext newStartNode endPos
      let t ← t.setPrev endPos newStartNode
      return (t, true)
    else
      return (t, changed)
  else if oldValue = val then
    if start.next ≠ endPos then
      let t ← t.linkNodes newStartNode endPos
      return (t, true)
    else
      return (t, changed)
  else
    let (t, a) := t.newNode ⟨endKey, oldValue⟩
    let t ← t.linkNodes newStartNode (some a)
    let t ← t.linkNodes (some a) endPos
    return (t, true)

/-- The iterator of the result stands on the node of the second component. -/
def insertToPos (t : FlatSegmentTree β) (startPos : Option Nat) (startKey endKey : Int) (val : β) :
    Result (FlatSegmentTree β × Option Nat × Bool) := do
  let p ← t.getInsertionPosLeaf endKey (t.allocs + 1) startPos
  let endPos := if p = none then some t.mRightLeaf else p
  let (t, s) ← t.setStart startPos startKey val
  let n ← t.node s.newStartNode
  let (t, oldValue, changed) ← disconnect endPos (t.allocs + 1) t n.next s.oldValue s.changed
  let (t, changed) ← t.setEnd s.newStartNode endPos endKey val oldValue changed
  return ({ t with mValidTree := if changed then false else t.mValidTree }, s.newStartNode, changed)

/-- The node the insertion starts from, searched for from one end. -/
def startPosFor (t : FlatSegmentTree β) (startKey : Int) (forward : Bool) : Result (Option Nat) :=
  if forward then
    t.getInsertionPosLeaf startKey (t.allocs + 1) (some t.mLeftLeaf)
  else do
    let p ← t.getInsertionPosLeafReverse startKey (t.allocs + 1) (some t.mRightLeaf)
    match p with
    | some _ => do
      let n ← t.node p
      return n.next
    | none => return some t.mLeftLeaf

/-- `insert_segment_impl`; the iterator is none where the source returns the end. -/
def insertSegmentImpl (t : FlatSegmentTree β) (startKey endKey : Int) (val : β) (forward : Bool) :
    Result (FlatSegmentTree β × Option Nat × Bool) := do
  match ← t.adjustSegmentRange startKey endKey with
  | none => return (t, none, false)
  | some (startKey, endKey) =>
    let startPos ← t.startPosFor startKey forward
    check (startPos ≠ none)
    t.insertToPos startPos startKey endKey val

def insertFront (t : FlatSegmentTree β) (startKey endKey : Int) (val : β) :
    Result (FlatSegmentTree β × Option Nat × Bool) :=
  t.insertSegmentImpl startKey endKey val true

def insertBack (t : FlatSegmentTree β) (startKey endKey : Int) (val : β) :
    Result (FlatSegmentTree β × Option Nat × Bool) :=
  t.insertSegmentImpl startKey endKey val false

end Insert
end FlatSegmentTree
end EchoFs.Mdds
