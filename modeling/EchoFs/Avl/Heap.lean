import Mathlib.Order.Compare
import EchoFs.Library.Checked
import EchoFs.Library.SideTree

/-! `avl::avltree`: nodes in memory with child and parent pointers, and the
operations that search, insert, rebalance and remove. `m_balance` and the tables
`child2balance` and `balance2child` are kept as signs of a side. -/

namespace EchoFs.Avl
open Checked

/-- Where a node lives: on the heap, or in the temporary of `remove_node`. -/
inductive Addr where
  | heap (n : Nat)
  | tmp
deriving DecidableEq, Repr

/-- `detail::node`; `child::NONE` is `none`. -/
structure Node (α : Type) where
  mChildren : Side → Option Addr
  mParent : Option Addr
  mWhichChild : Option Side
  mBalance : Int
  mData : α

namespace Node
variable {α : Type}

def setChild (n : Node α) (s : Side) (p : Option Addr) : Node α :=
  { n with mChildren := Function.update n.mChildren s p }

def setParent (n : Node α) (parent : Option Addr) : Node α := { n with mParent := parent }

def setPlace (n : Node α) (parent : Option Addr) (which : Option Side) : Node α :=
  { n with mParent := parent, mWhichChild := which }

def setBalance (n : Node α) (balance : Int) : Node α := { n with mBalance := balance }

/-- Everything but the data is copied from `n'`. -/
def copyLinks (n n' : Node α) : Node α := { n' with mData := n.mData }

end Node

/-- The memory, the root and the `uint32_t` counter. The number of allocations so
far bounds every loop over the nodes. -/
structure AvlTree (α : Type) where
  mem : Addr → Option (Node α)
  mRoot : Option Addr
  mNumNodes : Nat
  allocs : Nat

structure InsertionPoint where
  mParent : Option Addr
  mChild : Option Side
deriving DecidableEq, Repr

def InsertionPoint.null : InsertionPoint := ⟨none, none⟩

def index (which : Option Side) : Result Side :=
  match which with
  | some s => .ok s
  | none => .error .badPointer

namespace AvlTree
variable {α : Type}

def empty : AvlTree α := ⟨fun _ => none, none, 0, 0⟩

def node (t : AvlTree α) (p : Option Addr) : Result (Node α) :=
  match p.bind t.mem with
  | some n => .ok n
  | none => .error .badPointer

def store (t : AvlTree α) (a : Addr) (n : Option (Node α)) : AvlTree α :=
  { t with mem := Function.update t.mem a n }

def modify (t : AvlTree α) (p : Option Addr) (f : Node α → Node α) : Result (AvlTree α) := do
  let n ← t.node p
  match p with
  | some a => return t.store a (some (f n))
  | none => .error .badPointer

/-- `if(p != nullptr) { p->m_parent = parent; p->m_which_child = which; }` -/
def adopt (t : AvlTree α) (p parent : Option Addr) (which : Option Side) : Result (AvlTree α) :=
  if p = none then return t else t.modify p (·.setPlace parent which)

/-- The pointer to a subtree: in its parent, or the root. -/
def relink (t : AvlTree α) (parent : Option Addr) (which : Option Side) (p : Option Addr) :
    Result (AvlTree α) :=
  if parent = none then return { t with mRoot := p } else do
    let s ← index which
    t.modify parent (·.setChild s p)

section Search
variable {κ : Type} [LinearOrder κ] (key : α → κ)

/-- The loop of `find_node`: `prev` is the node visited last, `child` the side taken there. -/
def findLoop (t : AvlTree α) (value : α) :
    Nat → Option Addr → Option Addr → Side → Result (Option Addr × InsertionPoint)
  | 0, _, _, _ => .error .unfinished
  | _ + 1, none, prev, child => return (none, ⟨prev, some child⟩)
  | fuel + 1, some a, _, _ => do
    let n ← t.node (some a)
    match compare (key value) (key n.mData) with
    | .eq => return (some a, ⟨some a, none⟩)
    | .lt => t.findLoop value fuel (n.mChildren .left) (some a) .left
    | .gt => t.findLoop value fuel (n.mChildren .right) (some a) .right

def findNode (t : AvlTree α) (value : α) : Result (Option Addr × InsertionPoint) :=
  t.findLoop key value (t.allocs + 1) t.mRoot none .left

def find (t : AvlTree α) (value : α) : Result (Option Addr × InsertionPoint) := do
  let (res, point) ← t.findNode key value
  if res ≠ none then
    return (res, .null)
  else
    return (none, point)

end Search

/-- `rotation`: the node `a` leans to one side by two. -/
def rotation (t : AvlTree α) (a : Addr) (balance : Int) : Result (AvlTree α × Bool) := do
  -- `left` and `right` of the source, which stand for a side and the other one
  let near : Side := if balance < 0 then .left else .right
  let far := near.other
  let leftHeavy := balance >>> (1 : Nat)
  let rightHeavy := -leftHeavy
  let n ← t.node (some a)
  let parent := n.mParent
  let child := n.mChildren near
  let whichChild := n.mWhichChild
  let nc ← t.node child
  if nc.mBalance ≠ rightHeavy then
    let childBalance := nc.mBalance + rightHeavy
    let cright := nc.mChildren far
    let t ← t.modify (some a) (·.setChild near cright)
    let t ← t.adopt cright (some a) (some near)
    let t ← t.modify child (·.setChild far (some a))
    let t ← t.modify (some a) fun n => (n.setBalance (-childBalance)).setPlace child (some far)
    let t ← t.modify child fun n => (n.setBalance childBalance).setPlace parent whichChild
    let t ← t.relink parent whichChild child
    return (t, childBalance == 0)
  else
    let gchild := nc.mChildren far
    let ng ← t.node gchild
    let gleft := ng.mChildren near
    let gright := ng.mChildren far
    let t ← t.modify (some a) (·.setChild near gright)
    let t ← t.adopt gright (some a) (some near)
    let t ← t.modify child (·.setChild far gleft)
    let t ← t.adopt gleft child (some far)
    let balance := ng.mBalance
    let t ← t.modify gchild (·.setChild near child)
    let t ← t.modify child fun n =>
      (n.setBalance (if balance = rightHeavy then leftHeavy else 0)).setPlace gchild (some near)
    let t ← t.modify gchild (·.setChild far (some a))
    let t ← t.modify (some a) fun n =>
      (n.setBalance (if balance = leftHeavy then rightHeavy else 0)).setPlace gchild (some far)
    let t ← t.modify gchild fun n => (n.setBalance 0).setPlace parent whichChild
    let t ← t.relink parent whichChild gchild
    return (t, true)

/-- The loop of `insert_at`, which goes up from the new node. -/
def insertLoop : Nat → AvlTree α → Option Addr → Option Side → Result (AvlTree α)
  | 0, _, _, _ => .error .unfinished
  | _ + 1, t, none, _ => return t
  | fuel + 1, t, some a, which => do
    let n ← t.node (some a)
    let s ← index which
    let newBalance := n.mBalance + s.sign
    if newBalance = 0 then
      t.modify (some a) (·.setBalance 0)
    else if n.mBalance ≠ 0 then
      let (t, _) ← t.rotation a newBalance
      return t
    else
      let t ← t.modify (some a) (·.setBalance newBalance)
      insertLoop fuel t n.mParent n.mWhichChild

/-- The assertions of `insert_at`: there is no node at the insertion point. -/
def vacant (t : AvlTree α) (point : InsertionPoint) : Result Unit :=
  if point.mParent ≠ none then do
    let n ← t.node point.mParent
    let s ← index point.mChild
    check (n.mChildren s = none)
  else
    check (t.mRoot = none)

/-- `insert_at`; `new` is the address the allocator returns. -/
def insertAt (t : AvlTree α) (new : Nat) (newData : α) (point : InsertionPoint) :
    Result (AvlTree α) := do
  let t := { t with mNumNodes := (t.mNumNodes + 1) % 2 ^ 32, allocs := t.allocs + 1 }
  let t := t.store (.heap new) (some ⟨fun _ => none, point.mParent, point.mChild, 0, newData⟩)
  t.vacant point
  let t ← t.relink point.mParent point.mChild (some (.heap new))
  insertLoop (t.allocs + 1) t point.mParent point.mChild

def add {κ : Type} [LinearOrder κ] (key : α → κ) (t : AvlTree α) (new : Nat) (newData : α) :
    Result (AvlTree α) := do
  let (res, point) ← t.find key newData
  check (res = none)
  t.insertAt new newData point

/-- Follow the children on one side to the last node. -/
def lastOn (t : AvlTree α) (s : Side) : Nat → Option Addr → Result Addr
  | 0, _ => .error .unfinished
  | fuel + 1, p => do
    let n ← t.node p
    if n.mChildren s ≠ none then
      t.lastOn s fuel (n.mChildren s)
    else
      match p with
      | some a => return a
      | none => .error .badPointer

def insertHere (t : AvlTree α) (new : Nat) (newData : α) (here : Addr) (dir : Side) :
    Result (AvlTree α) := do
  let n ← t.node (some here)
  if n.mChildren dir ≠ none then
    let a ← t.lastOn dir.other (t.allocs + 1) (n.mChildren dir)
    let na ← t.node (some a)
    check (na.mChildren dir.other = none)
    t.insertAt new newData ⟨some a, some dir.other⟩
  else
    check (n.mChildren dir = none)
    t.insertAt new newData ⟨some here, some dir⟩

/-- The loop of `remove_node`, which goes up from the parent of the removed node. -/
def removeLoop : Nat → AvlTree α → Option Addr → Option Side → Result (AvlTree α)
  | 0, _, _, _ => .error .unfinished
  | _ + 1, t, none, _ => return t
  | fuel + 1, t, some a, which => do
    let n ← t.node (some a)
    let s ← index which
    let newBalance := n.mBalance - s.sign
    if n.mBalance = 0 then
      t.modify (some a) (·.setBalance newBalance)
    else if newBalance = 0 then
      let t ← t.modify (some a) (·.setBalance newBalance)
      removeLoop fuel t n.mParent n.mWhichChild
    else
      let (t, shorter) ← t.rotation a newBalance
      if shorter then
        removeLoop fuel t n.mParent n.mWhichChild
      else
        return t

/-- The temporary keeps what stands in `m`, and `m` becomes the node `n`. -/
def copyNode (t : AvlTree α) (n : Node α) (near : Side) (m : Addr) : Result (AvlTree α) := do
  let nm ← t.node (some m)
  let t := t.store .tmp (some nm)
  let t ← t.modify (some m) (·.copyLinks n)
  if n.mChildren near = some m then
    t.modify (some m) (·.setChild near (some .tmp))
  else
    return t

/-- The neighbour `m` moves to the spot of the node `n`. -/
def moveToSpot (t : AvlTree α) (n : Node α) (near : Side) (m : Addr) : Result (AvlTree α) := do
  let t ← t.copyNode n near m
  let nm ← t.node (some m)
  let t ← t.relink nm.mParent nm.mWhichChild (some m)
  let t ← t.modify (nm.mChildren near) (·.setParent (some m))
  t.modify (nm.mChildren near.other) (·.setParent (some m))

/-- The temporary takes the place where the neighbour was. -/
def putTmp (t : AvlTree α) : Result (AvlTree α) := do
  let tmp ← t.node (some .tmp)
  let s ← index tmp.mWhichChild
  let t ← t.modify tmp.mParent (·.setChild s (some .tmp))
  let which : Side := if tmp.mChildren .right ≠ none then .right else .left
  if tmp.mChildren which ≠ none then
    t.modify (tmp.mChildren which) (·.setParent (some .tmp))
  else
    return t

/-- The first part of `remove_node`, for a node with two children. -/
def swapNeighbour (t : AvlTree α) (n : Node α) : Result (AvlTree α) := do
  let near : Side := if n.mBalance ≤ 0 then .left else .right
  let m ← t.lastOn near.other (t.allocs + 1) (n.mChildren near)
  let t ← t.moveToSpot n near m
  t.putTmp

/-- The second part: `toRm` has at most one child and leaves the tree; the deleter
frees `oldNode`. -/
def unlink (t : AvlTree α) (toRm oldNode : Addr) : Result (AvlTree α) := do
  check (t.mNumNodes > 0)
  let t := { t with mNumNodes := t.mNumNodes - 1 }
  let n ← t.node (some toRm)
  let parent := n.mParent
  let which := n.mWhichChild
  let child := if n.mChildren .left ≠ none then n.mChildren .left else n.mChildren .right
  let t := t.store oldNode none
  let t ← t.adopt child parent which
  let t ← t.relink parent which child
  if parent = none then
    return t
  else
    removeLoop (t.allocs + 1) t parent which

def removeNode (t : AvlTree α) (toRm : Option Addr) : Result (AvlTree α) :=
  match toRm with
  | none => return t
  | some a => do
    let n ← t.node (some a)
    if n.mChildren .left ≠ none ∧ n.mChildren .right ≠ none then
      let t ← t.swapNeighbour n
      let t ← t.unlink .tmp a
      -- the temporary dies with the call
      return t.store .tmp none
    else
      t.unlink a a

def remove {κ : Type} [LinearOrder κ] (key : α → κ) (t : AvlTree α) (data : α) :
    Result (AvlTree α) := do
  let (res, point) ← t.findNode key data
  if res = none then
    return t
  else
    t.removeNode point.mParent

end AvlTree
end EchoFs.Avl
