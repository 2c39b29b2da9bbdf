import EchoFs.Library.Checked
import EchoFs.Library.Intervals
import EchoFs.Library.Slots

/-! The lock table of `range_lock.cpp` over the in-order content of its AVL tree.
Pointers are addresses, a removed descriptor stays in memory until its `delete`,
and a failed assertion or an access through an invalid pointer ends the call. -/

namespace EchoFs.RangeLock
open Checked

/-- `range::type`. -/
inductive RangeType where
  | none
  | reader
  | proxyReader
  | writer
  | any
deriving DecidableEq, Repr

/-- A range descriptor. Its two condition variables are named by its address. -/
structure Range where
  mStart : Int
  mEnd : Int
  mType : RangeType
  mRefs : Int
  mIsProxy : Bool
  mReadWanted : Bool
  mWriteWanted : Bool
deriving DecidableEq, Repr

/-- The three-argument constructor of `range`. -/
def Range.new (start stop : Int) (type : RangeType) : Range where
  mStart := start
  mEnd := stop
  mType := if type = .proxyReader then .reader else type
  mRefs := 1
  mIsProxy := type = .proxyReader
  mReadWanted := false
  mWriteWanted := false

abbrev Node := Slot Range

/-- A `range*`; `none` is the null pointer. -/
abbrev Ptr := Option Nat

/-- An `avltree::insertion_point`: null, or the position in key order. -/
inductive Index where
  | null
  | at (pos : Nat)
deriving DecidableEq, Repr

inductive Direction where
  | before
  | after
deriving DecidableEq, Repr

/-- The address of `m_data` in the null node, which `nearest` computes for the
insertion point of an empty tree. No descriptor is ever placed there. -/
def nullNodeData : Nat := 0

/-- `m_tree` in key order, the descriptors that left it but are still allocated,
and the next address `new` returns. -/
structure Table where
  nodes : List Node
  removed : List Node
  fresh : Nat
deriving DecidableEq, Repr

namespace Table

def empty : Table := ⟨[], [], nullNodeData + 1⟩

def get (t : Table) (a : Nat) : Result Range :=
  match Slots.get? (t.nodes ++ t.removed) a with
  | some r => .ok r
  | none => .error .badPointer

def modify (t : Table) (a : Nat) (f : Range → Range) : Table :=
  { t with nodes := Slots.modify t.nodes a f, removed := Slots.modify t.removed a f }

/-- `m_num_nodes`, a `uint32_t` that counts the entries up and down. -/
def size (t : Table) : Nat := t.nodes.length % 2 ^ 32

/-- `remove_node` under the deleter of `lock_manager`, which frees nothing. -/
def removeNode (t : Table) (a : Nat) : Result Table := do
  check (t.size > 0)
  match Slots.get? t.nodes a with
  | some r => return { t with nodes := Slots.erase t.nodes a, removed := ⟨a, r⟩ :: t.removed }
  | none => .error .badPointer

/-- `delete` of a node that has left the tree. -/
def delete (t : Table) (a : Nat) : Table := { t with removed := Slots.erase t.removed a }

def find (t : Table) (start : Int) : Ptr × Index :=
  match t.nodes.find? fun n => n.data.mStart = start with
  | some n => (some n.addr, .null)
  | none => (none, .at (t.nodes.countP fun n => n.data.mStart < start))

def nearest (t : Table) : Index → Direction → Ptr
  | .null, _ => none
  | .at pos, dir =>
    match t.nodes, dir with
    | [], .before => none
    | [], .after => some nullNodeData
    | ns, .before => if pos = 0 then none else ns[pos - 1]?.map Slot.addr
    | ns, .after => ns[pos]?.map Slot.addr

def next (t : Table) (a : Nat) : Ptr := Slots.nextOf t.nodes a

def insertIdx (t : Table) (pos : Nat) (r : Range) : Table × Nat :=
  ({ t with nodes := t.nodes.take pos ++ ⟨t.fresh, r⟩ :: t.nodes.drop pos, fresh := t.fresh + 1 },
    t.fresh)

def insertAt (t : Table) (r : Range) : Index → Result (Table × Nat)
  | .null => do
    check (t.nodes = [])
    return t.insertIdx 0 r
  | .at pos => return t.insertIdx pos r

def insertHere (t : Table) (r : Range) (here : Nat) (dir : Direction) : Result (Table × Nat) :=
  if here ∈ Slots.addrs t.nodes then
    match dir with
    | .before => .ok (t.insertIdx ((Slots.addrs t.nodes).idxOf here) r)
    | .after => .ok (t.insertIdx ((Slots.addrs t.nodes).idxOf here + 1) r)
  else .error .badPointer

def add (t : Table) (r : Range) : Result (Table × Nat) :=
  match t.find r.mStart with
  | (some _, _) => .error .assertion
  | (none, index) => t.insertAt r index

end Table

def rangeNewProxy (t : Table) (offset len : Int) : Result Table := do
  check (len ≠ 0)
  let (t, _) ← t.add (Range.new offset (offset + len) .proxyReader)
  return t

def rangeProxify (t : Table) (rl : Nat) : Result (Table × Nat) := do
  let r ← t.get rl
  if r.mIsProxy then
    return (t, rl)
  else
    check (r.mRefs = 1)
    check (r.mReadWanted = false)
    check (r.mWriteWanted = false)
    let t ← t.removeNode rl
    let t := t.modify rl fun r => { r with mRefs := 0 }
    t.add (Range.new r.mStart r.mEnd .proxyReader)

/-- The result holds the front and the rear piece. -/
def rangeSplit (t : Table) (rl : Nat) (offset : Int) : Result (Table × Nat × Nat) := do
  let r ← t.get rl
  check (r.mEnd - r.mStart > 1)
  check (offset > r.mStart)
  check (offset < r.mEnd)
  check (r.mReadWanted = false)
  check (r.mWriteWanted = false)
  let (t, front) ← rangeProxify t rl
  let f ← t.get front
  let t := t.modify front fun f' => { f' with mEnd := f.mStart + offset - r.mStart }
  let (t, rear) ← t.insertHere (Range.new offset r.mEnd .proxyReader) front .after
  let t := t.modify rear fun r' => { r' with mRefs := r.mRefs }
  return (t, front, rear)

def bumpRefs (t : Table) (a : Nat) : Table := t.modify a fun r => { r with mRefs := r.mRefs + 1 }

/-- The gap between the previous entry of the walk and the one starting at `start`. -/
def fillGap (t : Table) (prev : Ptr) (start : Int) : Result Table :=
  match prev with
  | none => return t
  | some p => do
    let pr ← t.get p
    if pr.mEnd < start then
      check (start > pr.mEnd)
      rangeNewProxy t pr.mEnd (start - pr.mEnd)
    else
      return t

/-- The last statement of `add_reader`: the part after the last entry. -/
def addRemainingEnd (t : Table) (stop : Int) (prev : Ptr) : Result Table :=
  match prev with
  | none => .error .badPointer
  | some p => do
    let pr ← t.get p
    rangeNewProxy t pr.mEnd (stop - pr.mEnd)

/-- The `for` loop of `add_reader` and the statement after it. -/
def addReaderLoop (stop : Int) : Nat → Table → Ptr → Ptr → Result Table
  | 0, _, _, _ => .error .unfinished
  | _ + 1, t, prev, none => addRemainingEnd t stop prev
  | fuel + 1, t, prev, some a => do
    let n ← t.get a
    if stop ≤ n.mStart then
      addRemainingEnd t stop prev
    else
      let t ← fillGap t prev n.mStart
      if stop = n.mEnd then
        let (t, proxy) ← rangeProxify t a
        return bumpRefs t proxy
      else if stop < n.mEnd then
        let (t, front, _) ← rangeSplit t a stop
        return bumpRefs t front
      else
        check (stop > n.mEnd)
        let (t, proxy) ← rangeProxify t a
        let t := bumpRefs t proxy
        addReaderLoop stop fuel t (some proxy) (t.next proxy)

/-- The first part of `add_reader`: the previous entry is dropped when it does
not reach the new range and split when it starts before it. -/
def splitPrev (t : Table) (start : Int) (prev : Ptr) : Result (Table × Ptr) :=
  match prev with
  | none => return (t, none)
  | some p => do
    let pr ← t.get p
    if pr.mEnd ≤ start then
      return (t, none)
    else if pr.mStart ≠ start then
      let (t, front, rear) ← rangeSplit t p start
      check (t.next front = some rear)
      return (t, some rear)
    else
      return (t, some p)

/-- The assertion of `add_reader` on the entry it is left with. -/
def checkStart (t : Table) (start : Int) (prev : Ptr) : Result Unit :=
  match prev with
  | none => return ()
  | some p => do
    let pr ← t.get p
    check (pr.mStart = start)

def addReader (t : Table) (newRange : Range) (prev : Ptr) (index : Index) :
    Result (Table × Ptr) := do
  let start := newRange.mStart
  let stop := newRange.mEnd
  let (t, prev) ← splitPrev t start prev
  checkStart t start prev
  let next := match prev with
    | some p => some p
    | none => t.nearest index .after
  match next with
  | none => do
    let (t, a) ← t.insertAt newRange index
    return (t, some a)
  | some a => do
    let n ← t.get a
    if stop ≤ n.mStart then
      let (t, a) ← t.insertAt newRange index
      return (t, some a)
    else
      let t ← if start < n.mStart then rangeNewProxy t start (n.mStart - start) else pure t
      let t ← addReaderLoop stop (t.nodes.length + 1) t none (some a)
      return (t, none)

/-- `lock_manager::type`. -/
inductive LockType where
  | reader
  | writer
deriving DecidableEq, Repr

/-- The arguments of `lock_range`: two values of `off_t` with `start < end`. -/
structure Request where
  start : Int
  stop : Int
  type : LockType
  lt : start < stop
  lower : -2 ^ 63 ≤ start
  upper : stop < 2 ^ 63
deriving DecidableEq

/-- The end of a critical section of `lock_range`: the lock is granted, or the
thread waits on the condition variable of a descriptor. -/
inductive Outcome where
  | granted (t : Table) (ptr : Ptr)
  | blocked (t : Table) (on : Nat)
deriving DecidableEq, Repr

/-- The descriptor that stops a reader in the entries from `next` on, if any. -/
def readerScan (t : Table) (stop : Int) : Nat → Ptr → Result Ptr
  | 0, _ => .error .unfinished
  | _ + 1, none => return none
  | fuel + 1, some a => do
    let n ← t.get a
    if stop ≤ n.mStart then
      return none
    else if n.mType = .writer ∨ n.mWriteWanted then
      return some a
    else if stop ≤ n.mEnd then
      return none
    else
      readerScan t stop fuel (t.next a)

/-- The entries after the previous one, from which `lock_range_reader` goes on. -/
def readerScanFrom (t : Table) (rq : Request) (prev : Ptr) (index : Index) : Result Ptr :=
  readerScan t rq.stop (t.nodes.length + 1) <| match prev with
    | some p => t.next p
    | none => t.nearest index .after

def readerBlocker (t : Table) (rq : Request) (prev : Ptr) (index : Index) : Result Ptr :=
  match prev with
  | none => readerScanFrom t rq prev index
  | some p => do
    let pr ← t.get p
    if rq.start < pr.mEnd then
      if pr.mType = .writer ∨ pr.mWriteWanted then
        return some p
      else if rq.stop < pr.mEnd then
        return none
      else
        readerScanFrom t rq prev index
    else
      readerScanFrom t rq prev index

/-- Wait for the descriptor that is in the way, or add the new range. -/
def readerFrom (t : Table) (rq : Request) (prev : Ptr) (index : Index) : Result Outcome := do
  match ← readerBlocker t rq prev index with
  | some a => return .blocked (t.modify a fun r => { r with mReadWanted := true }) a
  | none => do
    let (t, ptr) ← addReader t (Range.new rq.start rq.stop .reader) prev index
    return .granted t ptr

/-- `lock_range_reader` from its label `retry` on. -/
def readerRetry (t : Table) (rq : Request) : Result Outcome :=
  let (found, index) := t.find rq.start
  let prev := match found with
    | some p => some p
    | none => t.nearest index .before
  readerFrom t rq prev index

def lockRangeReader (t : Table) (rq : Request) : Result Outcome := do
  if t.size = 0 then
    let (t, a) ← t.add (Range.new rq.start rq.stop .reader)
    return .granted t (some a)
  else
    readerRetry t rq

/-- The next range, if it starts in the middle of the new one. -/
def nextBlocker (t : Table) (rq : Request) (next : Ptr) : Result Ptr :=
  match next with
  | none => return none
  | some a => do
    let n ← t.get a
    return if n.mStart < rq.stop then some a else none

/-- The previous range, if it ends in the middle of the new one. -/
def prevBlocker (t : Table) (rq : Request) (prev : Ptr) : Result Ptr :=
  match prev with
  | none => return none
  | some a => do
    let n ← t.get a
    return if n.mEnd > rq.start then some a else none

/-- The entry a writer has to wait for: one at the same offset, then the next
one, then the previous one. -/
def writerBlocker (t : Table) (rq : Request) (found : Ptr) (index : Index) : Result Ptr :=
  match found with
  | some a => return some a
  | none => do
    match ← nextBlocker t rq (t.nearest index .after) with
    | some a => return some a
    | none => prevBlocker t rq (t.nearest index .before)

/-- One round of the loop of `lock_range_writer`. -/
def lockRangeWriter (t : Table) (rq : Request) : Result Outcome := do
  let newRange := Range.new rq.start rq.stop .writer
  if t.size = 0 then
    let (t, a) ← t.add newRange
    return .granted t (some a)
  else
    let (found, index) := t.find rq.start
    match ← writerBlocker t rq found index with
    | some a => return .blocked (t.modify a fun r => { r with mWriteWanted := true }) a
    | none => do
      let (t, a) ← t.insertAt newRange index
      return .granted t (some a)

/-- `notify_all` on the condition variable for `type` of the descriptor at `addr`. -/
structure Signal where
  addr : Nat
  type : LockType
deriving DecidableEq, Repr

/-- The notifications that follow the removal of a descriptor. -/
def wakeUps (a : Nat) (r : Range) : List Signal :=
  (if r.mWriteWanted then [⟨a, .writer⟩] else []) ++
    (if r.mReadWanted then [⟨a, .reader⟩] else [])

/-- A `range_lock`: what `lock_range` returned to call number `id`. -/
structure Handle where
  id : Nat
  rq : Request
  ptr : Ptr
deriving DecidableEq

def toSize (x : Int) : Nat := (x % 2 ^ 64).toNat

def dropEntry (t : Table) (a : Nat) (r : Range) : Result (Table × List Signal) := do
  let t ← t.removeNode a
  return (t.delete a, wakeUps a r)

/-- `next_range` of `unlock_range_reader`, looked up while `len` bytes are left. -/
def nextRange (t : Table) (pr : Nat) (p : Range) (len : Nat) : Result Ptr :=
  if len = 0 then return none else
    match t.next pr with
    | none => .error .assertion
    | some a => do
      let n ← t.get a
      check (p.mEnd = n.mStart)
      check (n.mRefs ≠ 0)
      check (n.mType = .reader)
      return some a

/-- The `while` loop of `unlock_range_reader`. -/
def releaseLoop : Nat → Table → Nat → Ptr → List Signal → Result (Table × List Signal)
  | 0, _, _, _, _ => .error .unfinished
  | _ + 1, t, 0, _, signals => return (t, signals)
  | _ + 1, _, _ + 1, none, _ => .error .badPointer
  | fuel + 1, t, len + 1, some pr, signals => do
    let p ← t.get pr
    let len := toSize ((len + 1 : Nat) - (p.mStart - p.mEnd))
    let next ← nextRange t pr p len
    let t := t.modify pr fun r => { r with mRefs := r.mRefs - 1 }
    if p.mRefs - 1 = 0 then
      let (t, woken) ← dropEntry t pr p
      releaseLoop fuel t len next (signals ++ woken)
    else
      releaseLoop fuel t len next signals

/-- The second half of `unlock_range_reader`: the range was replaced by proxies. -/
def unlockProxies (t : Table) (h : Handle) : Result (Table × List Signal) :=
  match (t.find h.rq.start).1 with
  | none => .error .assertion
  | some pr => do
    let p ← t.get pr
    check (p.mRefs ≠ 0)
    check (p.mType = .reader)
    check (p.mIsProxy = true)
    let (t, signals) ← releaseLoop (t.nodes.length + 1) t (toSize (h.rq.start - h.rq.stop))
      (some pr) []
    match h.ptr with
    | none => return (t, signals)
    | some a => return (t.delete a, signals)

def unlockRangeReader (t : Table) (h : Handle) : Result (Table × List Signal) :=
  match h.ptr with
  | none => unlockProxies t h
  | some a => do
    let r ← t.get a
    if r.mRefs ≠ 0 then
      dropEntry t a r
    else
      unlockProxies t h

def unlockRangeWriter (t : Table) (h : Handle) : Result (Table × List Signal) :=
  match h.ptr with
  | none => .error .assertion
  | some a => do
    let r ← t.get a
    check (r.mRefs ≠ 0)
    dropEntry t a r

def unlockRange (t : Table) (h : Handle) : Result (Table × List Signal) :=
  match h.rq.type with
  | .writer => unlockRangeWriter t h
  | .reader => unlockRangeReader t h

end EchoFs.RangeLock
