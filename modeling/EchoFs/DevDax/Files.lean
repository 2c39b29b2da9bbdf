import EchoFs.DevDax.BigPool
import EchoFs.Nvml.Segments

/-! Files of the device-DAX backend. The code follows `nvml::file`, but the
memory of a segment is a range of the one mapping that `big_pool` hands out, and
a segment that leaves the tree gives its range back. Bytes are of any type. -/

namespace EchoFs.DevDax
open Checked Nvml

/-- The configured segment size, a bound on the rounds of a lookup, what `m_length`
holds in a gap that is the `n`-th segment of a file, and the end of the address space;
results about the backend hold for all of them. -/
structure Settings extends Config where
  rounds : Nat
  gapLength : Nat → Nat
  taskSize : Nat

/-- A segment with its pool; `mData` is none for a null pointer. -/
structure Segment where
  mOffset : Int
  mSize : Int
  mIsGap : Bool
  mBytes : Int
  mData : Option Nat
  mLength : Nat
deriving DecidableEq, Repr

namespace Segment

/-- The constructor with `is_gap`, which does not initialise `mLength`. -/
def gap (offset size : Int) (mLength : Nat) : Segment := ⟨offset, size, true, 0, none, mLength⟩

/-- The constructor without `is_gap`; a full device leaves the null pointer. -/
def new (p : BigPool) (offset size : Int) : Result (BigPool × Segment) := do
  let (p, data) ← p.allocate (toSize size)
  return (p, ⟨offset, size, false, 0, data, toSize size⟩)

def allocate (p : BigPool) (s : Segment) (offset size : Int) : Result (BigPool × Segment) := do
  check (s.mData = none)
  let (p, data) ← p.allocate (toSize size)
  return (p, { s with
    mOffset := offset, mSize := size, mIsGap := false, mData := data, mLength := toSize size })

/-- `pool::~pool` -/
def destroy (p : BigPool) (s : Segment) : Result (BigPool × Segment) :=
  match s.mData with
  | none => return (p, s)
  | some data => do
    let p ← p.deallocate data s.mLength
    return (p, { s with mData := none })

def destroyUnless (keep : Bool) (p : BigPool) (s : Segment) : Result (BigPool × Segment) :=
  if keep then return (p, s) else s.destroy p

end Segment

structure File where
  segments : List Segment
  mSegments : List Leaf
  mAllocOffset : Int
  mUsedOffset : Int
  stSize : Int
  mSegmentSize : Nat
deriving DecidableEq, Repr

/-- A region of a file; `addr` is none for a null pointer. -/
structure Region where
  addr : Option Int
  size : Int
deriving DecidableEq, Repr

def offsetPtr (data : Option Nat) (delta : Int) : Option Int :=
  match data with
  | some a => some (a + delta)
  | none => if delta = 0 then none else some delta

/-- Destroy the segments from index `i` on that are not kept. -/
def destroySegments (keep : Nat → Bool) : Nat → BigPool → List Segment →
    Result (BigPool × List Segment)
  | _, p, [] => return (p, [])
  | i, p, s :: rest => do
    let (p, s) ← s.destroyUnless (keep i) p
    let (p, rest) ← destroySegments keep (i + 1) p rest
    return (p, s :: rest)

namespace File

def create : File where
  segments := []
  mSegments := [⟨0, none⟩]
  mAllocOffset := 0
  mUsedOffset := 0
  stSize := 0
  mSegmentSize := 4096

def segment (f : File) (id : Nat) : Result Segment :=
  match f.segments[id]? with
  | some s => .ok s
  | none => .error .badPointer

def setSegment (f : File) (id : Nat) (s : Segment) : File :=
  { f with segments := f.segments.set id s }

def addSegment (f : File) (s : Segment) : File × Nat :=
  ({ f with segments := f.segments ++ [s] }, f.segments.length)

/-- Create a gap unless it is empty, with the list of what was created. -/
def addGap (cfg : Settings) (f : File) (offset size : Int) : File × List Nat :=
  if size ≠ 0 then
    let (f, id) := f.addSegment (.gap offset size (cfg.gapLength f.segments.length))
    (f, [id])
  else
    (f, [])

def linkSegments (f : File) (sl : List Nat) : Result File :=
  sl.foldlM (fun f id => do
    let s ← f.segment id
    return { f with
      mSegments := IntervalMap.insert f.mSegments s.mOffset (s.mOffset + s.mSize) (some id) }) f

/-- The destructors of the segments that the tree no longer holds. -/
def release (p : BigPool) (f : File) : Result (BigPool × File) := do
  let (p, segments) ← destroySegments (fun i => f.mSegments.any fun l => l.val = some i) 0 p
    f.segments
  return (p, { f with segments := segments })

/-- A gap that is written to becomes a segment with memory between two gaps. What
the links replaced is destroyed before the next call of the allocator. -/
def allocateGap (cfg : Settings) (p : BigPool) (f : File) (id : Nat) (s : Segment)
    (rangeStart reqSize : Int) : Result (BigPool × File × Segment × Int) := do
  let sEnd := s.mOffset + s.mSize
  let segOffset := align rangeStart cfg.segmentSize
  let segSize := if toSize (rangeStart + reqSize) < toSize sEnd then
    xalign (rangeStart + reqSize) cfg.segmentSize - segOffset else sEnd - segOffset
  let (p, s') ← s.allocate p segOffset segSize
  let startGapSize := segOffset - s.mOffset
  let (f, sl) := (f.setSegment id s').addGap cfg s.mOffset startGapSize
  let (f, sl') := f.addGap cfg (segOffset + segSize) (sEnd - (segOffset + segSize))
  let f ← f.linkSegments (sl ++ sl')
  let (p, f) ← f.release p
  return (p, f, s', rangeStart - (s.mOffset + startGapSize))

/-- The segment of a round of `lookup_helper`, allocated if it is a gap to be
written to, and the offset of the range in it. -/
def segmentFor (cfg : Settings) (allocGaps : Bool) (p : BigPool) (f : File) (id : Nat)
    (s : Segment) (rangeStart reqSize : Int) : Result (BigPool × File × Segment × Int) :=
  if allocGaps = true ∧ s.mIsGap = true then
    f.allocateGap cfg p id s rangeStart reqSize
  else
    return (p, f, s, rangeStart - s.mOffset)

def lookupLoop (cfg : Settings) (allocGaps : Bool) (rangeEnd : Int) :
    Nat → BigPool → File → Leaf → Int → Int → List Region → Result (BigPool × File × List Region)
  | 0, _, _, _, _, _, _ => .error .unfinished
  | fuel + 1, p, f, leaf, rangeStart, reqSize, regions =>
    match leaf.val with
    | none => return (p, f, regions)
    | some id => do
      let s ← f.segment id
      let sEnd := s.mOffset + s.mSize
      check (rangeStart - s.mOffset ≠ s.mSize)
      let opSize := min reqSize (s.mSize - (rangeStart - s.mOffset))
      let (p, f, s, opDelta) ← f.segmentFor cfg allocGaps p id s rangeStart reqSize
      let addr := if s.mIsGap then none else offsetPtr s.mData opDelta
      let regions := regions ++ [⟨addr, opSize⟩]
      if sEnd ≥ rangeEnd then
        return (p, f, regions)
      else
        match IntervalMap.next f.mSegments leaf.key with
        | none => .error .badPointer
        | some leaf =>
          lookupLoop cfg allocGaps rangeEnd fuel p f leaf sEnd (reqSize - opSize) regions

def lookupHelper (cfg : Settings) (p : BigPool) (f : File) (rangeStart rangeEnd : Int)
    (allocGaps : Bool) : Result (BigPool × File × List Region) :=
  if rangeEnd - rangeStart = 0 then return (p, f, []) else
    match IntervalMap.search f.mSegments rangeStart with
    | none => .error .assertion
    | some leaf =>
      lookupLoop cfg allocGaps rangeEnd cfg.rounds p f leaf rangeStart (rangeEnd - rangeStart) []

def lookupSegments (cfg : Settings) (p : BigPool) (f : File) (rangeStart rangeEnd : Int) :
    Result (BigPool × File × List Region) := do
  check (rangeStart ≥ 0)
  check (rangeStart ≤ rangeEnd)
  f.lookupHelper cfg p rangeStart rangeEnd true

def lookupData (cfg : Settings) (p : BigPool) (f : File) (rangeStart rangeEnd : Int) :
    Result (List Region) := do
  check (rangeStart ≥ 0)
  check (rangeStart ≤ rangeEnd)
  let rangeEnd := if rangeEnd > f.mUsedOffset then f.mUsedOffset else rangeEnd
  let (_, _, regions) ← f.lookupHelper cfg p rangeStart rangeEnd false
  return regions

/-- The second part of `fetch_storage`: a new segment after the allocated part. -/
def extendAlloc (cfg : Settings) (p : BigPool) (f : File) (offset size : Int)
    (regions : List Region) : Result (BigPool × File × List Region) := do
  check (f.mSegments.getLast? = some ⟨f.mAllocOffset, none⟩)
  let segmentSize := min (f.mSegmentSize * 2 % 2 ^ 64) cfg.segmentSize
  let newOffset := if offset ≤ f.mAllocOffset then f.mAllocOffset else align offset segmentSize
  let gapSize := newOffset - f.mAllocOffset
  let newSize := xalign (offset + size) segmentSize - newOffset
  check (gapSize ≠ 0 → offset > f.mAllocOffset)
  let (f, sl) := addGap cfg { f with mSegmentSize := segmentSize } f.mAllocOffset gapSize
  let (p, s) ← Segment.new p newOffset newSize
  let (f, id) := f.addSegment s
  let f ← f.linkSegments (sl ++ [id])
  let opDelta := if offset ≤ f.mAllocOffset then 0 else offset - newOffset
  let (p, f) ← f.release p
  return (p, { f with mAllocOffset := newOffset + newSize },
    regions ++ [⟨offsetPtr s.mData opDelta, offset + size - newOffset⟩])

def lookupAllocated (cfg : Settings) (p : BigPool) (f : File) (offset : Int) :
    Result (BigPool × File × List Region) :=
  if offset < f.mAllocOffset then
    f.lookupSegments cfg p offset f.mAllocOffset
  else
    return (p, f, [])

def fetchStorage (cfg : Settings) (p : BigPool) (f : File) (offset size : Int) :
    Result (BigPool × File × List Region) :=
  if offset + size ≤ f.mAllocOffset then
    f.lookupSegments cfg p offset (offset + size)
  else do
    check (offset ≤ offset + size)
    let (p, f, regions) ← f.lookupAllocated cfg p offset
    f.extendAlloc cfg p offset size regions

def updateSize (f : File) (size : Int) : File :=
  if f.stSize < size then { f with mUsedOffset := size, stSize := size } else f

def allocate (cfg : Settings) (p : BigPool) (f : File) (start size : Int) :
    Result (BigPool × File) := do
  let (p, f, _) ← f.fetchStorage cfg p start size
  return (p, f.updateSize (start + size))

end File

/-- The allocator with the bytes of the address space it maps, and the addresses
whose pages were unmapped again. -/
structure Device (β : Type) where
  mBpool : BigPool
  memory : Int → β
  unmapped : Int → Bool

namespace Device
variable {β : Type}

def Accessible (d : Device β) (addr : Int) (n : Nat) : Prop :=
  (d.mBpool.mAddress : Int) ≤ addr ∧ addr + n ≤ d.mBpool.mAddress + d.mBpool.mLength ∧
    ∀ k < n, d.unmapped (addr + k) = false

instance (d : Device β) (addr : Int) (n : Nat) : Decidable (d.Accessible addr n) :=
  inferInstanceAs (Decidable (_ ∧ _ ∧ _))

/-- Copy `bytes` to a pointer. -/
def store (d : Device β) (addr : Option Int) (bytes : List β) : Result (Device β) :=
  match bytes, addr with
  | [], _ => return d
  | _, none => .error .badPointer
  | bytes, some a =>
    if d.Accessible a bytes.length then
      return { d with memory := Memory.overwrite d.memory a bytes }
    else
      .error .badPointer

/-- The bytes of a region; a null pointer stands for zeros. -/
def load [Zero β] (d : Device β) (r : Region) : Result (List β) :=
  match r.addr with
  | none => return List.replicate (toSize r.size) 0
  | some a =>
    if d.Accessible a (toSize r.size) then
      return Memory.window d.memory a (a + toSize r.size)
    else
      .error .badPointer

/-- `pmem_unmap`: the pages of the range are unmapped if it starts at a page and stays
in the address space. -/
def pmemUnmap (taskSize : Nat) (d : Device β) (addr : Option Nat) (length : Nat) : Device β :=
  let a := addr.getD 0
  if 4096 ∣ a ∧ a + length ≤ taskSize then
    { d with unmapped := fun x =>
        d.unmapped x || decide (a ≤ x ∧ x < (a + (length + 4095) / 4096 * 4096 : Nat)) }
  else d

/-- The copy loop of `put_data`: `fuse_buf_copy` copies what both sides have. -/
def copyIn (d : Device β) : List Region → List β → Result (Device β)
  | [], _ => return d
  | r :: regions, buffer => do
    let d ← d.store r.addr (buffer.take (toSize r.size))
    d.copyIn regions (buffer.drop (toSize r.size))

/-- The copy loop of `get_data`, into a buffer of `room` bytes. -/
def copyOut [Zero β] (d : Device β) : List Region → Nat → Result (List β)
  | [], _ => return []
  | r :: regions, room =>
    if room < toSize r.size then .error .badPointer else do
      let bytes ← d.load r
      let rest ← d.copyOut regions (room - toSize r.size)
      return bytes ++ rest

end Device

/-- What `get_data` returns: the bytes of the buffer, or `-ENOMEM`. -/
inductive ReadResult (β : Type) where
  | bytes (b : List β)
  | enomem
deriving DecidableEq, Repr

namespace File
variable {β : Type}

def putData (cfg : Settings) (d : Device β) (f : File) (start : Int) (buffer : List β) :
    Result (Device β × File) := do
  let (p, f, regions) ← f.fetchStorage cfg d.mBpool start buffer.length
  let d ← Device.copyIn { d with mBpool := p } regions buffer
  return (d, f.updateSize (start + buffer.length))

/-- No allocation reaches the half of the address space a `size_t` wraps to. -/
def getData [Zero β] (cfg : Settings) (d : Device β) (f : File) (start size : Int) :
    Result (ReadResult β) := do
  check (start < start + size)
  let regions ← f.lookupData cfg d.mBpool start (start + size)
  if regions = [] then
    return .bytes []
  else
    let total := toSize (regions.map Region.size).sum
    if total ≥ 2 ^ 63 then
      return .enomem
    else do
      let bytes ← d.copyOut regions total
      return .bytes bytes

/-- The loop of `truncate`: the first segment that reaches beyond `endOffset` is
cut, the later ones are unmapped and made gaps. -/
def shrinkLoop (cfg : Settings) (endOffset : Int) : List Leaf → Int → Bool → Device β → File →
    Result (Device β × File)
  | [], _, _, d, f => return (d, f)
  | leaf :: rest, size, cut, d, f =>
    match leaf.val with
    | none => shrinkLoop cfg endOffset rest size cut d f
    | some id => do
      let s ← f.segment id
      let size := size + if s.mBytes ≠ 0 then s.mBytes else s.mSize
      if size > endOffset then
        if cut = false then
          shrinkLoop cfg endOffset rest size true d
            (f.setSegment id { s with mBytes := size - endOffset })
        else
          shrinkLoop cfg endOffset rest size cut (d.pmemUnmap cfg.taskSize s.mData s.mLength)
            (f.setSegment id { s with mData := none, mIsGap := true })
      else
        shrinkLoop cfg endOffset rest size cut d f

def truncate (cfg : Settings) (d : Device β) (f : File) (endOffset : Int) :
    Result (Device β × File) :=
  if endOffset % 2 ^ 32 > f.stSize % 2 ^ 32 then do
    let (p, f) ← f.allocate cfg d.mBpool 0 endOffset
    return ({ d with mBpool := p }, f)
  else do
    let (d, f) ← f.shrinkLoop cfg endOffset f.mSegments 0 false d
    return (d, { f with mUsedOffset := endOffset, stSize := endOffset })

def preload [Zero β] (d : Device β) (content : List β) : Result (Device β × File) := do
  let (p, s) ← Segment.new d.mBpool 0 (xalign content.length create.mSegmentSize)
  let (f, id) := create.addSegment s
  let f ← f.linkSegments [id]
  -- `fill_from`: the bytes read, then zeros to the end of the segment
  let d ← Device.store { d with mBpool := p } (offsetPtr s.mData 0) content
  let d ← d.store (offsetPtr s.mData content.length)
    (List.replicate (toSize (s.mSize - content.length)) 0)
  let f := f.setSegment id { s with mBytes := content.length }
  return (d, { f with
    mAllocOffset := s.mSize, mUsedOffset := content.length, stSize := content.length })

def destroy (p : BigPool) (f : File) : Result BigPool := do
  let (p, _) ← destroySegments (fun _ => false) 0 p f.segments
  return p

end File

/-- The files of the backend, numbered in the order of their creation. -/
structure System (β : Type) where
  device : Device β
  files : List (Option File)

inductive Op (β : Type) where
  | create (i : Nat)
  | preload (i : Nat) (content : List β)
  | putData (i : Nat) (start : Int) (buffer : List β)
  | allocate (i : Nat) (start size : Int)
  | truncate (i : Nat) (endOffset : Int)
  | getData (i : Nat) (start size : Int)
  | destroy (i : Nat)
deriving DecidableEq, Repr

namespace System
variable {β : Type}

def file (sys : System β) (i : Nat) : Result File :=
  match sys.files[i]? with
  | some (some f) => .ok f
  | _ => .error .badPointer

/-- A call that returns, with what a read of a file hands out. -/
def exec [Zero β] (cfg : Settings) (sys : System β) :
    Op β → Result (System β × Option (Nat × ReadResult β))
  | .create i => do
    check (i = sys.files.length)
    return ({ sys with files := sys.files ++ [some .create] }, none)
  | .preload i content => do
    check (i = sys.files.length)
    let (d, f) ← File.preload sys.device content
    return (⟨d, sys.files ++ [some f]⟩, none)
  | .putData i start buffer => do
    let f ← sys.file i
    let (d, f) ← f.putData cfg sys.device start buffer
    return (⟨d, sys.files.set i (some f)⟩, none)
  | .allocate i start size => do
    let f ← sys.file i
    let (p, f) ← f.allocate cfg sys.device.mBpool start size
    return (⟨{ sys.device with mBpool := p }, sys.files.set i (some f)⟩, none)
  | .truncate i endOffset => do
    let f ← sys.file i
    let (d, f) ← f.truncate cfg sys.device endOffset
    return (⟨d, sys.files.set i (some f)⟩, none)
  | .getData i start size => do
    let f ← sys.file i
    let r ← f.getData cfg sys.device start size
    return (sys, some (i, r))
  | .destroy i => do
    let f ← sys.file i
    let p ← f.destroy sys.device.mBpool
    return (⟨{ sys.device with mBpool := p }, sys.files.set i none⟩, none)

end System
end EchoFs.DevDax
