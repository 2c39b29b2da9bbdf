import Mathlib.Data.List.Basic
import Mathlib.Data.Nat.Bitwise
import EchoFs.Library.Checked
import EchoFs.Library.IntervalMap
import EchoFs.Library.Memory

/-! The data path of `nvml::file`: segments in NVRAM, the tree that maps file
offsets to segments, and the calls that read, write, extend and truncate a file.
Values of `off_t` and `size_t` are integers; a `size_t` is taken modulo 2^64 where
the code compares it or passes it on as a length. The tree is valid whenever an
assertion looks at it, since every change is followed by `build_tree`. -/

namespace EchoFs.Nvml
open Checked

def toSize (x : Int) : Nat := (x % 2 ^ 64).toNat

/-- `n & ~(blockSize - 1)`, written as `n` less its bits under the mask. -/
def align (n : Int) (blockSize : Nat) : Int := n - (toSize n &&& toSize (blockSize - 1) : Nat)

def xalign (n : Int) (blockSize : Nat) : Int := align (n + blockSize) blockSize

/-- `segment::s_segment_size`, which the backend sets from an `int64_t`. A size that is not
positive is left out: no pool can then be mapped, and no call that needs one returns. -/
structure Config where
  segmentSize : Nat
  pos : 0 < segmentSize
  lt : segmentSize < 2 ^ 63

def Config.default : Config := ⟨128 * 1024 * 1024, by decide, by decide⟩

/-- A segment with its pool: `mData` is the mapped memory of `mLength` bytes. The source
does not initialise `mLength` for a gap, which is none here. -/
structure Segment where
  mOffset : Int
  mSize : Int
  mIsGap : Bool
  mBytes : Int
  mData : Option (Int → UInt8)
  mLength : Option Int

namespace Segment

/-- The constructor: `pool::allocate` maps zeroed memory unless it is a gap. -/
def new (offset size : Int) (isGap : Bool) : Segment where
  mOffset := offset
  mSize := size
  mIsGap := isGap
  mBytes := 0
  mData := if isGap then none else some fun _ => 0
  mLength := if isGap then none else some size

def allocate (s : Segment) (offset size : Int) : Result Segment := do
  check (s.mData.isNone = true)
  return { s with
    mOffset := offset, mSize := size, mIsGap := false, mData := some fun _ => 0,
    mLength := some size }

end Segment

/-- A leaf of `m_segments`; a `segment_ptr` is the index of a segment, `none` the
null pointer. -/
abbrev Leaf := IntervalMap.Leaf (Option Nat)

/-- A call of `pmem_unmap` with `m_data` and `m_length` of the segment: whether the
pointer is null, and the length unless it was never set. -/
structure Unmap where
  id : Nat
  isNull : Bool
  mLength : Option Int
deriving DecidableEq, Repr

structure File where
  segments : List Segment
  mSegments : List Leaf
  mAllocOffset : Int
  mUsedOffset : Int
  stSize : Int
  mSegmentSize : Nat
  /-- The calls of `pmem_unmap` so far. -/
  unmaps : List Unmap

/-- A region of a file: `addr` is a segment and an offset in its memory, `none`
the null address of a gap. -/
structure Region where
  addr : Option (Nat × Int)
  size : Int
  isGap : Bool
deriving DecidableEq, Repr

namespace File

/-- A file created empty. -/
def create : File where
  segments := []
  mSegments := [⟨0, none⟩]
  mAllocOffset := 0
  mUsedOffset := 0
  stSize := 0
  mSegmentSize := 4096
  unmaps := []

def segment (f : File) (id : Nat) : Result Segment :=
  match f.segments[id]? with
  | some s => .ok s
  | none => .error .badPointer

def setSegment (f : File) (id : Nat) (s : Segment) : File :=
  { f with segments := f.segments.set id s }

def createSegment (f : File) (offset size : Int) (isGap : Bool) : File × Nat :=
  ({ f with segments := f.segments ++ [.new offset size isGap] }, f.segments.length)

def linkSegments (f : File) (sl : List Nat) : Result File :=
  sl.foldlM (fun f id => do
    let s ← f.segment id
    return { f with
      mSegments := IntervalMap.insert f.mSegments s.mOffset (s.mOffset + s.mSize) (some id) }) f

/-- `insert_back` for each segment; only the side the search starts from is its own. -/
def appendSegments (f : File) (sl : List Nat) : Result File := f.linkSegments sl

/-- `insert_front` for each segment. -/
def insertSegments (f : File) (sl : List Nat) : Result File := f.linkSegments sl

/-- A gap that is written to becomes a segment with memory between two gaps. -/
def allocateGap (cfg : Config) (f : File) (id : Nat) (s : Segment) (rangeStart reqSize : Int) :
    Result (File × Int) := do
  let sEnd := s.mOffset + s.mSize
  let segOffset := align rangeStart cfg.segmentSize
  let segSize := if toSize (rangeStart + reqSize) < toSize sEnd then
    xalign (rangeStart + reqSize) cfg.segmentSize - segOffset else sEnd - segOffset
  let f := f.setSegment id (← s.allocate segOffset segSize)
  let startGapSize := segOffset - s.mOffset
  let (f, sl) := if startGapSize ≠ 0 then
    let (f, gap) := f.createSegment s.mOffset startGapSize true
    (f, [gap]) else (f, [])
  let endGapOffset := segOffset + segSize
  let endGapSize := sEnd - endGapOffset
  let (f, sl) := if endGapSize ≠ 0 then
    let (f, gap) := f.createSegment endGapOffset endGapSize true
    (f, sl ++ [gap]) else (f, sl)
  return (← f.insertSegments sl, rangeStart - (s.mOffset + startGapSize))

/-- The loop of `lookup_helper`; the iterator is the leaf it stands on. -/
def lookupLoop (cfg : Config) (allocGaps : Bool) (rangeEnd : Int) :
    Nat → File → Leaf → Int → Int → List Region → Result (File × List Region)
  | 0, _, _, _, _, _ => .error .unfinished
  | fuel + 1, f, leaf, rangeStart, reqSize, regions =>
    match leaf.val with
    | none => return (f, regions)
    | some id => do
      let s ← f.segment id
      let sEnd := s.mOffset + s.mSize
      check (rangeStart - s.mOffset ≠ s.mSize)
      let opSize := min reqSize (s.mSize - (rangeStart - s.mOffset))
      let (f, opDelta) ← if allocGaps = true ∧ s.mIsGap = true then
        f.allocateGap cfg id s rangeStart reqSize else pure (f, rangeStart - s.mOffset)
      let s ← f.segment id
      let regions := regions ++
        [⟨if s.mIsGap then none else some (id, opDelta), opSize, s.mIsGap⟩]
      if sEnd ≥ rangeEnd then
        return (f, regions)
      else
        match IntervalMap.next f.mSegments leaf.key with
        | none => .error .badPointer
        | some leaf => lookupLoop cfg allocGaps rangeEnd fuel f leaf sEnd (reqSize - opSize) regions

def lookupHelper (cfg : Config) (f : File) (rangeStart rangeEnd : Int) (allocGaps : Bool) :
    Result (File × List Region) :=
  if rangeEnd - rangeStart = 0 then return (f, []) else
    match IntervalMap.search f.mSegments rangeStart with
    | none => .error .assertion
    | some leaf => lookupLoop cfg allocGaps rangeEnd (2 * f.mSegments.length + 2) f leaf rangeStart
        (rangeEnd - rangeStart) []

def lookupSegments (cfg : Config) (f : File) (rangeStart rangeEnd : Int) :
    Result (File × List Region) := do
  check (rangeStart ≥ 0)
  check (rangeStart ≤ rangeEnd)
  f.lookupHelper cfg rangeStart rangeEnd true

def lookupData (cfg : Config) (f : File) (rangeStart rangeEnd : Int) : Result (List Region) := do
  check (rangeStart ≥ 0)
  check (rangeStart ≤ rangeEnd)
  let rangeEnd := if rangeEnd > f.mUsedOffset then f.mUsedOffset else rangeEnd
  let (_, regions) ← f.lookupHelper cfg rangeStart rangeEnd false
  return regions

/-- The second part of `fetch_storage`: a new segment after the allocated part. -/
def extendAlloc (cfg : Config) (f : File) (offset size : Int) (regions : List Region) :
    Result (File × List Region) := do
  check (f.mSegments.getLast? = some ⟨f.mAllocOffset, none⟩)
  let segmentSize := min (f.mSegmentSize * 2 % 2 ^ 64) cfg.segmentSize
  let newOffset := if offset ≤ f.mAllocOffset then f.mAllocOffset else align offset segmentSize
  let gapSize := newOffset - f.mAllocOffset
  let newSize := xalign (offset + size) segmentSize - newOffset
  let f := { f with mSegmentSize := segmentSize }
  check (gapSize ≠ 0 → offset > f.mAllocOffset)
  let (f, sl) := if gapSize ≠ 0 then
    let (f, gap) := f.createSegment f.mAllocOffset gapSize true
    (f, [gap]) else (f, [])
  let (f, id) := f.createSegment newOffset newSize false
  let f ← f.appendSegments (sl ++ [id])
  let opDelta := if offset ≤ f.mAllocOffset then 0 else offset - newOffset
  return ({ f with mAllocOffset := newOffset + newSize },
    regions ++ [⟨some (id, opDelta), offset + size - newOffset, false⟩])

def fetchStorage (cfg : Config) (f : File) (offset size : Int) : Result (File × List Region) :=
  if offset + size ≤ f.mAllocOffset then
    f.lookupSegments cfg offset (offset + size)
  else do
    check (offset ≤ offset + size)
    let (f, regions) ← if offset < f.mAllocOffset then
      f.lookupSegments cfg offset f.mAllocOffset else pure (f, [])
    f.extendAlloc cfg offset size regions

def updateSize (f : File) (size : Int) : File :=
  if f.stSize < size then { f with mUsedOffset := size, stSize := size } else f

/-- Copy `bytes` to the address of a region. -/
def store (f : File) (addr : Option (Nat × Int)) (bytes : List UInt8) : Result File :=
  match bytes, addr with
  | [], _ => return f
  | _, none => .error .badPointer
  | bytes, some (id, delta) => do
    let s ← f.segment id
    match s.mData with
    | none => .error .badPointer
    | some d =>
      if 0 ≤ delta ∧ delta + bytes.length ≤ s.mLength.getD 0 then
        return f.setSegment id { s with mData := some (Memory.overwrite d delta bytes) }
      else
        .error .badPointer

/-- The copy loop of `put_data`: `fuse_buf_copy` copies what both sides have. -/
def copyIn : File → List Region → List UInt8 → Result File
  | f, [], _ => return f
  | f, r :: regions, buffer => do
    let f ← f.store r.addr (buffer.take (toSize r.size))
    f.copyIn regions (buffer.drop (toSize r.size))

def putData (cfg : Config) (f : File) (start : Int) (buffer : List UInt8) : Result File := do
  let (f, regions) ← f.fetchStorage cfg start buffer.length
  let f ← f.copyIn regions buffer
  return f.updateSize (start + buffer.length)

def allocate (cfg : Config) (f : File) (start size : Int) : Result File := do
  let (f, _) ← f.fetchStorage cfg start size
  return f.updateSize (start + size)

def load (f : File) (r : Region) : Result (List UInt8) :=
  match r.addr with
  | none => return List.replicate (toSize r.size) 0
  | some (id, delta) => do
    let s ← f.segment id
    match s.mData with
    | none => .error .badPointer
    | some d =>
      if 0 ≤ delta ∧ delta + toSize r.size ≤ s.mLength.getD 0 then
        return (List.range (toSize r.size)).map fun k : Nat => d (delta + k)
      else
        .error .badPointer

/-- The copy loop of `get_data`, into a buffer of `room` bytes. -/
def copyOut : File → List Region → Nat → Result (List UInt8)
  | _, [], _ => return []
  | f, r :: regions, room =>
    if room < toSize r.size then .error .badPointer else do
      let bytes ← f.load r
      let rest ← f.copyOut regions (room - toSize r.size)
      return bytes ++ rest

/-- What `get_data` returns: the bytes of the buffer, or `-ENOMEM`. -/
inductive ReadResult where
  | bytes (b : List UInt8)
  | enomem
deriving DecidableEq, Repr

/-- No allocation reaches the half of the address space a `size_t` wraps to. -/
def getData (cfg : Config) (f : File) (start size : Int) : Result ReadResult := do
  check (start < start + size)
  let regions ← f.lookupData cfg start (start + size)
  if regions = [] then
    return .bytes []
  else
    let total := toSize (regions.map Region.size).sum
    if total ≥ 2 ^ 63 then
      return .enomem
    else
      let bytes ← f.copyOut regions total
      return .bytes bytes

def pmemUnmap (f : File) (id : Nat) (s : Segment) : File :=
  { f with unmaps := f.unmaps ++ [⟨id, s.mData.isNone, s.mLength⟩] }

/-- The loop of `truncate`: the first segment that reaches beyond `endOffset` is
cut, the later ones are unmapped and made gaps. -/
def shrinkLoop (endOffset : Int) : List Leaf → Int → Bool → File → Result File
  | [], _, _, f => return f
  | leaf :: rest, size, cut, f =>
    match leaf.val with
    | none => shrinkLoop endOffset rest size cut f
    | some id => do
      let s ← f.segment id
      let size := size + if s.mBytes ≠ 0 then s.mBytes else s.mSize
      if size > endOffset then
        if cut = false then
          shrinkLoop endOffset rest size true (f.setSegment id { s with mBytes := size - endOffset })
        else
          shrinkLoop endOffset rest size cut
            ((f.pmemUnmap id s).setSegment id { s with mData := none, mIsGap := true })
      else
        shrinkLoop endOffset rest size cut f

def truncate (cfg : Config) (f : File) (endOffset : Int) : Result File :=
  if endOffset % 2 ^ 32 > f.stSize % 2 ^ 32 then
    f.allocate cfg 0 endOffset
  else do
    let f ← shrinkLoop endOffset f.mSegments 0 false f
    return { f with mUsedOffset := endOffset, stSize := endOffset }

def preload (content : List UInt8) : Result File := do
  let (f, id) := create.createSegment 0 (xalign content.length create.mSegmentSize) false
  let f ← f.appendSegments [id]
  let s ← f.segment id
  let f := { f with mAllocOffset := s.mSize }
  -- `fill_from`: the bytes read, then zeros
  let f := f.setSegment id { s with
    mData := some (Memory.overwrite (fun _ => 0) 0 content)
    mBytes := content.length }
  return { f with mUsedOffset := content.length, stSize := content.length }

end File
end EchoFs.Nvml
