import EchoFs.Library.Throws
import EchoFs.Nvml.Bounds

/-! The calls that allocate storage when `pmem_map_file` may fail. The exception leaves
`put_data` or `allocate` from the middle of `fetch_storage`; unwinding releases
`m_alloc_mutex`, which is held by a scoped lock. -/

namespace EchoFs.Nvml.FailedPools
open Checked Throws IntervalMap Transition

/-- What `pmem_map_file` does: it fails, or it maps a file of this length. -/
inductive MapFile where
  | failed
  | mapped (length : Nat)
deriving DecidableEq, Repr

/-- A file, the calls of `pmem_map_file` made for it, and the number of times
`m_dealloc_mutex` is held shared. -/
structure World where
  file : File
  maps : Nat
  sharers : Nat

abbrev Action := Comp World

def onFile (g : File → Result File) : Action Unit := fun w =>
  (g w.file).map fun f => (some (), { w with file := f })

def segment (id : Nat) : Action Segment := do
  let f ← Comp.read World.file
  Comp.lift (f.segment id)

section
variable (cfg : Config) (pmem : Nat → Nat → MapFile)

/-- `pool::allocate`; `pmem` answers its calls of `pmem_map_file`, by number and size. -/
def poolAllocate (size : Int) : Action Unit := do
  let n ← Comp.read World.maps
  Comp.modify fun w => { w with maps := n + 1 }
  match pmem n (toSize size) with
  | .failed => Comp.throw
  | .mapped length => if length ≠ toSize size then Comp.throw else pure ()

def segmentAllocate (id : Nat) (offset size : Int) : Action Unit := do
  let s ← segment id
  let s := { s with mOffset := offset, mSize := size, mIsGap := false }
  onFile fun f => pure (f.setSegment id s)
  Comp.lift (check (s.mData.isNone = true))
  poolAllocate pmem size
  onFile fun f => pure (f.setSegment id { s with mData := some fun _ => 0, mLength := some size })

/-- A segment whose constructor throws is not created. -/
def createSegment (offset size : Int) (isGap : Bool) : Action Nat := do
  (if isGap = true then pure () else poolAllocate pmem size)
  let id ← Comp.read fun w => w.file.segments.length
  onFile fun f => pure (f.createSegment offset size isGap).1
  return id

/-- A gap segment, unless it is empty. -/
def createGap (offset size : Int) : Action (List Nat) :=
  if size ≠ 0 then do
    let id ← createSegment pmem offset size true
    return [id]
  else return []

def allocateGap (id : Nat) (s : Segment) (rangeStart reqSize : Int) : Action Int := do
  let sEnd := s.mOffset + s.mSize
  let segOffset := align rangeStart cfg.segmentSize
  let segSize := if toSize (rangeStart + reqSize) < toSize sEnd then
    xalign (rangeStart + reqSize) cfg.segmentSize - segOffset else sEnd - segOffset
  segmentAllocate pmem id segOffset segSize
  let startGapSize := segOffset - s.mOffset
  let sl ← createGap pmem s.mOffset startGapSize
  let endGapOffset := segOffset + segSize
  let sl' ← createGap pmem endGapOffset (sEnd - endGapOffset)
  onFile fun f => f.insertSegments (sl ++ sl')
  return rangeStart - (s.mOffset + startGapSize)

def lookupLoop (rangeEnd : Int) : Nat → Leaf → Int → Int → List Region → Action (List Region)
  | 0, _, _, _, _ => Comp.lift (.error .unfinished)
  | fuel + 1, leaf, rangeStart, reqSize, regions =>
    match leaf.val with
    | none => return regions
    | some id => do
      let s ← segment id
      let sEnd := s.mOffset + s.mSize
      Comp.lift (check (rangeStart - s.mOffset ≠ s.mSize))
      let opSize := min reqSize (s.mSize - (rangeStart - s.mOffset))
      let opDelta ← (if s.mIsGap = true then allocateGap cfg pmem id s rangeStart reqSize
        else pure (rangeStart - s.mOffset))
      let s ← segment id
      let regions := regions ++
        [⟨if s.mIsGap then none else some (id, opDelta), opSize, s.mIsGap⟩]
      if sEnd ≥ rangeEnd then return regions else do
        let f ← Comp.read World.file
        match IntervalMap.next f.mSegments leaf.key with
        | none => Comp.lift (.error .badPointer)
        | some leaf => lookupLoop rangeEnd fuel leaf sEnd (reqSize - opSize) regions

/-- What a round of the lookup does once it has its segment. -/
def lookupRest (rangeEnd : Int) (fuel : Nat) (leaf : Leaf) (sEnd reqSize : Int)
    (regions : List Region) : Action (List Region) :=
  if sEnd ≥ rangeEnd then return regions else do
    let f ← Comp.read World.file
    match IntervalMap.next f.mSegments leaf.key with
    | none => Comp.lift (.error .badPointer)
    | some leaf => lookupLoop cfg pmem rangeEnd fuel leaf sEnd reqSize regions

def lookupHelper (rangeStart rangeEnd : Int) : Action (List Region) :=
  if rangeEnd - rangeStart = 0 then return [] else do
    let f ← Comp.read World.file
    match IntervalMap.search f.mSegments rangeStart with
    | none => Comp.lift (.error .assertion)
    | some leaf =>
      lookupLoop cfg pmem rangeEnd (2 * f.mSegments.length + 2) leaf rangeStart
        (rangeEnd - rangeStart) []

def lookupSegments (rangeStart rangeEnd : Int) : Action (List Region) := do
  Comp.lift (check (rangeStart ≥ 0))
  Comp.lift (check (rangeStart ≤ rangeEnd))
  lookupHelper cfg pmem rangeStart rangeEnd

def extendAlloc (offset size : Int) (regions : List Region) : Action (List Region) := do
  let f ← Comp.read World.file
  Comp.lift (check (f.mSegments.getLast? = some ⟨f.mAllocOffset, none⟩))
  let segmentSize := min (f.mSegmentSize * 2 % 2 ^ 64) cfg.segmentSize
  let newOffset := if offset ≤ f.mAllocOffset then f.mAllocOffset else align offset segmentSize
  let gapSize := newOffset - f.mAllocOffset
  let newSize := xalign (offset + size) segmentSize - newOffset
  onFile fun f => pure { f with mSegmentSize := segmentSize }
  Comp.lift (check (gapSize ≠ 0 → offset > f.mAllocOffset))
  let sl ← createGap pmem f.mAllocOffset gapSize
  let id ← createSegment pmem newOffset newSize false
  onFile fun f => f.appendSegments (sl ++ [id])
  let f ← Comp.read World.file
  let opDelta := if offset ≤ f.mAllocOffset then 0 else offset - newOffset
  onFile fun f => pure { f with mAllocOffset := newOffset + newSize }
  return regions ++ [⟨some (id, opDelta), offset + size - newOffset, false⟩]

def fetchStorage (offset size : Int) : Action (List Region) := do
  let f ← Comp.read World.file
  if offset + size ≤ f.mAllocOffset then
    lookupSegments cfg pmem offset (offset + size)
  else do
    Comp.lift (check (offset ≤ offset + size))
    let regions ← (if offset < f.mAllocOffset then
      lookupSegments cfg pmem offset f.mAllocOffset else pure [])
    extendAlloc cfg pmem offset size regions

def lockShared : Action Unit := Comp.modify fun w => { w with sharers := w.sharers + 1 }

def unlockShared : Action Unit := Comp.modify fun w => { w with sharers := w.sharers - 1 }

def putData (start : Int) (buffer : List UInt8) : Action Unit := do
  lockShared
  let regions ← fetchStorage cfg pmem start buffer.length
  onFile fun f => f.copyIn regions buffer
  onFile fun f => pure (f.updateSize (start + buffer.length))
  unlockShared

def allocate (start size : Int) : Action Unit := do
  lockShared
  let _ ← fetchStorage cfg pmem start size
  onFile fun f => pure (f.updateSize (start + size))
  unlockShared

def run : File.Op → Action Unit
  | .putData start buffer => putData cfg pmem start buffer
  | .allocate start size => allocate cfg pmem start size

end

/-- What the storage calls never change, and the segments they have filled. -/
structure Kept (w w' : World) : Prop where
  sharers : w'.sharers = w.sharers
  used : w'.file.mUsedOffset = w.file.mUsedOffset
  size : w'.file.stSize = w.file.stSize
  filled : ∀ (id : Nat) (s : Segment), w.file.segments[id]? = some s → s.mIsGap = false →
    ∃ s', w'.file.segments[id]? = some s' ∧ s'.mIsGap = false

/-- A segment that was a gap is none any more. -/
def Converted (w w' : World) : Prop := ∃ (id : Nat) (s s' : Segment),
  w.file.segments[id]? = some s ∧ s.mIsGap = true ∧
    w'.file.segments[id]? = some s' ∧ s'.mIsGap = false

theorem Kept.refl (w : World) : Kept w w := ⟨rfl, rfl, rfl, fun _ s hs hg => ⟨s, hs, hg⟩⟩

theorem Kept.trans {w₁ w₂ w₃ : World} (h : Kept w₁ w₂) (h' : Kept w₂ w₃) : Kept w₁ w₃ where
  sharers := h'.sharers.trans h.sharers
  used := h'.used.trans h.used
  size := h'.size.trans h.size
  filled := fun id s hs hg => by
    obtain ⟨s₂, hs₂, hg₂⟩ := h.filled id s hs hg
    exact h'.filled id s₂ hs₂ hg₂

instance : Std.Refl Kept := ⟨Kept.refl⟩

instance : IsTrans World Kept := ⟨fun _ _ _ => Kept.trans⟩

theorem Converted.trans {w₁ w₂ w₃ : World} (h : Converted w₁ w₂) (h' : Kept w₂ w₃) :
    Converted w₁ w₃ := by
  obtain ⟨id, s, s₂, hs, hg, hs₂, hg₂⟩ := h
  obtain ⟨s₃, hs₃, hg₃⟩ := h'.filled id s₂ hs₂ hg₂
  exact ⟨id, s, s₃, hs, hg, hs₃, hg₃⟩

section
variable {cfg : Config} {pmem : Nat → Nat → MapFile} {w w' : World} {offset size : Int} {id : Nat}

theorem onFile_cases {g : File → Result File} {v : Option Unit}
    (h : onFile g w = .ok (v, w')) :
    v = some () ∧ ∃ f, g w.file = .ok f ∧ w' = { w with file := f } := by
  unfold onFile at h
  cases hg : g w.file with
  | error e =>
    rw [hg] at h
    cases h
  | ok f =>
    rw [hg] at h
    cases h
    exact ⟨rfl, f, rfl, rfl⟩

theorem nothrow_onFile (g : File → Result File) : (onFile g).Nothrow := by
  intro w v w' h
  obtain ⟨rfl, -⟩ := onFile_cases h
  rfl

theorem segment_cases {v : Option Segment} (h : segment id w = .ok (v, w')) :
    w' = w ∧ ∃ s, v = some s ∧ w.file.segment id = .ok s := by
  rcases Comp.bind_cases h with ⟨-, h⟩ | ⟨f, w₁, hf, h⟩
  · cases h
  · cases hf
    exact Comp.lift_returns h

theorem segment_get {f : File} {s : Segment} (h : f.segment id = .ok s) :
    f.segments[id]? = some s := by
  unfold File.segment at h
  split at h
  · cases h
    assumption
  · cases h

/-- Only segments without a gap replace others. -/
theorem Kept.of_set {f : File} {s : Segment} (hs : s.mIsGap = false)
    (hset : f = w.file.setSegment id s) : Kept w { w with file := f } := by
  subst hset
  refine ⟨rfl, rfl, rfl, fun i u hu hg => ?_⟩
  by_cases hi : i = id
  · subst hi
    exact ⟨s, File.setSegment_self hu, hs⟩
  · exact ⟨u, (File.setSegment_ne hi).trans hu, hg⟩

/-- Mapped or not, `pool::allocate` leaves the file to its callers. -/
theorem poolAllocate_cases {v : Option Unit} (h : poolAllocate pmem size w = .ok (v, w')) :
    w' = { w with maps := w.maps + 1 } := by
  rcases Comp.bind_cases h with ⟨-, hread⟩ | ⟨n, w₁, hread, h₁⟩
  · cases hread
  cases hread
  rcases Comp.bind_cases h₁ with ⟨-, hcount⟩ | ⟨u, w₁, hcount, h₂⟩
  · cases hcount
  cases hcount
  cases hp : pmem w.maps (toSize size) with
  | failed =>
    rw [hp] at h₂
    cases h₂
    rfl
  | mapped length =>
    rw [hp] at h₂
    dsimp only at h₂
    split_ifs at h₂ <;> cases h₂ <;> rfl

theorem poolAllocate_keeps : (poolAllocate pmem size).Keeps Kept := by
  intro w v w' h
  rw [poolAllocate_cases h]
  exact ⟨rfl, rfl, rfl, (Kept.refl w).filled⟩

theorem createSegment_keeps (isGap : Bool) :
    (createSegment pmem offset size isGap).Keeps Kept := by
  refine .bind ?_ fun _ => .bind (.read _) fun _ =>
    .bind ?_ fun _ => .ret _
  · split_ifs
    · exact .ret _
    · exact poolAllocate_keeps
  · intro w v w' h
    obtain ⟨-, f, hf, rfl⟩ := onFile_cases h
    cases hf
    refine ⟨rfl, rfl, rfl, fun i u hu hg => ⟨u, ?_, hg⟩⟩
    exact (List.getElem?_append_left (List.getElem?_eq_some_iff.mp hu).1).trans hu

theorem createGap_keeps : (createGap pmem offset size).Keeps Kept := by
  unfold createGap
  split_ifs
  · exact .bind (createSegment_keeps true) fun _ => .ret _
  · exact .ret _

theorem linkSegments_keeps (sl : List Nat) : (onFile fun f => f.linkSegments sl).Keeps Kept := by
  intro w v w' h
  obtain ⟨-, f, hf, rfl⟩ := onFile_cases h
  have hsegs := File.linkSegments_segments hf
  have hsame := File.linkSegments_same hf
  refine ⟨rfl, hsame.used, hsame.size, fun i u hu hg => ⟨u, ?_, hg⟩⟩
  exact (congrArg (·[i]?) hsegs).trans hu

theorem segment_keeps {R : World → World → Prop} [Std.Refl R] : (segment id).Keeps R := by
  intro w v w' h
  rw [(segment_cases h).1]
  exact refl_of R w

theorem set_keeps {s : Segment} (hs : s.mIsGap = false) :
    (onFile fun f => pure (f.setSegment id s)).Keeps Kept := by
  intro w v w' h
  obtain ⟨-, f, hf, rfl⟩ := onFile_cases h
  cases hf
  exact .of_set hs rfl

/-- `segment::allocate` has cleared `m_is_gap` before the step that can fail. -/
theorem segmentAllocate_cases {v : Option Unit}
    (h : segmentAllocate pmem id offset size w = .ok (v, w')) :
    Kept w w' ∧ ∃ s', w'.file.segments[id]? = some s' ∧ s'.mIsGap = false := by
  rcases Comp.bind_cases h with ⟨-, hs⟩ | ⟨s, w₁, hs, h₁⟩
  · obtain ⟨-, s, hs, -⟩ := segment_cases hs
    cases hs
  obtain ⟨rfl, s, ⟨⟩, hseg⟩ := segment_cases hs
  rcases Comp.bind_cases h₁ with ⟨-, hset⟩ | ⟨u, w₂, hset, h₂⟩
  · cases (onFile_cases hset).1
  have hfst : Kept w₁ w₂ := set_keeps rfl _ _ _ hset
  obtain ⟨-, f, hf, rfl⟩ := onFile_cases hset
  cases hf
  have hget := @File.setSegment_self w₁.file id s
    { s with mOffset := offset, mSize := size, mIsGap := false } (segment_get hseg)
  have hrest : Kept _ w' := Comp.Keeps.bind (.lift _)
    (fun _ => .bind poolAllocate_keeps fun _ => set_keeps rfl) _ _ _ h₂
  exact ⟨hfst.trans hrest, hrest.filled id _ hget rfl⟩

/-- Once a gap is written to, it is none any more, whether or not its memory is there. -/
theorem allocateGap_cases {s : Segment} {rangeStart reqSize : Int} {v : Option Int}
    (hs : w.file.segments[id]? = some s) (hg : s.mIsGap = true)
    (h : allocateGap cfg pmem id s rangeStart reqSize w = .ok (v, w')) :
    Kept w w' ∧ Converted w w' := by
  unfold allocateGap at h
  dsimp only at h
  rcases Comp.bind_cases h with ⟨-, halloc⟩ | ⟨u, w₁, halloc, h₁⟩
  · obtain ⟨hkept, s', hs', hg'⟩ := segmentAllocate_cases halloc
    exact ⟨hkept, id, s, s', hs, hg, hs', hg'⟩
  · obtain ⟨hkept, s', hs', hg'⟩ := segmentAllocate_cases halloc
    have hrest : Kept w₁ w' := Comp.Keeps.bind createGap_keeps
      (fun sl => .bind createGap_keeps fun sl' =>
        .bind (linkSegments_keeps (sl ++ sl')) fun _ => .ret _) _ _ _ h₁
    exact ⟨hkept.trans hrest, Converted.trans ⟨id, s, s', hs, hg, hs', hg'⟩ hrest⟩

/-- A lookup that converts no gap allocates nothing. -/
def LookedUp (w w' : World) : Prop := Kept w w' ∧ (w' = w ∨ Converted w w')

theorem LookedUp.refl (w : World) : LookedUp w w := ⟨.refl w, .inl rfl⟩

theorem LookedUp.trans {w₁ w₂ w₃ : World} (h : LookedUp w₁ w₂) (h' : LookedUp w₂ w₃) :
    LookedUp w₁ w₃ := by
  refine ⟨h.1.trans h'.1, ?_⟩
  rcases h.2 with rfl | hc
  · exact h'.2
  · exact .inr (hc.trans h'.1)

instance : Std.Refl LookedUp := ⟨LookedUp.refl⟩

instance : IsTrans World LookedUp := ⟨fun _ _ _ => LookedUp.trans⟩

theorem lookupRest_keeps {rangeEnd : Int} {fuel : Nat}
    (hloop : ∀ (leaf : Leaf) (rangeStart reqSize : Int) (regions : List Region),
      (lookupLoop cfg pmem rangeEnd fuel leaf rangeStart reqSize regions).Keeps LookedUp)
    (leaf : Leaf) (sEnd reqSize : Int) (regions : List Region) :
    (lookupRest cfg pmem rangeEnd fuel leaf sEnd reqSize regions).Keeps LookedUp := by
  unfold lookupRest
  split_ifs
  · exact .ret _
  · refine .bind (.read _) fun f => ?_
    split
    · exact .lift _
    · exact hloop _ _ _ _

theorem lookupLoop_keeps (rangeEnd : Int) (fuel : Nat) :
    ∀ (leaf : Leaf) (rangeStart reqSize : Int) (regions : List Region),
    (lookupLoop cfg pmem rangeEnd fuel leaf rangeStart reqSize regions).Keeps LookedUp := by
  induction fuel with
  | zero => exact fun _ _ _ _ => .lift _
  | succ fuel ih =>
    intro leaf rangeStart reqSize regions w v w' h
    unfold lookupLoop at h
    cases hv : leaf.val with
    | none =>
      rw [hv] at h
      exact Comp.Keeps.ret _ _ _ _ h
    | some id =>
      rw [hv] at h
      dsimp only at h
      rcases Comp.bind_cases h with ⟨-, hs⟩ | ⟨s, w₁, hs, h₁⟩
      · exact segment_keeps _ _ _ hs
      obtain ⟨rfl, s, ⟨⟩, hseg⟩ := segment_cases hs
      rcases Comp.bind_cases h₁ with ⟨-, hcheck⟩ | ⟨u, w₂, hcheck, h₂⟩
      · exact Comp.Keeps.lift _ _ _ _ hcheck
      obtain ⟨rfl, -⟩ := Comp.lift_returns hcheck
      -- a round changes the file only if its segment is a gap
      have hgap : ∀ v w₃, (if s.mIsGap = true then allocateGap cfg pmem id s rangeStart reqSize
          else pure (rangeStart - s.mOffset) : Action Int) w₂ = .ok (v, w₃) → LookedUp w₂ w₃ := by
        intro v w₃ h
        split_ifs at h with hg
        · obtain ⟨hkept, hconv⟩ := allocateGap_cases (segment_get hseg) hg h
          exact ⟨hkept, .inr hconv⟩
        · exact Comp.Keeps.ret _ _ _ _ h
      rcases Comp.bind_cases h₂ with ⟨-, hdelta⟩ | ⟨opDelta, w₃, hdelta, h₃⟩
      · exact hgap _ _ hdelta
      refine (hgap _ _ hdelta).trans (Comp.Keeps.bind (R := LookedUp)
        segment_keeps (fun s' => ?_) _ _ _ h₃)
      exact lookupRest_keeps ih _ _ _ _

theorem lookupSegments_keeps (rangeStart rangeEnd : Int) :
    (lookupSegments cfg pmem rangeStart rangeEnd).Keeps LookedUp := by
  refine .bind (.lift _) fun _ =>
    .bind (.lift _) fun _ => ?_
  unfold lookupHelper
  split_ifs
  · exact .ret _
  · refine .bind (.read _) fun f => ?_
    split
    · exact .lift _
    · exact lookupLoop_keeps _ _ _ _ _ _

/-- The file as a call has found it: its tree, the segments, the offsets and the size. -/
structure FileIntact (w w' : World) : Prop where
  tree : w'.file.mSegments = w.file.mSegments
  segs : ∀ (id : Nat) (s : Segment), w.file.segments[id]? = some s →
    ∃ s', w'.file.segments[id]? = some s' ∧ s'.mOffset = s.mOffset ∧ s'.mSize = s.mSize ∧
      s'.mIsGap = s.mIsGap ∧ s'.mData = s.mData
  alloc : w'.file.mAllocOffset = w.file.mAllocOffset
  used : w'.file.mUsedOffset = w.file.mUsedOffset
  size : w'.file.stSize = w.file.stSize

/-- The call has changed nothing, and does not hold `m_dealloc_mutex`. -/
structure Intact (w w' : World) : Prop extends FileIntact w w' where
  released : w'.sharers = w.sharers

theorem FileIntact.refl (w : World) : FileIntact w w :=
  ⟨rfl, fun _ s hs => ⟨s, hs, rfl, rfl, rfl, rfl⟩, rfl, rfl, rfl⟩

/-- Segments that no leaf refers to yet do no harm. -/
theorem FileIntact.of_append {N : List Segment}
    (hsegs : w'.file.segments = w.file.segments ++ N)
    (htree : w'.file.mSegments = w.file.mSegments)
    (halloc : w'.file.mAllocOffset = w.file.mAllocOffset)
    (hused : w'.file.mUsedOffset = w.file.mUsedOffset)
    (hsize : w'.file.stSize = w.file.stSize) : FileIntact w w' := by
  refine ⟨htree, fun id s hs => ⟨s, ?_, rfl, rfl, rfl, rfl⟩, halloc, hused, hsize⟩
  rw [hsegs, List.getElem?_append_left (List.getElem?_eq_some_iff.mp hs).1, hs]

theorem Converted.not_intact (h : Converted w w') : ¬FileIntact w w' := by
  intro hi
  obtain ⟨id, s, s', hs, hg, hs', hg'⟩ := h
  obtain ⟨u, hu, -, -, hgap, -⟩ := hi.segs id s hs
  obtain rfl : u = s' := Option.some.inj (hu.symm.trans hs')
  rw [hg, hg'] at hgap
  cases hgap

/-- A gap segment needs no pool, so it is always created. -/
theorem createGap_cases {v : Option (List Nat)} (h : createGap pmem offset size w = .ok (v, w')) :
    (∃ sl, v = some sl) ∧ ∃ N, w' = { w with
      file := { w.file with segments := w.file.segments ++ N } } := by
  unfold createGap at h
  split_ifs at h
  · cases h
    exact ⟨⟨_, rfl⟩, _, rfl⟩
  · cases h
    exact ⟨⟨_, rfl⟩, [], by rw [List.append_nil]⟩

theorem createSegment_throws {isGap : Bool}
    (h : createSegment pmem offset size isGap w = .ok (none, w')) : w'.file = w.file := by
  rcases Comp.bind_cases h with ⟨-, hpool⟩ | ⟨u, w₁, hpool, h₁⟩
  · split_ifs at hpool
    · cases hpool
    · rw [poolAllocate_cases hpool]
  · cases h₁

/-- An append that fails has linked nothing yet. -/
theorem extendAlloc_throws {regions : List Region}
    (h : extendAlloc cfg pmem offset size regions w = .ok (none, w')) : FileIntact w w' := by
  unfold extendAlloc at h
  obtain ⟨f, w₁, hread, h⟩ := Comp.bind_throws (Comp.nothrow_read _) h
  cases hread
  obtain ⟨u, w₁, hcheck, h⟩ := Comp.bind_throws (Comp.nothrow_lift _) h
  obtain ⟨rfl, -⟩ := Comp.lift_returns hcheck
  dsimp only at h
  obtain ⟨u, w₂, hset, h⟩ := Comp.bind_throws (nothrow_onFile _) h
  cases hset
  obtain ⟨u, w₂, hcheck', h⟩ := Comp.bind_throws (Comp.nothrow_lift _) h
  obtain ⟨rfl, -⟩ := Comp.lift_returns hcheck'
  rcases Comp.bind_cases h with ⟨-, hgap⟩ | ⟨sl, w₃, hgap, h⟩
  · obtain ⟨⟨sl, hsl⟩, -⟩ := createGap_cases hgap
    cases hsl
  obtain ⟨-, N, rfl⟩ := createGap_cases hgap
  rcases Comp.bind_cases h with ⟨-, hseg⟩ | ⟨id, w₃, hseg, h⟩
  · have hfile := createSegment_throws hseg
    apply FileIntact.of_append (N := N) <;> rw [hfile]
  · obtain ⟨u, w₄, -, h⟩ := Comp.bind_throws (nothrow_onFile _) h
    obtain ⟨f, w₅, -, h⟩ := Comp.bind_throws (Comp.nothrow_read _) h
    obtain ⟨u, w₆, -, h⟩ := Comp.bind_throws (nothrow_onFile _) h
    cases h

theorem extendAlloc_keeps (regions : List Region) :
    (extendAlloc cfg pmem offset size regions).Keeps Kept := by
  have hset : ∀ g : File → File, (∀ f, (g f).segments = f.segments ∧
      (g f).mUsedOffset = f.mUsedOffset ∧ (g f).stSize = f.stSize) →
      (onFile fun f => pure (g f)).Keeps Kept := by
    intro g hg w v w' h
    cases h
    obtain ⟨hsegs, hused, hsize⟩ := hg w.file
    refine ⟨rfl, hused, hsize, fun i u hu hgap => ⟨u, ?_, hgap⟩⟩
    exact (congrArg (·[i]?) hsegs).trans hu
  unfold extendAlloc
  refine .bind (.read _) fun f => .bind (.lift _) fun _ => ?_
  dsimp only
  refine .bind (hset _ fun _ => ⟨rfl, rfl, rfl⟩) fun _ => .bind (.lift _) fun _ =>
    .bind createGap_keeps fun sl => .bind (createSegment_keeps false) fun id =>
    .bind (linkSegments_keeps _) fun _ => .bind (.read _) fun _ =>
    .bind (hset _ fun _ => ⟨rfl, rfl, rfl⟩) fun _ => .ret _

/-- The exception leaves the file as it was, or after a gap has become a segment. -/
theorem fetchStorage_throws (h : fetchStorage cfg pmem offset size w = .ok (none, w')) :
    Kept w w' ∧ (FileIntact w w' ∨ Converted w w') := by
  have hlooked : ∀ {w₁}, LookedUp w w₁ → FileIntact w w₁ ∨ Converted w w₁ := by
    rintro w₁ ⟨-, rfl | hconv⟩
    · exact .inl (.refl w₁)
    · exact .inr hconv
  unfold fetchStorage at h
  obtain ⟨f, w₁, hread, h⟩ := Comp.bind_throws (Comp.nothrow_read _) h
  cases hread
  by_cases hin : offset + size ≤ w.file.mAllocOffset
  · rw [if_pos hin] at h
    have hl := lookupSegments_keeps _ _ _ _ _ h
    exact ⟨hl.1, hlooked hl⟩
  · rw [if_neg hin] at h
    obtain ⟨u, w₁, hcheck, h⟩ := Comp.bind_throws (Comp.nothrow_lift _) h
    obtain ⟨rfl, -⟩ := Comp.lift_returns hcheck
    have hbelow : (if offset < w₁.file.mAllocOffset then
        lookupSegments cfg pmem offset w₁.file.mAllocOffset else pure [] :
          Action (List Region)).Keeps LookedUp := by
      split_ifs
      · exact lookupSegments_keeps _ _
      · exact .ret _
    rcases Comp.bind_cases h with ⟨-, hl⟩ | ⟨regions, w₂, hl, hext⟩
    · have hl' := hbelow _ _ _ hl
      exact ⟨hl'.1, hlooked hl'⟩
    · obtain ⟨hkept, hl'⟩ := hbelow _ _ _ hl
      have hkept' := extendAlloc_keeps _ _ _ _ hext
      refine ⟨hkept.trans hkept', ?_⟩
      -- the append comes last, so only the lookup before it can have changed the file
      rcases hl' with rfl | hconv
      · exact .inl (extendAlloc_throws hext)
      · exact .inr (hconv.trans hkept')

/-- The lock that `put_data` and `allocate` take themselves is still held. -/
theorem run_throws {op : File.Op} (h : run cfg pmem op w = .ok (none, w')) :
    w'.sharers = w.sharers + 1 ∧ (FileIntact w w' ∨ Converted w w') := by
  have hfetch : ∀ w₁, fetchStorage cfg pmem op.start op.size
      { w with sharers := w.sharers + 1 } = .ok (none, w₁) →
      w₁.sharers = w.sharers + 1 ∧ (FileIntact w w₁ ∨ Converted w w₁) := by
    intro w₁ h
    obtain ⟨hkept, hfile⟩ := fetchStorage_throws h
    refine ⟨hkept.sharers, hfile.imp (fun hi => ?_) fun hc => hc⟩
    exact ⟨hi.tree, hi.segs, hi.alloc, hi.used, hi.size⟩
  cases op with
  | putData start buffer =>
    rcases Comp.bind_cases h with ⟨-, hlock⟩ | ⟨u, w₁, hlock, h⟩
    · cases hlock
    cases hlock
    rcases Comp.bind_cases h with ⟨-, hf⟩ | ⟨regions, w₁, -, h⟩
    · exact hfetch _ hf
    · obtain ⟨u, w₂, -, h⟩ := Comp.bind_throws (nothrow_onFile _) h
      obtain ⟨u, w₃, -, h⟩ := Comp.bind_throws (nothrow_onFile _) h
      cases h
  | allocate start size =>
    rcases Comp.bind_cases h with ⟨-, hlock⟩ | ⟨u, w₁, hlock, h⟩
    · cases hlock
    cases hlock
    rcases Comp.bind_cases h with ⟨-, hf⟩ | ⟨regions, w₁, -, h⟩
    · exact hfetch _ hf
    · obtain ⟨u, w₂, -, h⟩ := Comp.bind_throws (nothrow_onFile _) h
      cases h

/-- The action does to the file of `w` what a computation without exceptions does. -/
def Follows {α : Type} (x : Action α) (w : World) : Result (File × α) → Prop
  | .ok (f, a) => ∃ n, x w = .ok (some a, ⟨f, n, w.sharers⟩)
  | .error e => x w = .error e

section Follows
variable {α β : Type} {x : Action α} {g : α → Action β}

theorem Follows.congr {x' : Action α} {y : Result (File × α)} (h : Follows x' w' y)
    (hx : x w = x' w') (hs : w'.sharers = w.sharers) : Follows x w y := by
  cases y with
  | ok p =>
    obtain ⟨n, hn⟩ := h
    exact ⟨n, by rw [hx, hn, hs]⟩
  | error e => exact hx.trans h

theorem Follows.bind {y : Result (File × α)} {h : File × α → Result (File × β)}
    (hx : Follows x w y) (hg : ∀ f a n, Follows (g a) ⟨f, n, w.sharers⟩ (h (f, a))) :
    Follows (x >>= g) w (y >>= h) := by
  cases y with
  | ok p =>
    obtain ⟨n, hn⟩ := hx
    exact (hg p.1 p.2 n).congr (Comp.bind_some hn) rfl
  | error e => exact Comp.bind_error hx

/-- A first part that only looks at the file. -/
theorem Follows.bind_read {y : Result α} {h : α → Result (File × β)}
    (hx : x w = y.map fun a => (some a, w)) (hg : ∀ a, y = .ok a → Follows (g a) w (h a)) :
    Follows (x >>= g) w (y >>= h) := by
  cases y with
  | ok a => exact (hg a rfl).congr (Comp.bind_some hx) rfl
  | error e => exact Comp.bind_error hx

/-- A first part that changes the file. -/
theorem Follows.bind_onFile {k : File → Result File} {g : Unit → Action β}
    {h : File → Result (File × β)} (hg : ∀ f, Follows (g ()) { w with file := f } (h f)) :
    Follows (onFile k >>= g) w (k w.file >>= h) := by
  cases hk : k w.file with
  | ok f =>
    refine (hg f).congr (Comp.bind_some ?_) rfl
    unfold onFile
    rw [hk]
    rfl
  | error e =>
    refine Comp.bind_error ?_
    unfold onFile
    rw [hk]
    rfl

theorem segment_eq (id : Nat) (w : World) :
    segment id w = (w.file.segment id).map fun s => (some s, w) := rfl

theorem createGap_eq (o n : Int) (w : World) : createGap pmem o n w =
    if n ≠ 0 then
      .ok (some [w.file.segments.length], { w with file := (w.file.createSegment o n true).1 })
    else .ok (some [], w) := by
  unfold createGap
  split_ifs <;> rfl

variable (hp : ∀ i n, pmem i n = .mapped n)
include hp

theorem poolAllocate_mapped (size : Int) (w : World) :
    poolAllocate pmem size w = .ok (some (), { w with maps := w.maps + 1 }) := by
  have hmatch : (match pmem w.maps (toSize size) with
      | .failed => Comp.throw
      | .mapped length => if length ≠ toSize size then Comp.throw else pure () : Action Unit) =
      pure () := by
    rw [hp]
    exact if_neg (not_not.mpr rfl)
  exact congrFun hmatch { w with maps := w.maps + 1 }

theorem segmentAllocate_mapped {s : Segment} (hs : w.file.segment id = .ok s)
    (offset size : Int) : segmentAllocate pmem id offset size w =
      (s.allocate offset size).map fun s' =>
        (some (), ⟨w.file.setSegment id s', w.maps + 1, w.sharers⟩) := by
  have hseg : segment id w = .ok (some s, w) := by rw [segment_eq, hs]; rfl
  unfold segmentAllocate Segment.allocate
  rw [Comp.bind_some hseg]
  dsimp only
  rw [Comp.bind_some (show onFile _ w = .ok (some (), _) from rfl)]
  by_cases hd : s.mData.isNone = true
  · rw [check_ok hd]
    rw [Comp.bind_some (show Comp.lift _ _ = .ok (some (), _) from rfl)]
    rw [Comp.bind_some (poolAllocate_mapped hp _ _)]
    have hset : ∀ s₁ s₂ : Segment,
        (w.file.setSegment id s₁).setSegment id s₂ = w.file.setSegment id s₂ := by
      intro s₁ s₂
      unfold File.setSegment
      rw [List.set_set]
    simp only [onFile, hset]
    rfl
  · have hcheck : check (s.mData.isNone = true) = .error .assertion := if_neg hd
    rw [hcheck]
    rfl

theorem allocateGap_follows {s : Segment} (hs : w.file.segment id = .ok s)
    (rangeStart reqSize : Int) : Follows (allocateGap cfg pmem id s rangeStart reqSize) w
      (w.file.allocateGap cfg id s rangeStart reqSize) := by
  unfold allocateGap File.allocateGap
  dsimp only
  generalize hsize : (if toSize (rangeStart + reqSize) < toSize (s.mOffset + s.mSize) then
    xalign (rangeStart + reqSize) cfg.segmentSize - align rangeStart cfg.segmentSize else
    s.mOffset + s.mSize - align rangeStart cfg.segmentSize) = segSize
  have halloc := segmentAllocate_mapped hp hs (align rangeStart cfg.segmentSize) segSize
  cases ha : s.allocate (align rangeStart cfg.segmentSize) segSize with
  | error e =>
    rw [ha] at halloc
    exact Comp.bind_error halloc
  | ok s' =>
    rw [ha] at halloc
    refine Follows.congr ?_ (Comp.bind_some halloc) rfl
    rw [ok_bind]
    have hlink : ∀ {m n o : Int} {sl sl' : List Nat} {f₁ f₂ : File},
        createGap pmem s.mOffset m ⟨w.file.setSegment id s', w.maps + 1, w.sharers⟩ =
          .ok (some sl, ⟨f₁, w.maps + 1, w.sharers⟩) →
        createGap pmem o n ⟨f₁, w.maps + 1, w.sharers⟩ =
          .ok (some sl', ⟨f₂, w.maps + 1, w.sharers⟩) →
        Follows (do
          let sl ← createGap pmem s.mOffset m
          let sl' ← createGap pmem o n
          onFile fun f => f.insertSegments (sl ++ sl')
          pure (rangeStart - (s.mOffset + m)))
          ⟨w.file.setSegment id s', w.maps + 1, w.sharers⟩
          (f₂.insertSegments (sl ++ sl') >>= fun f => pure (f, rangeStart - (s.mOffset + m))) := by
      intro m n o sl sl' f₁ f₂ h₁ h₂
      refine Follows.congr (Follows.congr (.bind_onFile fun f => ?_) (Comp.bind_some h₂) rfl)
        (Comp.bind_some h₁) rfl
      exact ⟨_, rfl⟩
    -- each of the two gap segments may be empty
    by_cases hm : align rangeStart cfg.segmentSize - s.mOffset ≠ 0 <;>
      by_cases hn : s.mOffset + s.mSize - (align rangeStart cfg.segmentSize + segSize) ≠ 0
    · rw [if_pos hm, if_pos hn]
      exact hlink ((createGap_eq _ _ _).trans (if_pos hm)) ((createGap_eq _ _ _).trans (if_pos hn))
    · rw [if_pos hm, if_neg hn]
      exact hlink ((createGap_eq _ _ _).trans (if_pos hm)) ((createGap_eq _ _ _).trans (if_neg hn))
    · rw [if_neg hm, if_pos hn]
      exact hlink ((createGap_eq _ _ _).trans (if_neg hm)) ((createGap_eq _ _ _).trans (if_pos hn))
    · rw [if_neg hm, if_neg hn]
      exact hlink ((createGap_eq _ _ _).trans (if_neg hm)) ((createGap_eq _ _ _).trans (if_neg hn))

omit hp in
theorem lookupRest_follows {rangeEnd : Int} {fuel : Nat}
    (hloop : ∀ (w : World) (leaf : Leaf) (rangeStart reqSize : Int) (regions : List Region),
      Follows (lookupLoop cfg pmem rangeEnd fuel leaf rangeStart reqSize regions) w
        (File.lookupLoop cfg true rangeEnd fuel w.file leaf rangeStart reqSize regions))
    (w : World) (leaf : Leaf) (sEnd reqSize : Int) (regions : List Region) :
    Follows (lookupRest cfg pmem rangeEnd fuel leaf sEnd reqSize regions) w
      (File.lookupRest cfg true rangeEnd fuel w.file leaf sEnd reqSize regions) := by
  unfold lookupRest File.lookupRest
  by_cases hend : sEnd ≥ rangeEnd
  · rw [if_pos hend, if_pos hend]
    exact ⟨w.maps, rfl⟩
  · rw [if_neg hend, if_neg hend]
    have hread : Comp.read World.file w = .ok (some w.file, w) := rfl
    refine Follows.congr ?_ (Comp.bind_some hread) rfl
    cases hnext : IntervalMap.next w.file.mSegments leaf.key with
    | none => exact rfl
    | some leaf => exact hloop w leaf _ _ _

theorem lookupLoop_follows (rangeEnd : Int) (fuel : Nat) :
    ∀ (w : World) (leaf : Leaf) (rangeStart reqSize : Int) (regions : List Region),
    Follows (lookupLoop cfg pmem rangeEnd fuel leaf rangeStart reqSize regions) w
      (File.lookupLoop cfg true rangeEnd fuel w.file leaf rangeStart reqSize regions) := by
  induction fuel with
  | zero => exact fun _ _ _ _ _ => rfl
  | succ fuel ih =>
    intro w leaf rangeStart reqSize regions
    unfold lookupLoop File.lookupLoop
    cases hv : leaf.val with
    | none => exact ⟨w.maps, rfl⟩
    | some id =>
      dsimp only
      refine .bind_read (segment_eq id w) fun s hs => .bind_read rfl fun _ _ => ?_
      by_cases hg : s.mIsGap = true
      · rw [if_pos hg, if_pos ⟨rfl, hg⟩]
        exact (allocateGap_follows hp hs rangeStart reqSize).bind fun f a n =>
          .bind_read (segment_eq id _) fun s' _ => lookupRest_follows ih _ _ _ _ _
      · rw [if_neg hg, if_neg fun h => hg h.2]
        exact .bind_read (segment_eq id w) fun s' _ => lookupRest_follows ih w _ _ _ _

theorem lookupSegments_follows (w : World) (rangeStart rangeEnd : Int) :
    Follows (lookupSegments cfg pmem rangeStart rangeEnd) w
      (w.file.lookupSegments cfg rangeStart rangeEnd) := by
  unfold lookupSegments File.lookupSegments
  refine .bind_read rfl fun _ _ => .bind_read rfl fun _ _ => ?_
  unfold lookupHelper File.lookupHelper
  by_cases hempty : rangeEnd - rangeStart = 0
  · rw [if_pos hempty, if_pos hempty]
    exact ⟨w.maps, rfl⟩
  · rw [if_neg hempty, if_neg hempty]
    have hread : Comp.read World.file w = .ok (some w.file, w) := rfl
    refine Follows.congr ?_ (Comp.bind_some hread) rfl
    cases hs : IntervalMap.search w.file.mSegments rangeStart with
    | none => exact rfl
    | some leaf => exact lookupLoop_follows hp rangeEnd _ w leaf _ _ _

theorem createSegment_mapped (offset size : Int) (w : World) :
    createSegment pmem offset size false w = .ok (some w.file.segments.length,
      ⟨(w.file.createSegment offset size false).1, w.maps + 1, w.sharers⟩) :=
  Comp.bind_some (poolAllocate_mapped hp size w)

theorem extendAlloc_follows (w : World) (offset size : Int) (regions : List Region) :
    Follows (extendAlloc cfg pmem offset size regions) w
      (w.file.extendAlloc cfg offset size regions) := by
  unfold extendAlloc File.extendAlloc
  have hread : Comp.read World.file w = .ok (some w.file, w) := rfl
  refine Follows.congr ?_ (Comp.bind_some hread) rfl
  refine .bind_read rfl fun _ _ => ?_
  dsimp only
  refine Follows.congr (.bind_read rfl fun _ _ => ?_)
    (Comp.bind_some (show onFile _ w = .ok (some (), _) from rfl)) rfl
  by_cases hgap : (if offset ≤ w.file.mAllocOffset then w.file.mAllocOffset else
      align offset (min (w.file.mSegmentSize * 2 % 2 ^ 64) cfg.segmentSize)) -
        w.file.mAllocOffset ≠ 0
  · rw [if_pos hgap]
    refine Follows.congr (Follows.congr (.bind_onFile fun f => ?_)
      (Comp.bind_some (createSegment_mapped hp _ _ _)) rfl)
        (Comp.bind_some ((createGap_eq _ _ _).trans (if_pos hgap))) rfl
    exact ⟨w.maps + 1, rfl⟩
  · rw [if_neg hgap]
    refine Follows.congr (Follows.congr (.bind_onFile fun f => ?_)
      (Comp.bind_some (createSegment_mapped hp _ _ _)) rfl)
        (Comp.bind_some ((createGap_eq _ _ _).trans (if_neg hgap))) rfl
    exact ⟨w.maps + 1, rfl⟩

theorem fetchStorage_follows (w : World) (offset size : Int) :
    Follows (fetchStorage cfg pmem offset size) w (w.file.fetchStorage cfg offset size) := by
  unfold fetchStorage File.fetchStorage
  have hread : Comp.read World.file w = .ok (some w.file, w) := rfl
  refine Follows.congr ?_ (Comp.bind_some hread) rfl
  by_cases hin : offset + size ≤ w.file.mAllocOffset
  · rw [if_pos hin, if_pos hin]
    exact lookupSegments_follows hp w _ _
  · rw [if_neg hin, if_neg hin]
    refine .bind_read rfl fun _ _ => ?_
    by_cases hlt : offset < w.file.mAllocOffset
    · rw [if_pos hlt, if_pos hlt]
      exact (lookupSegments_follows hp w _ _).bind fun f rs n =>
        extendAlloc_follows hp ⟨f, n, w.sharers⟩ offset size rs
    · rw [if_neg hlt, if_neg hlt]
      exact extendAlloc_follows hp w offset size []

/-- While every pool is mapped, the calls are those without exceptions, and leave the lock. -/
theorem run_follows (w : World) (op : File.Op) :
    Follows (run cfg pmem op) w ((op.run cfg w.file).map fun f => (f, ())) := by
  have hfetch : Follows (fetchStorage cfg pmem op.start op.size) { w with sharers := w.sharers + 1 }
      (w.file.fetchStorage cfg op.start op.size) := fetchStorage_follows hp _ _ _
  cases op with
  | putData start buffer =>
    -- `lock_shared` only counts, and `unlock_shared` takes that back
    have hput : (File.Op.putData start buffer).run cfg w.file =
        (w.file.fetchStorage cfg start buffer.length).bind fun p =>
          (p.1.copyIn p.2 buffer).bind fun f => .ok (f.updateSize (start + buffer.length)) := rfl
    have hstep : run cfg pmem (.putData start buffer) w = (do
        let regions ← fetchStorage cfg pmem start buffer.length
        onFile fun f => f.copyIn regions buffer
        onFile fun f => pure (f.updateSize (start + buffer.length))
        unlockShared) { w with sharers := w.sharers + 1 } := rfl
    rw [hput]
    dsimp only [File.Op.start, File.Op.size] at hfetch
    cases hf : w.file.fetchStorage cfg start buffer.length with
    | error e =>
      rw [hf] at hfetch
      exact hstep.trans (Comp.bind_error hfetch)
    | ok p =>
      rw [hf] at hfetch
      obtain ⟨n, hn⟩ := hfetch
      have hrun : run cfg pmem (.putData start buffer) w = (do
          onFile fun f => f.copyIn p.2 buffer
          onFile fun f => pure (f.updateSize (start + buffer.length))
          unlockShared) ⟨p.1, n, w.sharers + 1⟩ := hstep.trans (Comp.bind_some hn)
      have hcopy : onFile (fun f => f.copyIn p.2 buffer) ⟨p.1, n, w.sharers + 1⟩ =
          (p.1.copyIn p.2 buffer).map fun f => (some (), ⟨f, n, w.sharers + 1⟩) := rfl
      dsimp only [Except.bind]
      cases hc : p.1.copyIn p.2 buffer with
      | error e =>
        rw [hc] at hcopy
        exact hrun.trans (Comp.bind_error hcopy)
      | ok f =>
        rw [hc] at hcopy
        exact ⟨n, hrun.trans (Comp.bind_some hcopy)⟩
  | allocate start size =>
    have halloc : (File.Op.allocate start size).run cfg w.file =
        (w.file.fetchStorage cfg start size).bind fun p =>
          .ok (p.1.updateSize (start + size)) := rfl
    have hstep : run cfg pmem (.allocate start size) w = (do
        let _ ← fetchStorage cfg pmem start size
        onFile fun f => pure (f.updateSize (start + size))
        unlockShared) { w with sharers := w.sharers + 1 } := rfl
    rw [halloc]
    dsimp only [File.Op.start, File.Op.size] at hfetch
    cases hf : w.file.fetchStorage cfg start size with
    | error e =>
      rw [hf] at hfetch
      exact hstep.trans (Comp.bind_error hfetch)
    | ok p =>
      rw [hf] at hfetch
      obtain ⟨n, hn⟩ := hfetch
      exact ⟨n, hstep.trans (Comp.bind_some hn)⟩

end Follows

/-- No call that an exception leaves is undone: `m_dealloc_mutex` stays locked. -/
theorem failed_call_not_intact {op : File.Op} (h : run cfg pmem op w = .ok (none, w')) :
    ¬Intact w w' := by
  intro hi
  have hheld := (run_throws h).1
  rw [hi.released] at hheld
  omega

/-- The first write to a new file finds no memory. -/
theorem first_write_not_intact : ∃ w',
    run .default (fun _ _ => .failed) (.putData 0 [1]) ⟨.create, 0, 0⟩ = .ok (none, w') ∧
      ¬Intact ⟨.create, 0, 0⟩ w' :=
  ⟨_, rfl, @failed_call_not_intact .default (fun _ _ => .failed) _ _ (.putData 0 [1]) rfl⟩

/-- The file is new, and its first write finds no memory. -/
theorem lock_stays_held : ¬∀ (cfg : Config) (pmem : Nat → Nat → MapFile) (f : File) (w' : World)
    (op : File.Op), Reach File.Initial (File.Step cfg) f → op.Valid →
    run cfg pmem op ⟨f, 0, 0⟩ = .ok (none, w') → Intact ⟨f, 0, 0⟩ w' := by
  intro hclaim
  have h₀ : Reach File.Initial (File.Step .default) File.create :=
    .start ⟨.created, by decide, rfl⟩
  have hi := hclaim .default (fun _ _ => .failed) _ _ (.putData 0 [1]) h₀ (by decide) rfl
  exact absurd hi.released (by decide)

end

end EchoFs.Nvml.FailedPools
