import EchoFs.DevDax.Ledger

/-! Calls that find the device full. `big_pool::allocate` then returns a null pointer,
`pool::allocate` stores it, and the segment is used like any other. The storage calls are
followed with what the allocator has given them and with the pointers behind their regions. -/

namespace EchoFs.DevDax.FullDevice
open Checked Nvml

/-- A region, and the pointer its address is computed from: the data of its segment. -/
structure Based where
  region : Region
  isGap : Bool
  base : Option Nat
deriving DecidableEq, Repr

/-- The regions of a call so far, and what `big_pool::allocate` has returned to it. -/
structure Trace where
  regions : List Based
  grants : List (Option Nat)
deriving DecidableEq, Repr

namespace Trace

def empty : Trace := ⟨[], []⟩

def visit (t : Trace) (s : Segment) (delta size : Int) : Trace :=
  { t with regions := t.regions ++
    [⟨⟨if s.mIsGap then none else offsetPtr s.mData delta, size⟩, s.mIsGap, s.mData⟩] }

/-- `pool::allocate` has set the data of the segment to what the allocator returned. -/
def grant (t : Trace) (s : Segment) : Trace := { t with grants := t.grants ++ [s.mData] }

end Trace

def lookupLoop (cfg : Settings) (rangeEnd : Int) :
    Nat → BigPool → File → Leaf → Int → Int → Trace → Result (BigPool × File × Trace)
  | 0, _, _, _, _, _, _ => .error .unfinished
  | fuel + 1, p, f, leaf, rangeStart, reqSize, t =>
    match leaf.val with
    | none => return (p, f, t)
    | some id => do
      let s ← f.segment id
      let sEnd := s.mOffset + s.mSize
      check (rangeStart - s.mOffset ≠ s.mSize)
      let opSize := min reqSize (s.mSize - (rangeStart - s.mOffset))
      let (p, f, s', opDelta) ← f.segmentFor cfg true p id s rangeStart reqSize
      let t := if s.mIsGap then t.grant s' else t
      let t := t.visit s' opDelta opSize
      if sEnd ≥ rangeEnd then
        return (p, f, t)
      else
        match IntervalMap.next f.mSegments leaf.key with
        | none => .error .badPointer
        | some leaf => lookupLoop cfg rangeEnd fuel p f leaf sEnd (reqSize - opSize) t

def lookupSegments (cfg : Settings) (p : BigPool) (f : File) (rangeStart rangeEnd : Int) :
    Result (BigPool × File × Trace) := do
  check (rangeStart ≥ 0)
  check (rangeStart ≤ rangeEnd)
  if rangeEnd - rangeStart = 0 then return (p, f, .empty) else
    match IntervalMap.search f.mSegments rangeStart with
    | none => .error .assertion
    | some leaf =>
      lookupLoop cfg rangeEnd cfg.rounds p f leaf rangeStart (rangeEnd - rangeStart) .empty

def extendAlloc (cfg : Settings) (p : BigPool) (f : File) (offset size : Int) (t : Trace) :
    Result (BigPool × File × Trace) := do
  check (f.mSegments.getLast? = some ⟨f.mAllocOffset, none⟩)
  let segmentSize := min (f.mSegmentSize * 2 % 2 ^ 64) cfg.segmentSize
  let newOffset := if offset ≤ f.mAllocOffset then f.mAllocOffset else align offset segmentSize
  let gapSize := newOffset - f.mAllocOffset
  let newSize := xalign (offset + size) segmentSize - newOffset
  check (gapSize ≠ 0 → offset > f.mAllocOffset)
  let (f, sl) := File.addGap cfg { f with mSegmentSize := segmentSize } f.mAllocOffset gapSize
  let (p, s) ← Segment.new p newOffset newSize
  let t := t.grant s
  let (f, id) := f.addSegment s
  let f ← f.linkSegments (sl ++ [id])
  let opDelta := if offset ≤ f.mAllocOffset then 0 else offset - newOffset
  let (p, f) ← f.release p
  return (p, { f with mAllocOffset := newOffset + newSize },
    t.visit s opDelta (offset + size - newOffset))

def lookupAllocated (cfg : Settings) (p : BigPool) (f : File) (offset : Int) :
    Result (BigPool × File × Trace) :=
  if offset < f.mAllocOffset then
    lookupSegments cfg p f offset f.mAllocOffset
  else
    return (p, f, .empty)

def fetchStorage (cfg : Settings) (p : BigPool) (f : File) (offset size : Int) :
    Result (BigPool × File × Trace) :=
  if offset + size ≤ f.mAllocOffset then
    lookupSegments cfg p f offset (offset + size)
  else do
    check (offset ≤ offset + size)
    let (p, f, t) ← lookupAllocated cfg p f offset
    extendAlloc cfg p f offset size t

inductive Call where
  | putData (start size : Int)
  | allocate (start size : Int)
deriving DecidableEq, Repr

/-- What a call returns, the file it leaves, the regions it has handed to its copy loop and
what `big_pool::allocate` has returned during it. -/
structure Outcome where
  rv : Int
  file : File
  regions : List Based
  grants : List (Option Nat)
deriving DecidableEq, Repr

/-- `copied` is the sum that the copy loop of `put_data` comes to, if it ends. -/
def run (cfg : Settings) (copied : Int) (p : BigPool) (f : File) : Call → Result Outcome
  | .putData start size => do
    let (_, f, t) ← fetchStorage cfg p f start size
    return ⟨copied, f.updateSize (start + size), t.regions, t.grants⟩
  | .allocate start size => do
    let (_, f, t) ← fetchStorage cfg p f start size
    return ⟨0, f.updateSize (start + size), [], t.grants⟩

/-- The result of a call, with its regions as they are without the trace. -/
def Plain (r : BigPool × File × Trace) (q : BigPool × File × List Region) : Prop :=
  q = (r.1, r.2.1, r.2.2.regions.map Based.region)

/-- What a full device should lead to: an error, with neither the null pointer in the tree or
under a region nor a change of the offsets and the size. -/
structure Refused (f : File) (o : Outcome) : Prop where
  error : o.rv < 0
  linked : ∀ (k : Int) (id : Nat) (s : Segment), ⟨k, some id⟩ ∈ o.file.mSegments →
    o.file.segments[id]? = some s → s.mIsGap = false → s.mData ≠ none
  based : ∀ b ∈ o.regions, b.isGap = false → b.base ≠ none
  alloc : o.file.mAllocOffset = f.mAllocOffset
  used : o.file.mUsedOffset = f.mUsedOffset
  size : o.file.stSize = f.stSize

/-- A null pointer that the allocator has returned is under a region. -/
def Trace.Shown (t : Trace) : Prop :=
  none ∈ t.grants → ∃ b ∈ t.regions, b.isGap = false ∧ b.base = none

variable {cfg : Settings} {p p' : BigPool} {f f' : File} {t t' : Trace} {s s' : Segment}
  {rangeStart rangeEnd reqSize delta size offset : Int} {id : Nat}

theorem Trace.Shown.visit (h : t.Shown) : (t.visit s delta size).Shown := by
  intro hnull
  obtain ⟨b, hb, hbase⟩ := h hnull
  exact ⟨b, List.mem_append_left _ hb, hbase⟩

/-- The segment that has just been given its memory gets the next region. -/
theorem Trace.Shown.grant_visit (h : t.Shown) (hs : s.mIsGap = false) :
    ((t.grant s).visit s delta size).Shown := by
  intro hnull
  rcases List.mem_append.mp hnull with hold | hnew
  · obtain ⟨b, hb, hbase⟩ := h hold
    exact ⟨b, List.mem_append_left _ hb, hbase⟩
  · refine ⟨_, List.mem_append_right _ (List.mem_singleton_self _), hs, ?_⟩
    exact (List.mem_singleton.mp hnew).symm

theorem Trace.shown_empty : Trace.empty.Shown := by
  intro hnull
  cases hnull

/-- A gap is filled with what the allocator returns, and is none any more. -/
theorem segmentFor_gap (hg : s.mIsGap = true)
    (h : f.segmentFor cfg true p id s rangeStart reqSize = .ok (p', f', s', delta)) :
    s'.mIsGap = false ∧ ∃ n p₁, p.allocate n = .ok (p₁, s'.mData) := by
  unfold File.segmentFor at h
  rw [if_pos ⟨rfl, hg⟩] at h
  unfold File.allocateGap at h
  dsimp only at h
  obtain ⟨⟨p₁, s₁⟩, halloc, h⟩ := bind_eq_ok.mp h
  obtain ⟨f₁, -, h⟩ := bind_eq_ok.mp h
  obtain ⟨⟨p₂, f₂⟩, -, h⟩ := bind_eq_ok.mp h
  cases h
  unfold Segment.allocate at halloc
  obtain ⟨-, -, halloc⟩ := bind_eq_ok.mp halloc
  obtain ⟨⟨p₃, data⟩, hdata, halloc⟩ := bind_eq_ok.mp halloc
  cases halloc
  exact ⟨rfl, _, _, hdata⟩

/-- A new segment has what the allocator returns, and is no gap. -/
theorem new_grant (h : Segment.new p offset size = .ok (p', s)) :
    s.mIsGap = false ∧ p.allocate (toSize size) = .ok (p', s.mData) := by
  unfold Segment.new at h
  obtain ⟨⟨p₁, data⟩, hdata, h⟩ := bind_eq_ok.mp h
  cases h
  exact ⟨rfl, hdata⟩

theorem lookupLoop_shown {fuel : Nat} : ∀ {p : BigPool} {f : File} {leaf : Leaf}
    {rangeStart reqSize : Int} {t : Trace},
    lookupLoop cfg rangeEnd fuel p f leaf rangeStart reqSize t = .ok (p', f', t') →
    t.Shown → t'.Shown := by
  induction fuel with
  | zero =>
    intro p f leaf rangeStart reqSize t h
    cases h
  | succ fuel ih =>
    intro p f leaf rangeStart reqSize t h ht
    unfold lookupLoop at h
    cases hv : leaf.val with
    | none =>
      rw [hv] at h
      cases h
      exact ht
    | some id =>
      rw [hv] at h
      obtain ⟨s, hs, h⟩ := bind_eq_ok.mp h
      obtain ⟨-, -, h⟩ := bind_eq_ok.mp h
      obtain ⟨⟨p₁, f₁, s', opDelta⟩, hseg, h⟩ := bind_eq_ok.mp h
      dsimp only at h
      -- the segment that gets memory in this round gets the region of this round
      have hshown : ∀ n, Trace.Shown
          ((if s.mIsGap then t.grant s' else t).visit s' opDelta n) := by
        intro n
        by_cases hg : s.mIsGap = true
        · rw [if_pos hg]
          exact ht.grant_visit (segmentFor_gap hg hseg).1
        · rw [if_neg hg]
          exact ht.visit
      split at h
      · cases h
        exact hshown _
      · split at h
        · cases h
        · exact ih h (hshown _)

theorem lookupSegments_shown
    (h : lookupSegments cfg p f rangeStart rangeEnd = .ok (p', f', t)) : t.Shown := by
  unfold lookupSegments at h
  obtain ⟨-, -, h⟩ := bind_eq_ok.mp h
  obtain ⟨-, -, h⟩ := bind_eq_ok.mp h
  split at h
  · cases h
    exact Trace.shown_empty
  · split at h
    · cases h
    · exact lookupLoop_shown h Trace.shown_empty

theorem extendAlloc_shown (h : extendAlloc cfg p f offset size t = .ok (p', f', t'))
    (ht : t.Shown) : t'.Shown := by
  unfold extendAlloc at h
  obtain ⟨-, -, h⟩ := bind_eq_ok.mp h
  dsimp only at h
  obtain ⟨-, -, h⟩ := bind_eq_ok.mp h
  obtain ⟨⟨p₁, s⟩, hnew, h⟩ := bind_eq_ok.mp h
  dsimp only at h
  obtain ⟨f₁, -, h⟩ := bind_eq_ok.mp h
  obtain ⟨⟨p₂, f₂⟩, -, h⟩ := bind_eq_ok.mp h
  cases h
  exact ht.grant_visit (new_grant hnew).1

theorem fetchStorage_shown (h : fetchStorage cfg p f offset size = .ok (p', f', t)) :
    t.Shown := by
  unfold fetchStorage at h
  split at h
  · exact lookupSegments_shown h
  · obtain ⟨-, -, h⟩ := bind_eq_ok.mp h
    obtain ⟨⟨p₁, f₁, t₁⟩, hl, h⟩ := bind_eq_ok.mp h
    refine extendAlloc_shown h ?_
    unfold lookupAllocated at hl
    split at hl
    · exact lookupSegments_shown hl
    · cases hl
      exact Trace.shown_empty

theorem visit_plain (t : Trace) (s : Segment) (delta size : Int) :
    (t.visit s delta size).regions.map Based.region = t.regions.map Based.region ++
      [⟨if s.mIsGap then none else offsetPtr s.mData delta, size⟩] := by
  unfold Trace.visit
  rw [List.map_append]
  rfl

theorem lookupLoop_plain {fuel : Nat} : ∀ {p : BigPool} {f : File} {leaf : Leaf}
    {rangeStart reqSize : Int} {t : Trace},
    Related Plain (lookupLoop cfg rangeEnd fuel p f leaf rangeStart reqSize t)
      (f.lookupLoop cfg true rangeEnd fuel p leaf rangeStart reqSize
        (t.regions.map Based.region)) := by
  induction fuel with
  | zero => exact .error _
  | succ fuel ih =>
    intro p f leaf rangeStart reqSize t
    unfold lookupLoop File.lookupLoop
    cases hv : leaf.val with
    | none => exact .ok rfl
    | some id =>
      refine related_bind_same _ fun s _ => related_bind_same _ fun _ _ =>
        related_bind_same _ fun r _ => ?_
      obtain ⟨p₁, f₁, s', opDelta⟩ := r
      dsimp only
      -- the trace of the grants leaves the regions alone
      have hregions : ∀ n, ((if s.mIsGap then t.grant s' else t).visit s' opDelta n).regions.map
          Based.region = t.regions.map Based.region ++
            [⟨if s'.mIsGap then none else offsetPtr s'.mData opDelta, n⟩] := by
        intro n
        rw [visit_plain]
        split_ifs <;> rfl
      rw [← hregions]
      by_cases hend : s.mOffset + s.mSize ≥ rangeEnd
      · rw [if_pos hend, if_pos hend]
        exact .ok rfl
      · rw [if_neg hend, if_neg hend]
        cases hnext : IntervalMap.next f₁.mSegments leaf.key with
        | none => exact .error _
        | some leaf => exact ih

theorem lookupSegments_plain : Related Plain (lookupSegments cfg p f rangeStart rangeEnd)
    (f.lookupSegments cfg p rangeStart rangeEnd) := by
  unfold lookupSegments File.lookupSegments
  refine related_bind_same _ fun _ _ => related_bind_same _ fun _ _ => ?_
  unfold File.lookupHelper
  split
  · exact .ok rfl
  · cases hs : IntervalMap.search f.mSegments rangeStart with
    | none => exact .error _
    | some leaf => exact lookupLoop_plain

theorem extendAlloc_plain : Related Plain (extendAlloc cfg p f offset size t)
    (f.extendAlloc cfg p offset size (t.regions.map Based.region)) := by
  unfold extendAlloc File.extendAlloc
  refine related_bind_same _ fun _ _ => ?_
  dsimp only
  refine related_bind_same _ fun _ _ => related_bind_same _ fun r hnew => ?_
  obtain ⟨p₁, s⟩ := r
  dsimp only
  refine related_bind_same _ fun f₁ _ => related_bind_same _ fun q _ => .ok ?_
  have hgap : s.mIsGap = false := (new_grant hnew).1
  unfold Plain
  rw [visit_plain, hgap]
  rfl

/-- With the trace or without it, the calls do the same. -/
theorem fetchStorage_plain : Related Plain (fetchStorage cfg p f offset size)
    (f.fetchStorage cfg p offset size) := by
  unfold fetchStorage File.fetchStorage
  split
  · exact lookupSegments_plain
  · refine related_bind_same _ fun _ _ => ?_
    have hbelow : Related Plain (lookupAllocated cfg p f offset)
        (f.lookupAllocated cfg p offset) := by
      unfold lookupAllocated File.lookupAllocated
      split
      · exact lookupSegments_plain
      · exact .ok rfl
    refine hbelow.bind fun r q hq => ?_
    obtain rfl := hq
    exact extendAlloc_plain

/-- Whatever finds the device full goes on: `allocate` returns 0, and `put_data` copies to an
address computed from the null pointer. -/
theorem full_device_not_refused {copied : Int} {c : Call} {o : Outcome}
    (h : run cfg copied p f c = .ok o) (hnull : none ∈ o.grants) : ¬Refused f o := by
  intro hr
  cases c with
  | putData start size =>
    obtain ⟨⟨p₁, f₁, t⟩, hfetch, h⟩ := bind_eq_ok.mp h
    cases h
    obtain ⟨b, hb, hg, hbase⟩ := fetchStorage_shown hfetch hnull
    exact hr.based b hb hg hbase
  | allocate start size =>
    obtain ⟨⟨p₁, f₁, t⟩, hfetch, h⟩ := bind_eq_ok.mp h
    cases h
    exact absurd hr.error (lt_irrefl _)

/-- A device of one slot, which is never granted. -/
def oneSlot : BigPool := ⟨fun _ => false, 0, 4096, 8192, 8192, 1⟩

def slotSettings : Settings := ⟨⟨8192, by decide, by decide⟩, 100, fun _ => 0, 2 ^ 47 - 4096⟩

/-- The first write to a file finds no slot. -/
theorem first_write_not_refused : ∃ o, run slotSettings 1 oneSlot .create (.putData 0 1) = .ok o ∧
    ¬Refused .create o :=
  ⟨_, rfl, @full_device_not_refused slotSettings oneSlot .create 1 (.putData 0 1) _ rfl (by decide)⟩

/-- A new file is given 700 GiB on a device of 600 GiB. -/
theorem full_device_returns_zero : ¬∀ (cfg : Settings) (copied : Int) (p : BigPool) (f : File)
    (c : Call) (o : Outcome), run cfg copied p f c = .ok o → none ∈ o.grants → Refused f o := by
  intro hclaim
  have hr := hclaim .default 0 ⟨fun _ => false, 0, 4096, 600 * 2 ^ 30, 2 ^ 27, 4800⟩ .create
    (.allocate 0 (700 * 2 ^ 30)) _ rfl (by decide)
  exact absurd hr.error (by decide)

end EchoFs.DevDax.FullDevice
