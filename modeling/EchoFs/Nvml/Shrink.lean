import EchoFs.Library.Transition
import EchoFs.Nvml.Partition

/-! The loop of `truncate`: what it makes of each segment, and where the data it drops
starts. -/

namespace EchoFs.Nvml
open Checked IntervalMap Transition

namespace Segment

/-- What the loop adds for a segment. -/
def counted (s : Segment) : Int := if s.mBytes ≠ 0 then s.mBytes else s.mSize

/-- What becomes of a segment; `size` is the sum over the segments before it. -/
def shrunk (endOffset size : Int) (cut : Bool) (s : Segment) : Segment :=
  if size + s.counted > endOffset then
    if cut = false then { s with mBytes := size + s.counted - endOffset }
    else { s with mData := none, mIsGap := true }
  else s

variable {endOffset size : Int} {cut : Bool} {s : Segment}

@[simp] theorem shrunk_mOffset : (s.shrunk endOffset size cut).mOffset = s.mOffset := by
  unfold shrunk
  split_ifs <;> rfl

@[simp] theorem shrunk_mSize : (s.shrunk endOffset size cut).mSize = s.mSize := by
  unfold shrunk
  split_ifs <;> rfl

@[simp] theorem shrunk_mLength : (s.shrunk endOffset size cut).mLength = s.mLength := by
  unfold shrunk
  split_ifs <;> rfl

theorem shrunk_mData_none (h : s.mData = none) : (s.shrunk endOffset size cut).mData = none := by
  unfold shrunk
  split_ifs
  · exact h
  · rfl
  · exact h

/-- A segment counts no more bytes than it has. -/
def BytesOk (s : Segment) : Prop := 0 ≤ s.mBytes ∧ s.mBytes ≤ s.mSize

theorem BytesOk.counted_le (h : s.BytesOk) (hpos : 0 < s.mSize) :
    0 < s.counted ∧ s.counted ≤ s.mSize := by
  obtain ⟨h₁, h₂⟩ := h
  unfold counted
  split_ifs <;> omega

theorem counted_pos (h : 0 ≤ s.mBytes) (hpos : 0 < s.mSize) : 0 < s.counted := by
  unfold counted
  split_ifs <;> omega

end Segment

/-- The segment keeps its extent, and it keeps its memory unless it starts above
`endOffset`. -/
structure Spared (endOffset : Int) (s s' : Segment) : Prop where
  offset : s'.mOffset = s.mOffset
  size : s'.mSize = s.mSize
  bytes : s'.BytesOk
  memory : s'.mIsGap = s.mIsGap ∧ s'.mData = s.mData ∨ endOffset < s.mOffset

theorem Segment.BytesOk.spared {s : Segment} {endOffset size : Int} {cut : Bool}
    (h : s.BytesOk) (hpos : 0 < s.mSize) (hlo : cut = true → endOffset < s.mOffset)
    (hcut : cut = false → size ≤ endOffset) :
    Spared endOffset s (s.shrunk endOffset size cut) := by
  have hcount := h.counted_le hpos
  refine ⟨by simp, by simp, ?_, ?_⟩
  · unfold shrunk
    split_ifs with hgt hc
    · have := hcut hc
      unfold BytesOk
      simp only
      omega
    · exact h
    · exact h
  · unfold shrunk
    split_ifs with hgt hc
    · exact .inl ⟨rfl, rfl⟩
    · exact .inr (hlo (by simpa using hc))
    · exact .inl ⟨rfl, rfl⟩

theorem SegOk.shrunk {s : Segment} (h : SegOk s) (endOffset size : Int) (cut : Bool) :
    SegOk (s.shrunk endOffset size cut) := by
  unfold Segment.shrunk
  split_ifs
  · exact ⟨h.gap, h.data⟩
  · exact ⟨fun _ => rfl, fun hg => absurd hg (by simp)⟩
  · exact h

/-- The segments of the leaves, before the loop and after it. -/
inductive Walked (segs segs' : List Segment) (endOffset : Int) : Int → Bool → List Leaf → Prop
  | last {size a : Int} {cut : Bool} : Walked segs segs' endOffset size cut [⟨a, none⟩]
  | cons {size k : Int} {cut : Bool} {id : Nat} {s : Segment} {rest : List Leaf}
      (hs : segs[id]? = some s) (hs' : segs'[id]? = some (s.shrunk endOffset size cut))
      (h : Walked segs segs' endOffset (size + s.counted)
        (cut || decide (size + s.counted > endOffset)) rest) :
      Walked segs segs' endOffset size cut (⟨k, some id⟩ :: rest)

theorem Walked.changed {segs segs' : List Segment} {endOffset size : Int} {cut : Bool}
    {S : List Leaf} (h : Walked segs segs' endOffset size cut S) : ∀ id ∈ treeIds S, ∃ s n c,
    segs[id]? = some s ∧ segs'[id]? = some (s.shrunk endOffset n c) := by
  induction h with
  | last => simp [treeIds]
  | @cons size k cut id s rest hs hs' _ ih =>
    intro i hi
    rcases List.mem_cons.mp (show i ∈ id :: treeIds rest from hi) with rfl | hi
    · exact ⟨s, _, _, hs, hs'⟩
    · exact ih i hi

/-- While the sum is no more than the offset, the segments that are dropped start above
`endOffset`. -/
theorem Walked.spares {segs segs' : List Segment} {endOffset size : Int} {cut : Bool}
    {S : List Leaf} (hw : Walked segs segs' endOffset size cut S) : ∀ {alloc lo : Int},
    Chain segs alloc lo S →
    (∀ (k : Int) (id : Nat) (s : Segment), ⟨k, some id⟩ ∈ S → segs[id]? = some s →
      s.mOffset = k ∧ s.BytesOk) → size ≤ lo → (cut = true → endOffset < lo) →
    (cut = false → size ≤ endOffset) →
    ∀ id ∈ treeIds S, ∃ s s', segs[id]? = some s ∧ segs'[id]? = some s' ∧
      Spared endOffset s s' := by
  induction hw with
  | last => simp [treeIds]
  | @cons size k cut id s rest hs hs' hw ih =>
    intro alloc lo hc hsegs hsize hlo hcut i hi
    cases hc with
    | @cons _ _ s₁ _ hs₁ hrest =>
    obtain rfl := Option.some.inj (hs.symm.trans hs₁.seg)
    obtain ⟨hoff, hbytes⟩ := hsegs k id s List.mem_cons_self hs
    have hend := hs₁.lt_end
    have hpos : 0 < s.mSize := by omega
    have hcount := hbytes.counted_le hpos
    rcases List.mem_cons.mp (show i ∈ id :: treeIds rest from hi) with rfl | hi
    · exact ⟨s, _, hs, hs', hbytes.spared hpos (fun hc => by rw [hoff]; exact hlo hc) hcut⟩
    · refine ih hrest (fun k' id' s' hm => hsegs k' id' s' (List.mem_cons_of_mem _ hm)) ?_ ?_ ?_
        i hi
      · -- no segment counts more than its size, so the sum stays behind the offsets
        omega
      · intro hc
        rcases Bool.or_eq_true _ _ ▸ hc with hc | hc
        · have := hlo hc
          omega
        · have := of_decide_eq_true hc
          omega
      · intro hc
        have := of_decide_eq_false (Bool.or_eq_false_iff.mp hc).2
        omega

/-- Where the segment ends at which the sum passes `endOffset`; `e` is where the segments
before the leaves end. -/
def keptEndFrom (segs : List Segment) (endOffset : Int) : Int → Int → List Leaf → Int
  | _, e, [] => e
  | size, e, leaf :: rest =>
    match leaf.val.bind fun id => segs[id]? with
    | none => keptEndFrom segs endOffset size e rest
    | some s =>
      if size + s.counted > endOffset then s.mOffset + s.mSize
      else keptEndFrom segs endOffset (size + s.counted) (s.mOffset + s.mSize) rest

/-- Where the loop starts to drop data, from leaves that start at `lo` on. -/
def droppedFrom (segs : List Segment) (endOffset size lo : Int) (cut : Bool) (S : List Leaf) : Int :=
  if cut = true then lo else keptEndFrom segs endOffset size lo S

/-- The segment keeps its memory if it ends before `e`, and loses it if its leaf is not
before `e`. -/
structure SplitAt (e k : Int) (s s' : Segment) : Prop where
  offset : s'.mOffset = s.mOffset
  size : s'.mSize = s.mSize
  memory : s.mOffset + s.mSize ≤ e ∧ s'.mData = s.mData ∨ e ≤ k ∧ s'.mData = none

/-- What is dropped starts at the first leaf, or where it starts in the rest. -/
theorem droppedFrom_cons {segs : List Segment} {endOffset size k e : Int} {cut : Bool} {id : Nat}
    {s : Segment} {rest : List Leaf} (hs : segs[id]? = some s) (hend : k < s.mOffset + s.mSize)
    (hcut : cut = true → size + s.counted > endOffset)
    (he : e = droppedFrom segs endOffset (size + s.counted) (s.mOffset + s.mSize)
      (cut || decide (size + s.counted > endOffset)) rest) (hle : s.mOffset + s.mSize ≤ e) :
    k ≤ droppedFrom segs endOffset size k cut (⟨k, some id⟩ :: rest) ∧
      SplitAt (droppedFrom segs endOffset size k cut (⟨k, some id⟩ :: rest)) k s
        (s.shrunk endOffset size cut) ∧
      (droppedFrom segs endOffset size k cut (⟨k, some id⟩ :: rest) = e ∨
        e = s.mOffset + s.mSize ∧
          droppedFrom segs endOffset size k cut (⟨k, some id⟩ :: rest) ≤ e) := by
  have hbind : ((some id : Option Nat).bind fun id => segs[id]?) = some s := hs
  cases cut with
  | true =>
    -- the cut is behind: everything from `k` on is dropped
    have hgt := hcut rfl
    have he' : e = s.mOffset + s.mSize := he
    refine ⟨le_rfl, ⟨by simp, by simp, .inr ⟨le_rfl, ?_⟩⟩, .inr ⟨he', he' ▸ hend.le⟩⟩
    simp [Segment.shrunk, hgt]
  | false =>
    by_cases hgt : size + s.counted > endOffset
    · -- the segment that is cut keeps its memory
      have hd : droppedFrom segs endOffset size k false (⟨k, some id⟩ :: rest) =
          s.mOffset + s.mSize := by
        simp [droppedFrom, keptEndFrom, hbind, hgt]
      rw [hd]
      refine ⟨hend.le, ⟨by simp, by simp, .inl ⟨le_rfl, ?_⟩⟩, .inl ?_⟩
      · simp [Segment.shrunk, hgt]
      · simp [he, droppedFrom, hgt]
    · have hd : droppedFrom segs endOffset size k false (⟨k, some id⟩ :: rest) = e := by
        simp [he, droppedFrom, keptEndFrom, hbind, hgt]
      rw [hd]
      refine ⟨hend.le.trans hle, ⟨by simp, by simp, .inl ⟨hle, ?_⟩⟩, .inl rfl⟩
      simp [Segment.shrunk, hgt]

/-- The segments before the place keep their memory, the ones behind it lose it. -/
theorem Walked.splits {segs segs' : List Segment} {endOffset size : Int} {cut : Bool}
    {S : List Leaf} (hw : Walked segs segs' endOffset size cut S) : ∀ {alloc lo : Int},
    Chain segs alloc lo S →
    (∀ id ∈ treeIds S, ∀ s, segs[id]? = some s → 0 ≤ s.mBytes) →
    (cut = true → endOffset < size) →
    lo ≤ droppedFrom segs endOffset size lo cut S ∧
      ∀ k id s, ⟨k, some id⟩ ∈ S → segs[id]? = some s →
        ∃ s', segs'[id]? = some s' ∧ SplitAt (droppedFrom segs endOffset size lo cut S) k s s' := by
  induction hw with
  | @last size a cut =>
    intro alloc lo hc _ _
    obtain ⟨v, R, he⟩ := hc.head
    obtain rfl : a = lo := congrArg Leaf.key (List.cons.inj he).1
    refine ⟨?_, by simp⟩
    cases cut <;> exact le_rfl
  | @cons size k cut id s rest hs hs' hw ih =>
    intro alloc lo hc hbytes hcut
    cases hc with
    | @cons _ _ s₁ _ hs₁ hrest =>
    obtain rfl := Option.some.inj (hs.symm.trans hs₁.seg)
    have hoff := hs₁.offset_le
    have hend := hs₁.lt_end
    have hids : treeIds (⟨k, some id⟩ :: rest) = id :: treeIds rest := rfl
    have hpos : 0 < s.counted :=
      Segment.counted_pos (hbytes id (by simp [hids]) s hs) (by omega)
    obtain ⟨hle, htail⟩ := ih hrest (fun i hi => hbytes i (by simp [hids, hi])) (by
      intro hc
      rcases Bool.or_eq_true _ _ ▸ hc with hc | hc
      · have := hcut hc
        omega
      · exact of_decide_eq_true hc)
    obtain ⟨hlo, hhead, hfrom⟩ := droppedFrom_cons hs hend (fun hc => by
      have := hcut hc
      omega) rfl hle
    refine ⟨hlo, fun k' id' s' hm hs₂ => ?_⟩
    rcases List.mem_cons.mp hm with hm | hm
    · obtain ⟨rfl, rfl⟩ : k' = k ∧ id' = id := by simpa using hm
      obtain rfl := Option.some.inj (hs.symm.trans hs₂)
      exact ⟨_, hs', hhead⟩
    · obtain ⟨s'', hs'', hsp⟩ := htail k' id' s' hm hs₂
      refine ⟨s'', hs'', hsp.offset, hsp.size, ?_⟩
      rcases hfrom with hd | ⟨hee, hd⟩
      · rw [hd]
        exact hsp.memory
      · -- the cut is behind already, so no later segment keeps its memory
        have hk' : s.mOffset + s.mSize ≤ k' := hrest.key_ge _ hm
        obtain ⟨_, u, _, _, _, hu, _⟩ := hrest.split hm
        obtain rfl := Option.some.inj (hs₂.symm.trans hu.seg)
        have hlt := hu.lt_end
        rcases hsp.memory with ⟨h₁, -⟩ | ⟨-, h₂⟩
        · omega
        · exact .inr ⟨by omega, h₂⟩

theorem Chain.head_notMem {segs : List Segment} {alloc lo : Int} {id : Nat} {s : Segment}
    {rest : List Leaf} (hs : LeafOk segs lo id s)
    (h : Chain segs alloc (s.mOffset + s.mSize) rest) : id ∉ treeIds rest := by
  intro hid
  obtain ⟨k, s', hs', hm⟩ := h.segment_of_mem hid
  obtain rfl := Option.some.inj (hs.seg.symm.trans hs'.seg)
  exact absurd hs'.lt_end (not_lt.mpr (h.key_ge _ hm))

/-- The calls of `pmem_unmap` for a segment. -/
def Segment.unmaps (endOffset size : Int) (cut : Bool) (id : Nat) (s : Segment) : List Unmap :=
  if size + s.counted > endOffset ∧ cut = true then [⟨id, s.mData.isNone, s.mLength⟩] else []

namespace File
variable {f f' g : File} {endOffset size lo x : Int} {cut : Bool}

/-- What the loop makes of a file at a segment. -/
def shrinkSegment (endOffset size : Int) (cut : Bool) (f : File) (id : Nat) (s : Segment) : File :=
  { f.setSegment id (s.shrunk endOffset size cut) with
    unmaps := f.unmaps ++ s.unmaps endOffset size cut id }

@[simp] theorem shrinkSegment_segments (id : Nat) (s : Segment) :
    (shrinkSegment endOffset size cut f id s).segments =
      (f.setSegment id (s.shrunk endOffset size cut)).segments := rfl

theorem shrinkLoop_some {k : Int} {id : Nat} {s : Segment} {rest : List Leaf}
    (hs : f.segments[id]? = some s) :
    shrinkLoop endOffset (⟨k, some id⟩ :: rest) size cut f =
      shrinkLoop endOffset rest (size + s.counted)
        (cut || decide (size + s.counted > endOffset))
        (f.shrinkSegment endOffset size cut id s) := by
  have hcount : (if s.mBytes ≠ 0 then s.mBytes else s.mSize) = s.counted := rfl
  have hself : f.setSegment id s = f := by
    obtain ⟨hlt, hget⟩ := List.getElem?_eq_some_iff.mp hs
    unfold setSegment
    rw [← hget, List.set_getElem_self]
  conv_lhs => unfold shrinkLoop
  simp only [segment_eq hs, ok_bind, hcount, shrinkSegment, Segment.shrunk, Segment.unmaps]
  by_cases hgt : size + s.counted > endOffset
  · cases cut <;> simp [hgt, pmemUnmap, setSegment]
  · simp [hgt, hself]

/-- The loop comes to its end, and touches the segments of the leaves only. -/
theorem shrinkLoop_walks (endOffset : Int) {segs : List Segment} {alloc : Int} {S : List Leaf}
    (h : Chain segs alloc lo S) : ∀ (f : File) (size : Int) (cut : Bool),
    (∀ id ∈ treeIds S, f.segments[id]? = segs[id]?) →
    ∃ f', shrinkLoop endOffset S size cut f = .ok f' ∧ f'.mSegments = f.mSegments ∧
      SameMeta f f' ∧ (∀ i, i ∉ treeIds S → f'.segments[i]? = f.segments[i]?) ∧
      Walked segs f'.segments endOffset size cut S := by
  induction h with
  | last =>
    intro f size cut _
    exact ⟨f, rfl, rfl, ⟨rfl, rfl, rfl, rfl⟩, fun _ _ => rfl, .last⟩
  | @cons lo id s rest hs hrest ih =>
    intro f size cut hsegs
    have hids : treeIds (⟨lo, some id⟩ :: rest) = id :: treeIds rest := rfl
    have hid : id ∉ treeIds rest := Chain.head_notMem hs hrest
    have hseg : f.segments[id]? = some s := (hsegs id (by simp [hids])).trans hs.seg
    obtain ⟨f', he, ht, hm, hkeep, hw⟩ := ih (f.shrinkSegment endOffset size cut id s)
      (size + s.counted) (cut || decide (size + s.counted > endOffset)) (by
        intro i hi
        have hne : i ≠ id := fun he => hid (he ▸ hi)
        rw [shrinkSegment_segments, setSegment_ne hne]
        exact hsegs i (by simp [hids, hi]))
    -- the segment of this leaf is not touched again: no other leaf has it
    refine ⟨f', (shrinkLoop_some hseg).trans he, ht, ⟨hm.alloc, hm.used, hm.size, hm.segmentSize⟩,
      ?_, .cons hs.seg ?_ hw⟩
    · intro i hi
      rw [hids, List.mem_cons, not_or] at hi
      rw [hkeep i hi.2, shrinkSegment_segments, setSegment_ne hi.1]
    · rw [hkeep id hid, shrinkSegment_segments]
      exact setSegment_self hseg

theorem Layout.shrinkLoop_layout (h : f.Layout) (endOffset : Int) :
    ∃ f', shrinkLoop endOffset f.mSegments 0 false f = .ok f' ∧ f'.Layout ∧
      f'.mSegments = f.mSegments ∧ SameMeta f f' ∧
      (∀ i, i ∉ treeIds f.mSegments → f'.segments[i]? = f.segments[i]?) ∧
      Walked f.segments f'.segments endOffset 0 false f.mSegments := by
  obtain ⟨f', he, ht, hm, hkeep, hw⟩ := shrinkLoop_walks endOffset h.chain f 0 false
    fun _ _ => rfl
  refine ⟨f', he, ⟨?_⟩, ht, hm, hkeep, hw⟩
  rw [ht, hm.alloc]
  refine h.chain.congr fun id hid s hs hok => ?_
  obtain ⟨u, n, c, hu, hu'⟩ := hw.changed id hid
  obtain rfl := Option.some.inj (hs.symm.trans hu)
  exact ⟨_, hu', by simp, by simp, hok.shrunk _ _ _⟩

/-- Where the data that `truncate(endOffset)` drops starts. -/
def keptEnd (f : File) (endOffset : Int) : Int := keptEndFrom f.segments endOffset 0 0 f.mSegments

/-- The cells after the loop: what it drops reads as zero. -/
theorem Layout.shrinkLoop_cell (h : f.Layout) (endOffset : Int)
    (hbytes : ∀ id ∈ treeIds f.mSegments, ∀ s, f.segments[id]? = some s → 0 ≤ s.mBytes) :
    ∃ f', shrinkLoop endOffset f.mSegments 0 false f = .ok f' ∧ f'.Layout ∧ SameMeta f f' ∧
      ∀ x, f'.cell x = if x < f.keptEnd endOffset then f.cell x else 0 := by
  obtain ⟨f', he, hL, ht, hm, -, hw⟩ := h.shrinkLoop_layout endOffset
  obtain ⟨he0, hsplit⟩ := hw.splits h.chain hbytes (by simp)
  have hd : droppedFrom f.segments endOffset 0 0 false f.mSegments = f.keptEnd endOffset := rfl
  rw [hd] at he0 hsplit
  refine ⟨f', he, hL, hm, fun x => ?_⟩
  by_cases hx0 : 0 ≤ x
  · by_cases hxa : x < f.mAllocOffset
    · obtain ⟨k, id, s, hk, hs, hkx, hxs⟩ := h.exists_leaf hx0 hxa
      obtain ⟨s', hs', hsp⟩ := hsplit k id s hk hs
      rw [hL.cell_eq (ht ▸ hk) hs' hkx (by rw [hsp.offset, hsp.size]; exact hxs),
        h.cell_eq hk hs hkx hxs, hsp.offset]
      rcases hsp.memory with ⟨hle, hmem⟩ | ⟨hle, hmem⟩
      · rw [if_pos (by omega), hmem]
      · rw [if_neg (by omega), hmem]
        rfl
    · rw [hL.cell_beyond (by rw [hm.alloc]; omega), h.cell_beyond (not_lt.mp hxa), ite_self]
  · rw [hL.cell_neg (not_le.mp hx0), h.cell_neg (not_le.mp hx0), ite_self]

/-- The segments tile the allocated part, and none counts more bytes than it has. -/
structure Tiled (f : File) : Prop where
  exact : f.Exact
  bytes : ∀ id ∈ treeIds f.mSegments, ∀ s, f.segments[id]? = some s → s.BytesOk

/-- What a shrinking `truncate` keeps: every segment it drops starts above `endOffset`,
the bytes below are the same, and the segments are as they have to be for the next one. -/
structure ShrinkKeeps (f : File) (endOffset : Int) (f' : File) : Prop where
  tiled : f'.Tiled
  tree : f'.mSegments = f.mSegments
  spared : ∀ id ∈ treeIds f.mSegments, ∃ s s', f.segments[id]? = some s ∧
    f'.segments[id]? = some s' ∧ Spared endOffset s s'
  cells : ∀ x, x < endOffset → f'.cell x = f.cell x

theorem Tiled.shrinkLoop (h : f.Tiled) (h0 : 0 ≤ endOffset) :
    ∃ f', shrinkLoop endOffset f.mSegments 0 false f = .ok f' ∧ SameMeta f f' ∧
      ShrinkKeeps f endOffset f' := by
  obtain ⟨f', he, hL, ht, hm, -, hw⟩ := h.exact.layout.shrinkLoop_layout endOffset
  have hspared := hw.spares h.exact.layout.chain (fun k id s hk hs => ⟨h.exact.offset hk hs,
    h.bytes id (List.mem_filterMap.mpr ⟨_, hk, rfl⟩) s hs⟩) le_rfl (by simp) fun _ => h0
  have hleaf : ∀ {k : Int} {id : Nat} {s : Segment}, ⟨k, some id⟩ ∈ f.mSegments →
      f.segments[id]? = some s → ∃ s', f'.segments[id]? = some s' ∧ Spared endOffset s s' := by
    intro k id s hk hs
    obtain ⟨u, s', hu, hs', hsp⟩ := hspared id (List.mem_filterMap.mpr ⟨_, hk, rfl⟩)
    obtain rfl := Option.some.inj (hs.symm.trans hu)
    exact ⟨s', hs', hsp⟩
  refine ⟨f', he, hm, ⟨⟨⟨hL, ?_⟩, ?_⟩, ht, hspared, ?_⟩⟩
  · intro k id s hk hs
    rw [ht] at hk
    obtain ⟨_, u, _, _, _, hu, _⟩ := h.exact.layout.chain.split hk
    obtain ⟨s', hs', hsp⟩ := hleaf hk hu.seg
    obtain rfl := Option.some.inj (hs.symm.trans hs')
    rw [hsp.offset, h.exact.offset hk hu.seg]
  · intro id hid s hs
    rw [ht] at hid
    obtain ⟨_, s', _, hs', hsp⟩ := hspared id hid
    obtain rfl := Option.some.inj (hs.symm.trans hs')
    exact hsp.bytes
  · intro x hx
    by_cases hx0 : 0 ≤ x
    · by_cases hxa : x < f.mAllocOffset
      · obtain ⟨k, id, s, hk, hs, hkx, hxs⟩ := h.exact.layout.exists_leaf hx0 hxa
        obtain ⟨s', hs', hsp⟩ := hleaf hk hs
        have hoff := h.exact.offset hk hs
        rw [h.exact.layout.cell_eq hk hs hkx hxs, hL.cell_eq (ht ▸ hk) hs' hkx (by
          rw [hsp.offset, hsp.size]
          exact hxs)]
        rcases hsp.memory with ⟨-, hd⟩ | hlt
        · rw [hd, hsp.offset]
        · -- a segment that starts above `endOffset` has no byte below it
          omega
      · rw [h.exact.layout.cell_beyond (not_lt.mp hxa), hL.cell_beyond (by rw [hm.alloc]; omega)]
    · rw [h.exact.layout.cell_neg (not_le.mp hx0), hL.cell_neg (not_le.mp hx0)]

/-- A `truncate` that takes the shrinking branch. -/
def ShrinkStep (cfg : Config) (f : File) (endOffset : Int) (f' : File) : Prop :=
  0 ≤ endOffset ∧ endOffset % 2 ^ 32 ≤ f.stSize % 2 ^ 32 ∧ f.truncate cfg endOffset = .ok f'

theorem Tiled.truncate (h : f.Tiled) (cfg : Config) (h0 : 0 ≤ endOffset)
    (hle : endOffset % 2 ^ 32 ≤ f.stSize % 2 ^ 32) :
    ∃ f', f.truncate cfg endOffset = .ok f' ∧ ShrinkKeeps f endOffset f' := by
  obtain ⟨f₁, he, -, hk⟩ := h.shrinkLoop h0
  refine ⟨{ f₁ with mUsedOffset := endOffset, stSize := endOffset }, ?_, ?_⟩
  · unfold File.truncate
    rw [if_neg (not_lt.mpr hle), he, ok_bind, pure_eq_ok]
  · exact ⟨⟨⟨⟨hk.tiled.exact.layout.chain⟩, hk.tiled.exact.offset⟩, hk.tiled.bytes⟩, hk.tree,
      hk.spared, hk.cells⟩

end File
end EchoFs.Nvml
