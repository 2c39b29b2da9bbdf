import EchoFs.Nvml.Shrink

/-! The address space under a shrinking `truncate`: the calls of `pmem_unmap` that the
loop makes, and when they leave the bytes below the new end where they are. -/

namespace EchoFs.Nvml
open Checked IntervalMap Transition

/-- Where the memory of the segments is mapped, where the address space ends, and what an
`m_length` holds that was never set. -/
structure Mappings where
  base : Nat → Nat
  taskSize : Nat
  unset : Nat → Nat

namespace Mappings

/-- The bytes of the pages that a length covers. -/
def pages (length : Nat) : Nat := (length + 4095) / 4096 * 4096

theorem le_pages (length : Nat) : length ≤ pages length := by
  unfold pages
  omega

def lengthOf (M : Mappings) (id : Nat) (mLength : Option Int) : Nat :=
  (mLength.map Int.toNat).getD (M.unset id)

def address (M : Mappings) (u : Unmap) : Nat := if u.isNull = true then 0 else M.base u.id

/-- The call takes the page of `x` away: `munmap` wants an address at a page and a range
that stays in the address space. -/
def Unmaps (M : Mappings) (u : Unmap) (x : Nat) : Prop :=
  4096 ∣ M.address u ∧ M.address u + M.lengthOf u.id u.mLength ≤ M.taskSize ∧
    M.address u ≤ x ∧ x < M.address u + pages (M.lengthOf u.id u.mLength)

/-- The segments with memory are mapped in pages of their own. -/
def Maps (M : Mappings) (f : File) : Prop :=
  ∀ id id' s s', f.segments[id]? = some s → f.segments[id']? = some s' → id ≠ id' →
    s.mData ≠ none → s'.mData ≠ none →
    M.base id + pages (M.lengthOf id s.mLength) ≤ M.base id' ∨
      M.base id' + pages (M.lengthOf id' s'.mLength) ≤ M.base id

end Mappings

/-- What the loop counts for the segments of the leaves. -/
def countedSum (segs : List Segment) (P : List Leaf) : Int :=
  (P.map fun l => ((l.val.bind fun id => segs[id]?).map Segment.counted).getD 0).sum

@[simp] theorem countedSum_nil (segs : List Segment) : countedSum segs [] = 0 := rfl

theorem countedSum_cons {segs : List Segment} {id : Nat} {s : Segment} (hs : segs[id]? = some s)
    (k : Int) (P : List Leaf) :
    countedSum segs (⟨k, some id⟩ :: P) = s.counted + countedSum segs P := by
  simp [countedSum, hs]

/-- The sum stays behind the offsets. -/
theorem Chain.countedSum_le {segs : List Segment} {alloc : Int} {S : List Leaf} : ∀ {lo : Int},
    Chain segs alloc lo S →
    (∀ (k : Int) (id : Nat) (s : Segment), ⟨k, some id⟩ ∈ S → segs[id]? = some s →
      s.mOffset = k ∧ s.BytesOk) →
    ∀ {P R : List Leaf} {l : Leaf}, S = P ++ l :: R → lo + countedSum segs P ≤ l.key := by
  intro lo h
  induction h with
  | last =>
    intro _ P R l hS
    cases P with
    | nil => simp [← (List.cons.inj hS).1]
    | cons p P => simp at hS
  | @cons lo id s rest hs hrest ih =>
    intro hsegs P R l hS
    cases P with
    | nil => simp [← (List.cons.inj hS).1]
    | cons p P =>
      obtain ⟨rfl, hrest'⟩ := List.cons.inj hS
      have htail := ih (fun k' id' s' hm => hsegs k' id' s' (List.mem_cons_of_mem _ hm)) hrest'
      obtain ⟨hoff, hbytes⟩ := hsegs lo id s List.mem_cons_self hs.seg
      have hend := hs.lt_end
      have hcount := hbytes.counted_le (show 0 < s.mSize by omega)
      rw [countedSum_cons hs.seg]
      omega

namespace File
variable {cfg : Config} {f f' g : File} {endOffset : Int} {M : Mappings}

/-- The segment behind the leaves `P` is unmapped. -/
structure Dropped (segs : List Segment) (endOffset size : Int) (S : List Leaf) (u : Unmap) :
    Prop where
  leaf : ∃ P k R, S = P ++ ⟨k, some u.id⟩ :: R ∧ endOffset < size + countedSum segs P
  segment : ∃ s, segs[u.id]? = some s ∧ u.isNull = s.mData.isNone ∧ u.mLength = s.mLength

theorem dropped_cons {segs : List Segment} {size k : Int} {id : Nat} {s : Segment}
    {rest : List Leaf} (hs : segs[id]? = some s) (u : Unmap) :
    Dropped segs endOffset size (⟨k, some id⟩ :: rest) u ↔
      (endOffset < size ∧ u = ⟨id, s.mData.isNone, s.mLength⟩) ∨
        Dropped segs endOffset (size + s.counted) rest u := by
  constructor
  · rintro ⟨⟨P, k', R, hS, hlt⟩, hu⟩
    cases P with
    | nil =>
      obtain ⟨hl, -⟩ := List.cons.inj hS
      obtain ⟨-, hid⟩ : k = k' ∧ id = u.id := by simpa using hl
      obtain ⟨s', hs', hnull, hlen⟩ := hu
      obtain rfl : s = s' := by simpa [hid, hs'] using hs.symm
      refine .inl ⟨by simpa using hlt, ?_⟩
      cases u
      simp_all
    | cons p P =>
      obtain ⟨rfl, hrest⟩ := List.cons.inj hS
      rw [countedSum_cons hs, ← add_assoc] at hlt
      exact .inr ⟨⟨P, k', R, hrest, hlt⟩, hu⟩
  · rintro (⟨hlt, rfl⟩ | ⟨⟨P, k', R, rfl, hlt⟩, hu⟩)
    · exact ⟨⟨[], k, rest, rfl, by simpa using hlt⟩, s, hs, rfl, rfl⟩
    · refine ⟨⟨⟨k, some id⟩ :: P, k', R, rfl, ?_⟩, hu⟩
      rw [countedSum_cons hs, ← add_assoc]
      exact hlt

/-- The calls of the loop, which has cut a segment once the sum is above `endOffset`. -/
theorem shrinkLoop_unmaps {segs : List Segment} {alloc lo : Int} {S : List Leaf}
    (h : Chain segs alloc lo S) (hpos : ∀ id ∈ treeIds S, ∀ s, segs[id]? = some s → 0 < s.counted) :
    ∀ (f : File) (size : Int), (∀ id ∈ treeIds S, f.segments[id]? = segs[id]?) →
    shrinkLoop endOffset S size (decide (endOffset < size)) f = .ok f' →
    ∃ l, f'.unmaps = f.unmaps ++ l ∧ ∀ u, u ∈ l ↔ Dropped segs endOffset size S u := by
  induction h with
  | @last =>
    intro f size _ he
    obtain rfl := Except.ok.inj he
    refine ⟨[], by simp, fun u => ⟨fun hu => (by cases hu), ?_⟩⟩
    rintro ⟨⟨P, k, R, hS, -⟩, -⟩
    cases P <;> simp at hS
  | @cons lo id s rest hs hrest ih =>
    intro f size hsegs he
    have hids : treeIds (⟨lo, some id⟩ :: rest) = id :: treeIds rest := rfl
    have hseg : f.segments[id]? = some s := (hsegs id (by simp [hids])).trans hs.seg
    have hcount := hpos id (by simp [hids]) s hs.seg
    have hcut : (decide (endOffset < size) || decide (size + s.counted > endOffset)) =
        decide (endOffset < size + s.counted) := by
      rw [Bool.eq_iff_iff]
      simp only [Bool.or_eq_true, decide_eq_true_eq]
      omega
    rw [shrinkLoop_some hseg, hcut] at he
    obtain ⟨l, hl, hmem⟩ := ih (fun i hi => hpos i (by simp [hids, hi])) _ _ (fun i hi => by
      have hne : i ≠ id := fun he => Chain.head_notMem hs hrest (he ▸ hi)
      rw [shrinkSegment_segments, setSegment_ne hne]
      exact hsegs i (by simp [hids, hi])) he
    refine ⟨s.unmaps endOffset size (decide (endOffset < size)) id ++ l, ?_, fun u => ?_⟩
    · rw [hl, shrinkSegment, List.append_assoc]
    · rw [List.mem_append, hmem, dropped_cons hs.seg]
      refine or_congr_left ?_
      unfold Segment.unmaps
      by_cases hlt : endOffset < size
      · rw [if_pos ⟨by omega, by simpa using hlt⟩]
        simp [hlt]
      · rw [if_neg fun hc => hlt (by simpa using hc.2)]
        simp [hlt]

/-- What a shrinking `truncate` keeps, and that its calls of `pmem_unmap` leave the bytes
below `endOffset` mapped. -/
structure DataMapped (M : Mappings) (f : File) (endOffset : Int) (f' : File) : Prop where
  keeps : ShrinkKeeps f endOffset f'
  mapped : ∀ id ∈ treeIds f.mSegments, ∀ s, f.segments[id]? = some s → s.mData ≠ none →
    ∀ k : Nat, k < s.mSize → s.mOffset + k < endOffset →
      ∀ u ∈ f'.unmaps.drop f.unmaps.length, ¬M.Unmaps u (M.base id + k)

/-- The segments behind the cut without memory: their lengths, from the null pointer on, do
not reach memory that holds a byte below `endOffset`. -/
def NullsStayBelow (M : Mappings) (f : File) (endOffset : Int) : Prop :=
  ∀ P k id R, f.mSegments = P ++ ⟨k, some id⟩ :: R → endOffset < countedSum f.segments P →
    ∀ s, f.segments[id]? = some s → s.mData = none → M.lengthOf id s.mLength ≤ M.taskSize →
      ∀ id' ∈ treeIds f.mSegments, ∀ s', f.segments[id']? = some s' → s'.mData ≠ none →
        s'.mOffset < endOffset → Mappings.pages (M.lengthOf id s.mLength) ≤ M.base id'

theorem Tiled.leaf (h : f.Tiled) {id : Nat} {s : Segment} (hid : id ∈ treeIds f.mSegments)
    (hs : f.segments[id]? = some s) :
    LeafOk f.segments s.mOffset id s ∧ s.BytesOk := by
  obtain ⟨k, s', hs', hk⟩ := h.exact.layout.chain.segment_of_mem hid
  obtain rfl := Option.some.inj (hs.symm.trans hs'.seg)
  obtain rfl := h.exact.offset hk hs
  exact ⟨hs', h.bytes id hid s hs⟩

theorem Tiled.mLength_eq (h : f.Tiled) {id : Nat} {s : Segment} (hid : id ∈ treeIds f.mSegments)
    (hs : f.segments[id]? = some s) (hmem : s.mData ≠ none) : s.mLength = some s.mSize := by
  obtain ⟨hleaf, -⟩ := h.leaf hid hs
  cases hgap : s.mIsGap with
  | true => exact absurd (hleaf.ok.gap hgap) hmem
  | false =>
    obtain ⟨-, -, hl⟩ := hleaf.ok.data hgap
    exact hl

theorem truncate_eq (hstep : ShrinkStep cfg f endOffset f') :
    ∃ f₁, File.shrinkLoop endOffset f.mSegments 0 false f = .ok f₁ ∧
      f' = { f₁ with mUsedOffset := endOffset, stSize := endOffset } := by
  obtain ⟨-, hle, he⟩ := hstep
  unfold File.truncate at he
  rw [if_neg (not_lt.mpr hle)] at he
  obtain ⟨f₁, hloop, he⟩ := bind_eq_ok.mp he
  exact ⟨f₁, hloop, (Except.ok.inj he).symm⟩

theorem Tiled.truncate_unmaps (h : f.Tiled) (hstep : ShrinkStep cfg f endOffset f') (u : Unmap) :
    u ∈ f'.unmaps.drop f.unmaps.length ↔ Dropped f.segments endOffset 0 f.mSegments u := by
  obtain ⟨f₁, he, rfl⟩ := truncate_eq hstep
  have hcut : decide (endOffset < 0) = false := by simpa using hstep.1
  rw [← hcut] at he
  obtain ⟨l, hl, hmem⟩ := shrinkLoop_unmaps h.exact.layout.chain (fun id hid s hs => by
    obtain ⟨hleaf, hbytes⟩ := h.leaf hid hs
    have := hleaf.lt_end
    exact (hbytes.counted_le (by omega)).1) f 0 (fun _ _ => rfl) he
  rw [hl, List.drop_left, hmem]

/-- A segment that is unmapped starts above `endOffset`. -/
theorem Tiled.dropped_above (h : f.Tiled) {u : Unmap}
    (hu : Dropped f.segments endOffset 0 f.mSegments u) :
    u.id ∈ treeIds f.mSegments ∧
      ∃ s, f.segments[u.id]? = some s ∧ endOffset < s.mOffset ∧ u.isNull = s.mData.isNone ∧
        u.mLength = s.mLength := by
  obtain ⟨⟨P, k, R, hS, hlt⟩, s, hs, hnull, hlen⟩ := hu
  have hmem : (⟨k, some u.id⟩ : Leaf) ∈ f.mSegments := by simp [hS]
  have hle := h.exact.layout.chain.countedSum_le (fun k' id' s' hm hs' =>
    ⟨h.exact.offset hm hs', h.bytes id' (List.mem_filterMap.mpr ⟨_, hm, rfl⟩) s' hs'⟩) hS
  refine ⟨List.mem_filterMap.mpr ⟨_, hmem, rfl⟩, s, hs, ?_, hnull, hlen⟩
  rw [h.exact.offset hmem hs]
  simp only at hle
  omega

theorem Tiled.dataMapped_iff (h : f.Tiled) (hM : M.Maps f) (hstep : ShrinkStep cfg f endOffset f')
    (hk : ShrinkKeeps f endOffset f') :
    DataMapped M f endOffset f' ↔ NullsStayBelow M f endOffset := by
  constructor
  · intro hd P k id R hS hlt s hs hnone hlen id' hid' s' hs' hmem' hoff
    have hu : (⟨id, true, s.mLength⟩ : Unmap) ∈ f'.unmaps.drop f.unmaps.length :=
      (h.truncate_unmaps hstep _).mpr
        ⟨⟨P, k, R, hS, by simpa using hlt⟩, s, hs, by simp [hnone], rfl⟩
    have hpos := (h.leaf hid' hs').1.lt_end
    have hnot := hd.mapped id' hid' s' hs' hmem' 0 (by omega) (by simpa using hoff) _ hu
    by_contra hlow
    -- the first byte of the segment lies in the pages from address 0 on
    refine hnot ⟨by simp [Mappings.address], by simpa [Mappings.address] using hlen, ?_, ?_⟩
    · simp [Mappings.address]
    · simpa [Mappings.address] using hlow
  · refine fun hlow => ⟨hk, fun id hid s hs hmem k hksize hkend u hu hun => ?_⟩
    have hdrop := (h.truncate_unmaps hstep u).mp hu
    obtain ⟨huid, t, ht, habove, hnull, hlen⟩ := h.dropped_above hdrop
    obtain ⟨hdvd, htask, hlo, hhi⟩ := hun
    have hlength := h.mLength_eq hid hs hmem
    have hown : k < Mappings.pages (M.lengthOf id s.mLength) := by
      have := Mappings.le_pages (M.lengthOf id s.mLength)
      simp only [hlength, Mappings.lengthOf, Option.map_some, Option.getD_some] at this ⊢
      omega
    cases hdata : t.mData with
    | none =>
      obtain ⟨P, k', R, hS, hlt⟩ := hdrop.leaf
      have haddr : M.address u = 0 := by simp [Mappings.address, hnull, hdata]
      have := hlow P k' u.id R hS (by simpa using hlt) t ht hdata
        (by rw [haddr, hlen] at htask; omega) id hid s hs hmem (by omega)
      rw [haddr, hlen] at hhi
      omega
    | some d =>
      -- memory of its own: another segment than one with a byte below the new end
      have haddr : M.address u = M.base u.id := by simp [Mappings.address, hnull, hdata]
      have hne : u.id ≠ id := by
        intro heq
        rw [heq] at ht
        obtain rfl := Option.some.inj (ht.symm.trans hs)
        omega
      have := hM u.id id t s ht hs hne (by simp [hdata]) hmem
      rw [haddr] at hlo
      rw [haddr, hlen] at hhi
      omega

/-- A shrinking `truncate` maps nothing. -/
theorem Tiled.maps_truncate (h : f.Tiled) (hM : M.Maps f) (hstep : ShrinkStep cfg f endOffset f') :
    M.Maps f' := by
  obtain ⟨f₁, he, rfl⟩ := truncate_eq hstep
  obtain ⟨f₂, he', -, -, -, hkeep, hw⟩ := h.exact.layout.shrinkLoop_layout endOffset
  obtain rfl := Except.ok.inj (he'.symm.trans he)
  have hold : ∀ (id : Nat) (s' : Segment), f₂.segments[id]? = some s' → s'.mData ≠ none →
      ∃ s, f.segments[id]? = some s ∧ s.mData ≠ none ∧ s'.mLength = s.mLength := by
    intro id s' hs' hmem
    by_cases hid : id ∈ treeIds f.mSegments
    · obtain ⟨s, n, c, hs, hshrunk⟩ := hw.changed id hid
      obtain rfl := Option.some.inj (hs'.symm.trans hshrunk)
      exact ⟨s, hs, fun hnone => hmem (Segment.shrunk_mData_none hnone), by simp⟩
    · exact ⟨s', (hkeep id hid).symm.trans hs', hmem, rfl⟩
  intro id id' s s' hs hs' hne hmem hmem'
  obtain ⟨t, ht, htmem, htlen⟩ := hold id s hs hmem
  obtain ⟨t', ht', htmem', htlen'⟩ := hold id' s' hs' hmem'
  rw [htlen, htlen']
  exact hM id id' t t' ht ht' hne htmem htmem'

/-- The segments one after the other in the upper half of an address space of 2^47 bytes; an
`m_length` that was never set holds `n`. -/
def upperHalf (n : Nat) : Mappings where
  base id := 2 ^ 46 + id * 2 ^ 40
  taskSize := 2 ^ 47 - 4096
  unset _ := n

/-- A byte at 0 and one at 100000, with a gap between them. -/
def gapFile : File where
  segments := [
    { Segment.new 0 8192 false with mData := some (Memory.overwrite (fun _ => 0) 0 [7]) },
    .new 8192 90112 true,
    { Segment.new 98304 16384 false with mData := some (Memory.overwrite (fun _ => 0) 1696 [8]) }]
  mSegments := [⟨0, some 0⟩, ⟨8192, some 1⟩, ⟨98304, some 2⟩, ⟨114688, none⟩]
  mAllocOffset := 114688
  mUsedOffset := 100001
  stSize := 100001
  mSegmentSize := 16384
  unmaps := []

set_option maxRecDepth 60000 in
theorem gapFile_written : (create.putData .default 0 [7]).bind
    (fun f => f.putData .default 100000 [8]) = .ok gapFile := by
  rfl

theorem gapFile_tiled : gapFile.Tiled where
  exact := by
    refine ⟨⟨.cons ⟨rfl, by decide, by decide, ⟨by simp [Segment.new], fun _ => ⟨_, rfl, rfl⟩⟩⟩
      (.cons ⟨rfl, by decide, by decide, segOk_new _ _ _⟩
        (.cons ⟨rfl, by decide, by decide, ⟨by simp [Segment.new], fun _ => ⟨_, rfl, rfl⟩⟩⟩
          .last))⟩, ?_⟩
    intro k id s hm hs
    have hor : k = 0 ∧ id = 0 ∨ k = 8192 ∧ id = 1 ∨ k = 98304 ∧ id = 2 := by
      simpa [gapFile] using hm
    rcases hor with ⟨rfl, rfl⟩ | ⟨rfl, rfl⟩ | ⟨rfl, rfl⟩ <;>
      exact congrArg Segment.mOffset (Option.some.inj hs).symm
  bytes := by
    intro id hid s hs
    have hor : id = 0 ∨ id = 1 ∨ id = 2 := by simpa [gapFile, treeIds] using hid
    rcases hor with rfl | rfl | rfl <;>
      · obtain rfl := Option.some.inj hs
        exact ⟨by decide, by decide⟩

theorem gapFile_maps (n : Nat) : (upperHalf n).Maps gapFile := by
  intro id id' s s' hs hs' hne hmem hmem'
  have hlength : ∀ (i : Nat) (t : Segment), gapFile.segments[i]? = some t → t.mData ≠ none →
      (i = 0 ∧ t.mLength = some 8192) ∨ (i = 2 ∧ t.mLength = some 16384) := by
    intro i t ht hmem
    match i, ht with
    | 0, ht => exact .inl ⟨rfl, (congrArg Segment.mLength (Option.some.inj ht)).symm⟩
    | 1, ht => exact absurd (congrArg Segment.mData (Option.some.inj ht)).symm hmem
    | 2, ht => exact .inr ⟨rfl, (congrArg Segment.mLength (Option.some.inj ht)).symm⟩
    | i + 3, ht => simp [gapFile] at ht
  rcases hlength id s hs hmem with ⟨rfl, hl⟩ | ⟨rfl, hl⟩ <;>
    rcases hlength id' s' hs' hmem' with ⟨rfl, hl'⟩ | ⟨rfl, hl'⟩ <;>
    first
    | exact absurd rfl hne
    | simp [hl, hl', Mappings.lengthOf, Mappings.pages, upperHalf]

end File
end EchoFs.Nvml
