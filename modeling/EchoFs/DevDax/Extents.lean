import EchoFs.DevDax.Ledger
import EchoFs.Nvml.Bounds

/-! Where a file keeps its bytes: whatever the calls do, a leaf of the tree stands for
offsets of its segment, so that a read meets the memory of the segments of the file and
nothing else. -/

namespace EchoFs.DevDax
open Checked Nvml IntervalMap

/-- The tree starts at 0, and a segment that it gives for an offset may hold it. -/
structure Tree (P : Nat → Int → Prop) (t : List Leaf) : Prop where
  sorted : Sorted t
  head : t.head?.map Leaf.key = some 0
  value : ∀ {id x}, IntervalMap.value t x = some (some id) → P id x

section Tree
variable {P Q : Nat → Int → Prop} {t : List Leaf}

theorem Tree.mono (h : Tree P t) (hPQ : ∀ id x, P id x → Q id x) : Tree Q t :=
  ⟨h.sorted, h.head, fun hv => hPQ _ _ (h.value hv)⟩

theorem Tree.insert (h : Tree P t) {lo : Int} (hlo : 0 ≤ lo) (hi : Int) (i : Nat) :
    Tree (fun id x => if lo ≤ x ∧ x < hi then id = i else P id x)
      (IntervalMap.insert t lo hi (some i)) := by
  by_cases hlt : lo < hi
  · obtain ⟨a, ha, ha0⟩ := Option.map_eq_some_iff.mp h.head
    obtain ⟨L, M, R, w, hsplits⟩ :=
      h.sorted.splits hlt ⟨a, List.mem_of_mem_head? ha, ha0.le.trans hlo⟩
    refine ⟨sorted_insert h.sorted hlt hsplits, head_insert hlt hsplits h.head hlo, ?_⟩
    intro id x hv
    rw [value_insert hlt hsplits] at hv
    split_ifs at hv ⊢ with hx
    · exact (Option.some.inj (Option.some.inj hv)).symm
    · exact h.value hv
  · have hsame : IntervalMap.insert t lo hi (some i) = t := if_pos (not_lt.mp hlt)
    rw [hsame]
    refine h.mono fun id x hp => ?_
    rw [if_neg fun hx => hlt (hx.1.trans_lt hx.2)]
    exact hp

end Tree

def Segment.Holds (s : Segment) (x : Int) : Prop := s.mOffset ≤ x ∧ x < s.mOffset + s.mSize

/-- The segment neither starts nor ends at a negative offset. -/
def Segment.InRange (s : Segment) : Prop := 0 ≤ s.mOffset ∧ 0 ≤ s.mOffset + s.mSize

def Segment.extent (s : Segment) : Int × Int := (s.mOffset, s.mSize)

/-- The segment `id` holds the offset. -/
def At (segs : List Segment) (id : Nat) (x : Int) : Prop := ∃ s, segs[id]? = some s ∧ s.Holds x

/-- A leaf stands for offsets of its segment, and the file ends at no negative offset. -/
structure File.Placed (f : File) : Prop where
  tree : Tree (At f.segments) f.mSegments
  segs : ∀ s ∈ f.segments, s.InRange
  alloc : 0 ≤ f.mAllocOffset
  used : 0 ≤ f.mUsedOffset
  size : 0 ≤ f.stSize

structure SameSizes (f f' : File) : Prop where
  alloc : f'.mAllocOffset = f.mAllocOffset
  used : f'.mUsedOffset = f.mUsedOffset
  size : f'.stSize = f.stSize

variable {p p' : BigPool} {s s' : Segment} {f f' g : File}

theorem SameSizes.trans {f f' g : File} (h : SameSizes f f') (h' : SameSizes f' g) :
    SameSizes f g :=
  ⟨h'.alloc.trans h.alloc, h'.used.trans h.used, h'.size.trans h.size⟩

theorem placed_create : File.create.Placed where
  tree := by
    refine ⟨List.pairwise_singleton _ _, rfl, fun {id x} hv => ?_⟩
    obtain ⟨l, hl, hval⟩ := Option.map_eq_some_iff.mp hv
    have hmem := (mem_of_search hl).1
    rw [List.mem_singleton.mp hmem] at hval
    cases hval
  segs := by simp [File.create]
  alloc := le_rfl
  used := le_rfl
  size := le_rfl

/-- Nothing but the extents of the segments matters. -/
theorem File.Placed.congr (h : f.Placed)
    (hsegs : f'.segments.map Segment.extent = f.segments.map Segment.extent)
    (htree : f'.mSegments = f.mSegments) (hsame : SameSizes f f') : f'.Placed where
  tree := by
    rw [htree]
    refine h.tree.mono ?_
    rintro id x ⟨s, hs, hx⟩
    have hext : (f'.segments.map Segment.extent)[id]? = some s.extent := by
      rw [hsegs, List.getElem?_map, hs, Option.map_some]
    rw [List.getElem?_map] at hext
    obtain ⟨s', hs', he⟩ := Option.map_eq_some_iff.mp hext
    obtain ⟨ho, hn⟩ := Prod.mk.inj he
    exact ⟨s', hs', by rw [Segment.Holds, ho, hn]; exact hx⟩
  segs := by
    intro s' hs'
    have hext : s'.extent ∈ f.segments.map Segment.extent := hsegs ▸ List.mem_map_of_mem hs'
    obtain ⟨s, hs, he⟩ := List.mem_map.mp hext
    obtain ⟨ho, hn⟩ := Prod.mk.inj he
    have hr := h.segs s hs
    rw [Segment.InRange, ho, hn] at hr
    exact hr
  alloc := hsame.alloc ▸ h.alloc
  used := hsame.used ▸ h.used
  size := hsame.size ▸ h.size

theorem setSegment_extents {id : Nat} (hs : f.segments[id]? = some s)
    (he : s'.extent = s.extent) :
    (f.setSegment id s').segments.map Segment.extent = f.segments.map Segment.extent := by
  obtain ⟨hlt, rfl⟩ := List.getElem?_eq_some_iff.mp hs
  simp only [File.setSegment, List.map_set, he]
  rw [← List.getElem_map Segment.extent (h := by simpa using hlt), List.set_getElem_self]

theorem destroySegments_extents {keep : Nat → Bool} : ∀ {segs segs' : List Segment} {i : Nat}
    {p p' : BigPool}, destroySegments keep i p segs = .ok (p', segs') →
    segs'.map Segment.extent = segs.map Segment.extent := by
  intro segs
  induction segs with
  | nil =>
    intro segs' i p p' h
    obtain ⟨-, rfl⟩ := Prod.mk.inj (Except.ok.inj h)
    rfl
  | cons s segs ih =>
    intro segs' i p p' h
    obtain ⟨⟨q, t⟩, ht, h⟩ := bind_eq_ok.mp h
    obtain ⟨⟨q', rest⟩, hrest, h⟩ := bind_eq_ok.mp h
    obtain ⟨-, rfl⟩ := Prod.mk.inj (Except.ok.inj h)
    have hhead : t.extent = s.extent := by
      unfold Segment.destroyUnless at ht
      split_ifs at ht
      · rw [← (Prod.mk.inj (Except.ok.inj ht)).2]
      · unfold Segment.destroy at ht
        split at ht
        · rw [← (Prod.mk.inj (Except.ok.inj ht)).2]
        · obtain ⟨r, -, ht⟩ := bind_eq_ok.mp ht
          rw [← (Prod.mk.inj (Except.ok.inj ht)).2]
          rfl
    rw [List.map_cons, List.map_cons, hhead, ih hrest]

theorem File.Placed.release (h : f.Placed) (hr : f.release p = .ok (p', f')) : f'.Placed := by
  obtain ⟨⟨q, segs⟩, hd, hr⟩ := bind_eq_ok.mp hr
  obtain ⟨-, rfl⟩ := Prod.mk.inj (Except.ok.inj hr)
  exact h.congr (destroySegments_extents hd) rfl ⟨rfl, rfl, rfl⟩

/-- After the links a leaf stands for offsets of a segment that was linked, or for what it
did before. -/
theorem Tree.linkSegments {sl : List Nat} : ∀ {f : File} {P : Nat → Int → Prop},
    Tree P f.mSegments → (∀ s ∈ f.segments, s.InRange) → f.linkSegments sl = .ok f' →
    SameSizes f f' ∧ Tree (fun id x => At f.segments id x ∨
      P id x ∧ ∀ i ∈ sl, ¬At f.segments i x) f'.mSegments := by
  induction sl with
  | nil =>
    intro f P h _ hl
    obtain rfl := Except.ok.inj hl
    exact ⟨⟨rfl, rfl, rfl⟩, h.mono fun id x hp => .inr ⟨hp, by simp⟩⟩
  | cons i sl ih =>
    intro f P h hsegs hl
    unfold File.linkSegments at hl
    rw [List.foldlM_cons] at hl
    obtain ⟨g, hg, hl⟩ := bind_eq_ok.mp hl
    obtain ⟨s, hs, hg⟩ := bind_eq_ok.mp hg
    obtain rfl := Except.ok.inj hg
    have hs := segment_ok hs
    have hlo := (hsegs s (List.mem_of_getElem? hs)).1
    let g : File := { f with
      mSegments := IntervalMap.insert f.mSegments s.mOffset (s.mOffset + s.mSize) (some i) }
    have hg : Tree _ g.mSegments := h.insert hlo (s.mOffset + s.mSize) i
    have hl : g.linkSegments sl = .ok f' := hl
    obtain ⟨hsame, htree⟩ := ih hg hsegs hl
    refine ⟨⟨hsame.alloc, hsame.used, hsame.size⟩, htree.mono fun id x hp => ?_⟩
    rcases hp with hat | ⟨hp, hnot⟩
    · exact .inl hat
    · split_ifs at hp with hx
      · exact .inl ⟨s, hp ▸ hs, hx⟩
      · refine .inr ⟨hp, fun j hj => ?_⟩
        rcases List.mem_cons.mp hj with rfl | hj
        · rintro ⟨s', hs', hx'⟩
          obtain rfl := Option.some.inj (hs.symm.trans hs')
          exact hx hx'
        · exact hnot j hj

/-- If what the links leave of the tree fits, each leaf stands for offsets of its segment. -/
theorem Tree.links {P : Nat → Int → Prop} {sl : List Nat} (h : Tree P f.mSegments)
    (hsegs : ∀ s ∈ f.segments, s.InRange) (hl : f.linkSegments sl = .ok f')
    (hP : ∀ id x, P id x → (∀ i ∈ sl, ¬At f.segments i x) → At f.segments id x) :
    SameSizes f f' ∧ Tree (At f'.segments) f'.mSegments ∧ ∀ s ∈ f'.segments, s.InRange := by
  obtain ⟨hsame, htree⟩ := h.linkSegments hsegs hl
  rw [linkSegments_keeps hl]
  refine ⟨hsame, htree.mono fun i x hp => ?_, hsegs⟩
  rcases hp with hat | ⟨hp, hnot⟩
  · exact hat
  · exact hP i x hp hnot

/-- A gap is added behind the segments, unless it is empty. -/
structure Adds (f : File) (offset size : Int) (g : File) (sl : List Nat) : Prop where
  tree : g.mSegments = f.mSegments
  same : SameSizes f g
  keeps : ∀ {i : Nat} {s : Segment}, f.segments[i]? = some s → g.segments[i]? = some s
  segs : ∀ s ∈ g.segments, s ∈ f.segments ∨ s.mOffset = offset ∧ s.mSize = size
  covers : ∀ x, offset ≤ x → x < offset + size → ∃ i ∈ sl, At g.segments i x

theorem getElem?_append_some {segs : List Segment} {i : Nat} (N : List Segment)
    (hs : segs[i]? = some s) : (segs ++ N)[i]? = some s := by
  rw [List.getElem?_append_left (List.getElem?_eq_some_iff.mp hs).1, hs]

theorem addGap_adds (cfg : Settings) (f : File) (offset size : Int) :
    Adds f offset size (f.addGap cfg offset size).1 (f.addGap cfg offset size).2 := by
  unfold File.addGap
  split_ifs with hsize
  · refine ⟨rfl, ⟨rfl, rfl, rfl⟩, fun hs => getElem?_append_some _ hs, fun s hs => ?_,
      fun x hx hx' => ?_⟩
    · rcases List.mem_append.mp hs with hs | hs
      · exact .inl hs
      · rw [List.mem_singleton.mp hs]
        exact .inr ⟨rfl, rfl⟩
    · exact ⟨f.segments.length, List.mem_singleton_self _, _, List.getElem?_concat_length, hx, hx'⟩
  · refine ⟨rfl, ⟨rfl, rfl, rfl⟩, fun hs => hs, fun s hs => .inl hs, fun x hx hx' => ?_⟩
    omega

theorem At.mono {segs segs' : List Segment}
    (h : ∀ {i : Nat} {s : Segment}, segs[i]? = some s → segs'[i]? = some s) {id : Nat} {x : Int}
    (hat : At segs id x) : At segs' id x := by
  obtain ⟨s, hs, hx⟩ := hat
  exact ⟨s, h hs, hx⟩

section Calls
variable {cfg : Settings} {rangeStart rangeEnd reqSize offset size : Int}
  {regions regions' : List Region}

theorem allocate_extent (h : s.allocate p offset size = .ok (p', s')) :
    s'.mOffset = offset ∧ s'.mSize = size := by
  obtain ⟨_, _, h⟩ := bind_eq_ok.mp h
  obtain ⟨⟨q, data⟩, _, h⟩ := bind_eq_ok.mp h
  rw [← (Prod.mk.inj (Except.ok.inj h)).2]
  exact ⟨rfl, rfl⟩

theorem new_extent (h : Segment.new p offset size = .ok (p', s)) :
    s.mOffset = offset ∧ s.mSize = size := by
  obtain ⟨⟨q, data⟩, _, h⟩ := bind_eq_ok.mp h
  rw [← (Prod.mk.inj (Except.ok.inj h)).2]
  exact ⟨rfl, rfl⟩

/-- Memory in the middle of a gap between two new gaps: each leaf stands for offsets of its
own segment. -/
theorem File.Placed.replaceGap {t : Segment} {k u v : File} {id : Nat} {sl sl' : List Nat}
    (h : f.Placed) (hs : f.segments[id]? = some s) (htr : t.InRange)
    (hfront : Adds (f.setSegment id t) s.mOffset (t.mOffset - s.mOffset) u sl)
    (hback : Adds u (t.mOffset + t.mSize) (s.mOffset + s.mSize - (t.mOffset + t.mSize)) v sl')
    (hk : v.linkSegments (sl ++ sl') = .ok k) : k.Placed := by
  have hsr := h.segs s (List.mem_of_getElem? hs)
  have hid : id < f.segments.length := (List.getElem?_eq_some_iff.mp hs).1
  have hsegs : ∀ s' ∈ v.segments, s'.InRange := by
    intro s' hs'
    rcases hback.segs s' hs' with hs' | ⟨ho, hn⟩
    · rcases hfront.segs s' hs' with hs' | ⟨ho, hn⟩
      · rcases List.mem_or_eq_of_mem_set hs' with hs' | rfl
        · exact h.segs s' hs'
        · exact htr
      · have := htr.1
        exact ⟨ho ▸ hsr.1, by rw [ho, hn]; omega⟩
    · have := hsr.2
      exact ⟨ho ▸ htr.2, by rw [ho, hn]; omega⟩
  have htree : Tree (At f.segments) v.mSegments := by
    rw [hback.tree, hfront.tree]
    exact h.tree
  have hleft : ∀ i x, At f.segments i x → (∀ j ∈ sl ++ sl', ¬At v.segments j x) →
      At v.segments i x := by
    rintro i x ⟨s₁, hs₁, hx₁⟩ hnot
    by_cases hi : i = id
    · -- what is left of the gap lies in neither of the new gaps
      subst hi
      obtain rfl := Option.some.inj (hs.symm.trans hs₁)
      refine ⟨t, hback.keeps (hfront.keeps (List.getElem?_set_self hid)), ?_, ?_⟩
      · by_contra hlt
        obtain ⟨j, hj, hat⟩ := hfront.covers x hx₁.1 (by omega)
        exact hnot j (List.mem_append_left _ hj) (hat.mono hback.keeps)
      · by_contra hge
        obtain ⟨j, hj, hat⟩ := hback.covers x (by omega) (by have := hx₁.2; omega)
        exact hnot j (List.mem_append_right _ hj) hat
    · exact ⟨s₁, hback.keeps (hfront.keeps ((List.getElem?_set_ne (Ne.symm hi)).trans hs₁)), hx₁⟩
  obtain ⟨hlink, htree', hsegs'⟩ := htree.links hsegs hk hleft
  have hsame := (hfront.same.trans hback.same).trans hlink
  exact ⟨htree', hsegs', hsame.alloc.symm ▸ h.alloc, hsame.used.symm ▸ h.used,
    hsame.size.symm ▸ h.size⟩

theorem File.Placed.allocateGap {id : Nat} {delta : Int} (h : f.Placed)
    (hs : f.segments[id]? = some s) (h0 : 0 ≤ rangeStart) (hend : 0 ≤ rangeStart + reqSize)
    (ha : f.allocateGap cfg p id s rangeStart reqSize = .ok (p', f', s', delta)) : f'.Placed := by
  obtain ⟨⟨q, t⟩, ht, ha⟩ := bind_eq_ok.mp ha
  dsimp only at ha
  obtain ⟨k, hk, ha⟩ := bind_eq_ok.mp ha
  obtain ⟨⟨q', k'⟩, hr, ha⟩ := bind_eq_ok.mp ha
  simp only [pure_eq_ok, Except.ok.injEq, Prod.mk.injEq] at ha
  obtain ⟨-, rfl, -⟩ := ha
  refine File.Placed.release ?_ hr
  obtain ⟨hoff, hsize⟩ := allocate_extent ht
  have hlo : 0 ≤ align rangeStart cfg.segmentSize := align_nonneg h0 _
  have hx := xalign_nonneg hend cfg.segmentSize
  have hsr := h.segs s (List.mem_of_getElem? hs)
  have htr : t.InRange := by
    refine ⟨hoff ▸ hlo, ?_⟩
    rw [hoff, hsize]
    split_ifs
    · omega
    · have := hsr.2
      omega
  have htend : align rangeStart cfg.segmentSize + t.mSize = t.mOffset + t.mSize := by rw [hoff]
  rw [← hsize, htend, ← hoff] at hk
  exact h.replaceGap hs htr (addGap_adds ..) (addGap_adds ..) hk

theorem File.Placed.segmentFor {allocGaps : Bool} {id : Nat} {delta : Int} (h : f.Placed)
    (hs : f.segments[id]? = some s) (h0 : 0 ≤ rangeStart) (hend : 0 ≤ rangeStart + reqSize)
    (ha : f.segmentFor cfg allocGaps p id s rangeStart reqSize = .ok (p', f', s', delta)) :
    f'.Placed := by
  unfold File.segmentFor at ha
  split_ifs at ha
  · exact h.allocateGap hs h0 hend ha
  · simp only [pure_eq_ok, Except.ok.injEq, Prod.mk.injEq] at ha
    obtain ⟨-, rfl, -⟩ := ha
    exact h

/-- Induction over the rounds; what is left of the request ends where the range ends. -/
theorem File.Placed.lookupLoop {allocGaps : Bool} (hr : 0 ≤ rangeEnd) : ∀ {fuel : Nat}
    {p : BigPool} {f : File} {leaf : Leaf} {rangeStart reqSize : Int} {regions : List Region},
    f.Placed → 0 ≤ rangeStart → rangeStart + reqSize = rangeEnd →
    f.lookupLoop cfg allocGaps rangeEnd fuel p leaf rangeStart reqSize regions =
      .ok (p', f', regions') → f'.Placed := by
  intro fuel
  induction fuel with
  | zero =>
    intro p f leaf rangeStart reqSize regions _ _ _ h
    cases h
  | succ fuel ih =>
    intro p f leaf rangeStart reqSize regions hf h0 hend h
    unfold File.lookupLoop at h
    cases hv : leaf.val with
    | none =>
      rw [hv] at h
      simp only [pure_eq_ok, Except.ok.injEq, Prod.mk.injEq] at h
      obtain ⟨-, rfl, -⟩ := h
      exact hf
    | some id =>
      rw [hv] at h
      obtain ⟨s, hs, h⟩ := bind_eq_ok.mp h
      obtain ⟨_, _, h⟩ := bind_eq_ok.mp h
      obtain ⟨⟨q, g, t, delta⟩, hseg, h⟩ := bind_eq_ok.mp h
      have hs := segment_ok hs
      have hg := hf.segmentFor hs h0 (by omega) hseg
      dsimp only at h
      split at h
      · simp only [pure_eq_ok, Except.ok.injEq, Prod.mk.injEq] at h
        obtain ⟨-, rfl, -⟩ := h
        exact hg
      · split at h
        · cases h
        · exact ih hg (hf.segs s (List.mem_of_getElem? hs)).2 (by omega) h

theorem File.Placed.lookupSegments (h : f.Placed)
    (hk : f.lookupSegments cfg p rangeStart rangeEnd = .ok (p', f', regions')) : f'.Placed := by
  obtain ⟨_, h0, hk⟩ := bind_eq_ok.mp hk
  obtain ⟨_, hle, hk⟩ := bind_eq_ok.mp hk
  have h0 := of_check h0
  have hle := of_check hle
  unfold File.lookupHelper at hk
  split_ifs at hk
  · simp only [pure_eq_ok, Except.ok.injEq, Prod.mk.injEq] at hk
    obtain ⟨-, rfl, -⟩ := hk
    exact h
  · split at hk
    · cases hk
    · exact h.lookupLoop (h0.trans hle) h0 (by omega) hk

theorem File.Placed.extendAlloc (h : f.Placed) (hend : 0 ≤ offset + size)
    (he : f.extendAlloc cfg p offset size regions = .ok (p', f', regions')) : f'.Placed := by
  obtain ⟨_, _, he⟩ := bind_eq_ok.mp he
  obtain ⟨_, _, he⟩ := bind_eq_ok.mp he
  dsimp only at he
  obtain ⟨⟨q, t⟩, ht, he⟩ := bind_eq_ok.mp he
  dsimp only at he
  obtain ⟨k, hk, he⟩ := bind_eq_ok.mp he
  obtain ⟨⟨q', k'⟩, hr, he⟩ := bind_eq_ok.mp he
  simp only [pure_eq_ok, Except.ok.injEq, Prod.mk.injEq] at he
  obtain ⟨-, rfl, -⟩ := he
  obtain ⟨hoff, hsize⟩ := new_extent ht
  have halloc := h.alloc
  have hx := xalign_nonneg hend (min (f.mSegmentSize * 2 % 2 ^ 64) cfg.segmentSize)
  have hlo : 0 ≤ t.mOffset := by
    rw [hoff]
    split_ifs
    · exact halloc
    · exact align_nonneg (by omega) _
  have hhi : 0 ≤ t.mOffset + t.mSize := by
    rw [hsize, ← hoff]
    omega
  rw [← hoff] at hk
  generalize hg₁ : File.addGap cfg
    { f with mSegmentSize := min (f.mSegmentSize * 2 % 2 ^ 64) cfg.segmentSize } f.mAllocOffset
    (t.mOffset - f.mAllocOffset) = u at hk
  have hadd := addGap_adds cfg
    { f with mSegmentSize := min (f.mSegmentSize * 2 % 2 ^ 64) cfg.segmentSize } f.mAllocOffset
    (t.mOffset - f.mAllocOffset)
  rw [hg₁] at hadd
  have hsegs : ∀ s ∈ (u.1.addSegment t).1.segments, s.InRange := by
    intro s hs
    rcases List.mem_append.mp hs with hs | hs
    · rcases hadd.segs s hs with hs | ⟨ho, hn⟩
      · exact h.segs s hs
      · exact ⟨ho ▸ halloc, by rw [ho, hn]; omega⟩
    · rw [List.mem_singleton.mp hs]
      exact ⟨hlo, hhi⟩
  have htree : Tree (At f.segments) (u.1.addSegment t).1.mSegments := by
    change Tree (At f.segments) u.1.mSegments
    rw [hadd.tree]
    exact h.tree
  obtain ⟨hlink, htree', hsegs'⟩ := htree.links hsegs hk fun i x hat _ =>
    hat.mono fun hs => getElem?_append_some _ (hadd.keeps hs)
  have hadded : SameSizes u.1 k := ⟨hlink.alloc, hlink.used, hlink.size⟩
  have hsame := hadd.same.trans hadded
  have hplaced : File.Placed { k with mAllocOffset := t.mOffset + t.mSize } :=
    ⟨htree', hsegs', hhi, hsame.used.symm ▸ h.used, hsame.size.symm ▸ h.size⟩
  obtain ⟨⟨q'', segs⟩, hd, hr⟩ := bind_eq_ok.mp hr
  obtain ⟨-, rfl⟩ := Prod.mk.inj (Except.ok.inj hr)
  rw [← hsize, ← hoff]
  exact hplaced.congr (destroySegments_extents hd) rfl ⟨rfl, rfl, rfl⟩

theorem File.Placed.fetchStorage (h : f.Placed)
    (hf : f.fetchStorage cfg p offset size = .ok (p', f', regions')) : f'.Placed := by
  unfold File.fetchStorage at hf
  split_ifs at hf with hin
  · exact h.lookupSegments hf
  · obtain ⟨_, _, hf⟩ := bind_eq_ok.mp hf
    obtain ⟨⟨q, g, rs⟩, hg, hf⟩ := bind_eq_ok.mp hf
    have hplaced : g.Placed := by
      unfold File.lookupAllocated at hg
      split_ifs at hg
      · exact h.lookupSegments hg
      · simp only [pure_eq_ok, Except.ok.injEq, Prod.mk.injEq] at hg
        obtain ⟨-, rfl, -⟩ := hg
        exact h
    have halloc := h.alloc
    exact hplaced.extendAlloc (by omega) hf

theorem File.Placed.updateSize (h : f.Placed) (n : Int) : (f.updateSize n).Placed := by
  unfold File.updateSize
  split_ifs with hlt
  · have hn : 0 ≤ n := h.size.trans hlt.le
    exact ⟨h.tree, h.segs, h.alloc, hn, hn⟩
  · exact h

theorem File.Placed.allocate (h : f.Placed) (ha : f.allocate cfg p offset size = .ok (p', f')) :
    f'.Placed := by
  obtain ⟨⟨q, g, rs⟩, hg, ha⟩ := bind_eq_ok.mp ha
  obtain ⟨-, rfl⟩ := Prod.mk.inj (Except.ok.inj ha)
  exact (h.fetchStorage hg).updateSize _

end Calls

section Device
variable {β : Type} {cfg : Settings} {d d' : Device β}

theorem File.Placed.putData {start : Int} {buffer : List β} (h : f.Placed)
    (hp : f.putData cfg d start buffer = .ok (d', f')) : f'.Placed := by
  obtain ⟨⟨q, g, rs⟩, hg, hp⟩ := bind_eq_ok.mp hp
  obtain ⟨e, -, hp⟩ := bind_eq_ok.mp hp
  obtain ⟨-, rfl⟩ := Prod.mk.inj (Except.ok.inj hp)
  exact (h.fetchStorage hg).updateSize _

theorem File.Placed.shrinkLoop {endOffset : Int} {leaves : List Leaf} : ∀ {size : Int} {cut : Bool}
    {d : Device β} {f : File}, f.Placed →
    f.shrinkLoop cfg endOffset leaves size cut d = .ok (d', f') → f'.Placed := by
  induction leaves with
  | nil =>
    intro size cut d f hf h
    obtain ⟨-, rfl⟩ := Prod.mk.inj (Except.ok.inj h)
    exact hf
  | cons leaf rest ih =>
    intro size cut d f hf h
    unfold File.shrinkLoop at h
    cases hv : leaf.val with
    | none =>
      rw [hv] at h
      exact ih hf h
    | some id =>
      rw [hv] at h
      obtain ⟨s, hs, h⟩ := bind_eq_ok.mp h
      have hs := segment_ok hs
      have hset : ∀ (n : Int) (data : Option Nat) (isGap : Bool), (f.setSegment id
          { s with mBytes := n, mData := data, mIsGap := isGap }).Placed := fun n data isGap =>
        hf.congr (setSegment_extents hs rfl) rfl ⟨rfl, rfl, rfl⟩
      dsimp only at h
      generalize (size + if s.mBytes ≠ 0 then s.mBytes else s.mSize) = total at h
      split_ifs at h
      · exact ih (hset _ s.mData s.mIsGap) h
      · exact ih (hset s.mBytes none true) h
      · exact ih hf h

theorem File.Placed.truncate {endOffset : Int} (h : f.Placed) (h0 : 0 ≤ endOffset)
    (ht : f.truncate cfg d endOffset = .ok (d', f')) : f'.Placed := by
  unfold File.truncate at ht
  split_ifs at ht
  · obtain ⟨⟨q, g⟩, hg, ht⟩ := bind_eq_ok.mp ht
    obtain ⟨-, rfl⟩ := Prod.mk.inj (Except.ok.inj ht)
    exact h.allocate hg
  · obtain ⟨⟨e, g⟩, hg, ht⟩ := bind_eq_ok.mp ht
    obtain ⟨-, rfl⟩ := Prod.mk.inj (Except.ok.inj ht)
    have hg := h.shrinkLoop hg
    exact ⟨hg.tree, hg.segs, hg.alloc, h0, h0⟩

theorem placed_preload [Zero β] {content : List β} (hp : File.preload d content = .ok (d', f)) :
    f.Placed := by
  obtain ⟨⟨q, s⟩, hs, hp⟩ := bind_eq_ok.mp hp
  dsimp only at hp
  obtain ⟨g, hg, hp⟩ := bind_eq_ok.mp hp
  obtain ⟨_, -, hp⟩ := bind_eq_ok.mp hp
  obtain ⟨_, -, hp⟩ := bind_eq_ok.mp hp
  obtain ⟨-, rfl⟩ := Prod.mk.inj (Except.ok.inj hp)
  obtain ⟨hoff, hsize⟩ := new_extent hs
  have hx := xalign_nonneg (show (0 : Int) ≤ content.length by omega) File.create.mSegmentSize
  have hsegs : ∀ t ∈ (File.create.addSegment s).1.segments, t.InRange := by
    intro t ht
    rw [List.mem_singleton.mp ht]
    exact ⟨hoff.ge, by omega⟩
  have htree : Tree (At File.create.segments) (File.create.addSegment s).1.mSegments :=
    placed_create.tree
  obtain ⟨-, htree', hsegs'⟩ := htree.links hsegs hg fun i x ⟨_, ht, _⟩ _ => by
    simp [File.create] at ht
  have hlen : (0 : Int) ≤ content.length := by omega
  have hsize0 : 0 ≤ s.mSize := by omega
  have hplaced : File.Placed { g with
      mAllocOffset := s.mSize, mUsedOffset := content.length, stSize := content.length } :=
    ⟨htree', hsegs', hsize0, hlen, hlen⟩
  have hseg : g.segments[0]? = some s := by
    rw [linkSegments_keeps hg]
    rfl
  have hset : (g.setSegment 0 { s with mBytes := content.length }).segments.map Segment.extent =
      g.segments.map Segment.extent := setSegment_extents hseg rfl
  exact hplaced.congr hset rfl ⟨rfl, rfl, rfl⟩

end Device

/-! Where a read finds its bytes. -/

section Reads
variable {cfg : Settings} {rangeStart rangeEnd : Int} {regions regions' : List Region}

/-- The address `x` belongs to a byte of the file below its end: it lies in the memory of a
segment of the tree. -/
def File.Backs (f : File) (x : Int) : Prop :=
  ∃ id ∈ treeIds f.mSegments, ∃ s, f.segments[id]? = some s ∧ s.mIsGap = false ∧
    ∃ o, s.Holds o ∧ o < f.mUsedOffset ∧ x = (s.mData.getD 0 : Nat) + (o - s.mOffset)

/-- A region of a size that can be copied consists of bytes of the file. -/
def File.BacksRegion (f : File) (r : Region) : Prop :=
  ∀ a, r.addr = some a → toSize r.size < 2 ^ 63 →
    ∀ x, a ≤ x → x < a + toSize r.size → f.Backs x

theorem offsetPtr_some {data : Option Nat} {delta a : Int} (h : offsetPtr data delta = some a) :
    a = (data.getD 0 : Nat) + delta := by
  unfold offsetPtr at h
  cases data with
  | none =>
    split_ifs at h
    simpa using h.symm
  | some n => exact (Option.some.inj h).symm

theorem File.Placed.backs_region (h : f.Placed) {leaf : Leaf} {id : Nat} {reqSize : Int}
    (hleaf : leaf ∈ f.mSegments) (hv : leaf.val = some id) (hs : f.segments[id]? = some s)
    (hlo : s.mOffset ≤ rangeStart) (h0 : 0 ≤ rangeStart) (hlt : rangeStart < 2 ^ 63)
    (hend : rangeStart + reqSize ≤ f.mUsedOffset) (hend0 : 0 ≤ rangeStart + reqSize) :
    f.BacksRegion ⟨if s.mIsGap = true then none else offsetPtr s.mData (rangeStart - s.mOffset),
      min reqSize (s.mSize - (rangeStart - s.mOffset))⟩ := by
  intro a ha hsize x hx hx'
  have hid : id ∈ treeIds f.mSegments := List.mem_filterMap.mpr ⟨leaf, hleaf, hv⟩
  have hr := (h.segs s (List.mem_of_getElem? hs)).2
  -- the size of a region behind its segment wraps to more than can be copied
  have hnn : 0 ≤ min reqSize (s.mSize - (rangeStart - s.mOffset)) := by
    by_contra hneg
    dsimp only at hsize
    unfold toSize at hsize
    omega
  unfold toSize at hx'
  dsimp only at ha hx'
  split_ifs at ha with hgap
  have haddr := offsetPtr_some ha
  refine ⟨id, hid, s, hs, by simpa using hgap, x - (s.mData.getD 0 : Nat) + s.mOffset, ?_, ?_, ?_⟩
  · unfold Segment.Holds
    omega
  · omega
  · omega

/-- The next leaf starts where its segment starts or behind that, and not behind the end of
the segment before it. -/
theorem File.Placed.next_le (h : f.Placed) {leaf leaf' : Leaf} {id id' : Nat}
    (hleaf : leaf ∈ f.mSegments) (hv : leaf.val = some id) (hs : f.segments[id]? = some s)
    (hn : next f.mSegments leaf.key = some leaf') (hv' : leaf'.val = some id')
    (hs' : f.segments[id']? = some s') : s'.mOffset ≤ s.mOffset + s.mSize := by
  obtain ⟨hmem, hbefore⟩ := h.tree.sorted.value_before_next hleaf hn
  obtain ⟨t, ht, hx⟩ := h.tree.value (hbefore.trans (congrArg some hv))
  obtain rfl := Option.some.inj (hs.symm.trans ht)
  obtain ⟨t', ht', hx'⟩ := h.tree.value ((h.tree.sorted.value_key hmem).trans (congrArg some hv'))
  obtain rfl := Option.some.inj (hs'.symm.trans ht')
  have := hx.2
  have := hx'.1
  omega

/-- Induction over the rounds of a lookup that reads. -/
theorem File.Placed.lookupLoop_backs (h : f.Placed) (hr : 0 ≤ rangeEnd)
    (hused : rangeEnd ≤ f.mUsedOffset) (hlt : rangeEnd < 2 ^ 63) : ∀ {fuel : Nat} {leaf : Leaf}
    {rangeStart reqSize : Int} {regions : List Region}, leaf ∈ f.mSegments →
    (∀ id, leaf.val = some id → ∀ s, f.segments[id]? = some s → s.mOffset ≤ rangeStart) →
    0 ≤ rangeStart → rangeStart < 2 ^ 63 → rangeStart + reqSize = rangeEnd →
    (∀ r ∈ regions, f.BacksRegion r) →
    f.lookupLoop cfg false rangeEnd fuel p leaf rangeStart reqSize regions =
      .ok (p', f', regions') → ∀ r ∈ regions', f.BacksRegion r := by
  intro fuel
  induction fuel with
  | zero =>
    intro leaf rangeStart reqSize regions _ _ _ _ _ _ hk
    cases hk
  | succ fuel ih =>
    intro leaf rangeStart reqSize regions hleaf hlo h0 hst hend hregions hk
    unfold File.lookupLoop at hk
    cases hv : leaf.val with
    | none =>
      rw [hv] at hk
      simp only [pure_eq_ok, Except.ok.injEq, Prod.mk.injEq] at hk
      obtain ⟨-, -, rfl⟩ := hk
      exact hregions
    | some id =>
      rw [hv] at hk
      obtain ⟨s, hs, hk⟩ := bind_eq_ok.mp hk
      obtain ⟨_, _, hk⟩ := bind_eq_ok.mp hk
      obtain ⟨⟨q, g, t, delta⟩, hseg, hk⟩ := bind_eq_ok.mp hk
      have hs := segment_ok hs
      have hsame : p = q ∧ f = g ∧ s = t ∧ delta = rangeStart - s.mOffset := by
        unfold File.segmentFor at hseg
        rw [if_neg fun hc => Bool.false_ne_true hc.1] at hseg
        simp only [pure_eq_ok, Except.ok.injEq, Prod.mk.injEq] at hseg
        obtain ⟨rfl, rfl, rfl, rfl⟩ := hseg
        exact ⟨rfl, rfl, rfl, rfl⟩
      obtain ⟨rfl, rfl, rfl, rfl⟩ := hsame
      have hreq : rangeStart + reqSize ≤ f.mUsedOffset := by omega
      have hreq0 : 0 ≤ rangeStart + reqSize := by omega
      have hnew := h.backs_region hleaf hv hs (hlo id hv _ hs) h0 hst hreq hreq0
      have hall : ∀ r ∈ regions ++ [_], f.BacksRegion r := fun r hmem =>
        (List.mem_append.mp hmem).elim (hregions r) fun hm => List.mem_singleton.mp hm ▸ hnew
      dsimp only at hk
      split at hk
      · simp only [pure_eq_ok, Except.ok.injEq, Prod.mk.injEq] at hk
        obtain ⟨-, -, rfl⟩ := hk
        exact hall
      · split at hk
        · cases hk
        · rename_i hcont leaf' hn
          have hmem := (h.tree.sorted.value_before_next hleaf hn).1
          have hend0 := (h.segs _ (List.mem_of_getElem? hs)).2
          refine ih hmem (fun id' hv' s' hs' => h.next_le hleaf hv hs hn hv' hs') hend0 (by omega)
            (by omega) hall hk

theorem File.Placed.lookupData_backs (h : f.Placed) (hlt : rangeEnd < 2 ^ 63)
    (hk : f.lookupData cfg p rangeStart rangeEnd = .ok regions) :
    ∀ r ∈ regions, f.BacksRegion r := by
  obtain ⟨_, h0, hk⟩ := bind_eq_ok.mp hk
  obtain ⟨_, hle, hk⟩ := bind_eq_ok.mp hk
  have h0 := of_check h0
  have hle := of_check hle
  have hused := h.used
  dsimp only at hk
  obtain ⟨⟨q, g, rs⟩, hlookup, hrs⟩ := bind_eq_ok.mp hk
  obtain rfl := Except.ok.inj hrs
  clear hk hrs
  generalize he : (if rangeEnd > f.mUsedOffset then f.mUsedOffset else rangeEnd) = e at hlookup
  have he' : 0 ≤ e ∧ e ≤ f.mUsedOffset ∧ e ≤ rangeEnd := by
    split_ifs at he <;> omega
  unfold File.lookupHelper at hlookup
  split_ifs at hlookup
  · simp only [pure_eq_ok, Except.ok.injEq, Prod.mk.injEq] at hlookup
    obtain ⟨-, -, rfl⟩ := hlookup
    simp
  · cases hsearch : search f.mSegments rangeStart with
    | none =>
      rw [hsearch] at hlookup
      cases hlookup
    | some leaf =>
      rw [hsearch] at hlookup
      refine h.lookupLoop_backs he'.1 he'.2.1 (he'.2.2.trans_lt hlt) (mem_of_search hsearch).1 ?_ h0
        (hle.trans_lt hlt) (by omega) (by simp) hlookup
      intro id hv s hs
      have hvalue : value f.mSegments rangeStart = some (some id) := by
        unfold value
        rw [hsearch, Option.map_some, hv]
      obtain ⟨t, ht, hx⟩ := h.tree.value hvalue
      obtain rfl := Option.some.inj (hs.symm.trans ht)
      exact hx.1

end Reads

/-! Every file of the backend keeps its bytes so. -/

section Runs
variable {β : Type} [Zero β] {cfg : Settings} {sys sys' : System β} {op : Op β}

/-- The offsets that FUSE hands on: a new size is not negative, and a range ends at a value
of `off_t`. -/
def Op.Valid : Op β → Prop
  | .truncate _ endOffset => 0 ≤ endOffset
  | .getData _ start size => start + size < 2 ^ 63
  | _ => True

def System.Placed (sys : System β) : Prop := ∀ f, some f ∈ sys.files → f.Placed

omit [Zero β] in
theorem System.Placed.set (h : sys.Placed) (d : Device β) (i : Nat) {o : Option File}
    (ho : ∀ f, o = some f → f.Placed) : System.Placed ⟨d, sys.files.set i o⟩ := by
  intro f hf
  rcases List.mem_or_eq_of_mem_set hf with hf | hf
  · exact h f hf
  · exact ho f hf.symm

omit [Zero β] in
theorem System.Placed.add (h : sys.Placed) (d : Device β) (hf : f.Placed) :
    System.Placed ⟨d, sys.files ++ [some f]⟩ := by
  intro g hg
  rcases List.mem_append.mp hg with hg | hg
  · exact h g hg
  · obtain rfl := Option.some.inj (List.mem_singleton.mp hg)
    exact hf

omit [Zero β] in
theorem System.Placed.file {i : Nat} (h : sys.Placed) (hf : sys.file i = .ok f) : f.Placed :=
  h f (List.mem_of_getElem? (file_ok hf))

theorem System.Placed.exec {out : Option (Nat × ReadResult β)} (h : sys.Placed) (hv : op.Valid)
    (he : sys.exec cfg op = .ok (sys', out)) : sys'.Placed := by
  cases op with
  | create i =>
    obtain ⟨_, _, he⟩ := bind_eq_ok.mp he
    obtain ⟨rfl, _⟩ := Prod.mk.inj (Except.ok.inj he)
    exact h.add _ placed_create
  | preload i content =>
    obtain ⟨_, _, he⟩ := bind_eq_ok.mp he
    obtain ⟨⟨d, f⟩, hf, he⟩ := bind_eq_ok.mp he
    obtain ⟨rfl, _⟩ := Prod.mk.inj (Except.ok.inj he)
    exact h.add _ (placed_preload hf)
  | putData i start buffer =>
    obtain ⟨f, hf, he⟩ := bind_eq_ok.mp he
    obtain ⟨⟨d, g⟩, hg, he⟩ := bind_eq_ok.mp he
    obtain ⟨rfl, _⟩ := Prod.mk.inj (Except.ok.inj he)
    exact h.set _ i fun k hk => Option.some.inj hk ▸ (h.file hf).putData hg
  | allocate i start size =>
    obtain ⟨f, hf, he⟩ := bind_eq_ok.mp he
    obtain ⟨⟨q, g⟩, hg, he⟩ := bind_eq_ok.mp he
    obtain ⟨rfl, _⟩ := Prod.mk.inj (Except.ok.inj he)
    exact h.set _ i fun k hk => Option.some.inj hk ▸ (h.file hf).allocate hg
  | truncate i endOffset =>
    obtain ⟨f, hf, he⟩ := bind_eq_ok.mp he
    obtain ⟨⟨d, g⟩, hg, he⟩ := bind_eq_ok.mp he
    obtain ⟨rfl, _⟩ := Prod.mk.inj (Except.ok.inj he)
    exact h.set _ i fun k hk => Option.some.inj hk ▸ (h.file hf).truncate hv hg
  | getData i start size =>
    obtain ⟨f, hf, he⟩ := bind_eq_ok.mp he
    obtain ⟨r, hr, he⟩ := bind_eq_ok.mp he
    obtain ⟨rfl, _⟩ := Prod.mk.inj (Except.ok.inj he)
    exact h
  | destroy i =>
    obtain ⟨f, hf, he⟩ := bind_eq_ok.mp he
    obtain ⟨q, hq, he⟩ := bind_eq_ok.mp he
    obtain ⟨rfl, _⟩ := Prod.mk.inj (Except.ok.inj he)
    exact h.set _ i fun k hk => by cases hk

end Runs
end EchoFs.DevDax
