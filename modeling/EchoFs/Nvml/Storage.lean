import EchoFs.Nvml.Layout

/-! Changes to a file that keep its layout: appending segments, and storing bytes
through regions. -/

namespace EchoFs.Nvml
open Checked IntervalMap

theorem align_le (n : Int) (b : Nat) : align n b ≤ n := by
  unfold align
  omega

/-- The mask leaves less than a block. -/
theorem lt_align_add {n : Int} {b : Nat} (hb : 0 < b) : n < align n b + b := by
  have hmask : toSize ((b : Int) - 1) ≤ b - 1 := by
    unfold toSize
    omega
  have hand : toSize n &&& toSize ((b : Int) - 1) ≤ toSize ((b : Int) - 1) := Nat.and_le_right
  unfold align
  omega

theorem lt_xalign {n : Int} {b : Nat} (hb : 0 < b) : n < xalign n b := by
  have := lt_align_add (n := n + b) hb
  unfold xalign
  omega

theorem xalign_le (n : Int) (b : Nat) : xalign n b ≤ n + b := align_le _ _

theorem treeIds_append (s t : List Leaf) : treeIds (s ++ t) = treeIds s ++ treeIds t :=
  List.filterMap_append

namespace Chain
variable {segs segs' : List Segment} {alloc alloc' lo : Int} {t T : List Leaf}

theorem segment_of_mem (h : Chain segs alloc lo t) {id : Nat} (hid : id ∈ treeIds t) :
    ∃ k s, LeafOk segs k id s ∧ ⟨k, some id⟩ ∈ t := by
  obtain ⟨⟨k, v⟩, hl, rfl⟩ := List.mem_filterMap.mp hid
  obtain ⟨_, s, _, _, _, hs, _⟩ := h.split hl
  exact ⟨k, s, hs, hl⟩

theorem id_lt (h : Chain segs alloc lo t) : ∀ id ∈ treeIds t, id < segs.length := by
  intro id hid
  obtain ⟨_, s, hs, _⟩ := h.segment_of_mem hid
  exact (List.getElem?_eq_some_iff.mp hs.seg).1

/-- The leaves from one leaf on are replaced by others that start at the same key. -/
theorem splice {L S : List Leaf} {l : Leaf} : ∀ {lo : Int}, Chain segs alloc lo (L ++ l :: S) →
    (∀ id ∈ treeIds L, ∀ s, segs[id]? = some s → segs'[id]? = some s) →
    Chain segs' alloc' l.key T → Chain segs' alloc' lo (L ++ T) := by
  induction L with
  | nil =>
    intro lo h _ hT
    obtain ⟨v, R, he⟩ := h.head
    obtain rfl : l = ⟨lo, v⟩ := (List.cons.inj he).1
    exact hT
  | cons m L ih =>
    intro lo h hsegs hT
    generalize he : m :: L ++ l :: S = t at h
    cases h with
    | last => simp at he
    | @cons _ id s rest hs h =>
      obtain ⟨rfl, rfl⟩ := List.cons.inj he
      refine .cons ⟨hsegs id (by simp [treeIds]) s hs.seg, hs.offset_le, hs.lt_end, hs.ok⟩
        (ih h (fun id' hid' => hsegs id' ?_) hT)
      simp only [treeIds, List.filterMap_cons]
      exact List.mem_cons_of_mem _ hid'

/-- A chain over other segments that has the ones of the leaves. -/
theorem mono (h : Chain segs alloc lo t)
    (hsegs : ∀ id ∈ treeIds t, ∀ s, segs[id]? = some s → segs'[id]? = some s) :
    Chain segs' alloc lo t :=
  h.congr fun id hid s hs hok => ⟨s, hsegs id hid s hs, rfl, rfl, hok⟩

theorem eq_dropLast (h : Chain segs alloc lo t) : t = t.dropLast ++ [⟨alloc, none⟩] := by
  obtain ⟨L, rfl⟩ := List.getLast?_eq_some_iff.mp h.getLast
  rw [List.dropLast_concat]

theorem dropLast_key_lt (h : Chain segs alloc lo t) : ∀ l ∈ t.dropLast, l.key < alloc := by
  induction h with
  | last => simp
  | @cons lo id s rest hs h ih =>
    obtain ⟨v, R, rfl⟩ := h.head
    rw [List.dropLast_cons_cons]
    intro l hl
    rcases List.mem_cons.mp hl with rfl | hl
    · exact hs.lt_end.trans_le h.le
    · exact ih l hl

end Chain

theorem insert_last {L : List Leaf} {a b : Int} {id : Nat} (hab : a < b)
    (hL : ∀ l ∈ L, l.key < a) (hid : id ∉ treeIds L) :
    IntervalMap.insert (L ++ [⟨a, none⟩]) a b (some id) = L ++ [⟨a, some id⟩, ⟨b, none⟩] := by
  have hsearch : search (L ++ [(⟨a, none⟩ : Leaf)] ++ []) b = some ⟨a, none⟩ := by
    rw [List.append_nil]
    exact search_mid (fun l hl => ((hL l hl).trans hab).le) hab.le (by simp)
  have := insert_fresh (M := [(⟨a, none⟩ : Leaf)]) (R := []) (v := some id) (w := none) hab hL
    (by simp [hab.le]) (by simp) (by rw [hsearch]; rfl) (by simp) fun l hl he =>
      hid (List.mem_filterMap.mpr ⟨l, hl, he⟩)
  rwa [List.append_nil] at this

namespace File
variable {f f' : File} {a b x : Int}

theorem Layout.cell_beyond (h : f.Layout) (hx : f.mAllocOffset ≤ x) : f.cell x = 0 := by
  simp only [cell, h.search_beyond hx, Option.bind_some]

theorem Layout.cell_neg (h : f.Layout) (hx : x < 0) : f.cell x = 0 := by
  have hsearch : search f.mSegments x = none := by
    unfold search
    rw [List.filter_eq_nil_iff.mpr fun l hl => by simpa using hx.trans_le (h.chain.key_ge l hl)]
    rfl
  simp only [cell, hsearch, Option.bind_none]

theorem Layout.exists_leaf (h : f.Layout) (hx : 0 ≤ x) (hxa : x < f.mAllocOffset) :
    ∃ k id s, ⟨k, some id⟩ ∈ f.mSegments ∧ f.segments[id]? = some s ∧ k ≤ x ∧
      x < s.mOffset + s.mSize := by
  obtain ⟨L, k, id, s, R, ht, _, hs, hk, hlt, _⟩ := h.chain.locate hx hxa
  exact ⟨k, id, s, by simp [ht], hs.seg, hk, hlt⟩

/-- The file `f'` has all leaves and segments of `f`, and zeros in the new part. -/
structure Grows (f f' : File) : Prop where
  leaves : ∀ l ∈ f.mSegments, l.val ≠ none → l ∈ f'.mSegments
  segs : ∀ (id : Nat) (s : Segment), f.segments[id]? = some s → f'.segments[id]? = some s
  alloc : f.mAllocOffset ≤ f'.mAllocOffset
  zero : ∀ x, f.mAllocOffset ≤ x → f'.cell x = 0
  used : f'.mUsedOffset = f.mUsedOffset
  size : f'.stSize = f.stSize

theorem Grows.refl (hL : f.Layout) : Grows f f :=
  ⟨fun _ hl _ => hl, fun _ _ hs => hs, le_rfl, fun _ hx => hL.cell_beyond hx, rfl, rfl⟩

theorem Grows.cell_eq (h : Grows f f') (hL : f.Layout) (hL' : f'.Layout) (x : Int) :
    f'.cell x = f.cell x := by
  by_cases hx : 0 ≤ x
  · by_cases hxa : x < f.mAllocOffset
    · obtain ⟨k, id, s, hm, hs, h₁, h₂⟩ := hL.exists_leaf hx hxa
      rw [hL.cell_eq hm hs h₁ h₂, hL'.cell_eq (h.leaves _ hm (by simp)) (h.segs id s hs) h₁ h₂]
    · rw [hL.cell_beyond (not_lt.mp hxa), h.zero x (not_lt.mp hxa)]
  · rw [hL.cell_neg (not_le.mp hx), hL'.cell_neg (not_le.mp hx)]

theorem Maps.grows {rs : List Region} (h : Maps f a b rs) (hg : Grows f f') : Maps f' a b rs := by
  induction h with
  | nil => exact .nil
  | cons hm hs hlo hhi hpos haddr _ ih =>
    exact .cons (hg.leaves _ hm (by simp)) (hg.segs _ _ hs) hlo hhi hpos haddr ih

theorem linkSegments_nil (f : File) : f.linkSegments [] = .ok f := rfl

theorem linkSegments_cons {id : Nat} {s : Segment} {sl : List Nat} (hs : f.segments[id]? = some s) :
    f.linkSegments (id :: sl) = File.linkSegments { f with
      mSegments := IntervalMap.insert f.mSegments s.mOffset (s.mOffset + s.mSize) (some id) } sl := by
  simp only [linkSegments, List.foldlM_cons, segment_eq hs, ok_bind, pure_eq_ok]

theorem linkSegments_segments {sl : List Nat} : ∀ {f : File}, f.linkSegments sl = .ok f' →
    f'.segments = f.segments := by
  induction sl with
  | nil =>
    intro f h
    obtain rfl := Except.ok.inj h
    rfl
  | cons id sl ih =>
    intro f h
    simp only [linkSegments, List.foldlM_cons] at h
    obtain ⟨g, hg, h⟩ := bind_eq_ok.mp h
    obtain ⟨s, hs, hg⟩ := bind_eq_ok.mp hg
    obtain rfl := Except.ok.inj hg
    have hsegs := ih h
    exact hsegs

theorem segOk_new (o n : Int) (g : Bool) : SegOk (Segment.new o n g) where
  gap := fun hg => by
    have hg : g = true := hg
    simp [Segment.new, hg]
  data := fun hg => by
    have hg : g = false := hg
    exact ⟨fun _ => 0, by simp [Segment.new, hg], by simp [Segment.new, hg]⟩

theorem data_new (o n : Int) (g : Bool) (x : Int) :
    ((Segment.new o n g).mData.map fun d => d x).getD 0 = 0 := by
  cases g <;> rfl

/-- New segments with zeros after the allocated part. -/
theorem Layout.append (h : f.Layout) {g : File} {N : List Segment} {T : List Leaf}
    (hsegs : g.segments = f.segments ++ N) (htree : g.mSegments = f.mSegments.dropLast ++ T)
    (hT : Chain g.segments g.mAllocOffset f.mAllocOffset T)
    (hids : ∀ id ∈ treeIds T, f.segments.length ≤ id)
    (hzero : ∀ s ∈ N, ∀ x, (s.mData.map fun d => d x).getD 0 = 0)
    (hused : g.mUsedOffset = f.mUsedOffset) (hsize : g.stSize = f.stSize) :
    g.Layout ∧ Grows f g := by
  have hkeep : ∀ (id : Nat) (s : Segment), f.segments[id]? = some s →
      g.segments[id]? = some s := by
    intro id s hs
    rw [hsegs, List.getElem?_append_left (List.getElem?_eq_some_iff.mp hs).1]
    exact hs
  have hL' : g.Layout := by
    constructor
    have hchain := h.chain
    rw [h.chain.eq_dropLast] at hchain
    rw [htree]
    exact hchain.splice (fun id _ => hkeep id) hT
  refine ⟨hL', ⟨fun l hl hv => ?_, hkeep, hT.le, fun x hx => ?_, hused, hsize⟩⟩
  · rw [h.chain.eq_dropLast, List.mem_append] at hl
    rw [htree, List.mem_append]
    rcases hl with hl | hl
    · exact .inl hl
    · rw [List.mem_singleton.mp hl] at hv
      exact absurd rfl hv
  · by_cases hxa : x < g.mAllocOffset
    · obtain ⟨L, k, id, s, R, ht, _, hs, hk, hlt, _⟩ := hT.locate hx hxa
      have hm : (⟨k, some id⟩ : Leaf) ∈ g.mSegments := by simp [htree, ht]
      have hid : f.segments.length ≤ id := hids id (by simp [ht, treeIds])
      have hnew : s ∈ N := by
        have hseg := hs.seg
        rw [hsegs, List.getElem?_append_right hid] at hseg
        exact List.mem_of_getElem? hseg
      rw [hL'.cell_eq hm hs.seg hk hlt]
      exact hzero s hnew _
    · exact hL'.cell_beyond (not_lt.mp hxa)

theorem Grows.trans {f₁ f₂ f₃ : File} (h : Grows f₁ f₂) (h' : Grows f₂ f₃) (hL : f₂.Layout)
    (hL' : f₃.Layout) : Grows f₁ f₃ where
  leaves := fun l hl hv => h'.leaves l (h.leaves l hl hv) hv
  segs := fun id s hs => h'.segs id s (h.segs id s hs)
  alloc := h.alloc.trans h'.alloc
  zero := fun x hx => by
    rw [h'.cell_eq hL hL' x]
    exact h.zero x hx
  used := h'.used.trans h.used
  size := h'.size.trans h.size

/-- One more segment of `n` bytes after the allocated part. -/
def grow (f : File) (n : Int) (isGap : Bool) : File :=
  { f with
    segments := f.segments ++ [.new f.mAllocOffset n isGap]
    mSegments := f.mSegments.dropLast ++
      [⟨f.mAllocOffset, some f.segments.length⟩, ⟨f.mAllocOffset + n, none⟩]
    mAllocOffset := f.mAllocOffset + n }

theorem Layout.grow (h : f.Layout) {n : Int} (hn : 0 < n) (g : Bool) :
    (f.grow n g).Layout ∧ Grows f (f.grow n g) := by
  have hnew : (f.segments ++ [Segment.new f.mAllocOffset n g])[f.segments.length]? =
      some (.new f.mAllocOffset n g) := List.getElem?_concat_length
  apply h.append (g := f.grow n g) (N := [.new f.mAllocOffset n g])
    (T := [⟨f.mAllocOffset, some f.segments.length⟩, ⟨f.mAllocOffset + n, none⟩]) rfl rfl
    (Chain.cons ⟨hnew, le_rfl, lt_add_of_pos_right _ hn, segOk_new _ _ _⟩ Chain.last)
  · simp [treeIds]
  · intro s hs x
    rw [List.mem_singleton.mp hs]
    exact data_new _ _ _ _
  · rfl
  · rfl

theorem grow_maps (f : File) {n m : Int} (hm : 0 < m) (hmn : m ≤ n) {r : Region}
    (hr : r.addr = some (f.segments.length, 0)) (hsize : r.size = m) :
    Maps (f.grow n false) f.mAllocOffset (f.mAllocOffset + m) [r] := by
  have hmem : ⟨f.mAllocOffset, some f.segments.length⟩ ∈ (f.grow n false).mSegments := by
    simp [File.grow]
  apply Maps.cons hmem (s := .new f.mAllocOffset n false)
  · exact List.getElem?_concat_length
  · exact le_rfl
  · rw [hsize]
    exact Int.add_le_add_left hmn _
  · omega
  · rw [hr]
    simp [Segment.new]
  · rw [hsize]
    exact .nil

theorem Layout.ids_dropLast (h : f.Layout) : ∀ id ∈ treeIds f.mSegments.dropLast,
    id < f.segments.length := by
  intro id hid
  apply h.chain.id_lt
  rw [h.chain.eq_dropLast, treeIds_append]
  exact List.mem_append_left _ hid

theorem Layout.link_last (h : f.Layout) (id : Nat) {n : Int} (hid : f.segments.length ≤ id)
    (hn : 0 < n) : IntervalMap.insert f.mSegments f.mAllocOffset (f.mAllocOffset + n) (some id) =
      f.mSegments.dropLast ++ [⟨f.mAllocOffset, some id⟩, ⟨f.mAllocOffset + n, none⟩] := by
  have hnot : id ∉ treeIds f.mSegments.dropLast := fun hm =>
    absurd (h.ids_dropLast id hm) (not_lt.mpr hid)
  conv_lhs => rw [h.chain.eq_dropLast]
  exact insert_last (lt_add_of_pos_right _ hn) h.chain.dropLast_key_lt hnot

theorem Layout.append_grow (h : f.Layout) {n : Int} (hn : 0 < n) (g : Bool) (k : Nat) :
    File.linkSegments { f with
        mSegmentSize := k, segments := f.segments ++ [.new f.mAllocOffset n g] }
      [f.segments.length] =
    .ok { f.grow n g with mSegmentSize := k, mAllocOffset := f.mAllocOffset } := by
  rw [linkSegments_cons (s := .new f.mAllocOffset n g) List.getElem?_concat_length,
    linkSegments_nil]
  have hlink := h.link_last f.segments.length le_rfl hn
  simp only [Segment.new, hlink, File.grow]

theorem Layout.append_grow₂ (h : f.Layout) {m n : Int} (hm : 0 < m) (hn : 0 < n) (k : Nat) :
    File.linkSegments { f with
        mSegmentSize := k
        segments := f.segments ++ [.new f.mAllocOffset m true] ++
          [.new (f.mAllocOffset + m) n false] }
      [f.segments.length, f.segments.length + 1] =
    .ok { (f.grow m true).grow n false with mSegmentSize := k, mAllocOffset := f.mAllocOffset } := by
  have hfst : (f.segments ++ [Segment.new f.mAllocOffset m true] ++
      [.new (f.mAllocOffset + m) n false])[f.segments.length]? =
        some (.new f.mAllocOffset m true) := by simp
  have hsnd : (f.segments ++ [Segment.new f.mAllocOffset m true] ++
      [.new (f.mAllocOffset + m) n false])[f.segments.length + 1]? =
        some (.new (f.mAllocOffset + m) n false) := by simp
  have hlink := h.link_last f.segments.length le_rfl hm
  have hlink' := (h.grow hm true).1.link_last (f.segments.length + 1)
    (by simp [File.grow]) hn
  rw [linkSegments_cons hfst, linkSegments_cons hsnd, linkSegments_nil]
  simp only [File.grow, Segment.new] at hlink' ⊢
  rw [hlink, hlink']
  simp

/-- `m_segment_size` stays positive, and doubling it does not wrap. -/
def SizeOk (f : File) : Prop := 0 < f.mSegmentSize ∧ f.mSegmentSize < 2 ^ 63

/-- The segment size of the next append. -/
def nextSize (cfg : Config) (f : File) : Nat := min (f.mSegmentSize * 2 % 2 ^ 64) cfg.segmentSize

theorem nextSize_ok (cfg : Config) (h : f.SizeOk) :
    0 < f.nextSize cfg ∧ f.nextSize cfg < 2 ^ 63 := by
  have h₁ := h.1
  have h₂ := h.2
  have hp := cfg.pos
  have hl := cfg.lt
  unfold nextSize
  norm_num at h₂ hl ⊢
  omega

theorem Layout.withSegmentSize (h : f.Layout) (k : Nat) : File.Layout { f with mSegmentSize := k } :=
  ⟨h.chain⟩

theorem Grows.withSegmentSize (h : Grows f f') (k : Nat) : Grows f { f' with mSegmentSize := k } :=
  ⟨h.leaves, h.segs, h.alloc, h.zero, h.used, h.size⟩

/-- Without a gap, `extend_alloc` adds one segment right after the allocated part. -/
theorem Layout.extendAlloc_eq (h : f.Layout) (cfg : Config) {offset size n : Int} (hn : 0 < n)
    (hend : xalign (offset + size) (f.nextSize cfg) - f.mAllocOffset = n)
    (hgap : offset ≤ f.mAllocOffset ∨ align offset (f.nextSize cfg) = f.mAllocOffset)
    (regions : List Region) :
    f.extendAlloc cfg offset size regions =
      .ok ({ f.grow n false with mSegmentSize := f.nextSize cfg }, regions ++
        [⟨some (f.segments.length, if offset ≤ f.mAllocOffset then 0 else offset - f.mAllocOffset),
          offset + size - f.mAllocOffset, false⟩]) := by
  have hnew : (if offset ≤ f.mAllocOffset then f.mAllocOffset else
      align offset (f.nextSize cfg)) = f.mAllocOffset := by
    split_ifs with ho
    · rfl
    · exact hgap.resolve_left ho
  have hlink := h.append_grow hn false (f.nextSize cfg)
  unfold extendAlloc
  rw [check_ok h.chain.getLast, ok_bind]
  unfold nextSize at hnew hend hlink ⊢
  simp only [hnew, sub_self, ne_eq, not_true_eq_false, false_implies, check_ok, ok_bind, if_false,
    createSegment, List.nil_append, appendSegments, hend]
  rw [hlink, ok_bind, pure_eq_ok]
  rfl

/-- With a gap, a segment follows the gap. -/
theorem Layout.extendAlloc_gap (h : f.Layout) (cfg : Config) {offset size m n : Int} (hm : 0 < m)
    (hn : 0 < n) (hgt : f.mAllocOffset < offset)
    (hgap : align offset (f.nextSize cfg) = f.mAllocOffset + m)
    (hend : xalign (offset + size) (f.nextSize cfg) - (f.mAllocOffset + m) = n)
    (regions : List Region) :
    f.extendAlloc cfg offset size regions =
      .ok ({ (f.grow m true).grow n false with mSegmentSize := f.nextSize cfg }, regions ++
        [⟨some (f.segments.length + 1, offset - (f.mAllocOffset + m)),
          offset + size - (f.mAllocOffset + m), false⟩]) := by
  have hlink := h.append_grow₂ hm hn (f.nextSize cfg)
  unfold extendAlloc
  rw [check_ok h.chain.getLast, ok_bind]
  unfold nextSize at hgap hend hlink ⊢
  simp only [if_neg (not_le.mpr hgt), hgap, add_sub_cancel_left, ne_eq, hm.ne', not_false_eq_true,
    true_implies, check_ok (show offset > f.mAllocOffset from hgt), ok_bind, if_true, createSegment,
    List.singleton_append, appendSegments, hend, List.length_append, List.length_singleton]
  rw [hlink, ok_bind, pure_eq_ok]
  simp only [if_neg (not_le.mpr hgt)]
  rfl

/-- What `fetch_storage` appends: a segment for the data at `offset`, after a gap
if the data starts further on. -/
theorem Layout.extendAlloc_spec (h : f.Layout) (cfg : Config) (hs : f.SizeOk) {offset size : Int}
    (hsize : 0 ≤ size) (hgt : f.mAllocOffset < offset + size)
    (hgap : f.mAllocOffset < offset → f.mAllocOffset ≤ align offset (f.nextSize cfg))
    (regions : List Region) :
    ∃ f' rs, f.extendAlloc cfg offset size regions = .ok (f', rs) ∧ f'.Layout ∧ Grows f f' ∧
      f'.mSegmentSize = f.nextSize cfg ∧
      f'.mAllocOffset = xalign (offset + size) (f.nextSize cfg) := by
  obtain ⟨hpos, _⟩ := nextSize_ok cfg hs
  have hx := lt_xalign (n := offset + size) hpos
  by_cases hone : offset ≤ f.mAllocOffset ∨ align offset (f.nextSize cfg) = f.mAllocOffset
  · have hn : 0 < xalign (offset + size) (f.nextSize cfg) - f.mAllocOffset := by omega
    obtain ⟨hL, hg⟩ := h.grow hn false
    refine ⟨_, _, h.extendAlloc_eq cfg hn rfl hone regions, hL.withSegmentSize _,
      hg.withSegmentSize _, rfl, ?_⟩
    simp only [File.grow]
    omega
  · obtain ⟨hoff, hne⟩ := not_or.mp hone
    have hle := align_le offset (f.nextSize cfg)
    have hge := hgap (not_le.mp hoff)
    have hm : 0 < align offset (f.nextSize cfg) - f.mAllocOffset := by omega
    have hn : 0 < xalign (offset + size) (f.nextSize cfg) -
        (f.mAllocOffset + (align offset (f.nextSize cfg) - f.mAllocOffset)) := by omega
    obtain ⟨hL, hg⟩ := h.grow hm true
    obtain ⟨hL', hg'⟩ := hL.grow hn false
    refine ⟨_, _, h.extendAlloc_gap cfg hm hn (not_le.mp hoff) (by omega) rfl regions,
      hL'.withSegmentSize _, (hg.trans hg' hL hL').withSegmentSize _, rfl, ?_⟩
    simp only [File.grow]
    omega

theorem setSegment_self {id : Nat} {s s' : Segment} (hs : f.segments[id]? = some s) :
    (f.setSegment id s').segments[id]? = some s' :=
  List.getElem?_set_self (List.getElem?_eq_some_iff.mp hs).1

theorem setSegment_ne {id id' : Nat} {s' : Segment} (hne : id' ≠ id) :
    (f.setSegment id s').segments[id']? = f.segments[id']? := List.getElem?_set_ne hne.symm

/-- A segment changed in place keeps the layout if it keeps its extent. -/
theorem Layout.setSegment (h : f.Layout) {id : Nat} {s s' : Segment}
    (hs : f.segments[id]? = some s) (ho : s'.mOffset = s.mOffset) (hz : s'.mSize = s.mSize)
    (hok : SegOk s → SegOk s') : (f.setSegment id s').Layout := by
  constructor
  apply h.chain.congr
  intro i _ u hu hoku
  by_cases hi : i = id
  · subst hi
    obtain rfl : u = s := by simpa [hs] using hu.symm
    exact ⟨s', setSegment_self hs, ho, hz, hok hoku⟩
  · exact ⟨u, (setSegment_ne hi).trans hu, rfl, rfl, hoku⟩

/-- The allocated part of a range is looked up before storage is appended. -/
def lookupAllocated (cfg : Config) (f : File) (offset : Int) : Result (File × List Region) :=
  if offset < f.mAllocOffset then f.lookupSegments cfg offset f.mAllocOffset else pure (f, [])

theorem fetchStorage_append (cfg : Config) {offset size : Int} (hsize : 0 ≤ size)
    (hgt : f.mAllocOffset < offset + size) :
    f.fetchStorage cfg offset size =
      (f.lookupAllocated cfg offset).bind fun p => p.1.extendAlloc cfg offset size p.2 := by
  unfold fetchStorage lookupAllocated
  rw [if_neg (not_le.mpr hgt), check_ok (by omega), ok_bind]
  by_cases hlt : offset < f.mAllocOffset
  · simp only [if_pos hlt]
    rfl
  · simp only [if_neg hlt]
    rfl

end File
end EchoFs.Nvml
