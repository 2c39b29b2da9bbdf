import EchoFs.Nvml.Gaps

/-! Lookups that give memory to gaps, on files whose segments have exactly the extents
of their leaves: when such a lookup leaves a file of the same kind. -/

namespace EchoFs.Nvml
open Checked IntervalMap

/-- The gap `[k, e)` gets memory for `[a, b)` inside its extent, and without a gap in
front of it if the range goes on behind it. -/
structure GapAligned (cfg : Config) (a b k e : Int) : Prop where
  front : k ≤ align (max a k) cfg.segmentSize
  through : e < b → align (max a k) cfg.segmentSize = k
  back : b < e → xalign b cfg.segmentSize ≤ e

theorem GapAligned.later {cfg : Config} {a a' b k e : Int} (h : GapAligned cfg a b k e)
    (ha : a ≤ k) (ha' : a' ≤ k) : GapAligned cfg a' b k e := by
  obtain ⟨h₁, h₂, h₃⟩ := h
  rw [max_eq_right ha] at h₁ h₂
  constructor
  · rwa [max_eq_right ha']
  · rwa [max_eq_right ha']
  · exact h₃

namespace File
variable {f f' f₁ : File} {L R : List Leaf} {a b k r m o e : Int} {id n : Nat} {s : Segment}

/-- The leaves tile the allocated part, and a segment starts and ends with its leaf. -/
structure Exact (f : File) : Prop where
  layout : f.Layout
  offset : ∀ {k : Int} {id : Nat} {s : Segment}, ⟨k, some id⟩ ∈ f.mSegments →
    f.segments[id]? = some s → s.mOffset = k

/-- The gaps that meet `[a, b)` are aligned for it. -/
def LeafAligned (cfg : Config) (f : File) (a b : Int) (l : Leaf) : Prop :=
  ∀ id ∈ l.val, ∀ s ∈ f.segments[id]?, s.mIsGap = true → l.key < b → a < s.mOffset + s.mSize →
    GapAligned cfg a b l.key (s.mOffset + s.mSize)

/-- The file `f'` is `f` with memory for `[a, b)`. A size that wraps around is negative
here: `sizes` is about every segment that is new or changed. -/
structure Fills (f : File) (a b : Int) (f' : File) : Prop where
  exact : f'.Exact
  alloc : f'.mAllocOffset = f.mAllocOffset
  noGap : ∀ (k : Int) (id : Nat) (s : Segment), ⟨k, some id⟩ ∈ f'.mSegments →
    f'.segments[id]? = some s → s.mIsGap = true → s.mOffset + s.mSize ≤ a ∨ b ≤ k
  kept : ∀ (k : Int) (id : Nat) (s : Segment), ⟨k, some id⟩ ∈ f.mSegments →
    f.segments[id]? = some s → s.mIsGap = false ∨ s.mOffset + s.mSize ≤ a →
    ⟨k, some id⟩ ∈ f'.mSegments ∧ f'.segments[id]? = some s
  sizes : ∀ (i : Nat) (u : Segment), f'.segments[i]? = some u → f.segments[i]? ≠ some u →
    0 ≤ u.mSize

theorem Layout.end_le (h : f.Layout) {k' : Int} {v : Option Nat} (hm : ⟨k, some id⟩ ∈ f.mSegments)
    (hs : f.segments[id]? = some s) (hm' : ⟨k', v⟩ ∈ f.mSegments) (hlt : k < k') :
    s.mOffset + s.mSize ≤ k' := by
  obtain ⟨L, s', R, ht, hL, hs', hR⟩ := h.chain.split hm
  obtain rfl : s' = s := by simpa [hs] using hs'.seg.symm
  rw [ht, List.mem_append, List.mem_cons] at hm'
  rcases hm' with hm' | hm' | hm'
  · exact absurd (hL _ hm') (not_lt.mpr hlt.le)
  · exact absurd (congrArg Leaf.key hm') hlt.ne'
  · exact hR.key_ge _ hm'

theorem Layout.leaf_unique (h : f.Layout) {k' x : Int} {id' : Nat} {s' : Segment}
    (hm : ⟨k, some id⟩ ∈ f.mSegments) (hs : f.segments[id]? = some s) (hk : k ≤ x)
    (hx : x < s.mOffset + s.mSize) (hm' : ⟨k', some id'⟩ ∈ f.mSegments)
    (hs' : f.segments[id']? = some s') (hk' : k' ≤ x) (hx' : x < s'.mOffset + s'.mSize) :
    k' = k ∧ id' = id ∧ s' = s := by
  rcases lt_trichotomy k k' with hlt | rfl | hlt
  · have := h.end_le hm hs hm' hlt
    omega
  · obtain ⟨L, s₀, R, ht, hL, hs₀, hR⟩ := h.chain.split hm
    have hid : id' = id := by
      rw [ht, List.mem_append, List.mem_cons] at hm'
      rcases hm' with hm' | hm' | hm'
      · exact absurd (hL _ hm') (lt_irrefl _)
      · simpa using hm'
      · exact absurd (hR.key_ge _ hm') (not_le.mpr hs₀.lt_end)
    rw [hid, hs] at hs'
    exact ⟨rfl, hid, (Option.some.inj hs').symm⟩
  · have := h.end_le hm' hs' hm hlt
    omega

theorem Fills.trans (h : Fills f a m f₁) (h' : Fills f₁ m b f') (ham : a ≤ m) :
    Fills f a b f' where
  exact := h'.exact
  alloc := h'.alloc.trans h.alloc
  noGap := by
    intro k id s hm hs hg
    rcases h'.noGap k id s hm hs hg with hend | hb
    · -- a gap before `m` is one of `f₁`
      have hleaf := h'.exact.layout.leafOk hm hs
      have hk : 0 ≤ k := h'.exact.layout.chain.key_ge _ hm
      have hka : k < f₁.mAllocOffset := by
        have := h'.exact.layout.end_le hm hs
          (List.mem_of_getLast? h'.exact.layout.chain.getLast) (by
            obtain ⟨L, s', R, ht, hL, hs', hR⟩ := h'.exact.layout.chain.split hm
            exact hs'.lt_end.trans_le hR.le)
        rw [h'.alloc] at this
        exact hleaf.lt_end.trans_le this
      obtain ⟨k₁, id₁, s₁, hm₁, hs₁, hk₁, hlt₁⟩ := h.exact.layout.exists_leaf hk hka
      have hkeep : ∀ (_ : s₁.mIsGap = false ∨ s₁.mOffset + s₁.mSize ≤ m), s₁ = s := by
        intro hor
        obtain ⟨hm₂, hs₂⟩ := h'.kept k₁ id₁ s₁ hm₁ hs₁ hor
        exact (h'.exact.layout.leaf_unique hm hs le_rfl hleaf.lt_end hm₂ hs₂ hk₁ hlt₁).2.2
      cases hg₁ : s₁.mIsGap with
      | false =>
        rw [hkeep (.inl hg₁), hg] at hg₁
        cases hg₁
      | true =>
        rcases h.noGap k₁ id₁ s₁ hm₁ hs₁ hg₁ with hle | hle
        · obtain rfl := hkeep (.inr (hle.trans ham))
          exact .inl hle
        · have := hleaf.lt_end
          omega
    · exact .inr hb
  kept := by
    intro k id s hm hs hor
    obtain ⟨hm₁, hs₁⟩ := h.kept k id s hm hs hor
    exact h'.kept k id s hm₁ hs₁ (hor.imp_right (·.trans ham))
  sizes := by
    intro i u hu hne
    by_cases hu₁ : f₁.segments[i]? = some u
    · exact h.sizes i u hu₁ hne
    · exact h'.sizes i u hu hu₁

/-- A lookup that stays inside a segment with memory changes nothing. -/
theorem Exact.fills_self (h : f.Exact) (hm : ⟨k, some id⟩ ∈ f.mSegments)
    (hs : f.segments[id]? = some s) (hg : s.mIsGap = false) (hkr : k ≤ r)
    (he : e ≤ s.mOffset + s.mSize) : Fills f r e f where
  exact := h
  alloc := rfl
  noGap := by
    intro k' id' s' hm' hs' hg'
    rcases lt_trichotomy k' k with hlt | rfl | hlt
    · exact .inl ((h.layout.end_le hm' hs' hm hlt).trans hkr)
    · have hl := h.layout.leafOk hm hs
      have hl' := h.layout.leafOk hm' hs'
      obtain ⟨-, -, rfl⟩ := h.layout.leaf_unique hm hs le_rfl hl.lt_end hm' hs' le_rfl hl'.lt_end
      rw [hg] at hg'
      cases hg'
    · exact .inr (he.trans (h.layout.end_le hm hs hm' hlt))
  kept := fun _ _ _ hm' hs' _ => ⟨hm', hs'⟩
  sizes := fun _ _ hu hne => absurd hu hne

def filledSegments (f : File) (id : Nat) (s : Segment) (o e : Int) : List Segment :=
  f.segments.set id (s.filled o e) ++ newGap s.mOffset (o - s.mOffset) ++
    newGap e (s.mOffset + s.mSize - e)

theorem allocateGap_segments (cfg : Config) {d : Int} (hdata : s.mData = none) (hr : 0 ≤ b)
    (hb : b < 2 ^ 64) (hg : 0 ≤ s.mOffset + s.mSize) (hglt : s.mOffset + s.mSize < 2 ^ 64)
    (h : f.allocateGap cfg id s r (b - r) = .ok (f₁, d)) :
    f₁.segments = f.filledSegments id s (align r cfg.segmentSize) (gapEnd cfg b s) := by
  rw [allocateGap_eq cfg hdata hr hb hg hglt rfl rfl] at h
  cases hlink : linkSegments { f with
      segments := f.filledSegments id s (align r cfg.segmentSize) (gapEnd cfg b s) }
      (newId (align r cfg.segmentSize - s.mOffset) f.segments.length ++
        newId (s.mOffset + s.mSize - gapEnd cfg b s) (f.segments.length +
          (newGap s.mOffset (align r cfg.segmentSize - s.mOffset)).length)) with
  | error e =>
    unfold filledSegments at hlink
    rw [hlink] at h
    cases h
  | ok g =>
    have hsegs := linkSegments_segments hlink
    unfold filledSegments at hlink
    rw [hlink] at h
    cases h
    exact hsegs

theorem filledSegments_changed {i : Nat} {u : Segment} (hid : id < f.segments.length)
    (hu : (f.filledSegments id s o e)[i]? = some u) (hne : f.segments[i]? ≠ some u) :
    u = s.filled o e ∨ u ∈ newGap s.mOffset (o - s.mOffset) ∨
      u ∈ newGap e (s.mOffset + s.mSize - e) := by
  unfold filledSegments at hu
  rw [List.append_assoc] at hu
  by_cases hi : i < f.segments.length
  · rw [List.getElem?_append_left (by rwa [List.length_set])] at hu
    by_cases hii : i = id
    · rw [hii, List.getElem?_set_self hid] at hu
      exact .inl (Option.some.inj hu).symm
    · rw [List.getElem?_set_ne (Ne.symm hii)] at hu
      exact absurd hu hne
  · rw [List.getElem?_append_right (by rw [List.length_set]; omega)] at hu
    exact .inr (List.mem_append.mp (List.mem_of_getElem? hu))

theorem size_of_mem_newGap {x n : Int} {u : Segment} (h : u ∈ newGap x n) : u.mSize = n := by
  unfold newGap at h
  split_ifs at h
  · cases h
  · rw [List.mem_singleton.mp h]
    rfl

section
variable (h : f.Exact) (cfg : Config) (htree : f.mSegments = L ++ ⟨k, some id⟩ :: R)
  (hL : ∀ l ∈ L, l.key < k) (hs : LeafOk f.segments k id s) (hgap : s.mIsGap = true)
  (hR : Chain f.segments f.mAllocOffset (s.mOffset + s.mSize) R) (hkr : k ≤ r)
  (hr : r < s.mOffset + s.mSize) (hrb : r < b) (hb : b ≤ f.mAllocOffset)
  (hlt : f.mAllocOffset < 2 ^ 63)
include h htree hL hs hgap hR hkr hr hrb hb hlt

/-- A gap that is aligned for the range gets its memory. -/
theorem Exact.allocateGap_fills (hal : GapAligned cfg r b k (s.mOffset + s.mSize)) :
    ∃ f₁ d, f.allocateGap cfg id s r (b - r) = .ok (f₁, d) ∧
      Fills f r (min b (s.mOffset + s.mSize)) f₁ ∧ SameMeta f f₁ ∧
      (∃ u, f₁.segments[id]? = some u) ∧
      (∀ i ≠ id, ∀ u, f.segments[i]? = some u → f₁.segments[i]? = some u) ∧
      (s.mOffset + s.mSize < b → f₁.mSegments = L ++ ⟨k, some id⟩ :: R) := by
  have hm : (⟨k, some id⟩ : Leaf) ∈ f.mSegments := by simp [htree]
  have hk : 0 ≤ k := h.layout.chain.key_ge _ hm
  have hoff : s.mOffset = k := h.offset hm hs.seg
  have hle := hR.le
  have hfront := hal.front
  have hthrough := hal.through
  rw [max_eq_left hkr] at hfront hthrough
  have hor := align_le r cfg.segmentSize
  have hfits : GapFits cfg r b k s := ⟨.inl hoff, hal.back⟩
  obtain ⟨f₁, o, e, n, n', he, hL₁, hsame, hee, hoe, -, -, -⟩ :=
    h.layout.allocateGap_layout cfg htree hL hs hgap hR hkr hr hrb hb (by omega) hfits
  obtain ⟨segs, n, n', he', hfill⟩ :=
    h.layout.allocateGap_tree cfg htree hL hs hgap hR hk hkr hr hrb hb (by omega) (.inl hoff) hoe
      hee
  have hsegs := allocateGap_segments cfg (hs.ok.gap hgap) (by omega) (by omega) (by omega)
    (by omega) he
  obtain ⟨rfl, -⟩ := Prod.mk.inj (Except.ok.inj (he.symm.trans he'))
  rw [← hoe, ← hee] at hsegs
  have hre : r < e ∧ e ≤ s.mOffset + s.mSize := hee ▸ gapEnd_bounds hr hrb hal.back
  have hRk : ∀ l ∈ R, k < l.key := fun l hl => hs.lt_end.trans_le (hR.key_ge l hl)
  have hko : k ≤ o := by rw [hoe]; exact hfront
  have hro : o ≤ r := by rw [hoe]; exact hor
  have heb : min b (s.mOffset + s.mSize) ≤ e := hee ▸ min_le_gapEnd cfg b s
  have hcases := fun {j i u} hm' hu => hfill.leaf_cases (j := j) (i := i) (u := u) h.layout
    htree hL hRk hm' hu
  have hkeep : ∀ i ≠ id, ∀ u, f.segments[i]? = some u → segs[i]? = some u := by
    intro i hne u hu
    rw [← hu]
    exact hfill.others i (List.getElem?_eq_some_iff.mp hu).1 hne
  refine ⟨_, _, he', ⟨⟨hL₁, ?_⟩, rfl, ?_, ?_, ?_⟩, hsame, ⟨_, hfill.filled⟩, hkeep, ?_⟩
  · intro k' i u hm' hu
    rcases hcases hm' hu with ⟨hm', hu, -⟩ | ⟨hk', rfl⟩ | ⟨rfl, -, rfl⟩ | ⟨rfl, rfl⟩
    · exact h.offset hm' hu
    · simp only [Segment.filled]
      omega
    · exact hoff
    · rfl
  · intro k' i u hm' hu hg
    rcases hcases hm' hu with ⟨hmf, huf, hne⟩ | ⟨-, rfl⟩ | ⟨rfl, -, rfl⟩ | ⟨rfl, rfl⟩
    · rcases lt_trichotomy k' k with hlt' | rfl | hlt'
      · exact .inl ((h.layout.end_le hmf huf hm hlt').trans hkr)
      · have hl := h.layout.leafOk hmf huf
        have huniq := h.layout.leaf_unique hm hs.seg le_rfl hs.lt_end hmf huf le_rfl hl.lt_end
        exact absurd huniq.2.1 hne
      · exact .inr ((min_le_right _ _).trans (h.layout.end_le hm hs.seg hmf hlt'))
    · cases hg
    · left
      simp only [Segment.new]
      omega
    · exact .inr heb
  · intro k' i u hmf huf hor
    have hne : i ≠ id := by
      rintro rfl
      obtain rfl := Option.some.inj (hs.seg.symm.trans huf)
      rcases hor with hor | hor
      · rw [hgap] at hor
        cases hor
      · omega
    refine ⟨?_, ?_⟩
    · rw [htree, List.mem_append, List.mem_cons] at hmf
      simp only [List.mem_append]
      rcases hmf with hmf | hmf | hmf
      · exact .inl (.inl (.inl hmf))
      · exact absurd (by simpa using congrArg Leaf.val hmf) hne
      · exact .inr hmf
    · exact hkeep i hne u huf
  · intro i u hu hne
    rw [hsegs] at hu
    rcases filledSegments_changed (List.getElem?_eq_some_iff.mp hs.seg).1 hu hne with rfl | hu | hu
    · simp only [Segment.filled]
      omega
    · rw [size_of_mem_newGap hu]
      omega
    · rw [size_of_mem_newGap hu]
      omega
  · intro hend
    have heg : e = s.mOffset + s.mSize := by
      rw [hee, gapEnd, if_neg (by omega)]
    have hoo : o = k := by rw [hoe]; exact hthrough hend
    have hfl : frontLeaves s o k id n = [⟨k, some id⟩] := if_pos (by omega)
    have hbl : backLeaves s e n' = [] := if_neg (by omega)
    rw [hfl, hbl]
    simp

omit hgap in
/-- One turn of the loop of `lookup_helper`, on a segment with memory or on a gap that is
aligned: the lookup ends, or it goes on with the next leaf. -/
theorem Exact.loop_step (hal : s.mIsGap = true → GapAligned cfg r b k (s.mOffset + s.mSize))
    (fuel : Nat) (regions : List Region) :
    ∃ f₁ regions', Fills f r (min b (s.mOffset + s.mSize)) f₁ ∧ SameMeta f f₁ ∧
      (∀ i ≠ id, ∀ u, f.segments[i]? = some u → f₁.segments[i]? = some u) ∧
      (b ≤ s.mOffset + s.mSize → lookupLoop cfg true b (fuel + 1) f ⟨k, some id⟩ r (b - r) regions =
        .ok (f₁, regions')) ∧
      (s.mOffset + s.mSize < b → f₁.mSegments = L ++ ⟨k, some id⟩ :: R ∧
        ∀ v R', R = ⟨s.mOffset + s.mSize, v⟩ :: R' →
          lookupLoop cfg true b (fuel + 1) f ⟨k, some id⟩ r (b - r) regions =
            lookupLoop cfg true b fuel f₁ ⟨s.mOffset + s.mSize, v⟩ (s.mOffset + s.mSize)
              (b - (s.mOffset + s.mSize)) regions') := by
  have hm : (⟨k, some id⟩ : Leaf) ∈ f.mSegments := by simp [htree]
  have hRk : ∀ l ∈ R, k < l.key := fun l hl => hs.lt_end.trans_le (hR.key_ge l hl)
  have hop : b - r - min (b - r) (s.mSize - (r - s.mOffset)) = b - min b (s.mOffset + s.mSize) := by
    omega
  have hcheck := check_ok (show r - s.mOffset ≠ s.mSize by omega)
  have hnext : ∀ {g : File} {v : Option Nat} {R' : List Leaf},
      g.mSegments = L ++ ⟨k, some id⟩ :: R → R = ⟨s.mOffset + s.mSize, v⟩ :: R' →
      IntervalMap.next g.mSegments k = some ⟨s.mOffset + s.mSize, v⟩ := by
    intro g v R' hg hR'
    rw [hR'] at hRk
    rw [hg, hR']
    exact next_mid (L := L) (l := (⟨k, some id⟩ : Leaf)) hL hRk
  cases hg : s.mIsGap with
  | true =>
    obtain ⟨f₁, d, he, hfills, hsame, ⟨u, hu⟩, hkeep, htree₁⟩ :=
      h.allocateGap_fills cfg htree hL hs hg hR hkr hr hrb hb hlt (hal hg)
    refine ⟨f₁, regions ++ [⟨if u.mIsGap then none else some (id, d),
      min (b - r) (s.mSize - (r - s.mOffset)), u.mIsGap⟩], hfills, hsame, hkeep, ?_, ?_⟩
    · intro hend
      simp only [lookupLoop, segment_eq hs.seg, ok_bind, hcheck, hg, and_self, if_true, he,
        segment_eq hu, if_pos hend]
      rfl
    · intro hend
      refine ⟨htree₁ hend, fun v R' hR' => ?_⟩
      simp only [lookupLoop, segment_eq hs.seg, ok_bind, hcheck, hg, and_self, if_true, he,
        segment_eq hu, if_neg (not_le.mpr hend), hnext (htree₁ hend) hR', hop,
        min_eq_right hend.le]
  | false =>
    refine ⟨f, regions ++ [⟨some (id, r - s.mOffset), min (b - r) (s.mSize - (r - s.mOffset)),
      false⟩], h.fills_self hm hs.seg hg hkr (min_le_right _ _), ⟨rfl, rfl, rfl, rfl⟩,
      fun _ _ _ hu => hu, ?_, ?_⟩
    · intro hend
      simp only [lookupLoop, segment_eq hs.seg, ok_bind, hcheck, hg, Bool.false_eq_true, and_false,
        if_false, pure_eq_ok, if_pos hend]
    · intro hend
      refine ⟨htree, fun v R' hR' => ?_⟩
      simp only [lookupLoop, segment_eq hs.seg, ok_bind, hcheck, hg, Bool.false_eq_true, and_false,
        if_false, pure_eq_ok, if_neg (not_le.mpr hend), hnext htree hR', hop, min_eq_right hend.le]

end

/-- The segment of a leaf is not that of a later one. -/
theorem Layout.ne_of_mem_after (h : f.Layout) (htree : f.mSegments = L ++ ⟨k, some id⟩ :: R)
    (hs : LeafOk f.segments k id s)
    (hR : Chain f.segments f.mAllocOffset (s.mOffset + s.mSize) R) :
    ∀ i ∈ treeIds R, i ≠ id := by
  rintro i hi rfl
  obtain ⟨k', u, hu, hmem⟩ := hR.segment_of_mem hi
  have hm : (⟨k, some i⟩ : Leaf) ∈ f.mSegments := by simp [htree]
  have hm' : (⟨k', some i⟩ : Leaf) ∈ f.mSegments := by
    rw [htree]
    exact List.mem_append_right _ (List.mem_cons_of_mem _ hmem)
  have hkk := h.key_unique hm hm'
  have hge := hR.key_ge _ hmem
  have hlt := hs.lt_end
  simp only at hge
  omega

theorem Exact.next_leaf (h : f.Exact) (htree : f.mSegments = L ++ ⟨k, some id⟩ :: R)
    (hs : LeafOk f.segments k id s) (hR : Chain f.segments f.mAllocOffset (s.mOffset + s.mSize) R)
    (hend : s.mOffset + s.mSize < f.mAllocOffset) (halloc : f₁.mAllocOffset = f.mAllocOffset)
    (hkeep : ∀ i ≠ id, ∀ u, f.segments[i]? = some u → f₁.segments[i]? = some u) :
    ∃ id' s' R', R = ⟨s.mOffset + s.mSize, some id'⟩ :: R' ∧
      LeafOk f₁.segments (s.mOffset + s.mSize) id' s' ∧
      Chain f₁.segments f₁.mAllocOffset (s'.mOffset + s'.mSize) R' ∧
      ∀ i ∈ treeIds R, ∀ u, f.segments[i]? = some u ↔ f₁.segments[i]? = some u := by
  have hne := h.layout.ne_of_mem_after htree hs hR
  have hsame : ∀ i ∈ treeIds R, f₁.segments[i]? = f.segments[i]? := by
    intro i hi
    obtain ⟨_, u, hu, _⟩ := hR.segment_of_mem hi
    rw [hu.seg, hkeep i (hne i hi) u hu.seg]
  obtain ⟨id', s', R', rfl, hs', hR'⟩ := hR.next_leaf hend hsame
  exact ⟨id', s', R', rfl, hs', halloc ▸ hR', fun i hi u => by rw [hsame i hi]⟩

/-- Aligned gaps get memory for the whole range. -/
theorem Exact.lookupLoop_fills (cfg : Config) (b : Int) (fuel : Nat) :
    ∀ {f : File} {L R : List Leaf} {k r : Int} {id : Nat} {s : Segment} (regions : List Region),
    f.Exact → f.mSegments = L ++ ⟨k, some id⟩ :: R → (∀ l ∈ L, l.key < k) →
    LeafOk f.segments k id s → Chain f.segments f.mAllocOffset (s.mOffset + s.mSize) R →
    k ≤ r → r < s.mOffset + s.mSize → r < b → b ≤ f.mAllocOffset → f.mAllocOffset < 2 ^ 63 →
    R.length < fuel →
    (∀ l ∈ (⟨k, some id⟩ :: R : List Leaf), LeafAligned cfg f r b l) →
    ∃ f' rs, lookupLoop cfg true b fuel f ⟨k, some id⟩ r (b - r) regions = .ok (f', rs) ∧
      Fills f r b f' := by
  induction fuel with
  | zero => intros; omega
  | succ fuel ih =>
    intro f L R k r id s regions h htree hL hs hR hkr hr hrb hb hlt hfuel hal
    obtain ⟨f₁, regions', hfills, hsame, hkeep, hlast, hgo⟩ := h.loop_step cfg htree hL hs hR hkr hr
      hrb hb hlt (fun hg => hal _ List.mem_cons_self id rfl s hs.seg hg (hkr.trans_lt hrb) hr) fuel
      regions
    by_cases hend : b ≤ s.mOffset + s.mSize
    · rw [min_eq_left hend] at hfills
      exact ⟨f₁, regions', hlast hend, hfills⟩
    · rw [min_eq_right (not_le.mp hend).le] at hfills
      obtain ⟨htree₁, hnext⟩ := hgo (not_le.mp hend)
      obtain ⟨id', s', R', hR', hs', hchain', hiff⟩ :=
        h.next_leaf htree hs hR (by omega) hsame.alloc hkeep
      have hL' := hs.keys_lt_end hL
      have hal' : ∀ l ∈ R, LeafAligned cfg f₁ (s.mOffset + s.mSize) b l := by
        rintro ⟨k', v⟩ hl i rfl u hu hg hk' hu'
        have hge : s.mOffset + s.mSize ≤ k' := hR.key_ge _ hl
        have hi : i ∈ treeIds R := List.mem_filterMap.mpr ⟨_, hl, rfl⟩
        exact (hal _ (List.mem_cons_of_mem _ hl) i rfl u ((hiff i hi u).mpr hu) hg hk'
          (hr.trans hu')).later (hr.le.trans hge) hge
      obtain ⟨f', rs, he, hf'⟩ := ih (L := L ++ [⟨k, some id⟩]) regions' hfills.exact
        (by rw [htree₁, hR']; simp) hL' hs' hchain' le_rfl hs'.lt_end (not_le.mp hend)
        (by rw [hsame.alloc]; exact hb) (by rw [hsame.alloc]; exact hlt)
        (by rw [hR', List.length_cons] at hfuel; omega) (by rw [← hR']; exact hal')
      rw [hnext _ _ hR']
      exact ⟨f', rs, he, hfills.trans hf' hr.le⟩

theorem linkSegments_ids {sl : List Nat} : ∀ {f : File}, f.linkSegments sl = .ok f' →
    ∀ i ∈ treeIds f'.mSegments, i ∈ sl ∨ i ∈ treeIds f.mSegments := by
  induction sl with
  | nil =>
    intro f h i hi
    obtain rfl := Except.ok.inj h
    exact .inr hi
  | cons id sl ih =>
    intro f h i hi
    simp only [linkSegments, List.foldlM_cons] at h
    obtain ⟨g, hg, h⟩ := bind_eq_ok.mp h
    obtain ⟨s, hs, hg⟩ := bind_eq_ok.mp hg
    obtain rfl := Except.ok.inj hg
    rcases ih h i hi with hi | hi
    · exact .inl (List.mem_cons_of_mem _ hi)
    · obtain ⟨l, hl, hv⟩ := List.mem_filterMap.mp hi
      rcases val_of_mem_insert hl with he | ⟨l', hl', he⟩
      · rw [he] at hv
        obtain rfl := Option.some.inj hv
        exact .inl List.mem_cons_self
      · exact .inr (List.mem_filterMap.mpr ⟨l', hl', he.trans hv⟩)

/-- The segments after a gap got memory, whatever its size has become, and the links of
the new ones. -/
theorem allocateGap_ok (cfg : Config) {q d : Int}
    (h : f.allocateGap cfg id s r q = .ok (f₁, d)) :
    ∃ e, (e = xalign (r + q) cfg.segmentSize ∨ e = s.mOffset + s.mSize) ∧
      File.linkSegments { f with segments := f.filledSegments id s (align r cfg.segmentSize) e }
        (newId (align r cfg.segmentSize - s.mOffset) f.segments.length ++
          newId (s.mOffset + s.mSize - e) (f.segments.length +
            (newGap s.mOffset (align r cfg.segmentSize - s.mOffset)).length)) = .ok f₁ := by
  unfold allocateGap at h
  dsimp only at h
  obtain ⟨n, hn, hor⟩ : ∃ n, (if toSize (r + q) < toSize (s.mOffset + s.mSize) then
      xalign (r + q) cfg.segmentSize - align r cfg.segmentSize else
      s.mOffset + s.mSize - align r cfg.segmentSize) = n ∧
      (align r cfg.segmentSize + n = xalign (r + q) cfg.segmentSize ∨
        align r cfg.segmentSize + n = s.mOffset + s.mSize) := by
    split_ifs
    · exact ⟨_, rfl, .inl (by omega)⟩
    · exact ⟨_, rfl, .inr (by omega)⟩
  rw [hn] at h
  obtain ⟨s₁, hs₁, h⟩ := bind_eq_ok.mp h
  obtain ⟨g, hlink, h⟩ := bind_eq_ok.mp h
  obtain ⟨rfl, -⟩ := Prod.mk.inj (Except.ok.inj h)
  obtain ⟨-, -, hs₁⟩ := bind_eq_ok.mp hs₁
  obtain rfl := Except.ok.inj hs₁
  refine ⟨align r cfg.segmentSize + n, hor, ?_⟩
  rw [← hlink]
  -- there is a gap segment on either side, unless it is empty
  by_cases h₁ : align r cfg.segmentSize - s.mOffset = 0 <;>
    by_cases h₂ : s.mOffset + s.mSize - (align r cfg.segmentSize + n) = 0 <;>
    simp [insertSegments, createSegment, setSegment, filledSegments, newGap, newId,
      Segment.filled, h₁, h₂]

theorem eq_of_mem_newId {n : Int} {m i : Nat} (h : i ∈ newId n m) : i = m := by
  unfold newId at h
  split_ifs at h
  · cases h
  · exact List.mem_singleton.mp h

theorem allocateGap_unlinked (cfg : Config) {q d : Int} {i : Nat} {u : Segment}
    (h : f.allocateGap cfg id s r q = .ok (f₁, d)) (hne : i ≠ id)
    (hu : f.segments[i]? = some u) (hi : i ∉ treeIds f.mSegments) :
    f₁.segments[i]? = some u ∧ i ∉ treeIds f₁.mSegments := by
  have hlen := (List.getElem?_eq_some_iff.mp hu).1
  obtain ⟨e, -, hlink⟩ := allocateGap_ok cfg h
  constructor
  · rw [linkSegments_segments hlink]
    unfold filledSegments
    rw [List.append_assoc, List.getElem?_append_left (by rwa [List.length_set]),
      List.getElem?_set_ne hne.symm]
    exact hu
  · intro hm
    rcases linkSegments_ids hlink i hm with hm | hm
    · rcases List.mem_append.mp hm with hm | hm
      · have := eq_of_mem_newId hm
        omega
      · have := eq_of_mem_newId hm
        omega
    · exact hi hm

/-- What a round of the lookup does once it has its segment. -/
def lookupRest (cfg : Config) (allocGaps : Bool) (rangeEnd : Int) (fuel : Nat) (f : File)
    (leaf : Leaf) (sEnd reqSize : Int) (regions : List Region) : Result (File × List Region) :=
  if sEnd ≥ rangeEnd then return (f, regions) else
    match IntervalMap.next f.mSegments leaf.key with
    | none => .error .badPointer
    | some leaf => lookupLoop cfg allocGaps rangeEnd fuel f leaf sEnd reqSize regions

/-- The segment a round of the lookup has found, and the file it has made of it. -/
inductive Turn (cfg : Config) (allocGaps : Bool) (f : File) (id : Nat) (s : Segment) (r q : Int) :
    File → Int → Prop
  | gap {f₁ : File} {d : Int} (hg : allocGaps = true) (hs : s.mIsGap = true)
      (he : f.allocateGap cfg id s r q = .ok (f₁, d)) : Turn cfg allocGaps f id s r q f₁ d
  | segment (hg : allocGaps = true → s.mIsGap = false) :
      Turn cfg allocGaps f id s r q f (r - s.mOffset)

theorem lookupLoop_turn {cfg : Config} {g : Bool} {b : Int} {fuel : Nat} {leaf : Leaf} {q : Int}
    {regions rs : List Region}
    (h : lookupLoop cfg g b (fuel + 1) f leaf r q regions = .ok (f', rs)) :
    (leaf.val = none ∧ f' = f ∧ rs = regions) ∨
      ∃ id s f₁ d s₁, leaf.val = some id ∧ f.segment id = .ok s ∧ Turn cfg g f id s r q f₁ d ∧
        f₁.segment id = .ok s₁ ∧
        lookupRest cfg g b fuel f₁ leaf (s.mOffset + s.mSize)
          (q - min q (s.mSize - (r - s.mOffset))) (regions ++ [⟨if s₁.mIsGap then none else
            some (id, d), min q (s.mSize - (r - s.mOffset)), s₁.mIsGap⟩]) = .ok (f', rs) := by
  unfold lookupLoop at h
  split at h
  · rename_i hval
    cases h
    exact .inl ⟨hval, rfl, rfl⟩
  rename_i id hval
  obtain ⟨s, hs, h⟩ := bind_eq_ok.mp h
  obtain ⟨-, -, h⟩ := bind_eq_ok.mp h
  dsimp only at h
  by_cases hfill : g = true ∧ s.mIsGap = true
  · rw [if_pos hfill] at h
    obtain ⟨⟨f₁, d⟩, halloc, h⟩ := bind_eq_ok.mp h
    obtain ⟨s₁, hs₁, h⟩ := bind_eq_ok.mp h
    exact .inr ⟨id, s, f₁, d, s₁, hval, hs, .gap hfill.1 hfill.2 halloc, hs₁, h⟩
  · rw [if_neg hfill, pure_eq_ok, ok_bind] at h
    obtain ⟨s₁, hs₁, h⟩ := bind_eq_ok.mp h
    refine .inr ⟨id, s, f, _, s₁, hval, hs, .segment fun hg => ?_, hs₁, h⟩
    exact Bool.eq_false_iff.mpr fun hgap => hfill ⟨hg, hgap⟩

theorem lookupRest_ok {cfg : Config} {g : Bool} {b : Int} {fuel : Nat} {leaf : Leaf} {q : Int}
    {regions rs : List Region} (h : lookupRest cfg g b fuel f leaf e q regions = .ok (f', rs)) :
    (f' = f ∧ rs = regions) ∨ ∃ leaf', IntervalMap.next f.mSegments leaf.key = some leaf' ∧
      lookupLoop cfg g b fuel f leaf' e q regions = .ok (f', rs) := by
  unfold lookupRest at h
  split at h
  · cases h
    exact .inl ⟨rfl, rfl⟩
  · split at h
    · cases h
    · next leaf' hnext => exact .inr ⟨leaf', hnext, h⟩

theorem lookupLoop_unlinked (cfg : Config) (g : Bool) (b : Int) (fuel : Nat) {i : Nat}
    {u : Segment} : ∀ {f : File} {leaf : Leaf} {r q : Int} {regions rs : List Region},
    lookupLoop cfg g b fuel f leaf r q regions = .ok (f', rs) → leaf ∈ f.mSegments →
    f.segments[i]? = some u → i ∉ treeIds f.mSegments → f'.segments[i]? = some u := by
  induction fuel with
  | zero =>
    intro f leaf r q regions rs h
    cases h
  | succ fuel ih =>
    intro f leaf r q regions rs h hleaf hu hi
    rcases lookupLoop_turn h with ⟨-, rfl, -⟩ | ⟨id, s, f₁, d, s₁, hval, hs, hturn, hs₁, h⟩
    · exact hu
    have hne : i ≠ id := by
      rintro rfl
      exact hi (List.mem_filterMap.mpr ⟨leaf, hleaf, hval⟩)
    have h₁ : f₁.segments[i]? = some u ∧ i ∉ treeIds f₁.mSegments := by
      cases hturn with
      | gap _ _ he => exact allocateGap_unlinked cfg he hne hu hi
      | segment _ => exact ⟨hu, hi⟩
    rcases lookupRest_ok h with ⟨rfl, -⟩ | ⟨leaf', hnext, h⟩
    · exact h₁.1
    · exact ih h (List.mem_of_find?_eq_some hnext) h₁.1 h₁.2

section
variable (h : f.Exact) (cfg : Config) (htree : f.mSegments = L ++ ⟨k, some id⟩ :: R)
  (hL : ∀ l ∈ L, l.key < k) (hs : LeafOk f.segments k id s) (hgap : s.mIsGap = true)
  (hR : Chain f.segments f.mAllocOffset (s.mOffset + s.mSize) R) (hkr : k ≤ r)
  (hr : r < s.mOffset + s.mSize) (hrb : r < b) (hb : b ≤ f.mAllocOffset)
  (hlt : f.mAllocOffset < 2 ^ 63)
include h htree hL hs hgap hR hkr hr hrb hb hlt

omit hL in
/-- The segments that a gap leaves when it gets its memory. -/
theorem Exact.alloc_filled {d : Int} (halloc : f.allocateGap cfg id s r (b - r) = .ok (f₁, d)) :
    ∃ n', f.segments.length ≤ n' ∧ Filled f f₁.segments s (align r cfg.segmentSize)
      (gapEnd cfg b s) id f.segments.length n' := by
  have hm : (⟨k, some id⟩ : Leaf) ∈ f.mSegments := by simp [htree]
  have hk : 0 ≤ k := h.layout.chain.key_ge _ hm
  have hoff : s.mOffset = k := h.offset hm hs.seg
  have hle := hR.le
  have hid := (List.getElem?_eq_some_iff.mp hs.seg).1
  rw [allocateGap_segments cfg (hs.ok.gap hgap) (by omega) (by omega) (by omega) (by omega) halloc]
  exact ⟨_, Nat.le_add_right _ _, f.filled_of_segments hid s _ _⟩

omit hL in
/-- A gap in which the range ends is aligned when the sizes of its parts do not wrap. -/
theorem Exact.aligned_of_end {d : Int} (halloc : f.allocateGap cfg id s r (b - r) = .ok (f₁, d))
    (hend : b ≤ s.mOffset + s.mSize)
    (hnew : ∀ i, f.segments.length ≤ i → ∀ u, f₁.segments[i]? = some u → 0 ≤ u.mSize) :
    GapAligned cfg r b k (s.mOffset + s.mSize) := by
  have hm : (⟨k, some id⟩ : Leaf) ∈ f.mSegments := by simp [htree]
  have hoff : s.mOffset = k := h.offset hm hs.seg
  obtain ⟨n', hn', hfill⟩ := h.alloc_filled cfg htree hs hgap hR hkr hr hrb hb hlt halloc
  constructor
  · by_contra hlt'
    rw [max_eq_left hkr] at hlt'
    have hsize := hnew _ le_rfl _ (hfill.front (by omega))
    simp only [Segment.new] at hsize
    omega
  · intro hgt
    omega
  · intro hlt'
    by_contra hgt
    have hge : gapEnd cfg b s = xalign b cfg.segmentSize := if_pos hlt'
    have hsize := hnew _ hn' _ (hfill.back (by omega))
    simp only [Segment.new] at hsize
    omega

/-- A lookup that goes on behind the gap has found its start aligned. -/
theorem Exact.front_of_beyond {fuel : Nat} {d x q : Int} {leaf : Leaf} {regions rs : List Region}
    (halloc : f.allocateGap cfg id s r (b - r) = .ok (f₁, d)) (hend : s.mOffset + s.mSize < b)
    (hnext : IntervalMap.next f₁.mSegments k = some leaf) (hx : x = s.mOffset + s.mSize)
    (he : lookupLoop cfg true b fuel f₁ leaf x q regions = .ok (f', rs))
    (hnew : ∀ i, f.segments.length ≤ i → ∀ u, f'.segments[i]? = some u → 0 ≤ u.mSize) :
    align r cfg.segmentSize = k := by
  have hm : (⟨k, some id⟩ : Leaf) ∈ f.mSegments := by simp [htree]
  have hk : 0 ≤ k := h.layout.chain.key_ge _ hm
  have hoff : s.mOffset = k := h.offset hm hs.seg
  rcases lt_trichotomy (align r cfg.segmentSize) k with ho | ho | ho
  · -- the segment of the gap in front is not linked, and stays with its size
    obtain ⟨n', -, hfill⟩ := h.alloc_filled cfg htree hs hgap hR hkr hr hrb hb hlt halloc
    have hun : f.segments.length ∉ treeIds f₁.mSegments := by
      obtain ⟨segs, n, n', he', -⟩ := h.layout.allocateGap_tree cfg htree hL hs hgap hR hk hkr
        hr hrb hb (by omega) (.inl hoff) rfl rfl
      obtain ⟨rfl, -⟩ := Prod.mk.inj (Except.ok.inj (halloc.symm.trans he'))
      have hfl : frontLeaves s (align r cfg.segmentSize) k id n = [⟨k, some id⟩] :=
        if_pos (by omega)
      have hbl : backLeaves s (gapEnd cfg b s) n' = [] := if_neg (by
        rw [gapEnd, if_neg (by omega)]
        omega)
      simp only [hfl, hbl, List.append_nil, List.append_assoc, List.singleton_append, ← htree]
      exact fun hm' => lt_irrefl _ (h.layout.chain.id_lt _ hm')
    have hstay := lookupLoop_unlinked cfg true b fuel he (List.mem_of_find?_eq_some hnext)
      (hfill.front (by omega)) hun
    have hsize := hnew _ le_rfl _ hstay
    simp only [Segment.new] at hsize
    omega
  · exact ho
  · -- after a gap in front the loop comes to the segment again
    obtain ⟨f₂, d₂, u, halloc', hu, hstop, hnext'⟩ := h.layout.split_next cfg hm hs.seg hgap hoff ho
      hr hend hb hlt
    obtain ⟨rfl, -⟩ := Prod.mk.inj (Except.ok.inj (halloc.symm.trans halloc'))
    obtain rfl := Option.some.inj (hnext.symm.trans hnext')
    cases fuel with
    | zero => cases he
    | succ fuel =>
      rw [lookupLoop_revisit cfg hu (by omega)] at he
      cases he

/-- A lookup that returns and whose sizes do not wrap has found its first gap aligned. -/
theorem Exact.aligned_of_sizes {fuel : Nat} {regions rs : List Region}
    (he : lookupLoop cfg true b (fuel + 1) f ⟨k, some id⟩ r (b - r) regions = .ok (f', rs))
    (hsizes : ∀ (i : Nat) (u : Segment), f'.segments[i]? = some u → f.segments[i]? ≠ some u →
      0 ≤ u.mSize) : GapAligned cfg r b k (s.mOffset + s.mSize) := by
  have hnew : ∀ i, f.segments.length ≤ i → ∀ u, f'.segments[i]? = some u → 0 ≤ u.mSize := by
    intro i hi u hu
    refine hsizes i u hu ?_
    rw [List.getElem?_eq_none hi]
    simp
  rcases lookupLoop_turn he with ⟨hval, -⟩ | ⟨id', s', f₁, d, s₁, hval, hs', hturn, -, he⟩
  · cases hval
  obtain rfl := Option.some.inj hval
  obtain rfl : s = s' := Except.ok.inj ((segment_eq hs.seg).symm.trans hs')
  cases hturn with
  | segment hno => exact absurd hgap (by simp [hno rfl])
  | gap _ _ halloc =>
    by_cases hend : b ≤ s.mOffset + s.mSize
    · rw [lookupRest, if_pos hend] at he
      cases he
      exact h.aligned_of_end cfg htree hs hgap hR hkr hr hrb hb hlt halloc hend hnew
    rw [lookupRest, if_neg hend] at he
    split at he
    · cases he
    next leaf hnext =>
    have ho := h.front_of_beyond cfg htree hL hs hgap hR hkr hr hrb hb hlt halloc (by omega) hnext
      rfl he hnew
    exact ⟨by rw [max_eq_left hkr]; exact ho.ge, fun _ => by rw [max_eq_left hkr]; exact ho,
      fun hb' => absurd hb' (by omega)⟩

end

/-- A lookup that returns and whose sizes do not wrap has found every gap aligned. -/
theorem Exact.lookupLoop_aligned (cfg : Config) (b : Int) (fuel : Nat) :
    ∀ {f : File} {L R : List Leaf} {k r : Int} {id : Nat} {s : Segment} {regions rs : List Region},
    f.Exact → f.mSegments = L ++ ⟨k, some id⟩ :: R → (∀ l ∈ L, l.key < k) →
    LeafOk f.segments k id s → Chain f.segments f.mAllocOffset (s.mOffset + s.mSize) R →
    k ≤ r → r < s.mOffset + s.mSize → r < b → b ≤ f.mAllocOffset → f.mAllocOffset < 2 ^ 63 →
    lookupLoop cfg true b fuel f ⟨k, some id⟩ r (b - r) regions = .ok (f', rs) →
    (∀ (i : Nat) (u : Segment), f'.segments[i]? = some u → f.segments[i]? ≠ some u →
      0 ≤ u.mSize) →
    ∀ l ∈ (⟨k, some id⟩ :: R : List Leaf), LeafAligned cfg f r b l := by
  induction fuel with
  | zero =>
    intro f L R k r id s regions rs _ _ _ _ _ _ _ _ _ _ he
    cases he
  | succ fuel ih =>
    intro f L R k r id s regions rs h htree hL hs hR hkr hr hrb hb hlt he hsizes
    have hfirst : s.mIsGap = true → GapAligned cfg r b k (s.mOffset + s.mSize) := fun hg =>
      h.aligned_of_sizes cfg htree hL hs hg hR hkr hr hrb hb hlt he hsizes
    obtain ⟨f₁, regions', hfills, hsame, hkeep, hlast, hgo⟩ :=
      h.loop_step cfg htree hL hs hR hkr hr hrb hb hlt hfirst fuel regions
    rintro ⟨k', v⟩ hl i hv u hu hg hk' hu'
    rcases List.mem_cons.mp hl with hl | hl
    · obtain ⟨rfl, rfl⟩ : k' = k ∧ v = some id := by simpa using hl
      obtain rfl := Option.some.inj hv
      obtain rfl := Option.some.inj (hs.seg.symm.trans hu)
      exact hfirst hg
    · have hge : s.mOffset + s.mSize ≤ k' := hR.key_ge _ hl
      have hend : s.mOffset + s.mSize < b := by
        simp only at hk'
        omega
      rw [min_eq_right hend.le] at hfills
      obtain ⟨htree₁, hnext⟩ := hgo hend
      obtain ⟨id', s', R', hR', hs', hchain', hiff⟩ :=
        h.next_leaf htree hs hR (by omega) hsame.alloc hkeep
      have hL' := hs.keys_lt_end hL
      have hsizes' : ∀ (i : Nat) (u : Segment), f'.segments[i]? = some u →
          f₁.segments[i]? ≠ some u → 0 ≤ u.mSize := by
        intro i u hu hne
        by_cases hf : f.segments[i]? = some u
        · have hii : i = id := by
            by_contra hii
            exact hne (hkeep i hii u hf)
          rw [hii, hs.seg] at hf
          obtain rfl := Option.some.inj hf
          have hoff := hs.offset_le
          have hpos := hs.lt_end
          omega
        · exact hsizes i u hu hf
      rw [hnext _ _ hR'] at he
      have hrest := ih (L := L ++ [⟨k, some id⟩]) hfills.exact (by rw [htree₁, hR']; simp) hL' hs'
        hchain' le_rfl hs'.lt_end hend (by rw [hsame.alloc]; exact hb)
        (by rw [hsame.alloc]; exact hlt) he hsizes'
      rw [← hR'] at hrest
      have hi : i ∈ treeIds R := List.mem_filterMap.mpr ⟨_, hl, hv⟩
      have hm : (⟨k', v⟩ : Leaf) ∈ f.mSegments := by
        rw [htree]
        exact List.mem_append_right _ (List.mem_cons_of_mem _ hl)
      have hend' : s.mOffset + s.mSize < u.mOffset + u.mSize := by
        rw [show v = some i from hv] at hm
        exact hge.trans_lt (h.layout.leafOk hm hu).lt_end
      exact (hrest _ hl i hv u ((hiff i hi u).mp hu) hg hk' hend').later hge (hr.le.trans hge)

/-- The lookup returns, and leaves `f` with memory for `[a, b)`. -/
def LookupFills (cfg : Config) (f : File) (a b : Int) : Prop :=
  ∃ f' rs, f.lookupSegments cfg a b = .ok (f', rs) ∧ Fills f a b f'

theorem Layout.lookupSegments_eq (h : f.Layout) (cfg : Config) (ha : 0 ≤ a) (hab : a < b)
    (hb : b ≤ f.mAllocOffset) : ∃ L k id s R, f.mSegments = L ++ ⟨k, some id⟩ :: R ∧
      (∀ l ∈ L, l.key < k) ∧ LeafOk f.segments k id s ∧ k ≤ a ∧ a < s.mOffset + s.mSize ∧
      Chain f.segments f.mAllocOffset (s.mOffset + s.mSize) R ∧
      f.lookupSegments cfg a b = lookupLoop cfg true b (2 * f.mSegments.length + 2) f
        ⟨k, some id⟩ a (b - a) [] := by
  obtain ⟨L, k, id, s, R, ht, hL, hs, hk, hr, hR⟩ :=
    h.chain.locate ha (show a < f.mAllocOffset by omega)
  have hsearch := h.search_leaf (show ⟨k, some id⟩ ∈ f.mSegments by simp [ht]) hs.seg hk hr
  refine ⟨L, k, id, s, R, ht, hL, hs, hk, hr, hR, ?_⟩
  unfold lookupSegments
  rw [check_ok ha, ok_bind, check_ok hab.le, ok_bind]
  unfold lookupHelper
  rw [if_neg (by omega), hsearch]

theorem Exact.lookup_fills (cfg : Config) (h : f.Exact) (ha : 0 ≤ a) (hab : a < b)
    (hb : b ≤ f.mAllocOffset) (hlt : f.mAllocOffset < 2 ^ 63)
    (hal : ∀ l ∈ f.mSegments, LeafAligned cfg f a b l) : LookupFills cfg f a b := by
  obtain ⟨L, k, id, s, R, ht, hL, hs, hk, hr, hR, hlook⟩ :=
    h.layout.lookupSegments_eq cfg ha hab hb
  have hfuel : R.length < 2 * f.mSegments.length + 2 := by
    rw [ht, List.length_append, List.length_cons]
    omega
  unfold LookupFills
  rw [hlook]
  refine Exact.lookupLoop_fills cfg b _ [] h ht hL hs hR hk hr hab hb hlt hfuel fun l hl =>
    hal l ?_
  rw [ht]
  exact List.mem_append_right _ hl

theorem Exact.lookup_aligned (cfg : Config) (h : f.Exact) (ha : 0 ≤ a) (hab : a < b)
    (hb : b ≤ f.mAllocOffset) (hlt : f.mAllocOffset < 2 ^ 63) (hfills : LookupFills cfg f a b) :
    ∀ l ∈ f.mSegments, LeafAligned cfg f a b l := by
  obtain ⟨f', rs, he, hfills⟩ := hfills
  obtain ⟨L, k, id, s, R, ht, hL, hs, hk, hr, hR, hlook⟩ :=
    h.layout.lookupSegments_eq cfg ha hab hb
  rw [hlook] at he
  intro l hl
  have hmem := hl
  rw [ht] at hl
  rcases List.mem_append.mp hl with hl | hl
  · -- a leaf before the first one ends before the range
    rintro i hi u hu - - hlt'
    have hm : (⟨l.key, some i⟩ : Leaf) ∈ f.mSegments := by
      rw [← show l.val = some i from hi]
      exact hmem
    have hm' : (⟨k, some id⟩ : Leaf) ∈ f.mSegments := by simp [ht]
    have := h.layout.end_le hm hu hm' (hL l hl)
    omega
  · exact Exact.lookupLoop_aligned cfg b _ h ht hL hs hR hk hr hab hb hlt he hfills.sizes l hl

/-- On a file whose segments tile the allocated part, a lookup for a write leaves such a
file with memory for its range if and only if the gaps it meets are aligned for it. -/
theorem lookupSegments_fills_iff (cfg : Config) (h : f.Exact) (ha : 0 ≤ a) (hab : a < b)
    (hb : b ≤ f.mAllocOffset) (hlt : f.mAllocOffset < 2 ^ 63) :
    LookupFills cfg f a b ↔ ∀ l ∈ f.mSegments, LeafAligned cfg f a b l :=
  ⟨h.lookup_aligned cfg ha hab hb hlt, h.lookup_fills cfg ha hab hb hlt⟩

/-- An empty file after a write of one byte at 20000: a gap and a segment. -/
def holeFile : File where
  segments := [.new 0 16384 true, .new 16384 8192 false]
  mSegments := [⟨0, some 0⟩, ⟨16384, some 1⟩, ⟨24576, none⟩]
  mAllocOffset := 24576
  mUsedOffset := 20001
  stSize := 20001
  mSegmentSize := 8192
  unmaps := []

theorem holeFile_exact : holeFile.Exact where
  layout := ⟨.cons ⟨rfl, by decide, by decide, segOk_new _ _ _⟩
    (.cons ⟨rfl, by decide, by decide, segOk_new _ _ _⟩ .last)⟩
  offset := by
    intro k id s hm hs
    have hor : k = 0 ∧ id = 0 ∨ k = 16384 ∧ id = 1 := by simpa [holeFile] using hm
    rcases hor with ⟨rfl, rfl⟩ | ⟨rfl, rfl⟩
    · exact congrArg Segment.mOffset (Option.some.inj hs).symm
    · exact congrArg Segment.mOffset (Option.some.inj hs).symm

/-- Memory for a range that starts in the gap and ends behind it. -/
theorem lookupSegments_fills_holeFile : LookupFills .default holeFile 100 20000 := by
  refine (lookupSegments_fills_iff .default holeFile_exact (by decide) (by decide) (by decide)
    (by decide)).mpr ?_
  intro l hl id hid s hs hg _ _
  have hor : l = ⟨0, some 0⟩ ∨ l = ⟨16384, some 1⟩ ∨ l = ⟨24576, none⟩ := by
    simpa [holeFile] using hl
  rcases hor with rfl | rfl | rfl
  · obtain rfl := Option.some.inj hid
    obtain rfl := Option.some.inj hs
    exact ⟨by decide, fun _ => by decide, fun hlt => absurd hlt (by decide)⟩
  · obtain rfl := Option.some.inj hid
    obtain rfl := Option.some.inj hs
    cases hg
  · cases hid

/-- Memory for one byte of the gap: rounding up passes the end of the gap. -/
theorem lookup_wraps : ¬∀ (cfg : Config) (f : File) (a b : Int), f.Exact → 0 ≤ a → a < b →
    b ≤ f.mAllocOffset → f.mAllocOffset < 2 ^ 63 →
    (∃ k id s, ⟨k, some id⟩ ∈ f.mSegments ∧ f.segments[id]? = some s ∧ s.mIsGap = true ∧ k < b ∧
      a < s.mOffset + s.mSize) → LookupFills cfg f a b := by
  intro hclaim
  have hfills := hclaim .default holeFile 100 101 holeFile_exact (by decide) (by decide)
    (by decide) (by decide) ⟨0, 0, _, List.mem_cons_self, rfl, rfl, by decide, by decide⟩
  have hal := holeFile_exact.lookup_aligned .default (by decide) (by decide) (by decide)
    (by decide) hfills ⟨0, some 0⟩ List.mem_cons_self 0 rfl _ rfl rfl (by decide) (by decide)
  exact absurd (hal.back (by decide)) (by decide)

end File
end EchoFs.Nvml
