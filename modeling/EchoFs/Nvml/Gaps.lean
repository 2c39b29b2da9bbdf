import EchoFs.Nvml.Storage

/-! Writes into gaps: the memory a gap gets, the gaps left before and after it,
and the condition under which the tree and the segments still agree. -/

namespace EchoFs.Nvml
open Checked IntervalMap Memory

/-- The memory for a request that ends at `b` stays inside the gap: it does not
pass the end of the gap, and a gap whose segment starts before its leaf `k` gets no
gap in front. -/
structure GapFits (cfg : Config) (start b k : Int) (s : Segment) : Prop where
  front : s.mOffset = k ∨ align (max start k) cfg.segmentSize ≤ s.mOffset
  back : b < s.mOffset + s.mSize → xalign b cfg.segmentSize ≤ s.mOffset + s.mSize

theorem GapFits.later {cfg : Config} {start start' b k : Int} {s : Segment}
    (h : GapFits cfg start b k s) (hk : start ≤ k) (hk' : start' ≤ k) :
    GapFits cfg start' b k s := by
  refine ⟨?_, h.back⟩
  have hfront := h.front
  rw [max_eq_right hk] at hfront
  rwa [max_eq_right hk']

/-- Where the memory for a request that ends at `b` ends. -/
def gapEnd (cfg : Config) (b : Int) (s : Segment) : Int :=
  if b < s.mOffset + s.mSize then xalign b cfg.segmentSize else s.mOffset + s.mSize

theorem lt_gapEnd {cfg : Config} {r b : Int} {s : Segment} (hr : r < s.mOffset + s.mSize)
    (hrb : r < b) : r < gapEnd cfg b s := by
  have hbx := lt_xalign (n := b) cfg.pos
  unfold gapEnd
  split_ifs
  · exact hrb.trans hbx
  · exact hr

theorem gapEnd_bounds {cfg : Config} {r b : Int} {s : Segment} (hr : r < s.mOffset + s.mSize)
    (hrb : r < b) (hback : b < s.mOffset + s.mSize →
      xalign b cfg.segmentSize ≤ s.mOffset + s.mSize) :
    r < gapEnd cfg b s ∧ gapEnd cfg b s ≤ s.mOffset + s.mSize := by
  refine ⟨lt_gapEnd hr hrb, ?_⟩
  unfold gapEnd
  split_ifs with hcase
  · exact hback hcase
  · exact le_rfl

theorem min_le_gapEnd (cfg : Config) (b : Int) (s : Segment) :
    min b (s.mOffset + s.mSize) ≤ gapEnd cfg b s := by
  have hbx := lt_xalign (n := b) cfg.pos
  unfold gapEnd
  split_ifs
  · exact (min_le_left _ _).trans hbx.le
  · exact min_le_right _ _

/-- The segment of a gap once it has memory from `o` to `e`. -/
def Segment.filled (s : Segment) (o e : Int) : Segment :=
  { s with
    mOffset := o, mSize := e - o, mIsGap := false, mData := some fun _ => 0,
    mLength := some (e - o) }

/-- The leaves of a gap up to the end of its memory; `n` is the gap in front. -/
def frontLeaves (s : Segment) (o k : Int) (id n : Nat) : List Leaf :=
  if o ≤ s.mOffset then [⟨k, some id⟩] else [⟨k, some n⟩, ⟨o, some id⟩]

/-- A new gap, unless its size is zero, and its place among the segments. -/
def newGap (o size : Int) : List Segment := if size = 0 then [] else [.new o size true]

def newId (size : Int) (n : Nat) : List Nat := if size = 0 then [] else [n]

def backLeaves (s : Segment) (e : Int) (n : Nat) : List Leaf :=
  if e < s.mOffset + s.mSize then [⟨e, some n⟩] else []

theorem Chain.tail_key_lt {segs : List Segment} {alloc lo : Int} {l : Leaf} {R : List Leaf}
    (h : Chain segs alloc lo (l :: R)) : ∀ m ∈ R, lo < m.key := by
  cases h with
  | last => simp
  | cons hs h => exact fun m hm => hs.lt_end.trans_le (h.key_ge m hm)

theorem Chain.first {segs : List Segment} {alloc lo : Int} {t : List Leaf}
    (h : Chain segs alloc lo t) (hlt : lo < alloc) : ∃ id s R, t = ⟨lo, some id⟩ :: R ∧
      LeafOk segs lo id s ∧ Chain segs alloc (s.mOffset + s.mSize) R := by
  cases h with
  | last => exact absurd hlt (lt_irrefl _)
  | cons hs h => exact ⟨_, _, _, rfl, hs, h⟩

/-- The same in a list where only other segments have changed. -/
theorem Chain.next_leaf {segs segs' : List Segment} {alloc lo : Int} {t : List Leaf}
    (h : Chain segs alloc lo t) (hlt : lo < alloc)
    (hkeep : ∀ i ∈ treeIds t, segs'[i]? = segs[i]?) : ∃ id s R, t = ⟨lo, some id⟩ :: R ∧
      LeafOk segs' lo id s ∧ Chain segs' alloc (s.mOffset + s.mSize) R := by
  obtain ⟨id, s, R, rfl, hs, hR⟩ := h.first hlt
  have hs' : segs'[id]? = some s := (hkeep id (by simp [treeIds])).trans hs.seg
  refine ⟨id, s, R, rfl, ⟨hs', hs.offset_le, hs.lt_end, hs.ok⟩, ?_⟩
  refine hR.mono fun i hi u hu => (hkeep i ?_).trans hu
  simp only [treeIds, List.filterMap_cons]
  exact List.mem_cons_of_mem _ hi

theorem Chain.mem_before {segs : List Segment} {alloc k e : Int} {id : Nat} {L R : List Leaf}
    (hR : Chain segs alloc e R) (hke : k < e) {j : Int} {i : Nat}
    (hj : (⟨j, some i⟩ : Leaf) ∈ L ++ ⟨k, some id⟩ :: R) (hjk : j < k) :
    (⟨j, some i⟩ : Leaf) ∈ L := by
  rw [List.mem_append, List.mem_cons] at hj
  rcases hj with hj | hj | hj
  · exact hj
  · exact absurd (congrArg Leaf.key hj) hjk.ne
  · exact absurd (hR.key_ge _ hj) (not_le.mpr (hjk.trans hke))

/-- Behind the leaf of a gap in front comes the segment that was split. -/
theorem next_front {L R : List Leaf} {k o : Int} {id n : Nat} (hL : ∀ l ∈ L, l.key < k)
    (hko : k < o) (hR : ∀ l ∈ R, k < l.key) :
    IntervalMap.next (L ++ ⟨k, some n⟩ :: ⟨o, some id⟩ :: R) k = some ⟨o, some id⟩ := by
  refine next_mid (L := L) (l := (⟨k, some n⟩ : Leaf)) (R := ⟨o, some id⟩ :: R) hL ?_
  intro l hl
  rcases List.mem_cons.mp hl with rfl | hl
  · exact hko
  · exact hR l hl

theorem mem_frontLeaves_key {s : Segment} {o k r : Int} {id n : Nat} (ho : o ≤ r) (hk : k ≤ r) :
    ∀ l ∈ frontLeaves s o k id n, l.key ≤ r := by
  intro l hl
  unfold frontLeaves at hl
  split_ifs at hl
  · rw [List.mem_singleton.mp hl]
    exact hk
  · rcases List.mem_cons.mp hl with rfl | hl
    · exact hk
    · rw [List.mem_singleton.mp hl]
      exact ho

theorem treeIds_frontLeaves {s : Segment} {o k : Int} {id n i : Nat}
    (hi : i ∈ treeIds (frontLeaves s o k id n)) : i = id ∨ i = n ∧ ¬ o ≤ s.mOffset := by
  unfold frontLeaves at hi
  split_ifs at hi with ho
  · exact .inl (by simpa [treeIds] using hi)
  · have : i = n ∨ i = id := by simpa [treeIds] using hi
    rcases this with h | h
    · exact .inr ⟨h, ho⟩
    · exact .inl h

namespace File
variable {f : File} {L R : List Leaf} {b k r o e : Int} {id n : Nat} {s : Segment}

/-- The gap in front is linked, unless its size is negative. -/
theorem link_front (sl : List Nat) (htree : f.mSegments = L ++ ⟨k, some id⟩ :: R)
    (hn : o - s.mOffset ≠ 0 → f.segments[n]? = some (.new s.mOffset (o - s.mOffset) true))
    (hL : ∀ l ∈ L, l.key < k) (hR : ∀ l ∈ R, o < l.key) (hfront : s.mOffset = k ∨ o ≤ s.mOffset)
    (hid : n ≠ id) (hfresh : n ∉ treeIds L) :
    f.linkSegments (newId (o - s.mOffset) n ++ sl) =
      File.linkSegments { f with mSegments := L ++ frontLeaves s o k id n ++ R } sl := by
  unfold newId
  by_cases hz : o - s.mOffset = 0
  · have hleaves : L ++ frontLeaves s o k id n ++ R = f.mSegments := by
      rw [htree, frontLeaves, if_pos (by omega)]
      simp
    rw [if_pos hz, hleaves]
    rfl
  rw [if_neg hz, List.singleton_append, linkSegments_cons (hn hz)]
  have hend : s.mOffset + (o - s.mOffset) = o := by omega
  simp only [Segment.new, hend]
  unfold frontLeaves
  split_ifs with ho
  · rw [htree]
    unfold IntervalMap.insert
    rw [if_pos ho]
    simp
  · obtain rfl : s.mOffset = k := hfront.resolve_right ho
    have hsearch : search (L ++ [(⟨s.mOffset, some id⟩ : Leaf)] ++ R) o =
        some ⟨s.mOffset, some id⟩ := by
      rw [List.append_assoc]
      exact search_mid (fun l hl => (hL l hl).le.trans (not_le.mp ho).le) (not_le.mp ho).le hR
    have := insert_fresh (L := L) (M := [(⟨s.mOffset, some id⟩ : Leaf)]) (R := R) (v := some n)
      (w := some id) (not_le.mp ho) hL (by simp [(not_le.mp ho).le]) hR (by rw [hsearch]; rfl)
      (by simpa using hid.symm) fun l hl he => hfresh (List.mem_filterMap.mpr ⟨l, hl, he⟩)
    rw [htree, List.append_cons, this]
    simp

/-- The gap behind is linked before the leaves that follow, unless its size is negative. -/
theorem link_back {v : Option Nat} {X : List Leaf}
    (htree : f.mSegments = X ++ ⟨s.mOffset + s.mSize, v⟩ :: R)
    (hn : s.mOffset + s.mSize - e ≠ 0 →
      f.segments[n]? = some (.new e (s.mOffset + s.mSize - e) true))
    (hX : ∀ l ∈ X, l.key < e) (hR : ∀ l ∈ R, s.mOffset + s.mSize < l.key)
    (hfresh : n ∉ treeIds X) (hv : v ≠ some n) :
    f.linkSegments (newId (s.mOffset + s.mSize - e) n) = .ok { f with
      mSegments := X ++ backLeaves s e n ++ ⟨s.mOffset + s.mSize, v⟩ :: R } := by
  unfold newId backLeaves
  by_cases hz : s.mOffset + s.mSize - e = 0
  · rw [if_pos hz, if_neg (by omega), List.append_nil, ← htree]
    rfl
  have hend : e + (s.mOffset + s.mSize - e) = s.mOffset + s.mSize := by omega
  rw [if_neg hz, linkSegments_cons (hn hz), linkSegments_nil]
  simp only [Segment.new, hend]
  by_cases hlt : e < s.mOffset + s.mSize
  · have hsearch : search (X ++ [(⟨s.mOffset + s.mSize, v⟩ : Leaf)] ++ R) (s.mOffset + s.mSize) =
        some ⟨s.mOffset + s.mSize, v⟩ := by
      rw [List.append_assoc]
      exact search_mid (fun l hl => ((hX l hl).trans hlt).le) le_rfl hR
    have := insert_fresh (L := X) (M := [(⟨s.mOffset + s.mSize, v⟩ : Leaf)]) (R := R)
      (v := some n) (w := v) hlt hX (by simp [hlt.le]) hR (by rw [hsearch]; rfl) hv
      fun l hl he => hfresh (List.mem_filterMap.mpr ⟨l, hl, he⟩)
    rw [if_pos hlt, htree, List.append_cons, this]
    simp
  · unfold IntervalMap.insert
    rw [if_pos (not_lt.mp hlt), if_neg hlt, List.append_nil, ← htree]

/-- The segments after a gap got memory: the rest is as before. -/
structure Filled (f : File) (segs : List Segment) (s : Segment) (o e : Int) (id n n' : Nat) :
    Prop where
  filled : segs[id]? = some (s.filled o e)
  others : ∀ i < f.segments.length, i ≠ id → segs[i]? = f.segments[i]?
  front : o - s.mOffset ≠ 0 → segs[n]? = some (.new s.mOffset (o - s.mOffset) true)
  back : s.mOffset + s.mSize - e ≠ 0 → segs[n']? = some (.new e (s.mOffset + s.mSize - e) true)

theorem filled_of_segments (f : File) (hid : id < f.segments.length) (s : Segment) (o e : Int) :
    Filled f (f.segments.set id (s.filled o e) ++ newGap s.mOffset (o - s.mOffset) ++
        newGap e (s.mOffset + s.mSize - e)) s o e id f.segments.length
      (f.segments.length + (newGap s.mOffset (o - s.mOffset)).length) := by
  have hlen : (f.segments.set id (s.filled o e)).length = f.segments.length := List.length_set
  have hkeep : ∀ i < f.segments.length, (f.segments.set id (s.filled o e) ++
      newGap s.mOffset (o - s.mOffset) ++ newGap e (s.mOffset + s.mSize - e))[i]? =
      (f.segments.set id (s.filled o e))[i]? := by
    intro i hi
    rw [List.append_assoc, List.getElem?_append_left (by omega)]
  constructor
  · rw [hkeep id hid]
    exact List.getElem?_set_self hid
  · intro i hi hne
    rw [hkeep i hi]
    exact List.getElem?_set_ne hne.symm
  · intro ho
    rw [List.append_assoc, List.getElem?_append_right hlen.le, hlen, Nat.sub_self, newGap,
      if_neg ho]
    rfl
  · intro he
    rw [List.getElem?_append_right (by rw [List.length_append, hlen]), List.length_append, hlen,
      Nat.sub_self, newGap, if_neg he]
    rfl

theorem allocateGap_eq (cfg : Config) (hdata : s.mData = none) (hr : 0 ≤ b) (hb : b < 2 ^ 64)
    (hg : 0 ≤ s.mOffset + s.mSize) (hglt : s.mOffset + s.mSize < 2 ^ 64)
    (ho : o = align r cfg.segmentSize) (he : e = gapEnd cfg b s) :
    f.allocateGap cfg id s r (b - r) =
      (linkSegments { f with
        segments := f.segments.set id (s.filled o e) ++ newGap s.mOffset (o - s.mOffset) ++
          newGap e (s.mOffset + s.mSize - e) }
        (newId (o - s.mOffset) f.segments.length ++ newId (s.mOffset + s.mSize - e)
          (f.segments.length + (newGap s.mOffset (o - s.mOffset)).length))).map (·, r - o) := by
  have hcond : toSize (r + (b - r)) < toSize (s.mOffset + s.mSize) ↔ b < s.mOffset + s.mSize := by
    unfold toSize
    rw [add_sub_cancel, Int.emod_eq_of_lt hr hb, Int.emod_eq_of_lt hg hglt]
    omega
  have hsize : (if toSize (r + (b - r)) < toSize (s.mOffset + s.mSize) then
      xalign (r + (b - r)) cfg.segmentSize - o else s.mOffset + s.mSize - o) = e - o := by
    rw [if_congr hcond rfl rfl, he, add_sub_cancel]
    unfold gapEnd
    split_ifs <;> rfl
  have halloc : s.allocate o (e - o) = .ok (s.filled o e) := by
    simp only [Segment.allocate, hdata, Option.isNone_none, check_ok, ok_bind, pure_eq_ok,
      Segment.filled]
  have hend : o + (e - o) = e := by omega
  have hdelta : r - (s.mOffset + (o - s.mOffset)) = r - o := by omega
  unfold allocateGap
  simp only [← ho, hsize, halloc, ok_bind, insertSegments, createSegment, setSegment, hend, hdelta,
    ne_eq, ite_not, pure_eq_ok]
  by_cases h₁ : o - s.mOffset = 0 <;> by_cases h₂ : s.mOffset + s.mSize - e = 0 <;>
    simp only [newGap, newId, h₁, h₂, if_true, if_false, List.length_set, List.length_append,
      List.length_singleton, List.length_nil, List.append_nil, List.nil_append,
      Nat.add_zero] <;> rfl

theorem Layout.allocateGap_tree (h : f.Layout) (cfg : Config)
    (htree : f.mSegments = L ++ ⟨k, some id⟩ :: R) (hL : ∀ l ∈ L, l.key < k)
    (hs : LeafOk f.segments k id s) (hgap : s.mIsGap = true)
    (hR : Chain f.segments f.mAllocOffset (s.mOffset + s.mSize) R) (hk : 0 ≤ k) (hkr : k ≤ r)
    (hr : r < s.mOffset + s.mSize) (hrb : r < b) (hb : b ≤ f.mAllocOffset)
    (hlt : f.mAllocOffset < 2 ^ 64) (hfront : s.mOffset = k ∨ o ≤ s.mOffset)
    (ho : o = align r cfg.segmentSize) (he : e = gapEnd cfg b s) :
    ∃ segs n n', f.allocateGap cfg id s r (b - r) = .ok ({ f with
        segments := segs
        mSegments := L ++ frontLeaves s o k id n ++ backLeaves s e n' ++ R }, r - o) ∧
      Filled f segs s o e id n n' := by
  have hor : o ≤ r := ho ▸ align_le _ _
  have hle := hR.le
  have hre : r < e := he ▸ lt_gapEnd hr hrb
  have hid : id < f.segments.length := (List.getElem?_eq_some_iff.mp hs.seg).1
  have hids : ∀ i ∈ treeIds f.mSegments, i < f.segments.length := h.chain.id_lt
  have hidL : ∀ i ∈ treeIds L, i < f.segments.length := fun i hi => hids i (by
    rw [htree, treeIds_append]
    exact List.mem_append_left _ hi)
  have hidR : ∀ i ∈ treeIds R, i < f.segments.length := hR.id_lt
  have hRo : ∀ l ∈ R, o < l.key := fun l hl => by
    have := hR.key_ge l hl
    omega
  obtain ⟨v, R', rfl⟩ := hR.head
  have hR' := hR.tail_key_lt
  have hv : ∀ i, f.segments.length ≤ i → v ≠ some i := by
    rintro i hi rfl
    have := hidR i (by simp [treeIds])
    omega
  have hn : f.segments.length ∉ treeIds L := fun hm => absurd (hidL _ hm) (lt_irrefl _)
  set n := f.segments.length with hndef
  set n' := n + (newGap s.mOffset (o - s.mOffset)).length with hn'def
  have hX : ∀ l ∈ L ++ frontLeaves s o k id n, l.key < e := by
    intro l hl
    rcases List.mem_append.mp hl with hl | hl
    · have := hL l hl
      omega
    · have := mem_frontLeaves_key hor hkr l hl
      omega
  have hfresh : n' ∉ treeIds (L ++ frontLeaves s o k id n) := by
    intro hm
    rw [treeIds_append, List.mem_append] at hm
    rcases hm with hm | hm
    · have := hidL n' hm
      omega
    · rcases treeIds_frontLeaves hm with hid' | ⟨hnn, hno⟩
      · omega
      · have hone : (newGap s.mOffset (o - s.mOffset)).length = 1 := by
          rw [newGap, if_neg (by omega)]
          rfl
        omega
  have hfilled := f.filled_of_segments hid s o e
  have hlink := link_front (newId (s.mOffset + s.mSize - e) n') (f := { f with
      segments := f.segments.set id (s.filled o e) ++ newGap s.mOffset (o - s.mOffset) ++
        newGap e (s.mOffset + s.mSize - e) }) htree hfilled.front hL hRo hfront hid.ne' hn
  have hlink' := link_back (f := { f with
      segments := f.segments.set id (s.filled o e) ++ newGap s.mOffset (o - s.mOffset) ++
        newGap e (s.mOffset + s.mSize - e)
      mSegments := L ++ frontLeaves s o k id n ++ ⟨s.mOffset + s.mSize, v⟩ :: R' })
    rfl hfilled.back hX hR' hfresh (hv n' (Nat.le_add_right _ _))
  refine ⟨_, n, n', ?_, hfilled⟩
  rw [allocateGap_eq cfg (hs.ok.gap hgap) (by omega) (by omega) (by omega) (by omega) ho he, hlink,
    hlink']
  rfl

/-- A gap that is split in front of a range that goes on behind it is the next leaf again. -/
theorem Layout.split_next (h : f.Layout) (cfg : Config) (hm : ⟨k, some id⟩ ∈ f.mSegments)
    (hs : f.segments[id]? = some s) (hg : s.mIsGap = true) (hoff : s.mOffset = k)
    (hko : k < align r cfg.segmentSize) (hr : r < s.mOffset + s.mSize)
    (heb : s.mOffset + s.mSize < b) (hb : b ≤ f.mAllocOffset) (hlt : f.mAllocOffset < 2 ^ 63) :
    ∃ f₁ d u, f.allocateGap cfg id s r (b - r) = .ok (f₁, d) ∧ f₁.segments[id]? = some u ∧
      s.mOffset + s.mSize = u.mOffset + u.mSize ∧
      IntervalMap.next f₁.mSegments k = some ⟨align r cfg.segmentSize, some id⟩ := by
  obtain ⟨L, s', R, htree, hL, hs', hR⟩ := h.chain.split hm
  obtain rfl : s' = s := by simpa [hs] using hs'.seg.symm
  have hk : 0 ≤ k := h.chain.key_ge _ hm
  have hkr : k ≤ r := hko.le.trans (align_le _ _)
  have hRk : ∀ l ∈ R, k < l.key := fun l hl => hs'.lt_end.trans_le (hR.key_ge l hl)
  have hge : gapEnd cfg b s' = s'.mOffset + s'.mSize := if_neg (by omega)
  obtain ⟨segs, n, n', he, hfill⟩ := h.allocateGap_tree cfg htree hL hs' hg hR hk hkr hr
    (by omega) hb (by omega) (.inl hoff) rfl rfl
  have htwo : frontLeaves s' (align r cfg.segmentSize) k id n =
      [⟨k, some n⟩, ⟨align r cfg.segmentSize, some id⟩] := if_neg (by omega)
  have hnone : backLeaves s' (gapEnd cfg b s') n' = [] := if_neg (by omega)
  refine ⟨_, _, _, he, hfill.filled, ?_, ?_⟩
  · simp only [Segment.filled]
    omega
  · have hnext := @next_front L R k (align r cfg.segmentSize) id n hL hko hRk
    simpa only [htwo, hnone, List.append_nil, List.append_assoc, List.cons_append,
      List.nil_append] using hnext

/-- The part of a file a lookup does not touch. -/
structure SameMeta (f f' : File) : Prop where
  alloc : f'.mAllocOffset = f.mAllocOffset
  used : f'.mUsedOffset = f.mUsedOffset
  size : f'.stSize = f.stSize
  segmentSize : f'.mSegmentSize = f.mSegmentSize

theorem Filled.chain {segs : List Segment} {alloc : Int} {n' : Nat}
    (hfill : Filled f segs s o e id n n') (hs : LeafOk f.segments k id s) (hok : o ≤ r)
    (hkr : k ≤ r) (hre : r < e) (heg : e ≤ s.mOffset + s.mSize)
    (hfront : s.mOffset = k ∨ o ≤ s.mOffset) (hR : Chain segs alloc (s.mOffset + s.mSize) R) :
    Chain segs alloc k (frontLeaves s o k id n ++ backLeaves s e n' ++ R) := by
  have hoff := hs.offset_le
  have hsegOk : SegOk (s.filled o e) := ⟨fun hg => absurd hg (by simp [Segment.filled]),
    fun _ => ⟨_, rfl, rfl⟩⟩
  have hend : (s.filled o e).mOffset + (s.filled o e).mSize = e := by
    simp only [Segment.filled]
    omega
  have htail : Chain segs alloc e (backLeaves s e n' ++ R) := by
    unfold backLeaves
    split_ifs with hlt
    · refine .cons ⟨hfill.back (by omega), le_rfl, ?_, segOk_new _ _ _⟩ ?_
      · simp only [Segment.new]
        omega
      · simp only [Segment.new, add_sub_cancel]
        exact hR
    · rwa [show e = s.mOffset + s.mSize by omega]
  have hleaf : ∀ {j : Int}, o ≤ j → j ≤ r → LeafOk segs j id (s.filled o e) := fun hoj hjr =>
    ⟨hfill.filled, hoj, by rw [hend]; omega, hsegOk⟩
  rw [List.append_assoc]
  unfold frontLeaves
  split_ifs with ho
  · refine .cons (hleaf (by omega) hkr) ?_
    rw [hend]
    exact htail
  · obtain rfl : s.mOffset = k := hfront.resolve_right ho
    refine .cons ⟨hfill.front (by omega), le_rfl, ?_, segOk_new _ _ _⟩ ?_
    · simp only [Segment.new]
      omega
    · simp only [Segment.new, add_sub_cancel]
      refine .cons (hleaf le_rfl hok) ?_
      rw [hend]
      exact htail

theorem Filled.leaf_cases {segs : List Segment} {n' i : Nat} {j : Int} {u : Segment}
    (hfill : Filled f segs s o e id n n') (h : f.Layout)
    (htree : f.mSegments = L ++ ⟨k, some id⟩ :: R) (hL : ∀ l ∈ L, l.key < k)
    (hRk : ∀ l ∈ R, k < l.key)
    (hm : ⟨j, some i⟩ ∈ L ++ frontLeaves s o k id n ++ backLeaves s e n' ++ R)
    (hu : segs[i]? = some u) :
    (⟨j, some i⟩ ∈ f.mSegments ∧ f.segments[i]? = some u ∧ i ≠ id) ∨
      (j = k ∧ o ≤ s.mOffset ∨ j = o ∧ ¬o ≤ s.mOffset) ∧ u = s.filled o e ∨
      j = k ∧ ¬o ≤ s.mOffset ∧ u = .new s.mOffset (o - s.mOffset) true ∨
      j = e ∧ u = .new e (s.mOffset + s.mSize - e) true := by
  have hmid : (⟨k, some id⟩ : Leaf) ∈ f.mSegments := by simp [htree]
  have hother : ⟨j, some i⟩ ∈ L ∨ ⟨j, some i⟩ ∈ R →
      ⟨j, some i⟩ ∈ f.mSegments ∧ f.segments[i]? = some u ∧ i ≠ id := by
    intro hor
    have hmem : (⟨j, some i⟩ : Leaf) ∈ f.mSegments := by
      rw [htree]
      rcases hor with hor | hor
      · exact List.mem_append_left _ hor
      · exact List.mem_append_right _ (List.mem_cons_of_mem _ hor)
    have hne : i ≠ id := by
      rintro rfl
      obtain rfl : j = k := h.key_unique hmem hmid
      rcases hor with hor | hor
      · exact lt_irrefl _ (hL _ hor)
      · exact lt_irrefl _ (hRk _ hor)
    refine ⟨hmem, ?_, hne⟩
    rw [← hfill.others i (h.chain.id_lt i (List.mem_filterMap.mpr ⟨_, hmem, rfl⟩)) hne]
    exact hu
  rcases List.mem_append.mp hm with hm | hm
  · rcases List.mem_append.mp hm with hm | hm
    · rcases List.mem_append.mp hm with hm | hm
      · exact .inl (hother (.inl hm))
      · right
        unfold frontLeaves at hm
        split_ifs at hm with ho
        · obtain ⟨rfl, rfl⟩ : j = k ∧ i = id := by simpa using hm
          exact .inl ⟨.inl ⟨rfl, ho⟩, Option.some.inj (hu.symm.trans hfill.filled)⟩
        · have hor : j = k ∧ i = n ∨ j = o ∧ i = id := by simpa using hm
          rcases hor with ⟨rfl, rfl⟩ | ⟨rfl, rfl⟩
          · exact .inr (.inl ⟨rfl, ho, Option.some.inj (hu.symm.trans (hfill.front (by omega)))⟩)
          · exact .inl ⟨.inr ⟨rfl, ho⟩, Option.some.inj (hu.symm.trans hfill.filled)⟩
    · unfold backLeaves at hm
      split_ifs at hm with hlt
      · obtain ⟨rfl, rfl⟩ : j = e ∧ i = n' := by simpa using hm
        exact .inr (.inr (.inr ⟨rfl, Option.some.inj (hu.symm.trans (hfill.back (by omega)))⟩))
      · cases hm
  · exact .inl (hother (.inr hm))

/-- The memory of a gap holds zeros, as the gap did. -/
theorem Filled.cell_eq {segs : List Segment} {n' : Nat} (hfill : Filled f segs s o e id n n')
    (h : f.Layout) (htree : f.mSegments = L ++ ⟨k, some id⟩ :: R) (hL : ∀ l ∈ L, l.key < k)
    (hs : LeafOk f.segments k id s) (hgap : s.mIsGap = true)
    (hR : Chain f.segments f.mAllocOffset (s.mOffset + s.mSize) R) (hor : o ≤ r) (hkr : k ≤ r)
    (hre : r < e) (heg : e ≤ s.mOffset + s.mSize) (hfront : s.mOffset = k ∨ o ≤ s.mOffset)
    (h' : File.Layout { f with
      segments := segs
      mSegments := L ++ frontLeaves s o k id n ++ backLeaves s e n' ++ R }) :
    File.cell { f with
      segments := segs
      mSegments := L ++ frontLeaves s o k id n ++ backLeaves s e n' ++ R } = f.cell := by
  have hm : (⟨k, some id⟩ : Leaf) ∈ f.mSegments := by simp [htree]
  have hRk : ∀ l ∈ R, k < l.key := fun l hl => hs.lt_end.trans_le (hR.key_ge l hl)
  have hzero : ∀ x, k ≤ x → x < s.mOffset + s.mSize → f.cell x = 0 := by
    intro x hkx hx
    rw [h.cell_eq hm hs.seg hkx hx, hs.ok.gap hgap]
    rfl
  funext x
  by_cases hx0 : 0 ≤ x
  · by_cases hxa : x < f.mAllocOffset
    · obtain ⟨k', i, u, hm', hu, hk', hx'⟩ := h'.exists_leaf hx0 hxa
      rw [h'.cell_eq hm' hu hk' hx']
      rcases hfill.leaf_cases h htree hL hRk hm' hu with ⟨hmf, huf, -⟩ | ⟨hor', rfl⟩ |
        ⟨rfl, ho, rfl⟩ | ⟨rfl, rfl⟩
      · rw [h.cell_eq hmf huf hk' hx']
      · simp only [Segment.filled] at hx' ⊢
        rw [hzero x (by omega) (by omega)]
        rfl
      · rw [data_new]
        simp only [Segment.new] at hx'
        exact (hzero x hk' (by omega)).symm
      · rw [data_new]
        simp only [Segment.new] at hx'
        exact (hzero x (by omega) (by omega)).symm
    · rw [h.cell_beyond (not_lt.mp hxa), h'.cell_beyond (not_lt.mp hxa)]
  · rw [h.cell_neg (not_le.mp hx0), h'.cell_neg (not_le.mp hx0)]

/-- A gap that gets memory inside its extent keeps the layout. -/
theorem Layout.allocateGap_layout (h : f.Layout) (cfg : Config)
    (htree : f.mSegments = L ++ ⟨k, some id⟩ :: R) (hL : ∀ l ∈ L, l.key < k)
    (hs : LeafOk f.segments k id s) (hgap : s.mIsGap = true)
    (hR : Chain f.segments f.mAllocOffset (s.mOffset + s.mSize) R) (hkr : k ≤ r)
    (hr : r < s.mOffset + s.mSize) (hrb : r < b) (hb : b ≤ f.mAllocOffset)
    (hlt : f.mAllocOffset < 2 ^ 64) (hfits : GapFits cfg r b k s) :
    ∃ f' o e n n', f.allocateGap cfg id s r (b - r) = .ok (f', r - o) ∧ f'.Layout ∧
      SameMeta f f' ∧ e = gapEnd cfg b s ∧ o = align r cfg.segmentSize ∧
      f'.mSegments = L ++ frontLeaves s o k id n ++ backLeaves s e n' ++ R ∧
      f'.segments[id]? = some (s.filled o e) ∧
      (∀ i ∈ treeIds R, f'.segments[i]? = f.segments[i]?) ∧
      (∀ i ∈ treeIds L, f'.segments[i]? = f.segments[i]?) ∧ f'.cell = f.cell := by
  have hm : (⟨k, some id⟩ : Leaf) ∈ f.mSegments := by simp [htree]
  have hk : 0 ≤ k := h.chain.key_ge _ hm
  have hor := align_le r cfg.segmentSize
  have hre := gapEnd_bounds hr hrb hfits.back
  have hfront : s.mOffset = k ∨ align r cfg.segmentSize ≤ s.mOffset := by
    have := hfits.front
    rwa [max_eq_left hkr] at this
  obtain ⟨segs, n, n', he, hfill⟩ := h.allocateGap_tree cfg htree hL hs hgap hR hk hkr hr hrb hb
    hlt hfront rfl rfl
  have hne : ∀ j v, (⟨j, some v⟩ : Leaf) ∈ f.mSegments → j ≠ k → v ≠ id := by
    rintro j v hj hjk rfl
    exact hjk (h.key_unique hj hm)
  have hidL : ∀ i ∈ treeIds L, segs[i]? = f.segments[i]? := by
    intro i hi
    obtain ⟨⟨j, v⟩, hl, rfl⟩ := List.mem_filterMap.mp hi
    have hmem : (⟨j, some i⟩ : Leaf) ∈ f.mSegments := by
      rw [htree]
      exact List.mem_append_left _ hl
    exact hfill.others i (h.chain.id_lt i (List.mem_filterMap.mpr ⟨_, hmem, rfl⟩))
      (hne j i hmem (hL _ hl).ne)
  have hidR : ∀ i ∈ treeIds R, segs[i]? = f.segments[i]? := by
    intro i hi
    obtain ⟨⟨j, v⟩, hl, rfl⟩ := List.mem_filterMap.mp hi
    have hmem : (⟨j, some i⟩ : Leaf) ∈ f.mSegments := by
      rw [htree]
      exact List.mem_append_right _ (List.mem_cons_of_mem _ hl)
    have hjk : k < j := hs.lt_end.trans_le (hR.key_ge _ hl)
    exact hfill.others i (hR.id_lt i hi) (hne j i hmem hjk.ne')
  have hlayout : File.Layout { f with
      segments := segs
      mSegments := L ++ frontLeaves s (align r cfg.segmentSize) k id n ++
        backLeaves s (gapEnd cfg b s) n' ++ R } := by
    constructor
    have hchain := h.chain
    rw [htree] at hchain
    have hnew := hfill.chain hs hor hkr hre.1 hre.2 hfront
      (hR.mono fun i hi u hu => (hidR i hi).trans hu)
    have := hchain.splice (fun i hi u hu => (hidL i hi).trans hu) hnew
    simpa only [List.append_assoc] using this
  exact ⟨_, _, _, n, n', he, hlayout, ⟨rfl, rfl, rfl, rfl⟩, rfl, rfl, rfl, hfill.filled, hidR, hidL,
    hfill.cell_eq h htree hL hs hgap hR hor hkr hre.1 hre.2 hfront hlayout⟩

/-- What a lookup that gives memory to gaps ends with: a file in good layout, or a
failed assertion. -/
def Keeps (f : File) : Result (File × List Region) → Prop
  | .ok (f', _) => f'.Layout ∧ SameMeta f f'
  | .error e => e = .assertion

/-- The file `f'` is `f` with memory for `[r, b)`, which the new regions give. Leaves
before `k` are as they were. -/
structure Served (f : File) (k r b : Int) (regions : List Region) (f' : File)
    (regions' : List Region) : Prop where
  layout : f'.Layout
  same : SameMeta f f'
  cell : f'.cell = f.cell
  before : ∀ (j : Int) (i : Nat), ⟨j, some i⟩ ∈ f.mSegments → j < k →
    ⟨j, some i⟩ ∈ f'.mSegments ∧ f'.segments[i]? = f.segments[i]?
  maps : ∃ rs, regions' = regions ++ rs ∧ Maps f' r b rs ∧ ∀ q ∈ rs, q.addr ≠ none

def Serves (f : File) (k r b : Int) (regions : List Region) : Result (File × List Region) → Prop
  | .ok (f', regions') => Served f k r b regions f' regions'
  | .error e => e = .assertion

theorem Serves.keeps {regions : List Region} {x : Result (File × List Region)}
    (h : Serves f k r b regions x) : Keeps f x := by
  cases x with
  | error e => exact h
  | ok p => exact ⟨h.layout, h.same⟩

theorem SameMeta.trans {f₁ f₂ : File} (h : SameMeta f f₁) (h' : SameMeta f₁ f₂) :
    SameMeta f f₂ :=
  ⟨h'.alloc.trans h.alloc, h'.used.trans h.used, h'.size.trans h.size,
    h'.segmentSize.trans h.segmentSize⟩

theorem Maps.congr_before {f₁ : File} {a m : Int} {rs : List Region} (h : Maps f a m rs)
    (hkeep : ∀ (j : Int) (i : Nat), ⟨j, some i⟩ ∈ f.mSegments → j < m →
      ⟨j, some i⟩ ∈ f₁.mSegments ∧ f₁.segments[i]? = f.segments[i]?) : Maps f₁ a m rs := by
  induction h with
  | nil => exact .nil
  | cons hm hs hlo hhi hpos haddr h ih =>
    have hle := h.le
    obtain ⟨hm₁, hs₁⟩ := hkeep _ _ hm (by omega)
    exact .cons hm₁ (hs₁.trans hs) hlo hhi hpos haddr (ih hkeep)

/-- The loop has found memory from `r` to `m` and goes on from there. -/
theorem Served.trans {f₁ : File} {m : Int} {regions regions₁ : List Region}
    (h : Served f k r m regions f₁ regions₁) {x : Result (File × List Region)}
    (hx : Serves f₁ m m b regions₁ x) (hkm : k ≤ m) : Serves f k r b regions x := by
  cases x with
  | error e => exact hx
  | ok p =>
    obtain ⟨f', regions'⟩ := p
    obtain ⟨rs, rfl, hmaps, hrs⟩ := h.maps
    obtain ⟨rs', hregions, hmaps', hrs'⟩ := Served.maps hx
    refine ⟨Served.layout hx, h.same.trans (Served.same hx), (Served.cell hx).trans h.cell, ?_,
      rs ++ rs', by rw [hregions, List.append_assoc],
      (hmaps.congr_before (Served.before hx)).append hmaps', ?_⟩
    · intro j i hj hjk
      obtain ⟨hm₁, hs₁⟩ := h.before j i hj hjk
      obtain ⟨hm', hs'⟩ := Served.before hx j i hm₁ (by omega)
      exact ⟨hm', hs'.trans hs₁⟩
    · intro q hq
      rcases List.mem_append.mp hq with hq | hq
      · exact hrs q hq
      · exact hrs' q hq

/-- A second visit to a segment at its own end fails the assertion on the offset. -/
theorem lookupLoop_revisit (cfg : Config) {fuel : Nat} {g req : Int} {regions : List Region}
    (hs : f.segments[id]? = some s) (hg : g = s.mOffset + s.mSize) :
    lookupLoop cfg true b (fuel + 1) f ⟨k, some id⟩ g req regions = .error .assertion := by
  have hcheck : check (g - s.mOffset ≠ s.mSize) = .error .assertion := if_neg (by simp [hg])
  simp only [lookupLoop, segment_eq hs, ok_bind, hcheck, error_bind]

/-- A turn of the loop that found memory from `r` to `m` in one segment. -/
theorem served_one {f₁ : File} {k' m : Int} {s₁ : Segment} {q : Region} (regions : List Region)
    (hL : f₁.Layout) (hsame : SameMeta f f₁) (hcell : f₁.cell = f.cell)
    (hbefore : ∀ (j : Int) (i : Nat), ⟨j, some i⟩ ∈ f.mSegments → j < k →
      ⟨j, some i⟩ ∈ f₁.mSegments ∧ f₁.segments[i]? = f.segments[i]?)
    (hm : ⟨k', some id⟩ ∈ f₁.mSegments) (hs : f₁.segments[id]? = some s₁)
    (hgap : s₁.mIsGap = false) (hk' : k' ≤ r) (hrm : r < m) (hend : m ≤ s₁.mOffset + s₁.mSize)
    (haddr : q.addr = some (id, r - s₁.mOffset)) (hsize : q.size = m - r) :
    Served f k r m regions f₁ (regions ++ [q]) := by
  refine ⟨hL, hsame, hcell, hbefore, [q], rfl, ?_, ?_⟩
  · refine .cons hm hs hk' (by omega) (by omega) ?_ ?_
    · rw [haddr, hgap]
      rfl
    · rw [hsize, add_sub_cancel]
      exact .nil
  · intro q' hq'
    rw [List.mem_singleton.mp hq', haddr]
    exact Option.some_ne_none _

/-- A gap that the lookup meets gets memory for its part of the range. If the range goes
on behind the gap, the leaves are as before, or the segment is the next leaf once more. -/
theorem Layout.gap_served (h : f.Layout) (cfg : Config)
    (htree : f.mSegments = L ++ ⟨k, some id⟩ :: R) (hL : ∀ l ∈ L, l.key < k)
    (hs : LeafOk f.segments k id s) (hgap : s.mIsGap = true)
    (hR : Chain f.segments f.mAllocOffset (s.mOffset + s.mSize) R) (hkr : k ≤ r)
    (hr : r < s.mOffset + s.mSize) (hrb : r < b) (hb : b ≤ f.mAllocOffset)
    (hlt : f.mAllocOffset < 2 ^ 64) (hfits : GapFits cfg r b k s) (regions : List Region) :
    ∃ f' u o, f.allocateGap cfg id s r (b - r) = .ok (f', r - o) ∧
      f'.segments[id]? = some u ∧ u.mIsGap = false ∧
      Served f k r (min b (s.mOffset + s.mSize)) regions f' (regions ++
        [⟨some (id, r - o), min (b - r) (s.mSize - (r - s.mOffset)), false⟩]) ∧
      (∀ i ∈ treeIds R, f'.segments[i]? = f.segments[i]?) ∧
      (s.mOffset + s.mSize < b → f'.mSegments = L ++ ⟨k, some id⟩ :: R ∨
        IntervalMap.next f'.mSegments k = some ⟨o, some id⟩ ∧
          s.mOffset + s.mSize = u.mOffset + u.mSize) := by
  obtain ⟨f', o, e, n, n', he, h', hsame, hee, hoe, htree', hseg', hkeep, hkeepL, hcell⟩ :=
    h.allocateGap_layout cfg htree hL hs hgap hR hkr hr hrb hb hlt hfits
  have hor : o ≤ r := by rw [hoe]; exact align_le _ _
  have hmin : min b (s.mOffset + s.mSize) ≤ e := hee ▸ min_le_gapEnd cfg b s
  obtain ⟨k', hk', hk'r⟩ : ∃ k', (⟨k', some id⟩ : Leaf) ∈ f'.mSegments ∧ k' ≤ r := by
    rw [htree']
    unfold frontLeaves
    split_ifs
    · exact ⟨k, by simp, hkr⟩
    · exact ⟨o, by simp, hor⟩
  have hbefore : ∀ (j : Int) (i : Nat), ⟨j, some i⟩ ∈ f.mSegments → j < k →
      ⟨j, some i⟩ ∈ f'.mSegments ∧ f'.segments[i]? = f.segments[i]? := by
    intro j i hj hjk
    have hjL := hR.mem_before hs.lt_end (htree ▸ hj) hjk
    exact ⟨by rw [htree']; simp [hjL], hkeepL i (List.mem_filterMap.mpr ⟨_, hjL, rfl⟩)⟩
  refine ⟨f', _, o, he, hseg', rfl, served_one regions h' hsame hcell hbefore hk' hseg' rfl hk'r
    (by omega) (by simp only [Segment.filled]; omega) rfl (by simp only; omega), hkeep, ?_⟩
  intro hend
  have heg : e = s.mOffset + s.mSize := by
    rw [hee, gapEnd, if_neg (by omega)]
  have hback : backLeaves s e n' = [] := if_neg (by omega)
  rw [hback, List.append_nil] at htree'
  by_cases ho : o ≤ s.mOffset
  · rw [frontLeaves, if_pos ho, List.append_assoc, List.singleton_append] at htree'
    exact .inl htree'
  · rw [frontLeaves, if_neg ho, List.append_assoc] at htree'
    have hko : k < o := by
      have := hfits.front
      rw [max_eq_left hkr] at this
      omega
    refine .inr ⟨?_, by simp only [Segment.filled]; omega⟩
    rw [htree']
    exact next_front hL hko fun l hl => hs.lt_end.trans_le (hR.key_ge l hl)

/-- The loop of `lookup_helper` that gives memory to the gaps it meets. -/
theorem lookupLoop_alloc (cfg : Config) (b : Int) (fuel : Nat) :
    ∀ {f : File} {L R : List Leaf} {k r : Int} {id : Nat} {s : Segment} (regions : List Region),
    f.Layout → f.mSegments = L ++ ⟨k, some id⟩ :: R → (∀ l ∈ L, l.key < k) →
    LeafOk f.segments k id s → Chain f.segments f.mAllocOffset (s.mOffset + s.mSize) R →
    k ≤ r → r < s.mOffset + s.mSize → r < b → b ≤ f.mAllocOffset → f.mAllocOffset < 2 ^ 64 →
    R.length + 1 < fuel →
    (∀ k' id' s', (⟨k', some id'⟩ : Leaf) ∈ (⟨k, some id⟩ :: R : List Leaf) →
      f.segments[id']? = some s' → s'.mIsGap = true → k' < b → GapFits cfg r b k' s') →
    Serves f k r b regions (lookupLoop cfg true b fuel f ⟨k, some id⟩ r (b - r) regions) := by
  induction fuel with
  | zero => intros; omega
  | succ fuel ih =>
    intro f L R k r id s regions h htree hL hs hR hkr hr hrb hb hlt hfuel hfits
    have hop : b - r - min (b - r) (s.mSize - (r - s.mOffset)) = b - min b (s.mOffset + s.mSize) := by
      omega
    have hRlt : ∀ l ∈ R, k < l.key := fun l hl => hs.lt_end.trans_le (hR.key_ge l hl)
    -- the loop goes on with the leaf after the segment, in `f` or in what became of it
    have hstep : ∀ (f' : File) (regions : List Region), f'.Layout → SameMeta f f' →
        f'.mSegments = L ++ ⟨k, some id⟩ :: R →
        (∀ i ∈ treeIds R, f'.segments[i]? = f.segments[i]?) → s.mOffset + s.mSize < b →
        ∃ leaf, IntervalMap.next f'.mSegments k = some leaf ∧ Serves f' (s.mOffset + s.mSize)
          (s.mOffset + s.mSize) b regions (lookupLoop cfg true b fuel
          f' leaf (s.mOffset + s.mSize) (b - (s.mOffset + s.mSize)) regions) := by
      intro f' regions h' hsame htree' hkeep hend
      obtain ⟨id', s', R', rfl, hs', hR'⟩ := hR.next_leaf (by omega) hkeep
      have halloc : f'.mAllocOffset = f.mAllocOffset := hsame.alloc
      refine ⟨⟨s.mOffset + s.mSize, some id'⟩, ?_, ih (L := L ++ [⟨k, some id⟩]) (R := R') regions h'
        (by rw [htree']; simp) (hs.keys_lt_end hL) hs' (by rw [halloc]; exact hR') le_rfl hs'.lt_end
        hend (by omega) (by omega) (by rw [List.length_cons] at hfuel; omega) ?_⟩
      · rw [htree']
        exact next_mid (L := L) (l := (⟨k, some id⟩ : Leaf)) hL hRlt
      · intro k₁ id₁ s₁ hm hs₁ hg hk₁
        have hge : s.mOffset + s.mSize ≤ k₁ := hR.key_ge _ hm
        rw [hkeep id₁ (List.mem_filterMap.mpr ⟨_, hm, rfl⟩)] at hs₁
        exact (hfits k₁ id₁ s₁ (List.mem_cons_of_mem _ hm) hs₁ hg hk₁).later (by omega) hge
    have hcheck := check_ok (show r - s.mOffset ≠ s.mSize by omega)
    cases hg : s.mIsGap with
    | true =>
      obtain ⟨f', u, o, he, hu, hug, hserved, hkeep, hgo⟩ := h.gap_served cfg htree hL hs hg hR hkr
        hr hrb hb hlt (hfits k id s List.mem_cons_self hs.seg hg (by omega)) regions
      simp only [lookupLoop, segment_eq hs.seg, ok_bind, hcheck, hg, and_self, if_true, he,
        segment_eq hu, hug, hop]
      by_cases hend : s.mOffset + s.mSize ≥ b
      · rw [if_pos hend]
        rw [min_eq_left hend] at hserved
        exact hserved
      rw [min_eq_right (by omega)] at hserved
      rw [if_neg hend, min_eq_right (by omega)]
      rcases hgo (not_le.mp hend) with htree' | ⟨hnext, hue⟩
      · obtain ⟨leaf, hnext, hrun⟩ := hstep f' _ hserved.layout hserved.same htree' hkeep
          (not_le.mp hend)
        rw [hnext]
        exact hserved.trans hrun (by omega)
      · -- after a gap in front the loop comes to the segment again
        obtain ⟨m, rfl⟩ : ∃ m, fuel = m + 1 := ⟨fuel - 1, by omega⟩
        rw [hnext]
        simp only
        rw [lookupLoop_revisit cfg hu hue]
        rfl
    | false =>
      have hserved := served_one (k := k) (q := ⟨some (id, r - s.mOffset),
          min (b - r) (s.mSize - (r - s.mOffset)), false⟩) regions h ⟨rfl, rfl, rfl, rfl⟩ rfl
        (fun j i hj _ => ⟨hj, rfl⟩) (by simp [htree]) hs.seg hg hkr
        (show r < min b (s.mOffset + s.mSize) by omega) (min_le_right _ _) rfl
        (by simp only; omega)
      simp only [lookupLoop, segment_eq hs.seg, ok_bind, hcheck, hg, Bool.false_eq_true, and_false,
        if_false, pure_eq_ok, hop]
      by_cases hend : s.mOffset + s.mSize ≥ b
      · rw [if_pos hend]
        rw [min_eq_left hend] at hserved
        exact hserved
      · obtain ⟨leaf, hnext, hrun⟩ := hstep f _ h ⟨rfl, rfl, rfl, rfl⟩ htree (fun _ _ => rfl)
          (by omega)
        rw [min_eq_right (by omega)] at hserved
        rw [if_neg hend, hnext, min_eq_right (by omega)]
        exact hserved.trans hrun (by omega)

end File
end EchoFs.Nvml
