import EchoFs.Nvml.Segments

/-! Files whose tree and segments agree: the leaves tile the allocated part, and
a segment starts at its leaf or before it and ends where the next leaf starts. On
such a file a read returns the cells of its range, wherever it starts. -/

namespace EchoFs.Nvml
open Checked IntervalMap Memory

structure SegOk (s : Segment) : Prop where
  gap : s.mIsGap = true → s.mData = none
  data : s.mIsGap = false → ∃ d, s.mData = some d ∧ s.mLength = some s.mSize

/-- The leaf at `k` refers to the segment `s`. -/
structure LeafOk (segs : List Segment) (k : Int) (id : Nat) (s : Segment) : Prop where
  seg : segs[id]? = some s
  offset_le : s.mOffset ≤ k
  lt_end : k < s.mOffset + s.mSize
  ok : SegOk s

theorem LeafOk.keys_lt_end {segs : List Segment} {k : Int} {id : Nat} {s : Segment} {L : List Leaf}
    (hs : LeafOk segs k id s) (hL : ∀ l ∈ L, l.key < k) :
    ∀ l ∈ L ++ [⟨k, some id⟩], l.key < s.mOffset + s.mSize := by
  intro l hl
  rcases List.mem_append.mp hl with hl | hl
  · exact (hL l hl).trans hs.lt_end
  · rw [List.mem_singleton.mp hl]
    exact hs.lt_end

/-- The leaves from `lo` on: segments one after the other, then the null leaf at
the end of the allocated part. -/
inductive Chain (segs : List Segment) (alloc : Int) : Int → List Leaf → Prop
  | last : Chain segs alloc alloc [⟨alloc, none⟩]
  | cons {lo : Int} {id : Nat} {s : Segment} {rest : List Leaf} (hs : LeafOk segs lo id s)
      (h : Chain segs alloc (s.mOffset + s.mSize) rest) : Chain segs alloc lo (⟨lo, some id⟩ :: rest)

/-- The segments in the tree. -/
def treeIds (t : List Leaf) : List Nat := t.filterMap Leaf.val

structure File.Layout (f : File) : Prop where
  chain : Chain f.segments f.mAllocOffset 0 f.mSegments

namespace Chain
variable {segs : List Segment} {alloc lo x : Int} {t : List Leaf}

theorem le (h : Chain segs alloc lo t) : lo ≤ alloc := by
  induction h with
  | last => exact le_rfl
  | cons hs _ ih => exact hs.lt_end.le.trans ih

theorem key_ge (h : Chain segs alloc lo t) : ∀ l ∈ t, lo ≤ l.key := by
  induction h with
  | last => simp
  | cons hs _ ih =>
    intro l hl
    rcases List.mem_cons.mp hl with rfl | hl
    · exact le_rfl
    · exact hs.lt_end.le.trans (ih l hl)

theorem key_le (h : Chain segs alloc lo t) : ∀ l ∈ t, l.key ≤ alloc := by
  induction h with
  | last => simp
  | cons hs h ih =>
    intro l hl
    rcases List.mem_cons.mp hl with rfl | hl
    · exact hs.lt_end.le.trans h.le
    · exact ih l hl

theorem head (h : Chain segs alloc lo t) : ∃ v R, t = ⟨lo, v⟩ :: R := by
  cases h with
  | last => exact ⟨_, _, rfl⟩
  | cons => exact ⟨_, _, rfl⟩

theorem getLast (h : Chain segs alloc lo t) : t.getLast? = some ⟨alloc, none⟩ := by
  induction h with
  | last => rfl
  | cons _ h ih =>
    obtain ⟨v, R, rfl⟩ := h.head
    rw [List.getLast?_cons_cons]
    exact ih

theorem congr {segs' : List Segment} (h : Chain segs alloc lo t)
    (hsegs : ∀ id ∈ treeIds t, ∀ s, segs[id]? = some s → SegOk s → ∃ s', segs'[id]? = some s' ∧
      s'.mOffset = s.mOffset ∧ s'.mSize = s.mSize ∧ SegOk s') : Chain segs' alloc lo t := by
  induction h with
  | last => exact .last
  | @cons lo id s rest hs h ih =>
    obtain ⟨s', hs', ho, hz, hok'⟩ := hsegs id (by simp [treeIds]) s hs.seg hs.ok
    have hlo := hs.offset_le
    have hlt := hs.lt_end
    refine .cons ⟨hs', by omega, by omega, hok'⟩ ?_
    rw [ho, hz]
    refine ih fun id' hid' => hsegs id' ?_
    simp only [treeIds, List.filterMap_cons]
    exact List.mem_cons_of_mem _ hid'

theorem locate (h : Chain segs alloc lo t) (hx : lo ≤ x) (hxa : x < alloc) :
    ∃ L k id s R, t = L ++ ⟨k, some id⟩ :: R ∧ (∀ l ∈ L, l.key < k) ∧ LeafOk segs k id s ∧
      k ≤ x ∧ x < s.mOffset + s.mSize ∧ Chain segs alloc (s.mOffset + s.mSize) R := by
  induction h with
  | last => exact absurd hxa (not_lt.mpr hx)
  | @cons lo id s rest hs h ih =>
    by_cases hin : x < s.mOffset + s.mSize
    · exact ⟨[], lo, id, s, rest, rfl, by simp, hs, hx, hin, h⟩
    · obtain ⟨L, k, id', s', R, rfl, hL, hs', hk, hxk, hR⟩ := ih (not_lt.mp hin)
      have hkge : s.mOffset + s.mSize ≤ k := h.key_ge ⟨k, some id'⟩ (by simp)
      refine ⟨⟨lo, some id⟩ :: L, k, id', s', R, rfl, fun l hl => ?_, hs', hk, hxk, hR⟩
      rcases List.mem_cons.mp hl with rfl | hl
      · exact hs.lt_end.trans_le hkge
      · exact hL l hl

theorem split (h : Chain segs alloc lo t) {k : Int} {id : Nat} (hm : ⟨k, some id⟩ ∈ t) :
    ∃ L s R, t = L ++ ⟨k, some id⟩ :: R ∧ (∀ l ∈ L, l.key < k) ∧ LeafOk segs k id s ∧
      Chain segs alloc (s.mOffset + s.mSize) R := by
  induction h with
  | last => simp at hm
  | @cons lo id' s rest hs h ih =>
    rcases List.mem_cons.mp hm with he | hm
    · obtain ⟨rfl, rfl⟩ : k = lo ∧ id = id' := by simpa using he
      exact ⟨[], s, rest, rfl, by simp, hs, h⟩
    · obtain ⟨L, s', R, rfl, hL, hrest⟩ := ih hm
      have hkge : s.mOffset + s.mSize ≤ k := h.key_ge ⟨k, some id⟩ (by simp)
      refine ⟨⟨lo, some id'⟩ :: L, s', R, rfl, fun l hl => ?_, hrest⟩
      rcases List.mem_cons.mp hl with rfl | hl
      · exact hs.lt_end.trans_le hkge
      · exact hL l hl

end Chain

namespace File

/-- The byte at offset `x`; a gap and the part beyond the end read as zero. -/
def cell (f : File) (x : Int) : UInt8 :=
  match (search f.mSegments x).bind Leaf.val with
  | none => 0
  | some id =>
    match f.segments[id]? with
    | none => 0
    | some s => (s.mData.map fun d => d (x - s.mOffset)).getD 0

def cells (f : File) (a b : Int) : List UInt8 := window f.cell a b

/-- The regions are those of `[a, b)`, each inside one segment. -/
inductive Maps (f : File) : Int → Int → List Region → Prop
  | nil {a : Int} : Maps f a a []
  | cons {a b k : Int} {id : Nat} {s : Segment} {r : Region} {rs : List Region}
      (hm : ⟨k, some id⟩ ∈ f.mSegments) (hs : f.segments[id]? = some s)
      (hlo : k ≤ a) (hhi : a + r.size ≤ s.mOffset + s.mSize) (hpos : 0 < r.size)
      (haddr : r.addr = if s.mIsGap then none else some (id, a - s.mOffset))
      (h : Maps f (a + r.size) b rs) : Maps f a b (r :: rs)

variable {f : File} {a b x : Int}

theorem Maps.le {rs : List Region} (h : Maps f a b rs) : a ≤ b := by
  induction h with
  | nil => exact le_rfl
  | cons _ _ _ _ hpos _ _ ih => omega

theorem Maps.sum {rs : List Region} (h : Maps f a b rs) : (rs.map Region.size).sum = b - a := by
  induction h with
  | nil => simp
  | cons _ _ _ _ _ _ _ ih =>
    rw [List.map_cons, List.sum_cons, ih]
    omega

theorem Maps.append {rs rs' : List Region} {c : Int} (h : Maps f a b rs) (h' : Maps f b c rs') :
    Maps f a c (rs ++ rs') := by
  induction h with
  | nil => exact h'
  | cons hm hs hlo hhi hpos haddr _ ih => exact .cons hm hs hlo hhi hpos haddr (ih h')

/-- The search for an offset of a segment ends at its leaf. -/
theorem Layout.search_leaf (h : f.Layout) {k : Int} {id : Nat} {s : Segment}
    (hm : ⟨k, some id⟩ ∈ f.mSegments) (hs : f.segments[id]? = some s)
    (hlo : k ≤ x) (hhi : x < s.mOffset + s.mSize) : search f.mSegments x = some ⟨k, some id⟩ := by
  obtain ⟨L, s', R, ht, hL, hs', hR⟩ := h.chain.split hm
  obtain rfl : s' = s := by simpa [hs] using hs'.seg.symm
  rw [ht]
  apply search_mid
  · exact fun l hl => ((hL l hl).le).trans hlo
  · exact hlo
  · exact fun l hl => lt_of_lt_of_le hhi (hR.key_ge l hl)

/-- Beyond the allocated part, it ends at the last leaf. -/
theorem Layout.search_beyond (h : f.Layout) (hx : f.mAllocOffset ≤ x) :
    search f.mSegments x = some ⟨f.mAllocOffset, none⟩ := by
  unfold search
  rw [List.filter_eq_self.mpr fun l hl => by simpa using (h.chain.key_le l hl).trans hx]
  exact h.chain.getLast

theorem Layout.cell_eq (h : f.Layout) {k : Int} {id : Nat} {s : Segment}
    (hm : ⟨k, some id⟩ ∈ f.mSegments) (hs : f.segments[id]? = some s)
    (hlo : k ≤ x) (hhi : x < s.mOffset + s.mSize) :
    f.cell x = (s.mData.map fun d => d (x - s.mOffset)).getD 0 := by
  simp only [cell, h.search_leaf hm hs hlo hhi, Option.bind_some, hs]

theorem toSize_of_nonneg {x : Int} (h₀ : 0 ≤ x) (h₁ : x < 2 ^ 63) : toSize x = x.toNat := by
  unfold toSize
  rw [Int.emod_eq_of_lt h₀ (h₁.trans (by norm_num))]

theorem segment_eq {id : Nat} {s : Segment} (hs : f.segments[id]? = some s) :
    f.segment id = .ok s := by
  simp only [segment, hs]

theorem Layout.leafOk (h : f.Layout) {k : Int} {id : Nat} {s : Segment}
    (hm : ⟨k, some id⟩ ∈ f.mSegments) (hs : f.segments[id]? = some s) :
    LeafOk f.segments k id s := by
  obtain ⟨_, s', _, _, _, hs', _⟩ := h.chain.split hm
  obtain rfl : s' = s := by simpa [hs] using hs'.seg.symm
  exact hs'

/-- No two leaves refer to one segment: the next leaf starts where it ends. -/
theorem Layout.key_unique (h : f.Layout) {k k' : Int} {id : Nat}
    (hm : ⟨k, some id⟩ ∈ f.mSegments) (hm' : ⟨k', some id⟩ ∈ f.mSegments) : k = k' := by
  have hle : ∀ {k k' : Int}, ⟨k, some id⟩ ∈ f.mSegments → ⟨k', some id⟩ ∈ f.mSegments →
      k' ≤ k := by
    intro k k' hm hm'
    obtain ⟨L, s, R, ht, hL, hs, hR⟩ := h.chain.split hm
    have hs' := h.leafOk hm' hs.seg
    rw [ht, List.mem_append, List.mem_cons] at hm'
    rcases hm' with hm' | hm' | hm'
    · exact (hL _ hm').le
    · exact (congrArg Leaf.key hm').le
    · exact absurd hs'.lt_end (not_lt.mpr (hR.key_ge _ hm'))
  exact le_antisymm (hle hm' hm) (hle hm hm')

theorem Layout.load_eq (h : f.Layout) {k : Int} {id : Nat} {s : Segment} {r : Region}
    (hm : ⟨k, some id⟩ ∈ f.mSegments) (hs : f.segments[id]? = some s)
    (hlo : k ≤ a) (hhi : a + r.size ≤ s.mOffset + s.mSize) (hpos : 0 < r.size)
    (haddr : r.addr = if s.mIsGap then none else some (id, a - s.mOffset))
    (hlt : r.size < 2 ^ 63) : f.load r = .ok (f.cells a (a + r.size)) := by
  have hsize := toSize_of_nonneg hpos.le hlt
  have hleaf := h.leafOk hm hs
  have hoff := hleaf.offset_le
  have hcell : ∀ k < r.size.toNat,
      f.cell (a + k) = (s.mData.map fun d => d (a + k - s.mOffset)).getD 0 := fun k hk =>
    h.cell_eq hm hs (by omega) (by omega)
  have hlen : (a + r.size - a).toNat = r.size.toNat := by rw [add_sub_cancel_left]
  unfold load
  rw [haddr, hsize]
  unfold cells window
  rw [hlen]
  cases hg : s.mIsGap with
  | true =>
    simp only [if_true, pure_eq_ok]
    refine congrArg _ (List.ext_getElem (by simp) fun k hk _ => ?_)
    rw [List.length_replicate] at hk
    rw [List.getElem_replicate, List.getElem_map, List.getElem_range, hcell k hk, hleaf.ok.gap hg]
    rfl
  | false =>
    obtain ⟨d, hd, hl⟩ := hleaf.ok.data hg
    simp only [Bool.false_eq_true, if_false, segment_eq hs, ok_bind, hd, hl, Option.getD_some]
    rw [if_pos ⟨by omega, by omega⟩, pure_eq_ok]
    refine congrArg _ (List.map_congr_left fun k hk => ?_)
    rw [hcell k (List.mem_range.mp hk), hd]
    simp only [Option.map_some, Option.getD_some]
    congr 1
    omega

theorem Layout.copyOut_eq (h : f.Layout) {rs : List Region} (hmaps : Maps f a b rs)
    (hlt : b - a < 2 ^ 63) : f.copyOut rs (b - a).toNat = .ok (f.cells a b) := by
  induction hmaps with
  | nil => simp [copyOut, cells, window]
  | @cons a b k id s r rs hm hs hlo hhi hpos haddr hrest ih =>
    have hle := hrest.le
    have hsize := toSize_of_nonneg hpos.le (by omega)
    have hroom : (b - a).toNat - r.size.toNat = (b - (a + r.size)).toNat := by omega
    unfold copyOut
    rw [hsize, if_neg (by omega), h.load_eq hm hs hlo hhi hpos haddr (by omega), ok_bind, hroom,
      ih (by omega), ok_bind, pure_eq_ok, cells, cells, ← window_append f.cell (by omega) hle, cells]

/-- The loop of `lookup_helper` on leaves from `lo` on, when it leaves gaps alone. -/
theorem lookupLoop_read (cfg : Config) {lo : Int} {S : List Leaf} {alloc : Int}
    (hchain : Chain f.segments alloc lo S) (b : Int) : ∀ {L : List Leaf} (fuel : Nat) {a : Int}
    {leaf : Leaf} {R : List Leaf} (regions : List Region), f.mSegments = L ++ S → S = leaf :: R →
    (∀ l ∈ L, l.key < lo) → S.length < fuel → lo ≤ a → a < b →
    (∀ id s, leaf.val = some id → f.segments[id]? = some s → a < s.mOffset + s.mSize) →
    (leaf.val = none → a = lo) →
    ∃ rs, lookupLoop cfg false b fuel f leaf a (b - a) regions = .ok (f, regions ++ rs) ∧
      Maps f a (max a (min b alloc)) rs := by
  induction hchain with
  | last =>
    intro L fuel a leaf R regions _ hS _ hfuel _ hab _ hnone
    obtain ⟨rfl, rfl⟩ : leaf = ⟨alloc, none⟩ ∧ R = [] := by simpa [eq_comm] using hS
    obtain ⟨n, rfl⟩ : ∃ n, fuel = n + 1 := ⟨fuel - 1, by simp at hfuel; omega⟩
    obtain rfl := hnone rfl
    refine ⟨[], by simp [lookupLoop], ?_⟩
    rw [max_eq_left (min_le_right _ _)]
    exact .nil
  | @cons lo id s rest hs hrest ih =>
    intro L fuel a leaf R regions ht hS hL hfuel hlo hab hin _
    obtain ⟨rfl, rfl⟩ : leaf = ⟨lo, some id⟩ ∧ R = rest := by simpa [eq_comm] using hS
    obtain ⟨n, rfl⟩ : ∃ n, fuel = n + 1 := ⟨fuel - 1, by simp at hfuel; omega⟩
    have hlt : a < s.mOffset + s.mSize := hin id s rfl hs.seg
    have hoff := hs.offset_le
    have hle := hrest.le
    have hm : (⟨lo, some id⟩ : Leaf) ∈ f.mSegments := by simp [ht]
    simp only [lookupLoop, segment_eq hs.seg, ok_bind, Bool.false_eq_true, false_and, if_false,
      pure_eq_ok, check_ok (show a - s.mOffset ≠ s.mSize by omega)]
    by_cases hend : s.mOffset + s.mSize ≥ b
    · rw [if_pos hend]
      refine ⟨_, rfl, ?_⟩
      rw [max_eq_right (le_min hab.le (by omega)), min_eq_left (by omega)]
      refine .cons hm hs.seg hlo ?_ ?_ rfl ?_
      · simp only
        omega
      · simp only
        omega
      · have he : a + min (b - a) (s.mSize - (a - s.mOffset)) = b := by omega
        rw [he]
        exact .nil
    · rw [if_neg hend]
      obtain ⟨v, R', rfl⟩ := hrest.head
      have hnext : IntervalMap.next f.mSegments lo = some ⟨s.mOffset + s.mSize, v⟩ := by
        rw [ht]
        have := next_mid (L := L) (l := (⟨lo, some id⟩ : Leaf)) (R := ⟨s.mOffset + s.mSize, v⟩ :: R')
          hL fun l hl => hs.lt_end.trans_le (hrest.key_ge l hl)
        exact this
      have hop : min (b - a) (s.mSize - (a - s.mOffset)) = s.mOffset + s.mSize - a := by omega
      obtain ⟨rs, he, hmaps⟩ := ih (L := L ++ [⟨lo, some id⟩]) n (a := s.mOffset + s.mSize)
        (regions ++ [⟨if s.mIsGap then none else some (id, a - s.mOffset), s.mOffset + s.mSize - a,
          s.mIsGap⟩]) (by simp [ht]) rfl
        (hs.keys_lt_end hL)
        (by simp at hfuel ⊢; omega) le_rfl (by omega)
        (fun id' s' hv hs' => by
          cases hrest with
          | last => simp at hv
          | cons hs'' _ =>
            simp only [Option.some.injEq] at hv
            subst hv
            obtain rfl : s' = _ := by simpa [hs'] using hs''.seg
            exact hs''.lt_end)
        (fun _ => rfl)
      refine ⟨⟨if s.mIsGap then none else some (id, a - s.mOffset), s.mOffset + s.mSize - a,
        s.mIsGap⟩ :: rs, ?_, ?_⟩
      · rw [hnext, hop]
        simp only
        rw [show b - a - (s.mOffset + s.mSize - a) = b - (s.mOffset + s.mSize) by omega, he]
        simp
      · rw [max_eq_right (le_min (by omega) hle)] at hmaps
        rw [max_eq_right (le_min hab.le (by omega))]
        refine .cons hm hs.seg hlo ?_ ?_ rfl ?_
        · simp only
          omega
        · simp only
          omega
        · have he' : a + (s.mOffset + s.mSize - a) = s.mOffset + s.mSize := by omega
          rw [he']
          exact hmaps

theorem Layout.lookupHelper_read (h : f.Layout) (cfg : Config) (ha : 0 ≤ a)
    (haa : a < f.mAllocOffset) (hab : a < b) :
    ∃ rs, f.lookupHelper cfg a b false = .ok (f, rs) ∧ Maps f a (min b f.mAllocOffset) rs := by
  obtain ⟨L, k, id, s, R, ht, hL, hs, hk, hlt, hR⟩ := h.chain.locate ha haa
  have hsearch := h.search_leaf (show ⟨k, some id⟩ ∈ f.mSegments by simp [ht]) hs.seg hk hlt
  have hfuel : (⟨k, some id⟩ :: R : List Leaf).length < 2 * f.mSegments.length + 2 := by
    rw [ht, List.length_append]
    omega
  obtain ⟨rs, he, hmaps⟩ := lookupLoop_read cfg (Chain.cons hs hR) b (L := L)
    (2 * f.mSegments.length + 2) [] ht rfl hL hfuel hk hab
    (fun id' s' hv hs' => by
      obtain rfl : id' = id := by simpa [eq_comm] using hv
      obtain rfl : s' = s := by simpa [hs.seg] using hs'.symm
      exact hlt) (by simp)
  refine ⟨rs, ?_, ?_⟩
  · unfold lookupHelper
    rw [if_neg (by omega), hsearch]
    simpa using he
  · rwa [max_eq_right (le_min hab.le haa.le)] at hmaps

theorem Layout.lookupHelper_beyond (h : f.Layout) (cfg : Config) (ha : f.mAllocOffset ≤ a)
    (hne : a ≠ b) : f.lookupHelper cfg a b false = .ok (f, []) := by
  have hsearch := h.search_beyond ha
  unfold lookupHelper
  rw [if_neg (by omega), hsearch]
  rfl

/-- A read below the end of the file returns the cells of its range, up to the end. -/
theorem Layout.getData_eq (h : f.Layout) (cfg : Config) {o n : Int} (ho : 0 ≤ o) (hn : 0 < n)
    (hused : o < f.mUsedOffset) (hlt : f.mUsedOffset < 2 ^ 63) :
    f.getData cfg o n =
      .ok (.bytes (f.cells o (min (min (o + n) f.mUsedOffset) f.mAllocOffset))) := by
  have hend : (if o + n > f.mUsedOffset then f.mUsedOffset else o + n) =
      min (o + n) f.mUsedOffset := by
    split_ifs <;> omega
  have hdata : f.lookupData cfg o (o + n) =
      (f.lookupHelper cfg o (min (o + n) f.mUsedOffset) false).map Prod.snd := by
    simp only [lookupData, check_ok (show o ≥ 0 from ho), check_ok (show o ≤ o + n by omega),
      ok_bind, hend]
    cases f.lookupHelper cfg o (min (o + n) f.mUsedOffset) false <;> rfl
  unfold getData
  rw [check_ok (by omega), ok_bind, hdata]
  by_cases hoa : o < f.mAllocOffset
  · obtain ⟨rs, he, hmaps⟩ := h.lookupHelper_read cfg ho hoa
      (show o < min (o + n) f.mUsedOffset by omega)
    have hpos : 0 < min (min (o + n) f.mUsedOffset) f.mAllocOffset - o := by omega
    have hrs : rs ≠ [] := by
      rintro rfl
      have := hmaps.sum
      simp only [List.map_nil, List.sum_nil] at this
      omega
    have htotal : toSize (rs.map Region.size).sum =
        (min (min (o + n) f.mUsedOffset) f.mAllocOffset - o).toNat := by
      rw [hmaps.sum]
      exact toSize_of_nonneg hpos.le (by omega)
    simp only [he, Except.map, ok_bind, pure_eq_ok, if_neg hrs, htotal]
    rw [if_neg (by omega), h.copyOut_eq hmaps (by omega), ok_bind]
  · have hempty : f.cells o (min (min (o + n) f.mUsedOffset) f.mAllocOffset) = [] := by
      refine List.length_eq_zero_iff.mp ?_
      rw [cells, window_length]
      omega
    rw [h.lookupHelper_beyond cfg (not_lt.mp hoa) (by omega), hempty]
    rfl

end File
end EchoFs.Nvml
