import EchoFs.Nvml.Storage

/-! Reads after writes on files without holes: a sequence of `put_data` and
`allocate` calls that never start beyond the allocated part acts on the file as
on a plain byte array. -/

namespace EchoFs.Nvml
open Checked IntervalMap Memory

namespace File
variable {f f' : File} {a b x : Int}

/-- Every segment of the tree has memory. -/
def NoGaps (f : File) : Prop :=
  ∀ id ∈ treeIds f.mSegments, ∃ s, f.segments[id]? = some s ∧ s.mIsGap = false

/-- Only the contents of the segments differ. -/
structure SameShape (f f' : File) : Prop where
  tree : f'.mSegments = f.mSegments
  alloc : f'.mAllocOffset = f.mAllocOffset
  used : f'.mUsedOffset = f.mUsedOffset
  size : f'.stSize = f.stSize
  segmentSize : f'.mSegmentSize = f.mSegmentSize
  segs : ∀ (id : Nat) (s : Segment), f.segments[id]? = some s → ∃ s', f'.segments[id]? = some s' ∧
    s'.mOffset = s.mOffset ∧ s'.mSize = s.mSize ∧ s'.mIsGap = s.mIsGap

theorem SameShape.refl (f : File) : SameShape f f :=
  ⟨rfl, rfl, rfl, rfl, rfl, fun _ s hs => ⟨s, hs, rfl, rfl, rfl⟩⟩

theorem SameShape.trans {f₁ f₂ f₃ : File} (h : SameShape f₁ f₂) (h' : SameShape f₂ f₃) :
    SameShape f₁ f₃ where
  tree := h'.tree.trans h.tree
  alloc := h'.alloc.trans h.alloc
  used := h'.used.trans h.used
  size := h'.size.trans h.size
  segmentSize := h'.segmentSize.trans h.segmentSize
  segs := fun id s hs => by
    obtain ⟨s₂, hs₂, ho, hz, hg⟩ := h.segs id s hs
    obtain ⟨s₃, hs₃, ho', hz', hg'⟩ := h'.segs id s₂ hs₂
    exact ⟨s₃, hs₃, ho'.trans ho, hz'.trans hz, hg'.trans hg⟩

theorem NoGaps.sameShape (h : f.NoGaps) (hsh : SameShape f f') : f'.NoGaps := by
  intro id hid
  rw [hsh.tree] at hid
  obtain ⟨s, hs, hg⟩ := h id hid
  obtain ⟨s', hs', _, _, hg'⟩ := hsh.segs id s hs
  exact ⟨s', hs', hg'.trans hg⟩

theorem Maps.sameShape {rs : List Region} (h : Maps f a b rs) (hsh : SameShape f f') :
    Maps f' a b rs := by
  induction h with
  | nil => exact .nil
  | @cons a b k id s r rs hm hs hlo hhi hpos haddr _ ih =>
    obtain ⟨s', hs', ho, hz, hg⟩ := hsh.segs id s hs
    rw [← hsh.tree] at hm
    exact .cons hm hs' hlo (by omega) hpos (by rw [haddr, ho, hg]) ih

theorem NoGaps.lookupLoop_eq (h : f.NoGaps) (cfg : Config) (rangeEnd : Int) (fuel : Nat) :
    ∀ (leaf : Leaf) (rangeStart reqSize : Int) (regions : List Region), leaf ∈ f.mSegments →
    lookupLoop cfg true rangeEnd fuel f leaf rangeStart reqSize regions =
      lookupLoop cfg false rangeEnd fuel f leaf rangeStart reqSize regions := by
  induction fuel with
  | zero =>
    intros
    rfl
  | succ fuel ih =>
    intro leaf rangeStart reqSize regions hleaf
    unfold lookupLoop
    cases hv : leaf.val with
    | none => rfl
    | some id =>
      obtain ⟨s, hs, hg⟩ := h id (List.mem_filterMap.mpr ⟨leaf, hleaf, hv⟩)
      simp only [segment_eq hs, ok_bind, hg, Bool.false_eq_true, and_false, false_and, if_false,
        pure_eq_ok]
      refine congrArg _ (funext fun _ => ?_)
      split_ifs
      · rfl
      · cases hn : IntervalMap.next f.mSegments leaf.key with
        | none => rfl
        | some l => exact ih l _ _ _ (List.mem_of_find?_eq_some hn)

theorem NoGaps.lookupSegments_eq (h : f.NoGaps) (hL : f.Layout) (cfg : Config) (ha : 0 ≤ a)
    (hab : a < b) (hb : b ≤ f.mAllocOffset) :
    ∃ rs, f.lookupSegments cfg a b = .ok (f, rs) ∧ Maps f a b rs := by
  obtain ⟨rs, he, hmaps⟩ := hL.lookupHelper_read cfg ha (hab.trans_le hb) hab
  have hsame : f.lookupHelper cfg a b true = f.lookupHelper cfg a b false := by
    unfold lookupHelper
    cases hs : search f.mSegments a with
    | none => rfl
    | some leaf =>
      have hleaf : leaf ∈ f.mSegments := (List.mem_filter.mp (List.mem_of_getLast? hs)).1
      simp only [h.lookupLoop_eq cfg b _ leaf a _ _ hleaf]
  refine ⟨rs, ?_, by rwa [min_eq_left hb] at hmaps⟩
  unfold lookupSegments
  rw [check_ok ha, ok_bind, check_ok hab.le, ok_bind, hsame, he]

theorem NoGaps.grow (h : f.NoGaps) (n : Int) (hL : f.Layout) : (f.grow n false).NoGaps := by
  intro id hid
  have hid' : id ∈ treeIds f.mSegments.dropLast ∨ id = f.segments.length := by
    simpa [File.grow, treeIds_append, treeIds] using hid
  rcases hid' with hid' | rfl
  · have hmem : id ∈ treeIds f.mSegments := by
      rw [hL.chain.eq_dropLast, treeIds_append]
      exact List.mem_append_left _ hid'
    obtain ⟨s, hs, hg⟩ := h id hmem
    exact ⟨s, (List.getElem?_append_left (List.getElem?_eq_some_iff.mp hs).1).trans hs, hg⟩
  · exact ⟨_, List.getElem?_concat_length, rfl⟩

theorem NoGaps.fetchStorage_spec (h : f.NoGaps) (hL : f.Layout) (hs : f.SizeOk) (cfg : Config)
    {start size : Int} (hstart : 0 ≤ start) (hsize : 0 < size) (hle : start ≤ f.mAllocOffset) :
    ∃ f' rs, f.fetchStorage cfg start size = .ok (f', rs) ∧ f'.Layout ∧ f'.NoGaps ∧ f'.SizeOk ∧
      Maps f' start (start + size) rs ∧ Grows f f' ∧ start + size ≤ f'.mAllocOffset := by
  by_cases hin : start + size ≤ f.mAllocOffset
  · obtain ⟨rs, he, hmaps⟩ := h.lookupSegments_eq hL cfg hstart (by omega) hin
    unfold fetchStorage
    rw [if_pos hin, he]
    exact ⟨f, rs, rfl, hL, h, hs, hmaps, .refl hL, hin⟩
  · obtain ⟨hpos, hlt⟩ := nextSize_ok cfg hs
    have hx := lt_xalign (n := start + size) hpos
    have hn : 0 < xalign (start + size) (f.nextSize cfg) - f.mAllocOffset := by omega
    obtain ⟨rs, he, hmaps⟩ : ∃ rs, f.lookupAllocated cfg start = .ok (f, rs) ∧
        Maps f start f.mAllocOffset rs := by
      unfold lookupAllocated
      by_cases hlt : start < f.mAllocOffset
      · obtain ⟨rs, he, hmaps⟩ := h.lookupSegments_eq hL cfg hstart hlt le_rfl
        exact ⟨rs, by rw [if_pos hlt, he], hmaps⟩
      · obtain rfl : start = f.mAllocOffset := by omega
        exact ⟨[], by rw [if_neg hlt]; rfl, .nil⟩
    obtain ⟨hL', hg⟩ := hL.grow hn false
    rw [fetchStorage_append cfg hsize.le (not_le.mp hin), he]
    simp only [Except.bind, hL.extendAlloc_eq cfg hn rfl (.inl hle) rs, if_pos hle]
    refine ⟨_, _, rfl, hL'.withSegmentSize _, h.grow _ hL, ⟨hpos, hlt⟩, ?_,
      hg.withSegmentSize _, ?_⟩
    · have hnew := f.grow_maps (n := xalign (start + size) (f.nextSize cfg) - f.mAllocOffset)
        (m := start + size - f.mAllocOffset)
        (r := ⟨some (f.segments.length, 0), start + size - f.mAllocOffset, false⟩) (by omega)
        (by omega) rfl rfl
      rw [add_sub_cancel] at hnew
      exact ((hmaps.grows hg).append hnew).grows ((Grows.refl hL').withSegmentSize _)
    · simp only [File.grow]
      omega

theorem Layout.setData (h : f.Layout) {id : Nat} {s : Segment} (hs : f.segments[id]? = some s)
    (hgap : s.mIsGap = false) (hlen : s.mLength = some s.mSize) (d : Int → UInt8) (n : Int) :
    (f.setSegment id { s with mData := some d, mBytes := n }).Layout ∧
      SameShape f (f.setSegment id { s with mData := some d, mBytes := n }) := by
  refine ⟨h.setSegment hs rfl rfl fun _ => ⟨fun hg => absurd (hg.symm.trans hgap) (by simp),
    fun _ => ⟨d, rfl, hlen⟩⟩, rfl, rfl, rfl, rfl, rfl, ?_⟩
  intro i u hu
  by_cases hi : i = id
  · subst hi
    obtain rfl : u = s := by simpa [hs] using hu.symm
    exact ⟨_, setSegment_self hs, rfl, rfl, rfl⟩
  · exact ⟨u, (setSegment_ne hi).trans hu, rfl, rfl, rfl⟩

/-- The bytes stored through a region inside one segment. -/
theorem Layout.store_eq (h : f.Layout) (bytes : List UInt8) {k : Int} {id : Nat} {s : Segment}
    (hm : ⟨k, some id⟩ ∈ f.mSegments) (hs : f.segments[id]? = some s)
    (hgap : s.mIsGap = false) (hlo : k ≤ a)
    (hhi : a + bytes.length ≤ s.mOffset + s.mSize) :
    ∃ f', f.store (some (id, a - s.mOffset)) bytes = .ok f' ∧ f'.Layout ∧ SameShape f f' ∧
      f'.cell = overwrite f.cell a bytes := by
  rcases bytes with _ | ⟨c, bytes⟩
  · exact ⟨f, rfl, h, .refl f, (overwrite_nil _ _).symm⟩
  have hleaf := h.leafOk hm hs
  have hoff := hleaf.offset_le
  obtain ⟨d, hd, hlen⟩ := hleaf.ok.data hgap
  set s' : Segment := { s with mData := some (overwrite d (a - s.mOffset) (c :: bytes)) } with hs'
  obtain ⟨hL', hshape⟩ := h.setData hs hgap hlen
    (overwrite d (a - s.mOffset) (c :: bytes)) s.mBytes
  refine ⟨f.setSegment id s', ?_, hL', hshape, ?_⟩
  · have hroom : s.mLength.getD 0 = s.mSize := by rw [hlen, Option.getD_some]
    simp only [store, segment_eq hs, ok_bind, hd]
    rw [if_pos ⟨by omega, by omega⟩, pure_eq_ok]
  · funext x
    by_cases hx : k ≤ x ∧ x < s.mOffset + s.mSize
    · have hnew : (f.setSegment id s').cell x =
          (s'.mData.map fun d => d (x - s'.mOffset)).getD 0 :=
        hL'.cell_eq (s := s') hm (setSegment_self hs) hx.1 hx.2
      have hold : f.cell x = d (x - s.mOffset) := by
        rw [h.cell_eq hm hs hx.1 hx.2, hd]
        rfl
      rw [hnew]
      simp only [hs', Option.map_some, Option.getD_some, overwrite, sub_le_sub_iff_right,
        sub_sub_sub_cancel_right, hold]
    · -- outside the segment nothing changes
      have hout : overwrite f.cell a (c :: bytes) x = f.cell x := by
        rcases not_and_or.mp hx with hx | hx
        · exact overwrite_before (by omega)
        · exact overwrite_after (by omega)
      rw [hout]
      by_cases hx0 : 0 ≤ x
      · by_cases hxa : x < f.mAllocOffset
        · obtain ⟨j, i, u, hi, hu, h₁, h₂⟩ := h.exists_leaf hx0 hxa
          have hne : i ≠ id := by
            rintro rfl
            obtain rfl : u = s := by simpa [hs] using hu.symm
            obtain rfl := h.key_unique hi hm
            exact hx ⟨h₁, h₂⟩
          rw [h.cell_eq hi hu h₁ h₂]
          exact hL'.cell_eq (s := u) hi ((setSegment_ne hne).trans hu) h₁ h₂
        · rw [h.cell_beyond (not_lt.mp hxa)]
          exact hL'.cell_beyond (not_lt.mp hxa)
      · rw [h.cell_neg (not_le.mp hx0), hL'.cell_neg (not_le.mp hx0)]

theorem NoGaps.addr_ne_none {rs : List Region} (h : f.NoGaps) (hmaps : Maps f a b rs) :
    ∀ q ∈ rs, q.addr ≠ none := by
  induction hmaps with
  | nil => simp
  | @cons _ _ k id s r rs hm hs _ _ _ haddr _ ih =>
    intro q hq
    rcases List.mem_cons.mp hq with rfl | hq
    · obtain ⟨s', hs', hg⟩ := h id (List.mem_filterMap.mpr ⟨_, hm, rfl⟩)
      obtain rfl : s' = s := by simpa [hs] using hs'.symm
      rw [haddr, hg]
      exact Option.some_ne_none _
    · exact ih q hq

/-- The copy loop of `put_data` overwrites the range of its regions. -/
theorem Layout.copyIn_eq {rs : List Region} {buffer : List UInt8} (h : f.Layout)
    (hmaps : Maps f a b rs) (hrs : ∀ q ∈ rs, q.addr ≠ none) (hbuf : (buffer.length : Int) = b - a) (hlt : b - a < 2 ^ 63) :
    ∃ f', f.copyIn rs buffer = .ok f' ∧ f'.Layout ∧ SameShape f f' ∧
      f'.cell = overwrite f.cell a buffer := by
  induction rs generalizing f a buffer with
  | nil =>
    cases hmaps with
    | nil =>
      obtain rfl : buffer = [] := List.length_eq_zero_iff.mp (by omega)
      exact ⟨f, rfl, h, .refl f, (overwrite_nil _ _).symm⟩
  | cons r rs ih =>
    cases hmaps with
    | @cons _ _ k id s _ _ hm hs hlo hhi hpos haddr hrest =>
      have hle := hrest.le
      have hsize := toSize_of_nonneg hpos.le (by omega)
      have htake : ((buffer.take r.size.toNat).length : Int) = r.size := by
        rw [List.length_take]
        omega
      have hdrop : ((buffer.drop r.size.toNat).length : Int) = b - (a + r.size) := by
        rw [List.length_drop]
        omega
      have hgap : s.mIsGap = false := by
        by_contra hg
        exact hrs r List.mem_cons_self (by rw [haddr, if_pos (by simpa using hg)])
      obtain ⟨f₁, he₁, hL₁, hsh₁, hcell₁⟩ := h.store_eq (buffer.take r.size.toNat) hm hs hgap
        hlo (by omega)
      obtain ⟨f₂, he₂, hL₂, hsh₂, hcell₂⟩ := ih hL₁ (hrest.sameShape hsh₁)
        (fun q hq => hrs q (List.mem_cons_of_mem _ hq)) hdrop (by omega)
      refine ⟨f₂, ?_, hL₂, hsh₁.trans hsh₂, ?_⟩
      · unfold copyIn
        rw [haddr, hgap, hsize]
        simp only [Bool.false_eq_true, if_false, he₁, ok_bind, he₂]
      · have happ := overwrite_append f.cell a (buffer.take r.size.toNat)
          (buffer.drop r.size.toNat)
        rw [List.take_append_drop, htake] at happ
        rw [hcell₂, hcell₁, happ]

/-- What holds between the calls of a run without holes. -/
structure Ready (f : File) : Prop where
  layout : f.Layout
  noGaps : f.NoGaps
  sizeOk : f.SizeOk
  used : f.mUsedOffset = f.stSize
  size_nonneg : 0 ≤ f.stSize
  size_le : f.stSize ≤ f.mAllocOffset
  size_lt : f.stSize < 2 ^ 63

theorem updateSize_layout (h : f.Layout) (n : Int) : (f.updateSize n).Layout := by
  unfold updateSize
  split_ifs
  · exact ⟨h.chain⟩
  · exact h

theorem updateSize_tree (f : File) (n : Int) : (f.updateSize n).mSegments = f.mSegments ∧
    (f.updateSize n).segments = f.segments ∧ (f.updateSize n).mAllocOffset = f.mAllocOffset ∧
    (f.updateSize n).mSegmentSize = f.mSegmentSize := by
  unfold updateSize
  split_ifs <;> exact ⟨rfl, rfl, rfl, rfl⟩

theorem updateSize_stSize (f : File) (n : Int) : (f.updateSize n).stSize = max f.stSize n := by
  unfold updateSize
  split_ifs with h
  · exact (max_eq_right h.le).symm
  · exact (max_eq_left (not_lt.mp h)).symm

theorem updateSize_used (h : f.mUsedOffset = f.stSize) (n : Int) :
    (f.updateSize n).mUsedOffset = (f.updateSize n).stSize := by
  unfold updateSize
  split_ifs
  · rfl
  · exact h

theorem updateSize_cell (f : File) (n : Int) : (f.updateSize n).cell = f.cell := by
  obtain ⟨ht, hs, _, _⟩ := f.updateSize_tree n
  funext x
  unfold cell
  rw [ht, hs]

theorem Ready.updateSize (hL : f.Layout) (hng : f.NoGaps) (hs : f.SizeOk)
    (hu : f.mUsedOffset = f.stSize) (h0 : 0 ≤ f.stSize) (hle : f.stSize ≤ f.mAllocOffset)
    (hlt : f.stSize < 2 ^ 63) {n : Int} (hn : n ≤ f.mAllocOffset) (hnlt : n < 2 ^ 63) :
    (f.updateSize n).Ready := by
  obtain ⟨ht, hsegs, ha, hz⟩ := f.updateSize_tree n
  have hst := f.updateSize_stSize n
  refine ⟨updateSize_layout hL n, ?_, ?_, updateSize_used hu n, ?_, ?_, ?_⟩
  · unfold NoGaps
    rw [ht, hsegs]
    exact hng
  · unfold SizeOk
    rw [hz]
    exact hs
  · omega
  · omega
  · omega

/-- The calls that put data or storage into a file. -/
inductive Op where
  | putData (start : Int) (buffer : List UInt8)
  | allocate (start size : Int)

namespace Op

def start : Op → Int
  | putData start _ => start
  | allocate start _ => start

def size : Op → Int
  | putData _ buffer => buffer.length
  | allocate _ size => size

/-- The range of a request: an `off_t` and a positive length whose sum is an `off_t`. -/
def Valid (op : Op) : Prop := 0 ≤ op.start ∧ 0 < op.size ∧ op.start + op.size < 2 ^ 63

instance : DecidablePred Valid := fun _ => inferInstanceAs (Decidable (_ ∧ _))

def run (cfg : Config) (f : File) : Op → Result File
  | putData start buffer => f.putData cfg start buffer
  | allocate start size => f.allocate cfg start size

/-- The same call on a plain byte array. -/
def write (m : Int → UInt8) : Op → Int → UInt8
  | putData start buffer => overwrite m start buffer
  | allocate _ _ => m

end Op

theorem Ready.run (h : f.Ready) (cfg : Config) {op : Op} (hv : op.Valid)
    (hle : op.start ≤ f.mAllocOffset) :
    ∃ f', op.run cfg f = .ok f' ∧ f'.Ready ∧ f'.cell = op.write f.cell ∧
      f'.stSize = max f.stSize (op.start + op.size) := by
  obtain ⟨h0, hpos, hlt⟩ := hv
  obtain ⟨f₁, rs, he, hL, hng, hs, hmaps, hg, hend⟩ :=
    h.noGaps.fetchStorage_spec h.layout h.sizeOk cfg h0 hpos hle
  have hcell : f₁.cell = f.cell := funext (hg.cell_eq h.layout hL)
  have hu : f₁.mUsedOffset = f₁.stSize := by rw [hg.used, hg.size, h.used]
  have h0' := h.size_nonneg
  have hle' := h.size_le
  have hlt' := h.size_lt
  have hga := hg.alloc
  have hgs := hg.size
  cases op with
  | putData start buffer =>
    simp only [Op.start, Op.size] at h0 hpos hlt he hmaps hend
    obtain ⟨f₂, hc, hL₂, hsh, hcell₂⟩ := hL.copyIn_eq hmaps (hng.addr_ne_none hmaps)
      (show (buffer.length : Int) = start + buffer.length - start by omega) (by omega)
    have hsa := hsh.alloc
    have hss := hsh.size
    have hsu := hsh.used
    refine ⟨f₂.updateSize (start + buffer.length), ?_, ?_, ?_, ?_⟩
    · simp only [Op.run, File.putData, he, ok_bind, hc, pure_eq_ok]
    · apply Ready.updateSize hL₂ (hng.sameShape hsh) <;> try omega
      unfold SizeOk
      rw [hsh.segmentSize]
      exact hs
    · rw [updateSize_cell, hcell₂, hcell]
      rfl
    · rw [updateSize_stSize, hss, hgs]
      rfl
  | allocate start size =>
    simp only [Op.start, Op.size] at h0 hpos hlt he hmaps hend
    refine ⟨f₁.updateSize (start + size), ?_, ?_, ?_, ?_⟩
    · simp only [Op.run, File.allocate, he, ok_bind, pure_eq_ok]
    · apply Ready.updateSize hL hng hs hu <;> omega
    · rw [updateSize_cell, hcell]
      rfl
    · rw [updateSize_stSize, hgs]
      rfl

def runOps (cfg : Config) (f : File) (ops : List Op) : Result File := ops.foldlM (Op.run cfg) f

/-- No call starts beyond the part that is allocated when it is made. -/
def HoleFree (cfg : Config) : File → List Op → Prop
  | _, [] => True
  | f, op :: ops => op.start ≤ f.mAllocOffset ∧ ∀ f', op.run cfg f = .ok f' → HoleFree cfg f' ops

def reference (content : List UInt8) (ops : List Op) : Int → UInt8 :=
  ops.foldl Op.write (overwrite (fun _ => 0) 0 content)

def referenceSize (size : Int) (ops : List Op) : Int :=
  ops.foldl (fun n op => max n (op.start + op.size)) size

theorem Ready.runOps (cfg : Config) (ops : List Op) : ∀ {f : File}, f.Ready →
    (∀ op ∈ ops, op.Valid) → HoleFree cfg f ops →
    ∃ f', f.runOps cfg ops = .ok f' ∧ f'.Ready ∧ f'.cell = ops.foldl Op.write f.cell ∧
      f'.stSize = referenceSize f.stSize ops := by
  induction ops with
  | nil =>
    intro f h _ _
    exact ⟨f, rfl, h, rfl, rfl⟩
  | cons op ops ih =>
    intro f h hv hfree
    obtain ⟨f₁, he₁, h₁, hcell₁, hsize₁⟩ := h.run cfg (hv op List.mem_cons_self) hfree.1
    obtain ⟨f₂, he₂, h₂, hcell₂, hsize₂⟩ := ih h₁ (fun o ho => hv o (List.mem_cons_of_mem _ ho))
      (hfree.2 f₁ he₁)
    refine ⟨f₂, ?_, h₂, ?_, ?_⟩
    · simp only [File.runOps, List.foldlM_cons, he₁, ok_bind]
      exact he₂
    · rw [hcell₂, hcell₁, List.foldl_cons]
    · rw [hsize₂, hsize₁]
      rfl

theorem create_ready : create.Ready where
  layout := ⟨.last⟩
  noGaps := by
    intro id hid
    simp [create, treeIds] at hid
  sizeOk := by
    unfold SizeOk create
    norm_num
  used := rfl
  size_nonneg := le_rfl
  size_le := le_rfl
  size_lt := by
    unfold create
    norm_num

theorem create_cell : create.cell = fun _ => 0 := by
  funext x
  unfold cell create search
  by_cases hx : 0 ≤ x <;> simp [hx]

/-- A preloaded file holds its content and zeros after it. -/
theorem preload_spec {content : List UInt8} (hlt : (content.length : Int) < 2 ^ 63) :
    ∃ f, preload content = .ok f ∧ f.Ready ∧ f.cell = overwrite (fun _ => 0) 0 content ∧
      f.stSize = content.length ∧ f.mAllocOffset ≤ content.length + 4096 := by
  set n := xalign (content.length : Int) 4096 with hn
  have hlen : (content.length : Int) < n := lt_xalign (by norm_num)
  have hle : n ≤ content.length + 4096 := xalign_le _ _
  have hpos : 0 < n := by omega
  obtain ⟨hL, hg⟩ := create_ready.layout.grow hpos false
  have hs : (create.grow n false).segments[0]? = some (.new 0 n false) := rfl
  obtain ⟨hL', hsh⟩ := hL.setData hs rfl rfl (overwrite (fun _ => 0) 0 content) content.length
  set g := (create.grow n false).setSegment 0 { Segment.new 0 n false with
    mData := some (overwrite (fun _ => 0) 0 content), mBytes := content.length } with hgdef
  have halloc : g.mAllocOffset = n := by
    rw [hsh.alloc]
    simp only [File.grow, create]
    omega
  have hng : g.NoGaps := (create_ready.noGaps.grow n create_ready.layout).sameShape hsh
  have hcell : g.cell = overwrite (fun _ => 0) 0 content := by
    funext x
    by_cases hx : 0 ≤ x ∧ x < n
    · have hm : (⟨0, some 0⟩ : Leaf) ∈ g.mSegments := List.mem_cons_self
      have := hL'.cell_eq (x := x) (s := { Segment.new 0 n false with
        mData := some (overwrite (fun _ => 0) 0 content), mBytes := content.length }) hm
        (setSegment_self hs) hx.1 (by
          simp only [Segment.new]
          omega)
      rw [this]
      simp only [Segment.new, Option.map_some, Option.getD_some, sub_zero]
    · rcases not_and_or.mp hx with hx | hx
      · rw [hL'.cell_neg (not_le.mp hx), overwrite_before (not_le.mp hx)]
      · have hbeyond : g.cell x = 0 := by
          apply hL'.cell_beyond
          rw [halloc]
          omega
        rw [hbeyond, overwrite_after (by omega)]
  refine ⟨{ g with mUsedOffset := content.length, stSize := content.length }, ?_, ?_, hcell, rfl,
    halloc.trans_le hle⟩
  · have hlink : (create.createSegment 0 n false).1.appendSegments [0] =
        .ok { create.grow n false with mAllocOffset := 0 } :=
      create_ready.layout.append_grow hpos false 4096
    have hseg : segment { create.grow n false with mAllocOffset := 0 } 0 =
        .ok (.new 0 n false) := rfl
    have hid : (create.createSegment 0 n false).2 = 0 := rfl
    unfold preload
    rw [show xalign (content.length : Int) create.mSegmentSize = n from rfl]
    simp only [hid, hlink, ok_bind, hseg, pure_eq_ok]
    rw [hgdef]
    congr 2
    simp [File.grow, create, setSegment, Segment.new]
  · refine ⟨⟨hL'.chain⟩, hng, create_ready.sizeOk, rfl, ?_, ?_, ?_⟩ <;> simp only
    · omega
    · rw [halloc]
      omega
    · exact hlt

/-- How a file comes into being. -/
inductive Origin where
  | created
  | preloaded (content : List UInt8)

def Origin.content : Origin → List UInt8
  | created => []
  | preloaded content => content

def Origin.file : Origin → Result File
  | created => .ok create
  | preloaded content => preload content

theorem Origin.file_spec (origin : Origin) (hlt : (origin.content.length : Int) < 2 ^ 63) :
    ∃ f, origin.file = .ok f ∧ f.Ready ∧ f.cell = overwrite (fun _ => 0) 0 origin.content ∧
      f.stSize = origin.content.length ∧ f.mAllocOffset ≤ origin.content.length + 4096 := by
  cases origin with
  | created => exact ⟨create, rfl, create_ready, by rw [create_cell]; simp [content], rfl, by decide⟩
  | preloaded content => exact preload_spec hlt

end File
end EchoFs.Nvml
