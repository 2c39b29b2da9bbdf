import EchoFs.Library.Loop
import EchoFs.Nvml.Partition
import EchoFs.Nvml.Pieces

/-! The turns of the loop of `lookup_helper` when it gives memory to gaps: the segment each
of them stands on, and the memory that the regions are in at the end. -/

namespace EchoFs.Nvml
open Checked IntervalMap

/-- What the loop of `lookup_helper` goes on with. -/
structure Lookup where
  file : File
  leaf : Leaf
  rangeStart : Int
  reqSize : Int
  regions : List Region

namespace File

/-- The end of a turn, with the file and the offset in the segment that it has found. -/
def turnEnd (rangeEnd : Int) (σ : Lookup) (id : Nat) (sEnd opSize : Int) (f : File)
    (opDelta : Int) : Result (Lookup ⊕ File × List Region) := do
  let s ← f.segment id
  let regions := σ.regions ++
    [⟨if s.mIsGap then none else some (id, opDelta), opSize, s.mIsGap⟩]
  if sEnd ≥ rangeEnd then
    return .inr (f, regions)
  else
    match IntervalMap.next f.mSegments σ.leaf.key with
    | none => .error .badPointer
    | some leaf => return .inl ⟨f, leaf, sEnd, σ.reqSize - opSize, regions⟩

/-- One turn of the loop. -/
def lookupTurn (cfg : Config) (allocGaps : Bool) (rangeEnd : Int) (σ : Lookup) :
    Result (Lookup ⊕ File × List Region) :=
  match σ.leaf.val with
  | none => return .inr (σ.file, σ.regions)
  | some id => do
    let s ← σ.file.segment id
    check (σ.rangeStart - s.mOffset ≠ s.mSize)
    let opSize := min σ.reqSize (s.mSize - (σ.rangeStart - s.mOffset))
    if allocGaps = true ∧ s.mIsGap = true then
      let (f, opDelta) ← σ.file.allocateGap cfg id s σ.rangeStart σ.reqSize
      turnEnd rangeEnd σ id (s.mOffset + s.mSize) opSize f opDelta
    else
      turnEnd rangeEnd σ id (s.mOffset + s.mSize) opSize σ.file (σ.rangeStart - s.mOffset)

theorem lookupLoop_eq_loop (cfg : Config) (g : Bool) (b : Int) (fuel : Nat) :
    ∀ (f : File) (leaf : Leaf) (r q : Int) (regions : List Region),
      lookupLoop cfg g b fuel f leaf r q regions =
        loop (lookupTurn cfg g b) fuel ⟨f, leaf, r, q, regions⟩ := by
  induction fuel with
  | zero => exact fun _ _ _ _ _ => rfl
  | succ fuel ih =>
    intro f leaf r q regions
    rw [loop]
    generalize loop (lookupTurn cfg g b) fuel = go at ih ⊢
    have hend : ∀ (id : Nat) (e n : Int) (p : File × Int), (p.1.segment id >>= fun u =>
        lookupRest cfg g b fuel p.1 leaf e (q - n) (regions ++
          [⟨if u.mIsGap = true then none else some (id, p.2), n, u.mIsGap⟩])) =
        turnEnd b ⟨f, leaf, r, q, regions⟩ id e n p.1 p.2 >>= Sum.elim go .ok := by
      intro id e n p
      unfold turnEnd lookupRest
      cases p.1.segment id with
      | error e => rfl
      | ok u =>
        simp only [ok_bind]
        by_cases hb : e ≥ b
        · simp only [if_pos hb]
          rfl
        · simp only [if_neg hb]
          cases IntervalMap.next p.1.mSegments leaf.key with
          | none => rfl
          | some leaf => exact ih _ _ _ _ _
    unfold lookupLoop lookupTurn
    cases leaf.val with
    | none => rfl
    | some id =>
      dsimp only
      cases f.segment id with
      | error e => rfl
      | ok s =>
        simp only [ok_bind]
        cases check (r - s.mOffset ≠ s.mSize) with
        | error e => rfl
        | ok u =>
          simp only [ok_bind]
          by_cases hg : g = true ∧ s.mIsGap = true
          · simp only [if_pos hg]
            cases f.allocateGap cfg id s r q with
            | error e => rfl
            | ok p => exact hend id _ _ p
          · simp only [if_neg hg]
            exact hend id _ _ (f, r - s.mOffset)

variable {f f' f₁ : File} {L R : List Leaf} {a b k r o e x d : Int} {id i : Nat} {s : Segment}

/-- The search for `x` leads to the byte at offset `d` in the memory of the segment `id`. -/
def Stored (f : File) (x : Int) (id : Nat) (d : Int) : Prop :=
  ∃ k s, search f.mSegments x = some ⟨k, some id⟩ ∧ f.segments[id]? = some s ∧
    s.mIsGap = false ∧ s.mOffset ≤ x ∧ x < s.mOffset + s.mSize ∧ d = x - s.mOffset

/-- The regions give the memory of `[a, b)`, in this order. -/
inductive Gives (f : File) : Int → Int → List Region → Prop
  | nil {a : Int} : Gives f a a []
  | cons {a b d : Int} {id : Nat} {q : Region} {rs : List Region} (hpos : 0 < q.size)
      (haddr : q.addr = some (id, d))
      (hst : ∀ x, a ≤ x → x < a + q.size → Stored f x id (d + (x - a)))
      (h : Gives f (a + q.size) b rs) : Gives f a b (q :: rs)

theorem Gives.le {rs : List Region} (h : Gives f a b rs) : a ≤ b := by
  induction h with
  | nil => exact le_rfl
  | cons hpos _ _ _ ih => omega

theorem Gives.pos {rs : List Region} (h : Gives f a b rs) : ∀ q ∈ rs, 0 < q.size := by
  induction h with
  | nil => simp
  | cons hpos _ _ _ ih =>
    intro q hq
    rcases List.mem_cons.mp hq with rfl | hq
    · exact hpos
    · exact ih q hq

theorem Gives.sum {rs : List Region} (h : Gives f a b rs) :
    (rs.map Region.size).sum = b - a := by
  induction h with
  | nil => simp
  | cons _ _ _ _ ih =>
    rw [List.map_cons, List.sum_cons, ih]
    omega

theorem Gives.append {c : Int} {rs rs' : List Region} (h : Gives f a b rs)
    (h' : Gives f b c rs') : Gives f a c (rs ++ rs') := by
  induction h with
  | nil => exact h'
  | cons hpos haddr hst _ ih => exact .cons hpos haddr hst (ih h')

theorem Gives.mono {rs : List Region} (h : Gives f a b rs)
    (hst : ∀ x i d, x < b → Stored f x i d → Stored f₁ x i d) : Gives f₁ a b rs := by
  induction h with
  | nil => exact .nil
  | cons hpos haddr hx h ih =>
    have hle := h.le
    exact .cons hpos haddr (fun x h₁ h₂ => hst _ _ _ (by omega) (hx x h₁ h₂)) (ih hst)

theorem gives_one {q : Region} (hpos : 0 < q.size) (haddr : q.addr = some (id, d))
    (hb : b = a + q.size) (hst : ∀ x, a ≤ x → x < b → Stored f x id (d + (x - a))) :
    Gives f a b [q] := by
  subst hb
  exact .cons hpos haddr hst .nil

theorem Layout.stored (h : f.Layout) (hm : ⟨k, some id⟩ ∈ f.mSegments)
    (hs : f.segments[id]? = some s) (hg : s.mIsGap = false) (hk : k ≤ x)
    (hx : x < s.mOffset + s.mSize) : Stored f x id (x - s.mOffset) :=
  ⟨k, s, h.search_leaf hm hs hk hx, hs, hg, (h.leafOk hm hs).offset_le.trans hk, hx, rfl⟩

/-- A gap starts with its leaf. -/
def Tight (f : File) : Prop :=
  ∀ (k : Int) (id : Nat) (s : Segment), ⟨k, some id⟩ ∈ f.mSegments → f.segments[id]? = some s →
    s.mIsGap = true → s.mOffset = k

/-- The leaves up to the memory of a gap that was split. -/
theorem frontLeaves_split (s : Segment) (o k : Int) (id n : Nat) :
    ∃ F j, frontLeaves s o k id n = F ++ [⟨j, some id⟩] ∧ (j = k ∨ j = o) ∧
      ∀ l ∈ F, l.key = k := by
  unfold frontLeaves
  split_ifs
  · exact ⟨[], k, rfl, .inl rfl, by simp⟩
  · exact ⟨[⟨k, some n⟩], o, rfl, .inr rfl, by simp⟩

theorem key_ge_of_mem_frontLeaves {n : Nat} (hoff : s.mOffset = k) :
    ∀ l ∈ frontLeaves s o k id n, k ≤ l.key := by
  intro l hl
  unfold frontLeaves at hl
  split_ifs at hl with ho
  · rw [List.mem_singleton.mp hl]
  · rcases List.mem_cons.mp hl with rfl | hl
    · exact le_rfl
    · rw [List.mem_singleton.mp hl]
      simp only
      omega

section
variable {segs : List Segment} {n n' : Nat} (hfill : Filled f segs s o e id n n')
  (htree : f.mSegments = L ++ ⟨k, some id⟩ :: R) (hL : ∀ l ∈ L, l.key < k) (hok : o ≤ r)
  (hkr : k ≤ r) (hR : ∀ l ∈ R, s.mOffset + s.mSize ≤ l.key)
include hfill hL hok hkr hR

theorem Filled.stored (hx : r ≤ x) (hxe : x < e) (hxs : x < s.mOffset + s.mSize) :
    Stored { f with
      segments := segs
      mSegments := L ++ frontLeaves s o k id n ++ backLeaves s e n' ++ R } x id (x - o) := by
  obtain ⟨F, j, hF, hj, hFk⟩ := frontLeaves_split s o k id n
  have hback : ∀ l ∈ backLeaves s e n' ++ R, x < l.key := by
    intro l hl
    rcases List.mem_append.mp hl with hl | hl
    · unfold backLeaves at hl
      split_ifs at hl
      · rw [List.mem_singleton.mp hl]
        exact hxe
      · cases hl
    · exact hxs.trans_le (hR l hl)
  have hfront : ∀ l ∈ L ++ F, l.key ≤ x := by
    intro l hl
    rcases List.mem_append.mp hl with hl | hl
    · have := hL l hl
      omega
    · have := hFk l hl
      omega
  refine ⟨j, s.filled o e, ?_, hfill.filled, rfl, hok.trans hx, ?_, rfl⟩
  · rw [hF]
    have := search_mid (l := (⟨j, some id⟩ : Leaf)) (x := x) hfront (by simp only; omega) hback
    simpa only [List.append_assoc, List.cons_append, List.nil_append] using this
  · simp only [Segment.filled]
    omega

omit hok in
include htree in
theorem Filled.stored_before (h : f.Layout) (hs : f.segments[id]? = some s)
    (hgap : s.mIsGap = true) (hoff : s.mOffset = k) (hr : r < s.mOffset + s.mSize) (hre : r < e)
    (hx : x < r) (hst : Stored f x i d) : Stored { f with
      segments := segs
      mSegments := L ++ frontLeaves s o k id n ++ backLeaves s e n' ++ R } x i d := by
  obtain ⟨j, u, hsearch, hu, hug, hle, hlt, hd⟩ := hst
  have hm : (⟨k, some id⟩ : Leaf) ∈ f.mSegments := by simp [htree]
  by_cases hkx : k ≤ x
  · rw [h.search_leaf hm hs hkx (hx.trans hr)] at hsearch
    obtain ⟨rfl, rfl⟩ : k = j ∧ id = i := by simpa using hsearch
    rw [hs] at hu
    rw [← Option.some.inj hu, hgap] at hug
    cases hug
  · have hbefore : ∀ T : List Leaf, (∀ l ∈ T, k ≤ l.key) → search (L ++ T) x = search L x :=
      fun T hT => search_append fun l hl => (not_le.mp hkx).trans_le (hT l hl)
    have hk : k < s.mOffset + s.mSize := by omega
    rw [htree, hbefore _ (by
      intro l hl
      rcases List.mem_cons.mp hl with rfl | hl
      · exact le_rfl
      · exact hk.le.trans (hR l hl))] at hsearch
    obtain ⟨hjL, -⟩ := mem_of_search hsearch
    have hmem : (⟨j, some i⟩ : Leaf) ∈ f.mSegments := by
      rw [htree]
      exact List.mem_append_left _ hjL
    have hne : i ≠ id := by
      rintro rfl
      have := hL _ hjL
      rw [h.key_unique hmem hm] at this
      exact lt_irrefl _ this
    refine ⟨j, u, ?_, ?_, hug, hle, hlt, hd⟩
    · rw [List.append_assoc, List.append_assoc, hbefore _ ?_]
      · exact hsearch
      intro l hl
      rcases List.mem_append.mp hl with hl | hl
      · exact key_ge_of_mem_frontLeaves hoff l hl
      rcases List.mem_append.mp hl with hl | hl
      · unfold backLeaves at hl
        split_ifs at hl
        · rw [List.mem_singleton.mp hl]
          exact hkr.trans hre.le
        · cases hl
      · exact hk.le.trans (hR l hl)
    · rw [hfill.others i (List.getElem?_eq_some_iff.mp hu).1 hne]
      exact hu

end

/-- The file `f₁` has memory for the part of `[r, b)` in the segment `s`, with the byte at
`r` at offset `d`. If the range goes on behind the segment, the leaves are as before. -/
structure Piece (f : File) (r b : Int) (id : Nat) (s : Segment) (f₁ : File) (d : Int) : Prop where
  seg : ∃ u, f₁.segments[id]? = some u ∧ u.mIsGap = false
  same : SameMeta f f₁
  before : ∀ (x : Int) (i : Nat) (d : Int), x < r → Stored f x i d → Stored f₁ x i d
  here : ∀ x, r ≤ x → x < b → x < s.mOffset + s.mSize → Stored f₁ x id (d + (x - r))
  layout : s.mOffset + s.mSize ≤ b → f₁.Layout
  tight : s.mOffset + s.mSize < b → f₁.Tight
  tree : s.mOffset + s.mSize < b → f₁.mSegments = f.mSegments
  keeps : ∀ i ∈ treeIds f.mSegments, i ≠ id → f₁.segments[i]? = f.segments[i]?

section
variable (h : f.Layout) (cfg : Config) (htree : f.mSegments = L ++ ⟨k, some id⟩ :: R)
  (hL : ∀ l ∈ L, l.key < k) (hs : LeafOk f.segments k id s)
  (hR : Chain f.segments f.mAllocOffset (s.mOffset + s.mSize) R) (hkr : k ≤ r)
  (hr : r < s.mOffset + s.mSize) (hrb : r < b) (hb : b ≤ f.mAllocOffset)
  (hlt : f.mAllocOffset < 2 ^ 63)

include h htree hs hkr in
theorem Tight.piece_segment (ht : f.Tight) (hg : s.mIsGap = false) :
    Piece f r b id s f (r - s.mOffset) where
  seg := ⟨s, hs.seg, hg⟩
  same := ⟨rfl, rfl, rfl, rfl⟩
  before := fun _ _ _ _ hst => hst
  here := by
    intro x hrx _ hx
    have hst := h.stored (show ⟨k, some id⟩ ∈ f.mSegments by simp [htree]) hs.seg hg
      (hkr.trans hrx) hx
    rwa [show r - s.mOffset + (x - r) = x - s.mOffset by omega]
  layout := fun _ => h
  tight := fun _ => ht
  tree := fun _ => rfl
  keeps := fun _ _ _ => rfl

include h htree hL hs hR hkr hr hrb hb hlt in
/-- A gap gets memory; it is split in front only if it holds the whole rest of the range. -/
theorem Tight.piece_gap (ht : f.Tight) (hg : s.mIsGap = true)
    (hwhole : s.mOffset + s.mSize < b → align r cfg.segmentSize ≤ k) :
    ∃ f₁ d, f.allocateGap cfg id s r (b - r) = .ok (f₁, d) ∧ Piece f r b id s f₁ d := by
  have hm : (⟨k, some id⟩ : Leaf) ∈ f.mSegments := by simp [htree]
  have hk : 0 ≤ k := h.chain.key_ge _ hm
  have hoff : s.mOffset = k := ht k id s hm hs.seg hg
  have hor := align_le r cfg.segmentSize
  have hle := hR.le
  have hRk : ∀ l ∈ R, k < l.key := fun l hl => hs.lt_end.trans_le (hR.key_ge l hl)
  have hre : r < gapEnd cfg b s := lt_gapEnd hr hrb
  have hmin := min_le_gapEnd cfg b s
  obtain ⟨segs, n, n', he, hfill⟩ := h.allocateGap_tree cfg htree hL hs hg hR hk hkr hr hrb hb
    (by omega) (.inl hoff) rfl rfl
  refine ⟨_, _, he, ⟨_, hfill.filled, rfl⟩, ⟨rfl, rfl, rfl, rfl⟩, ?_, ?_, ?_, ?_, ?_, ?_⟩
  · intro x i d hx hst
    exact hfill.stored_before htree hL hkr hR.key_ge h hs.seg hg hoff hr hre hx hst
  · intro x hrx hxb hx
    have hst := hfill.stored hL hor hkr hR.key_ge hrx (by omega) hx
    rwa [show r - align r cfg.segmentSize + (x - r) = x - align r cfg.segmentSize by omega]
  · intro hend
    have hfits : GapFits cfg r b k s := ⟨.inl hoff, fun hb' => absurd hb' (by omega)⟩
    obtain ⟨f', _, _, _, _, he', hlayout, -⟩ :=
      h.allocateGap_layout cfg htree hL hs hg hR hkr hr hrb hb (by omega) hfits
    obtain ⟨rfl, -⟩ := Prod.mk.inj (Except.ok.inj (he.symm.trans he'))
    exact hlayout
  · intro hend j i u hmem hu hug
    rcases hfill.leaf_cases h htree hL hRk hmem hu with ⟨hmf, huf, -⟩ | ⟨-, rfl⟩ | ⟨rfl, -, rfl⟩ |
      ⟨rfl, rfl⟩
    · exact ht j i u hmf huf hug
    · cases hug
    · exact hoff
    · rfl
  · intro hend
    have hone : frontLeaves s (align r cfg.segmentSize) k id n = [⟨k, some id⟩] :=
      if_pos (by rw [hoff]; exact hwhole hend)
    have hnone : backLeaves s (gapEnd cfg b s) n' = [] := if_neg (by omega)
    simp only [hone, hnone, htree, List.append_nil, List.append_assoc, List.singleton_append]
  · intro i hi hne
    exact hfill.others i (h.chain.id_lt i hi) hne

end

/-- The loop that looks up `[a, b)` in `f` stands on the leaf at `k`, whose segment `s` holds
the rest of the range or needs no gap in front. -/
structure At (cfg : Config) (f : File) (a b : Int) (L : List Leaf) (k : Int) (id : Nat)
    (s : Segment) (R : List Leaf) (σ : Lookup) : Prop where
  layout : σ.file.Layout
  tight : σ.file.Tight
  same : SameMeta f σ.file
  leaf : σ.leaf = ⟨k, some id⟩
  tree : σ.file.mSegments = L ++ ⟨k, some id⟩ :: R
  before : ∀ l ∈ L, l.key < k
  here : LeafOk σ.file.segments k id s
  after : Chain σ.file.segments σ.file.mAllocOffset (s.mOffset + s.mSize) R
  start_ge : k ≤ σ.rangeStart
  start_lt : σ.rangeStart < s.mOffset + s.mSize
  inside : σ.rangeStart < b
  size : σ.reqSize = b - σ.rangeStart
  whole : s.mIsGap = true → s.mOffset + s.mSize < b → align σ.rangeStart cfg.segmentSize ≤ k
  gives : Gives σ.file a σ.rangeStart σ.regions

/-- What a lookup of `[a, b)` ends with: memory for the whole range. -/
structure Given (f : File) (a b : Int) (f' : File) (rs : List Region) : Prop where
  same : SameMeta f f'
  gives : Gives f' a b rs
  layout : b = f.mAllocOffset → f'.Layout

section
variable {cfg : Config} {σ : Lookup} (h : At cfg f a b L k id s R σ) (hb : b ≤ f.mAllocOffset)
  (hlt : f.mAllocOffset < 2 ^ 63)
include h hb hlt

/-- Each turn finds memory for its part of the range. -/
theorem At.turn : ∃ f₁ d, Piece σ.file σ.rangeStart b id s f₁ d ∧
    lookupTurn cfg true b σ = turnEnd b σ id (s.mOffset + s.mSize)
      (min σ.reqSize (s.mSize - (σ.rangeStart - s.mOffset))) f₁ d := by
  have halloc : σ.file.mAllocOffset = f.mAllocOffset := h.same.alloc
  have hstart := h.start_lt
  unfold lookupTurn
  rw [h.leaf]
  simp only [segment_eq h.here.seg, ok_bind,
    check_ok (show σ.rangeStart - s.mOffset ≠ s.mSize by omega)]
  cases hg : s.mIsGap with
  | false => exact ⟨_, _, h.tight.piece_segment h.layout h.tree h.here h.start_ge hg, rfl⟩
  | true =>
    obtain ⟨f₁, d, he, hpiece⟩ := h.tight.piece_gap h.layout cfg h.tree h.before h.here h.after
      h.start_ge h.start_lt h.inside (by omega) (by omega) hg (h.whole hg)
    refine ⟨f₁, d, hpiece, ?_⟩
    rw [h.size, he]
    rfl

theorem At.descends : (∃ L' k' id' s' R', R'.length < R.length ∧ ∃ σ',
      lookupTurn cfg true b σ = .ok (.inl σ') ∧ At cfg f a b L' k' id' s' R' σ') ∨
    ∃ p, lookupTurn cfg true b σ = .ok (.inr p) ∧ Given f a b p.1 p.2 := by
  obtain ⟨f₁, d, hp, hturn⟩ := h.turn hb hlt
  obtain ⟨u, hu, hug⟩ := hp.seg
  have halloc : σ.file.mAllocOffset = f.mAllocOffset := h.same.alloc
  have hsame : SameMeta f f₁ := h.same.trans hp.same
  have hstart := h.start_lt
  have hin := h.inside
  have hsize := h.size
  have hgives : Gives f₁ a (min b (s.mOffset + s.mSize)) (σ.regions ++ [⟨some (id, d),
      min σ.reqSize (s.mSize - (σ.rangeStart - s.mOffset)), false⟩]) := by
    refine (h.gives.mono hp.before).append (gives_one (by simp only; omega) rfl
      (by simp only; omega) fun x hx hxb => ?_)
    exact hp.here x hx (by omega) (by omega)
  unfold turnEnd at hturn
  simp only [segment_eq hu, ok_bind, hug, Bool.false_eq_true, if_false] at hturn
  by_cases hend : s.mOffset + s.mSize ≥ b
  · right
    rw [if_pos hend] at hturn
    rw [min_eq_left hend] at hgives
    have hle := h.after.le
    exact ⟨_, hturn, hsame, hgives, fun hba => hp.layout (by omega)⟩
  · left
    have hlt' : s.mOffset + s.mSize < b := not_le.mp hend
    rw [if_neg hend, hp.tree hlt', h.leaf] at hturn
    rw [min_eq_right hlt'.le] at hgives
    have hne := h.layout.ne_of_mem_after h.tree h.here h.after
    have hkeep : ∀ i ∈ treeIds R, f₁.segments[i]? = σ.file.segments[i]? := by
      intro i hi
      refine hp.keeps i ?_ (hne i hi)
      rw [h.tree, treeIds_append]
      refine List.mem_append_right _ ?_
      simp only [treeIds, List.filterMap_cons]
      exact List.mem_cons_of_mem _ hi
    have hRk : ∀ l ∈ R, k < l.key := fun l hl => h.here.lt_end.trans_le (h.after.key_ge l hl)
    obtain ⟨id', s', R', rfl, hs', hchain⟩ := h.after.next_leaf (by omega) hkeep
    have hnext : IntervalMap.next σ.file.mSegments k = some ⟨s.mOffset + s.mSize, some id'⟩ := by
      rw [h.tree]
      exact next_mid (l := (⟨k, some id⟩ : Leaf)) h.before hRk
    rw [hnext] at hturn
    have hlen : R'.length < (⟨s.mOffset + s.mSize, some id'⟩ :: R' : List Leaf).length :=
      Nat.lt_succ_self _
    refine ⟨L ++ [⟨k, some id⟩], s.mOffset + s.mSize, id', s', R', hlen, _, hturn, ?_⟩
    constructor
    · exact hp.layout hlt'.le
    · exact hp.tight hlt'
    · exact hsame
    · rfl
    · rw [hp.tree hlt', h.tree]
      simp
    · exact h.here.keys_lt_end h.before
    · exact hs'
    · rw [hsame.alloc, ← halloc]
      exact hchain
    · exact le_rfl
    · exact hs'.lt_end
    · exact hlt'
    · simp only
      omega
    · exact fun _ _ => align_le _ _
    · exact hgives

end

theorem descends_at (cfg : Config) (hb : b ≤ f.mAllocOffset) (hlt : f.mAllocOffset < 2 ^ 63) :
    Descends (lookupTurn cfg true b)
      (fun n σ => ∃ L k id s R, R.length = n ∧ At cfg f a b L k id s R σ)
      (fun p => Given f a b p.1 p.2) := by
  rintro n σ ⟨L, k, id, s, R, rfl, hat⟩
  rcases hat.descends hb hlt with ⟨L', k', id', s', R', hlen, σ', hturn, hat'⟩ | ⟨p, hp, hgiven⟩
  · exact .inl ⟨_, hlen, σ', hturn, L', k', id', s', R', rfl, hat'⟩
  · exact .inr ⟨p, hp, hgiven⟩

/-- The segment at `a` is a gap that starts before the block of `a` and ends before `b`. -/
def SplitsGap (cfg : Config) (f : File) (a b : Int) : Prop :=
  ∃ k id s, ⟨k, some id⟩ ∈ f.mSegments ∧ f.segments[id]? = some s ∧ s.mIsGap = true ∧
    k < align a cfg.segmentSize ∧ a < s.mOffset + s.mSize ∧ s.mOffset + s.mSize < b

theorem Exact.tight (h : f.Exact) : f.Tight := fun _ _ _ hm hs _ => h.offset hm hs

section
variable (h : f.Layout) (ht : f.Tight) (cfg : Config) (ha : 0 ≤ a) (hb : b ≤ f.mAllocOffset)
  (hlt : f.mAllocOffset < 2 ^ 63)
include h ha hb

/-- The loop starts at the leaf the search finds. -/
theorem Layout.lookup_start (hab : a < b) : ∃ L k id s R, f.mSegments = L ++ ⟨k, some id⟩ :: R ∧
    (∀ l ∈ L, l.key < k) ∧ LeafOk f.segments k id s ∧ k ≤ a ∧ a < s.mOffset + s.mSize ∧
    Chain f.segments f.mAllocOffset (s.mOffset + s.mSize) R ∧
    search f.mSegments a = some ⟨k, some id⟩ ∧ f.lookupSegments cfg a b =
      loop (lookupTurn cfg true b) (2 * f.mSegments.length + 2)
        ⟨f, ⟨k, some id⟩, a, b - a, []⟩ := by
  obtain ⟨L, k, id, s, R, htree, hL, hs, hk, hr, hR, hlook⟩ :=
    h.lookupSegments_eq cfg ha hab hb
  have hm : (⟨k, some id⟩ : Leaf) ∈ f.mSegments := by simp [htree]
  rw [lookupLoop_eq_loop] at hlook
  exact ⟨L, k, id, s, R, htree, hL, hs, hk, hr, hR, h.search_leaf hm hs.seg hk hr, hlook⟩

include ht

theorem Layout.at_start (hab : a < b) (hno : ¬SplitsGap cfg f a b) :
    ∃ L k id s R, At cfg f a b L k id s R ⟨f, ⟨k, some id⟩, a, b - a, []⟩ ∧
      search f.mSegments a = some ⟨k, some id⟩ ∧ f.lookupSegments cfg a b =
        loop (lookupTurn cfg true b) (2 * f.mSegments.length + 2)
          ⟨f, ⟨k, some id⟩, a, b - a, []⟩ := by
  obtain ⟨L, k, id, s, R, htree, hL, hs, hk, hr, hR, hsearch, hlook⟩ :=
    h.lookup_start cfg ha hb hab
  have hm : (⟨k, some id⟩ : Leaf) ∈ f.mSegments := by simp [htree]
  have hwhole : s.mIsGap = true → s.mOffset + s.mSize < b → align a cfg.segmentSize ≤ k := by
    intro hg hend
    by_contra hlt
    exact hno ⟨k, id, s, hm, hs.seg, hg, not_le.mp hlt, hr, hend⟩
  exact ⟨L, k, id, s, R, ⟨h, ht, ⟨rfl, rfl, rfl, rfl⟩, rfl, htree, hL, hs, hR, hk, hr, hab, rfl,
    hwhole, .nil⟩, hsearch, hlook⟩

include hlt

/-- Without a split gap, a lookup ends with memory for its range. -/
theorem Layout.lookup_given (hab : a ≤ b) (hno : ¬SplitsGap cfg f a b) :
    ∃ f' rs, f.lookupSegments cfg a b = .ok (f', rs) ∧ Given f a b f' rs := by
  rcases hab.eq_or_lt with rfl | hab
  · refine ⟨f, [], ?_, ⟨rfl, rfl, rfl, rfl⟩, .nil, fun _ => h⟩
    unfold lookupSegments lookupHelper
    rw [check_ok ha, ok_bind, check_ok le_rfl, ok_bind, if_pos (sub_self a)]
    rfl
  · obtain ⟨L, k, id, s, R, hat, -, hlook⟩ := h.at_start ht cfg ha hb hab hno
    have hfuel : R.length < 2 * f.mSegments.length + 2 := by
      have htree : f.mSegments = L ++ ⟨k, some id⟩ :: R := hat.tree
      rw [htree, List.length_append, List.length_cons]
      omega
    obtain ⟨⟨f', rs⟩, hloop, hgiven⟩ := (descends_at cfg hb hlt).loop _
      ⟨L, k, id, s, R, rfl, hat⟩ hfuel
    exact ⟨f', rs, hlook.trans hloop, hgiven⟩

end

/-- The turn examines the segment that holds the start of the range, and passes the
assertion on the offset. -/
structure Stands (σ : Lookup) : Prop where
  found : search σ.file.mSegments σ.rangeStart = some σ.leaf
  segment : ∃ id s, σ.leaf.val = some id ∧ σ.file.segments[id]? = some s ∧
    s.mOffset ≤ σ.rangeStart ∧ σ.rangeStart < s.mOffset + s.mSize ∧
    σ.rangeStart - s.mOffset ≠ s.mSize

theorem At.stands {cfg : Config} {σ : Lookup} (h : At cfg f a b L k id s R σ) : Stands σ := by
  have hm : (⟨k, some id⟩ : Leaf) ∈ σ.file.mSegments := by simp [h.tree]
  have hstart := h.start_lt
  refine ⟨?_, id, s, by rw [h.leaf], h.here.seg, h.here.offset_le.trans h.start_ge, hstart, ?_⟩
  · rw [h.layout.search_leaf hm h.here.seg h.start_ge hstart, h.leaf]
  · omega

/-- The turn that comes to the segment again stands at its end. -/
theorem SplitsGap.turns {cfg : Config} (hsplit : SplitsGap cfg f a b) (h : f.Layout)
    (ht : f.Tight) (hb : b ≤ f.mAllocOffset) (hlt : f.mAllocOffset < 2 ^ 63) :
    ∃ leaf σ, search f.mSegments a = some leaf ∧
      lookupTurn cfg true b ⟨f, leaf, a, b - a, []⟩ = .ok (.inl σ) ∧
      lookupTurn cfg true b σ = .error .assertion ∧ ¬Stands σ := by
  obtain ⟨k, id, s, hm, hs, hg, hko, hae, heb⟩ := hsplit
  have hka : k ≤ a := hko.le.trans (align_le _ _)
  obtain ⟨f₁, d, u, he, hu, hend, hnext⟩ := h.split_next cfg hm hs hg (ht k id s hm hs hg) hko
    hae heb hb hlt
  have hcheck : check (s.mOffset + s.mSize - u.mOffset ≠ u.mSize) = .error .assertion :=
    if_neg (by simp [hend])
  refine ⟨⟨k, some id⟩, ⟨f₁, ⟨align a cfg.segmentSize, some id⟩, s.mOffset + s.mSize,
    b - a - min (b - a) (s.mSize - (a - s.mOffset)), [⟨if u.mIsGap then none else some (id, d),
    min (b - a) (s.mSize - (a - s.mOffset)), u.mIsGap⟩]⟩, h.search_leaf hm hs hka hae, ?_, ?_, ?_⟩
  · unfold lookupTurn turnEnd
    simp only [segment_eq hs, ok_bind, check_ok (show a - s.mOffset ≠ s.mSize by omega), hg,
      and_self, if_true, he, segment_eq hu, if_neg (not_le.mpr heb), hnext, List.nil_append]
    rfl
  · unfold lookupTurn
    simp only [segment_eq hu, ok_bind, hcheck, error_bind]
  · rintro ⟨-, id', s', hid, hs', -, hlt', -⟩
    obtain rfl := Option.some.inj hid
    obtain rfl := Option.some.inj (hu.symm.trans hs')
    exact absurd hlt' (by simp only; omega)

theorem SplitsGap.lookup_fails {cfg : Config} (hsplit : SplitsGap cfg f a b) (h : f.Layout)
    (ht : f.Tight) (ha : 0 ≤ a) (hb : b ≤ f.mAllocOffset) (hlt : f.mAllocOffset < 2 ^ 63) :
    f.lookupSegments cfg a b = .error .assertion := by
  have hab : a < b := by
    obtain ⟨_, _, _, _, _, _, _, hae, heb⟩ := hsplit
    exact hae.trans heb
  obtain ⟨L, k, id, s, R, -, -, -, -, -, -, hsearch, hlook⟩ := h.lookup_start cfg ha hb hab
  obtain ⟨leaf, σ, hleaf, hturn, herr, -⟩ := hsplit.turns h ht hb hlt
  obtain rfl := Option.some.inj (hsearch.symm.trans hleaf)
  rw [hlook, loop_next hturn, loop_error herr]

/-- The states at the head of the loop in `lookup_segments`. -/
def Iterates (cfg : Config) (f : File) (a b : Int) (σ : Lookup) : Prop :=
  a ≠ b ∧ ∃ leaf, search f.mSegments a = some leaf ∧
    Passes (lookupTurn cfg true b) ⟨f, leaf, a, b - a, []⟩ σ

/-- Every iteration stands in its segment, and the loop ends with regions of the range. -/
structure Positioned (cfg : Config) (f : File) (a b : Int) : Prop where
  stands : ∀ σ, Iterates cfg f a b σ → Stands σ
  ends : ∃ f' rs, f.lookupSegments cfg a b = .ok (f', rs) ∧ (∀ q ∈ rs, 0 < q.size) ∧
    (rs.map Region.size).sum = b - a

/-- The loop keeps its position exactly if no gap is split in front of a range that goes on
behind it. -/
theorem lookup_positioned_iff (cfg : Config) (h : f.Exact) (ha : 0 ≤ a) (hab : a ≤ b)
    (hb : b ≤ f.mAllocOffset) (hlt : f.mAllocOffset < 2 ^ 63) :
    Positioned cfg f a b ↔ ¬SplitsGap cfg f a b := by
  constructor
  · intro hpos hsplit
    obtain ⟨f', rs, he, -⟩ := hpos.ends
    rw [hsplit.lookup_fails h.layout h.tight ha hb hlt] at he
    cases he
  · intro hno
    refine ⟨?_, ?_⟩
    · rintro σ ⟨hne, leaf, hsearch, hpass⟩
      obtain ⟨L, k, id, s, R, hat, hleaf, -⟩ :=
        h.layout.at_start h.tight cfg ha hb (lt_of_le_of_ne hab hne) hno
      obtain rfl := Option.some.inj (hleaf.symm.trans hsearch)
      obtain ⟨m, L', k', id', s', R', -, hat'⟩ :=
        (descends_at cfg hb hlt).passes ⟨L, k, id, s, R, rfl, hat⟩ hpass
      exact hat'.stands
    · obtain ⟨f', rs, he, hgiven⟩ := h.layout.lookup_given h.tight cfg ha hb hlt hab hno
      exact ⟨f', rs, he, hgiven.gives.pos, hgiven.gives.sum⟩

/-- From the first block of a gap to the segment behind it. -/
theorem lookup_positioned_holeFile : Positioned pageConfig holeFile 100 20000 := by
  refine (lookup_positioned_iff pageConfig holeFile_exact (by decide) (by decide) (by decide)
    (by decide)).mpr ?_
  rintro ⟨k, id, s, hm, hs, hg, hlt, -⟩
  have hk : 0 ≤ k := holeFile_exact.layout.chain.key_ge _ hm
  exact absurd (hk.trans_lt hlt) (by decide)

/-- From its second block, the lookup fails. -/
theorem lookup_loses_position : ¬∀ (cfg : Config) (f : File) (a b : Int),
    cfg.segmentSize.isPowerOfTwo → f.Exact → (∀ l ∈ f.mSegments, (cfg.segmentSize : Int) ∣ l.key) →
    0 ≤ a → a ≤ b → b ≤ f.mAllocOffset → f.mAllocOffset < 2 ^ 63 → Positioned cfg f a b := by
  intro hclaim
  obtain ⟨-, f', rs, he, -⟩ := hclaim pageConfig holeFile 5000 20000 ⟨12, rfl⟩ holeFile_exact
    (by decide) (by decide) (by decide) (by decide) (by decide)
  have hsplit : SplitsGap pageConfig holeFile 5000 20000 :=
    ⟨0, 0, _, List.mem_cons_self, rfl, rfl, by decide, by decide, by decide⟩
  rw [hsplit.lookup_fails holeFile_exact.layout holeFile_exact.tight (by decide) (by decide)
    (by decide)] at he
  cases he

end File
end EchoFs.Nvml
