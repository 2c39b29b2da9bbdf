import EchoFs.Mdds.Runs
import EchoFs.Nvml.Segments

/-! `m_segments` of a file as the `flat_segment_tree` that it is: `append_segments` and
`insert_segments` change it as they change the list of leaves that stands for it elsewhere,
and the search and the iterator of the tree give the leaves of that list. -/

namespace EchoFs.Nvml
open Checked IntervalMap Mdds FlatSegmentTree

/-- The last key of `m_segments`, `std::numeric_limits<off_t>::max()`. -/
def maxOffset : Int := 2 ^ 63 - 1

abbrev SegmentTree := FlatSegmentTree (Option Nat)

namespace SegmentTree

/-- `m_segments` as a file is made. -/
def create : SegmentTree := FlatSegmentTree.new 0 maxOffset none

/-- `append_segments`, which searches from the back, or `insert_segments`. -/
def linkSegments (segments : List Segment) (forward : Bool) (t : SegmentTree) (sl : List Nat) :
    Result SegmentTree := do
  let t ← sl.foldlM (fun t id =>
    match segments[id]? with
    | none => .error .badPointer
    | some s => do
      let (t, _) ← t.insertSegmentImpl s.mOffset (s.mOffset + s.mSize) (some id) forward
      return t) t
  t.buildTree

/-- A call of one of the two, with the segments that there are at that time. -/
structure Link where
  segments : List Segment
  forward : Bool
  sl : List Nat

def Link.run (t : SegmentTree) (c : Link) : Result SegmentTree :=
  linkSegments c.segments c.forward t c.sl

/-- The same call on the list of leaves. -/
def Link.runLeaves (leaves : List Leaf) (c : Link) : Result (List Leaf) := do
  let f ← ({ File.create with segments := c.segments, mSegments := leaves } : File).linkSegments c.sl
  return f.mSegments

/-- The segments lie within the keys of the tree. -/
def Link.InRange (c : Link) : Prop :=
  ∀ id ∈ c.sl, ∀ s, c.segments[id]? = some s → 0 ≤ s.mOffset ∧ s.mOffset + s.mSize < maxOffset

/-- The tree holds the leaves, and is valid unless it was never built. -/
def Holds (t : SegmentTree) (m : List Leaf) : Prop :=
  ∃ l r, FlatSegmentTree.Holds t 0 maxOffset none l r ∧ leaves l = m ∧
    (t.mValidTree = true → Built t (l ++ [r]))

/-- An iterator at `p` stands on the leaf, and moves on to the next one or to the end. -/
def IteratorOn (t : SegmentTree) (m : List Leaf) (p : Nat) (leaf : Leaf) : Prop :=
  ∃ n n', t.node (some p) = .ok n ∧ n.data = leaf ∧ t.node n.next = .ok n' ∧
    (next m leaf.key = some n'.data ∨ next m leaf.key = none ∧ n.next = some t.mRightLeaf)

variable {t : SegmentTree} {m : List Leaf} {c : Link}

theorem create_holds : Holds create [⟨0, none⟩] := by
  have h := new_represents (β := Option Nat) none (show (0 : Int) < maxOffset by decide)
  exact ⟨_, _, h.holds, rfl, h.built⟩

/-- One segment is inserted. -/
theorem Holds.insert (h : Holds t m) (lo hi : Int) (id : Nat) (forward : Bool) (hlo : 0 ≤ lo)
    (hhi : hi < maxOffset) : ∃ t' p ch,
      t.insertSegmentImpl lo hi (some id) forward = .ok (t', p, ch) ∧
      Holds t' (IntervalMap.insert m lo hi (some id)) := by
  obtain ⟨l, r, hholds, rfl, hbuilt⟩ := h
  obtain ⟨t', p, ch, l', hrun, hholds', hsame, hassigned, hunchanged⟩ :=
    insertSegmentImpl_spec (some id) forward hholds
      (show lo < hi → hi ≠ 0 ∧ lo ≠ maxOffset by omega)
  refine ⟨t', p, ch, hrun, l', r, hholds', ?_, fun hvalid => ?_⟩
  · have hkeys : ∀ f ∈ IntervalMap.insert (leaves l) lo hi (some id), f.key < maxOffset := by
      intro f hf
      rcases key_of_mem_insert hf with ⟨g, hg, hgf⟩ | ⟨-, hle⟩
      · exact hgf ▸ hholds.lt_maxKey g hg
      · exact hle.trans_lt hhi
    rw [hassigned.assigned, assign, max_eq_left hlo, min_eq_left hhi.le, FlatSegmentTree.below,
      List.filter_eq_self.mpr fun f hf => by simpa using hkeys f hf]
  · rw [hsame] at hvalid
    cases ch with
    | true => cases hvalid
    | false =>
      rw [hunchanged rfl, Built, hsame]
      exact hbuilt hvalid

theorem Holds.buildTree (h : Holds t m) :
    ∃ t', t.buildTree = .ok t' ∧ Holds t' m ∧ t'.mValidTree = true := by
  obtain ⟨l, r, hholds, rfl, -⟩ := h
  obtain ⟨t', hrun, hholds', hbuilt, hsame⟩ := buildTree_spec hholds
  exact ⟨t', hrun, ⟨l, r, hholds', rfl, fun _ => hbuilt⟩, by rw [hsame]⟩

/-- A call ends alike on the tree and on the leaves, and leaves a valid tree. -/
theorem Holds.link (h : Holds t m) (hc : c.InRange) :
    Related (fun t' m' => Holds t' m' ∧ t'.mValidTree = true) (c.run t) (c.runLeaves m) := by
  unfold Link.run Link.runLeaves linkSegments File.linkSegments
  refine Related.bind (R := fun t' f => Holds t' f.mSegments ∧ f.segments = c.segments)
    (Related.foldlM ?_ ⟨h, rfl⟩) ?_
  · rintro id hid t' f ⟨ht, hf⟩
    unfold File.segment
    rw [hf]
    cases hs : c.segments[id]? with
    | none => exact .error .badPointer
    | some s =>
      have hrange := hc id hid s hs
      obtain ⟨t'', p, ch, hrun, hholds⟩ := ht.insert s.mOffset (s.mOffset + s.mSize) id c.forward
        hrange.1 hrange.2
      dsimp only
      rw [hrun]
      exact .ok ⟨hholds, rfl⟩
  · rintro t' f ⟨ht, -⟩
    obtain ⟨t'', hrun, hholds⟩ := ht.buildTree
    rw [hrun]
    exact .ok hholds

/-- A tree that is valid gives the leaf of every offset, with an iterator on it. -/
theorem Holds.searchTree {x : Int} (h : Holds t m) (hvalid : t.mValidTree = true) (hx : 0 ≤ x)
    (hxmax : x < maxOffset) : ∃ p leaf stop,
      t.searchTree x = .ok (some ⟨p, leaf.val, leaf.key, stop⟩) ∧ search m x = some leaf ∧
      IteratorOn t m p leaf := by
  obtain ⟨l, r, hholds, rfl, hbuilt⟩ := h
  obtain ⟨c, d, hcd, hrun⟩ := searchTree_spec hholds (hbuilt hvalid) hvalid hx hxmax
  obtain ⟨P, Q, heq⟩ := hcd.split
  have hcell := hholds.listed.cell heq
  have hdcell := hholds.listed.cell (L := P ++ [c]) (e := d) (M := Q) (by rw [heq]; simp)
  have hsearch := (hcd.search hholds.listed.sorted).1
  have hlast : ∀ k ∈ leaves [r], x < k.key := by
    intro k hk
    rw [List.mem_singleton.mp hk, hholds.maxKey]
    exact hxmax
  rw [leaves, List.map_append, search_append hlast] at hsearch
  refine ⟨c.1, c.2, d.2.key, hrun, hsearch, _, _, node_eq hcell, rfl, node_eq hdcell, ?_⟩
  have hs := hholds.sorted
  rcases List.eq_nil_or_concat' Q with rfl | ⟨Q, q, rfl⟩
  · rw [show P ++ [c, d] = (P ++ [c]) ++ [d] by simp] at heq
    obtain ⟨rfl, hd⟩ := List.append_inj' heq rfl
    rw [leaves, List.map_append] at hs ⊢
    refine .inr ⟨next_mid (fun k hk => ?_) (by simp), ?_⟩
    · exact (List.pairwise_append.mp hs).2.2 k hk c.2 List.mem_cons_self
    · rw [hholds.right, List.singleton_inj.mp hd]
      rfl
  · rw [show P ++ c :: d :: (Q ++ [q]) = (P ++ c :: d :: Q) ++ [q] by simp] at heq
    obtain ⟨rfl, -⟩ := List.append_inj' heq rfl
    rw [leaves, List.map_append, List.map_cons] at hs ⊢
    refine .inl (next_mid (fun k hk => ?_) ?_)
    · exact (List.pairwise_append.mp hs).2.2 k hk c.2 List.mem_cons_self
    · exact (List.pairwise_cons.mp (List.pairwise_append.mp hs).2.1).1

theorem holds_run (calls : List Link) (hcalls : ∀ c ∈ calls, c.InRange) :
    Related (fun t m => Holds t m ∧ (calls ≠ [] → t.mValidTree = true))
      (calls.foldlM Link.run create) (calls.foldlM Link.runLeaves [⟨0, none⟩]) := by
  induction calls using List.reverseRecOn with
  | nil => exact .ok ⟨create_holds, fun hne => absurd rfl hne⟩
  | append_singleton calls c ih =>
    rw [List.foldlM_append, List.foldlM_append]
    refine (ih fun c hc => hcalls c (List.mem_append_left _ hc)).bind ?_
    rintro t m ⟨h, -⟩
    rw [List.foldlM_cons, List.foldlM_cons]
    refine (h.link (hcalls c (List.mem_append_right _ (List.mem_singleton_self c)))).bind ?_
    rintro t' m' ⟨h', hvalid⟩
    exact .ok ⟨h', fun _ => hvalid⟩

/-- Any run of the two calls on the tree of a new file ends as it does on the list of leaves.
Then every offset is found, as soon as there was a call. -/
theorem run_links (calls : List Link) (hcalls : ∀ c ∈ calls, c.InRange) :
    Related (fun t m => calls ≠ [] → ∀ x, 0 ≤ x → x < maxOffset → ∃ p leaf stop,
        t.searchTree x = .ok (some ⟨p, leaf.val, leaf.key, stop⟩) ∧ search m x = some leaf ∧
        IteratorOn t m p leaf)
      (calls.foldlM Link.run create) (calls.foldlM Link.runLeaves [⟨0, none⟩]) :=
  (holds_run calls hcalls).imp fun _ _ h hne _ hx hxmax => h.1.searchTree (h.2 hne) hx hxmax

/-- A segment that is appended, and a gap in front of it. -/
def calls₀ : List Link := [⟨[.new 0 4096 true, .new 4096 4096 false], false, [0, 1]⟩]

theorem run_links_calls₀ : Related (fun t m => calls₀ ≠ [] → ∀ x, 0 ≤ x → x < maxOffset →
    ∃ p leaf stop, t.searchTree x = .ok (some ⟨p, leaf.val, leaf.key, stop⟩) ∧
      search m x = some leaf ∧ IteratorOn t m p leaf)
    (calls₀.foldlM Link.run create) (calls₀.foldlM Link.runLeaves [⟨0, none⟩]) := by
  refine run_links calls₀ fun c hc id hid s hs => ?_
  obtain rfl := List.mem_singleton.mp hc
  simp only [List.mem_cons, List.not_mem_nil, or_false] at hid
  rcases hid with rfl | rfl
  · obtain rfl := Option.some.inj hs
    decide
  · obtain rfl := Option.some.inj hs
    decide

end SegmentTree
end EchoFs.Nvml
