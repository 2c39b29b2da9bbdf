import EchoFs.Mdds.Insert

/-! `build_tree` and `search_tree`: nodes over the leaves in a pool, layer by layer, and the
way down from the root. -/

namespace EchoFs.Mdds
open Checked Linked IntervalMap

/-- `tree_builder` with its pool and the position in it. -/
structure TreeBuilder where
  pool : List NonleafNode
  poolPos : Nat

/-- One is added to an odd number of leaves before it is halved. -/
def countNeededNonleafNodes : Nat → Nat → Nat → Result Nat
  | 0, _, _ => .error .unfinished
  | fuel + 1, leafCount, nonleafCount =>
    if leafCount = 1 then
      return nonleafCount
    else
      let leafCount := (if leafCount % 2 = 1 then leafCount + 1 else leafCount) / 2
      countNeededNonleafNodes fuel leafCount (nonleafCount + leafCount)

def nonleaf (pool : List NonleafNode) (i : Nat) : Result NonleafNode :=
  match pool[i]? with
  | some n => .ok n
  | none => .error .badPointer

namespace FlatSegmentTree
variable {β : Type}

/-- `fill_nonleaf_value_handler`: the low and the high key of a node with these children. -/
def fillNonleafValue (t : FlatSegmentTree β) (pool : List NonleafNode) (leftNode : NodePtr)
    (rightNode : Option NodePtr) : Result (Int × Int) := do
  let low ← match leftNode with
    | .leaf a => do
      let n ← t.node (some a)
      pure n.data.key
    | .nonleaf i => do
      let n ← nonleaf pool i
      pure n.low
  let high ← match rightNode with
    | some (.leaf a) => do
      let n ← t.node (some a)
      match n.next with
      | some _ => do
        let m ← t.node n.next
        pure m.data.key
      | none => pure n.data.key
    | some (.nonleaf i) => do
      let n ← nonleaf pool i
      pure n.high
    | none =>
      match leftNode with
      | .leaf a => do
        let n ← t.node (some a)
        pure n.data.key
      | .nonleaf i => do
        let n ← nonleaf pool i
        pure n.high
  return (low, high)

def makeParentNode (t : FlatSegmentTree β) (b : TreeBuilder) (node1 : NodePtr)
    (node2 : Option NodePtr) : Result (TreeBuilder × Nat) := do
  check (b.poolPos < b.pool.length)
  let n ← nonleaf b.pool b.poolPos
  let right := match node2 with
    | some p => some p
    | none => n.right
  let (low, high) ← t.fillNonleafValue b.pool node1 node2
  return (⟨b.pool.set b.poolPos ⟨low, high, some node1, right⟩, b.poolPos + 1⟩, b.poolPos)

/-- The loop of `build` over the leaves. -/
def buildLeafNodes (t : FlatSegmentTree β) :
    Nat → TreeBuilder → Nat → List Nat → Result (TreeBuilder × List Nat)
  | 0, _, _, _ => .error .unfinished
  | fuel + 1, b, node1, nodeList => do
    let n ← t.node (some node1)
    let (b, parentNode) ← t.makeParentNode b (.leaf node1) (n.next.map .leaf)
    match n.next with
    | none => return (b, nodeList ++ [parentNode])
    | some _ => do
      let n ← t.node n.next
      match n.next with
      | none => return (b, nodeList ++ [parentNode])
      | some a => t.buildLeafNodes fuel b a (nodeList ++ [parentNode])

/-- The loop of `build_tree_non_leaf` and what follows it: the nodes two by two, then the
one that is left. -/
def pairNodes (t : FlatSegmentTree β) :
    TreeBuilder → List Nat → List Nat → Result (TreeBuilder × List Nat)
  | b, node1 :: node2 :: nodes, newNodeList => do
    let (b, parentNode) ← t.makeParentNode b (.nonleaf node1) (some (.nonleaf node2))
    t.pairNodes b nodes (newNodeList ++ [parentNode])
  | b, [node1], newNodeList => do
    let (b, parentNode) ← t.makeParentNode b (.nonleaf node1) none
    return (b, newNodeList ++ [parentNode])
  | b, [], newNodeList => return (b, newNodeList)

def buildTreeNonLeaf (t : FlatSegmentTree β) :
    Nat → TreeBuilder → List Nat → Result (TreeBuilder × Option Nat)
  | 0, _, _ => .error .unfinished
  | fuel + 1, b, nodeList =>
    if nodeList.length = 1 then
      return (b, nodeList.head?)
    else if nodeList.length = 0 then
      return (b, none)
    else do
      let (b, newNodeList) ← t.pairNodes b nodeList []
      t.buildTreeNonLeaf fuel b newNodeList

def build (t : FlatSegmentTree β) (b : TreeBuilder) (leftLeafNode : Nat) :
    Result (TreeBuilder × Option Nat) := do
  let (b, nodeList) ← t.buildLeafNodes (t.allocs + 1) b leftLeafNode []
  t.buildTreeNonLeaf (nodeList.length + 1) b nodeList

def countLeafNodes (t : FlatSegmentTree β) (rightEnd : Nat) : Nat → Option Nat → Nat → Result Nat
  | 0, _, _ => .error .unfinished
  | fuel + 1, p, leafCount =>
    if p = some rightEnd then return leafCount else do
      let n ← t.node p
      t.countLeafNodes rightEnd fuel n.next (leafCount + 1)

def leafSize (t : FlatSegmentTree β) : Result Nat :=
  t.countLeafNodes t.mRightLeaf (t.allocs + 1) (some t.mLeftLeaf) 1

def buildTree (t : FlatSegmentTree β) : Result (FlatSegmentTree β) := do
  let leafCount ← t.leafSize
  let nonleafCount ← countNeededNonleafNodes (leafCount + 1) leafCount 0
  let (b, root) ← t.build ⟨List.replicate nonleafCount ⟨0, 0, none, none⟩, 0⟩ t.mLeftLeaf
  return { t with mNonleafNodePool := b.pool, mRootNode := root, mValidTree := true }

/-- The loop of `search_tree` down to a node over leaves; none where it returns that the key
is not found. -/
def descend (t : FlatSegmentTree β) (key : Int) : Nat → NonleafNode → Result (Option NonleafNode)
  | 0, _ => .error .unfinished
  | fuel + 1, curNode =>
    match curNode.left with
    | none => return none
    | some (.leaf _) => return some curNode
    | some (.nonleaf i) => do
      let l ← nonleaf t.mNonleafNodePool i
      if l.low ≤ key ∧ key < l.high then
        t.descend key fuel l
      else
        match curNode.right with
        | none => return none
        | some (.leaf _) => .error .assertion
        | some (.nonleaf j) => do
          let r ← nonleaf t.mNonleafNodePool j
          if r.low ≤ key ∧ key < r.high then
            t.descend key fuel r
          else
            return none

/-- What `search_tree` hands back for a key that it finds: the iterator's leaf, the value,
and the start and the end of the segment. -/
structure Found (β : Type) where
  node : Nat
  value : β
  startKey : Int
  endKey : Int

/-- The leaves below the node that the loop of `search_tree` ends at. -/
def searchLeaves (t : FlatSegmentTree β) (key : Int) (curNode : NonleafNode) :
    Result (Option (Found β)) :=
  match curNode.left, curNode.right with
  | some (.leaf a), some (.leaf b) => do
    let leafLeft ← t.node (some a)
    let leafRight ← t.node (some b)
    let destNode :=
      if leafLeft.data.key ≤ key ∧ key < leafRight.data.key then some (a, leafLeft)
      else if leafRight.data.key ≤ key ∧ key < curNode.high then some (b, leafRight)
      else none
    match destNode with
    | none => return none
    | some (p, n) => do
      check (n.next ≠ none)
      let m ← t.node n.next
      return some ⟨p, n.data.val, n.data.key, m.data.key⟩
  | _, none => .error .badPointer
  | _, _ => .error .assertion

/-- `search_tree` with both `start_key` and `end_key`. -/
def searchTree (t : FlatSegmentTree β) (key : Int) : Result (Option (Found β)) :=
  match t.mRootNode, t.mValidTree with
  | some i, true => do
    let left ← t.node (some t.mLeftLeaf)
    let right ← t.node (some t.mRightLeaf)
    if key < left.data.key ∨ right.data.key ≤ key then return none else do
      let root ← nonleaf t.mNonleafNodePool i
      match ← t.descend key (t.mNonleafNodePool.length + 1) root with
      | none => return none
      | some curNode => t.searchLeaves key curNode
  | _, _ => return none

variable {t : FlatSegmentTree β} {pool pool' : List NonleafNode} {b : TreeBuilder}
  {X Y post es P Q : List (Entry β)} {e f : Entry β} {n : NonleafNode} {i j p q N fuel : Nat}
  {key : Int} {is : List Nat}

/-- The keys from the first leaf of `X` on up to those of `post`. -/
structure Spans (n : NonleafNode) (X post : List (Entry β)) : Prop where
  low : (X.head?.map fun e => e.2.key) = some n.low
  high : ((post.head?.or X.getLast?).map fun e => e.2.key) = some n.high

/-- The node `i` of the pool stands over the leaves `X`, which `post` follows. The children of
a node come before it in the pool. -/
inductive Covers (pool : List NonleafNode) : Nat → List (Entry β) → List (Entry β) → Prop
  | pair {i : Nat} {n : NonleafNode} {e f : Entry β} {post : List (Entry β)} :
      pool[i]? = some n → n.left = some (.leaf e.1) → n.right = some (.leaf f.1) →
      Spans n [e, f] post → Covers pool i [e, f] post
  | single {i : Nat} {n : NonleafNode} {e : Entry β} :
      pool[i]? = some n → n.left = some (.leaf e.1) → n.right = none →
      Spans n [e] [] → Covers pool i [e] []
  | node {i j k : Nat} {n : NonleafNode} {X Y post : List (Entry β)} :
      Covers pool j X (Y ++ post) → Covers pool k Y post → j < i → k < i →
      pool[i]? = some n → n.left = some (.nonleaf j) → n.right = some (.nonleaf k) →
      Spans n (X ++ Y) post → Covers pool i (X ++ Y) post
  | lone {i j : Nat} {n : NonleafNode} {X post : List (Entry β)} :
      Covers pool j X post → j < i →
      pool[i]? = some n → n.left = some (.nonleaf j) → n.right = none →
      Spans n X post → Covers pool i X post

theorem Covers.node_spans (h : Covers pool i X post) : ∃ n, pool[i]? = some n ∧ Spans n X post := by
  cases h with
  | pair h _ _ hs => exact ⟨_, h, hs⟩
  | single h _ _ hs => exact ⟨_, h, hs⟩
  | node _ _ _ _ h _ _ hs => exact ⟨_, h, hs⟩
  | lone _ _ h _ _ hs => exact ⟨_, h, hs⟩

/-- A node and those below it depend on the pool up to it only. -/
theorem Covers.frame (h : Covers pool i X post) (heq : ∀ k ≤ i, pool'[k]? = pool[k]?) :
    Covers pool' i X post := by
  induction h with
  | pair h hl hr hs => exact .pair ((heq _ le_rfl).trans h) hl hr hs
  | single h hl hr hs => exact .single ((heq _ le_rfl).trans h) hl hr hs
  | node _ _ hj hk h hl hr hs ihj ihk =>
    exact .node (ihj fun m hm => heq m (hm.trans hj.le)) (ihk fun m hm => heq m (hm.trans hk.le))
      hj hk ((heq _ le_rfl).trans h) hl hr hs
  | lone _ hj h hl hr hs ih =>
    exact .lone (ih fun m hm => heq m (hm.trans hj.le)) hj ((heq _ le_rfl).trans h) hl hr hs

theorem Spans.ne_nil (h : Spans n X post) : X ≠ [] := by
  rintro rfl
  cases h.low

theorem nonleaf_eq (h : pool[i]? = some n) : nonleaf pool i = .ok n := by
  unfold nonleaf
  rw [h]

/-- The two children of a node meet at the first leaf of the second one. -/
theorem Spans.meet {l r : NonleafNode} (h : Spans n (X ++ Y) post) (hl : Spans l X (Y ++ post))
    (hr : Spans r Y post) : l.low = n.low ∧ l.high = r.low ∧ r.high = n.high := by
  obtain ⟨x, X, rfl⟩ := List.exists_cons_of_ne_nil hl.ne_nil
  obtain ⟨y, Y, rfl⟩ := List.exists_cons_of_ne_nil hr.ne_nil
  have h1 := h.low.symm.trans hl.low
  have h2 := hl.high.symm.trans hr.low
  have h3 := hr.high.symm.trans (List.getLast?_append_cons (x :: X) y Y ▸ h.high)
  exact ⟨(Option.some.inj h1).symm, Option.some.inj h2, Option.some.inj h3⟩

/-- The loop of `search_tree` ends at the node over the two leaves around the key. -/
theorem descend_spec (h : Covers t.mNonleafNodePool i X post)
    (hn : t.mNonleafNodePool[i]? = some n) (hlow : n.low ≤ key) (hhigh : key < n.high)
    (hfuel : i < fuel) :
    ∃ m e f P Q, t.descend key fuel n = .ok (some m) ∧ m.left = some (.leaf e.1) ∧
      m.right = some (.leaf f.1) ∧ X ++ post = P ++ e :: f :: Q ∧ Spans m [e, f] Q ∧
      e.2.key ≤ key ∧ key < m.high := by
  induction h generalizing n fuel with
  | @pair i n' e f post h hl hr hs =>
    obtain rfl := Option.some.inj (h.symm.trans hn)
    obtain ⟨fuel, rfl⟩ := Nat.exists_eq_add_one.mpr (Nat.zero_lt_of_lt hfuel)
    refine ⟨n', e, f, [], post, ?_, hl, hr, rfl, hs, ?_, hhigh⟩
    · rw [descend, hl]
      rfl
    · have hlow' : e.2.key = n'.low := Option.some.inj hs.low
      omega
  | single h hl hr hs =>
    obtain rfl := Option.some.inj (h.symm.trans hn)
    have heq := Option.some.inj (hs.low.symm.trans hs.high)
    omega
  | @node i j k n' X Y post hj hk hji hki h hl hr hs ihj ihk =>
    obtain rfl := Option.some.inj (h.symm.trans hn)
    obtain ⟨fuel, rfl⟩ := Nat.exists_eq_add_one.mpr (Nat.zero_lt_of_lt hfuel)
    obtain ⟨l, hlm, hls⟩ := hj.node_spans
    obtain ⟨r, hrm, hrs⟩ := hk.node_spans
    obtain ⟨hlow', hmid, hhigh'⟩ := hs.meet hls hrs
    rw [descend, hl]
    dsimp only
    rw [nonleaf_eq hlm, ok_bind, List.append_assoc]
    by_cases hkey : l.low ≤ key ∧ key < l.high
    · rw [if_pos hkey]
      exact ihj hlm hkey.1 hkey.2 (by omega)
    · rw [if_neg hkey, hr]
      dsimp only
      rw [nonleaf_eq hrm, ok_bind, if_pos (by omega)]
      obtain ⟨m, e, f, P, Q, hrun, hml, hmr, heq, hm⟩ :=
        ihk hrm (by omega) (by omega) (show k < fuel by omega)
      exact ⟨m, e, f, X ++ P, Q, hrun, hml, hmr, by rw [heq, List.append_assoc], hm⟩
  | @lone i j n' X post hj hji h hl hr hs ih =>
    obtain rfl := Option.some.inj (h.symm.trans hn)
    obtain ⟨fuel, rfl⟩ := Nat.exists_eq_add_one.mpr (Nat.zero_lt_of_lt hfuel)
    obtain ⟨l, hlm, hls⟩ := hj.node_spans
    have hlow' := Option.some.inj (hs.low.symm.trans hls.low)
    have hhigh' := Option.some.inj (hs.high.symm.trans hls.high)
    rw [descend, hl]
    dsimp only
    rw [nonleaf_eq hlm, ok_bind, if_pos (by omega)]
    exact ih hlm (by omega) (by omega) (by omega)

/-- Of the two leaves the one that holds the key is found, with the leaf after it. -/
theorem searchLeaves_spec (h : Listed t (P ++ e :: f :: Q)) (hl : n.left = some (.leaf e.1))
    (hr : n.right = some (.leaf f.1)) (hs : Spans n [e, f] Q) (hlow : e.2.key ≤ key)
    (hhigh : key < n.high) :
    ∃ P' c d Q', P ++ e :: f :: Q = P' ++ c :: d :: Q' ∧ c.2.key ≤ key ∧ key < d.2.key ∧
      t.searchLeaves key n = .ok (some ⟨c.1, c.2.val, c.2.key, d.2.key⟩) := by
  have hce := h.cell (L := P) (e := e) (M := f :: Q) rfl
  have hcf : t.mem f.1 = some ⟨f.2, some e.1, first Q none⟩ := by
    simpa using h.cell (L := P ++ [e]) (e := f) (M := Q) (by simp)
  unfold searchLeaves
  rw [hl, hr]
  dsimp only
  rw [node_eq hce, ok_bind, node_eq hcf, ok_bind]
  dsimp only
  by_cases hkey : key < f.2.key
  · refine ⟨P, e, f, Q, rfl, hlow, hkey, ?_⟩
    rw [if_pos ⟨hlow, hkey⟩]
    dsimp only
    rw [check_ok (by simp), ok_bind, first_cons, node_eq hcf]
    rfl
  · have hkey' : f.2.key ≤ key := not_lt.mp hkey
    obtain ⟨g, Q, rfl⟩ : ∃ g Q', Q = g :: Q' := by
      refine List.exists_cons_of_ne_nil fun hQ => ?_
      subst hQ
      have heq : f.2.key = n.high := Option.some.inj hs.high
      omega
    have hcg := h.cell (L := P ++ [e, f]) (e := g) (M := Q) (by simp)
    have hgk : g.2.key = n.high := Option.some.inj hs.high
    refine ⟨P ++ [e], f, g, Q, by simp, hkey', by omega, ?_⟩
    rw [if_neg fun h => hkey h.2, if_pos ⟨hkey', hhigh⟩]
    dsimp only
    rw [check_ok (by simp), ok_bind, first_cons, node_eq hcg]
    rfl

/-- The nodes of a layer, one after the other, over all the leaves `es`. -/
inductive Layer (pool : List NonleafNode) : List Nat → List (Entry β) → Prop
  | nil : Layer pool [] []
  | cons {i : Nat} {is : List Nat} {X es : List (Entry β)} :
      Covers pool i X es → Layer pool is es → Layer pool (i :: is) (X ++ es)

theorem Layer.frame (h : Layer pool is es) (hlt : ∀ i ∈ is, i < p)
    (heq : ∀ k < p, pool'[k]? = pool[k]?) : Layer pool' is es := by
  induction h with
  | nil => exact .nil
  | cons hc _ ih =>
    obtain ⟨hi, his⟩ := List.forall_mem_cons.mp hlt
    exact .cons (hc.frame fun k hk => heq k (hk.trans_lt hi)) (ih his)

/-- A step of the builder fills the pool from its position on. -/
structure Fills (b b' : TreeBuilder) (n : Nat) : Prop where
  pos : b'.poolPos = b.poolPos + n
  length : b'.pool.length = b.pool.length
  frame : ∀ k < b.poolPos, b'.pool[k]? = b.pool[k]?
  blank : ∀ k, b'.poolPos ≤ k → b'.pool[k]? = b.pool[k]?

theorem Fills.trans {b₁ b₂ b₃ : TreeBuilder} {m : Nat} (h : Fills b₁ b₂ m) (h' : Fills b₂ b₃ p) :
    Fills b₁ b₃ (m + p) where
  pos := by rw [h'.pos, h.pos, Nat.add_assoc]
  length := h'.length.trans h.length
  frame k hk := (h'.frame k (hk.trans_le (h.pos ▸ Nat.le_add_right _ _))).trans (h.frame k hk)
  blank k hk := (h'.blank k hk).trans (h.blank k (le_trans (h'.pos ▸ Nat.le_add_right _ _) hk))

/-- The nodes of the pool that the builder has not come to have no children. -/
def Blank (b : TreeBuilder) : Prop := ∀ k n, b.poolPos ≤ k → b.pool[k]? = some n → n.right = none

theorem Fills.isBlank {b' : TreeBuilder} (h : Fills b b' p) (hb : Blank b) : Blank b' :=
  fun k m hk hm => hb k m (le_trans (h.pos ▸ Nat.le_add_right _ _) hk) (h.blank k hk ▸ hm)

/-- A new node over two children, or over one. -/
theorem makeParentNode_spec {node1 : NodePtr} {node2 : Option NodePtr} {low high : Int}
    (hb : Blank b) (hpos : b.poolPos < b.pool.length)
    (hval : t.fillNonleafValue b.pool node1 node2 = .ok (low, high)) :
    ∃ b', t.makeParentNode b node1 node2 = .ok (b', b.poolPos) ∧ Fills b b' 1 ∧
      b'.pool[b.poolPos]? = some ⟨low, high, some node1, node2⟩ := by
  obtain ⟨n, hn⟩ : ∃ n, b.pool[b.poolPos]? = some n := ⟨_, List.getElem?_eq_getElem hpos⟩
  have hright : n.right = none := hb _ n le_rfl hn
  refine ⟨⟨b.pool.set b.poolPos ⟨low, high, some node1, node2⟩, b.poolPos + 1⟩, ?_,
    ⟨rfl, List.length_set, fun k hk => ?_, fun k hk => ?_⟩, ?_⟩
  · unfold makeParentNode
    rw [check_ok hpos, ok_bind, nonleaf_eq hn, ok_bind, hval]
    cases node2 with
    | none =>
      rw [hright]
      rfl
    | some p => rfl
  · exact List.getElem?_set_ne hk.ne'
  · exact List.getElem?_set_ne (Nat.lt_of_succ_le hk).ne
  · exact List.getElem?_set_self hpos

/-- The number of parents of so many nodes. -/
def half (m : Nat) : Nat := (m + 1) / 2

theorem half_one : half 1 = 1 := by simp [half]

theorem half_two : half 2 = 1 := by simp [half]

theorem half_add_two (m : Nat) : half (m + 2) = half m + 1 := by
  unfold half
  omega

theorem half_pos {m : Nat} (h : 1 ≤ m) : 1 ≤ half m := by
  unfold half
  omega

theorem half_lt {m : Nat} (h : 2 ≤ m) : half m < m := by
  unfold half
  omega

theorem fillNonleafValue_pair (pool : List NonleafNode) (h : Listed t (P ++ e :: f :: Q)) :
    ∃ low high, t.fillNonleafValue pool (.leaf e.1) (some (.leaf f.1)) = .ok (low, high) ∧
      ∀ l r, Spans ⟨low, high, l, r⟩ [e, f] Q := by
  have hce := h.cell (L := P) (e := e) (M := f :: Q) rfl
  have hcf : t.mem f.1 = some ⟨f.2, some e.1, first Q none⟩ := by
    simpa using h.cell (L := P ++ [e]) (e := f) (M := Q) (by simp)
  unfold fillNonleafValue
  dsimp only
  rw [node_eq hce, ok_bind, node_eq hcf]
  cases Q with
  | nil => exact ⟨_, _, rfl, fun l r => ⟨rfl, rfl⟩⟩
  | cons g Q =>
    have hcg := h.cell (L := P ++ [e, f]) (e := g) (M := Q) (by simp)
    simp only [pure_eq_ok, ok_bind, first_cons, node_eq hcg]
    exact ⟨_, _, rfl, fun l r => ⟨rfl, rfl⟩⟩

theorem fillNonleafValue_single (pool : List NonleafNode) (h : Listed t (P ++ [e])) :
    ∃ low high, t.fillNonleafValue pool (.leaf e.1) none = .ok (low, high) ∧
      ∀ l r, Spans ⟨low, high, l, r⟩ [e] [] := by
  have hce := h.cell (L := P) (e := e) (M := []) rfl
  unfold fillNonleafValue
  dsimp only
  rw [node_eq hce]
  exact ⟨_, _, rfl, fun l r => ⟨rfl, rfl⟩⟩

theorem fillNonleafValue_node (hX : Covers pool i X (Y ++ post)) (hY : Covers pool j Y post) :
    ∃ low high, t.fillNonleafValue pool (.nonleaf i) (some (.nonleaf j)) = .ok (low, high) ∧
      ∀ l r, Spans ⟨low, high, l, r⟩ (X ++ Y) post := by
  obtain ⟨n, hn, hns⟩ := hX.node_spans
  obtain ⟨m, hm, hms⟩ := hY.node_spans
  obtain ⟨x, X, rfl⟩ := List.exists_cons_of_ne_nil hns.ne_nil
  obtain ⟨y, Y, rfl⟩ := List.exists_cons_of_ne_nil hms.ne_nil
  unfold fillNonleafValue
  dsimp only
  rw [nonleaf_eq hn, ok_bind, nonleaf_eq hm]
  refine ⟨_, _, rfl, fun l r => ⟨hns.low, ?_⟩⟩
  rw [List.getLast?_append_cons]
  exact hms.high

theorem fillNonleafValue_lone (hX : Covers pool i X post) :
    ∃ low high, t.fillNonleafValue pool (.nonleaf i) none = .ok (low, high) ∧
      ∀ l r, Spans ⟨low, high, l, r⟩ X post := by
  obtain ⟨n, hn, hns⟩ := hX.node_spans
  unfold fillNonleafValue
  dsimp only
  rw [nonleaf_eq hn]
  exact ⟨_, _, rfl, fun l r => ⟨hns.low, hns.high⟩⟩

/-- The nodes of a layer that a round made, each before the position it ended at. -/
structure Rounds (b b' : TreeBuilder) (is : List Nat) (es : List (Entry β)) (m : Nat) : Prop where
  fills : Fills b b' (half m)
  layer : Layer b'.pool is es
  length : is.length = half m
  lt : ∀ i ∈ is, i < b'.poolPos

/-- A layer begins with a new node. -/
theorem Rounds.cons {b₁ b' : TreeBuilder} {m : Nat} (hfills : Fills b b₁ 1)
    (hcovers : Covers b₁.pool b.poolPos X es) (h : Rounds b₁ b' is es m) :
    Rounds b b' (b.poolPos :: is) (X ++ es) (m + 2) where
  fills := by
    rw [half_add_two, Nat.add_comm]
    exact hfills.trans h.fills
  layer := .cons (hcovers.frame fun k hk => h.fills.frame k (by have := hfills.pos; omega)) h.layer
  length := by
    rw [List.length_cons, h.length, half_add_two]
  lt := by
    have h1 := hfills.pos
    have h2 := h.fills.pos
    exact List.forall_mem_cons.mpr ⟨by omega, h.lt⟩

/-- A layer ends with a new node. -/
theorem Rounds.last {b' : TreeBuilder} {m : Nat} (hfills : Fills b b' 1)
    (hcovers : Covers b'.pool b.poolPos X []) (hm : half m = 1) :
    Rounds b b' [b.poolPos] X m where
  fills := hm ▸ hfills
  layer := by simpa using Layer.cons hcovers .nil
  length := hm.symm
  lt := List.forall_mem_singleton.mpr (by have := hfills.pos; omega)

/-- The layer over the leaves. -/
theorem buildLeafNodes_spec (nodeList : List Nat) (h : Listed t (P ++ e :: X)) (hb : Blank b)
    (hpool : b.poolPos + half (X.length + 1) ≤ b.pool.length) (hfuel : X.length < fuel) :
    ∃ b' is, t.buildLeafNodes fuel b e.1 nodeList = .ok (b', nodeList ++ is) ∧
      Rounds b b' is (e :: X) (X.length + 1) := by
  induction fuel generalizing P e X b nodeList with
  | zero => exact absurd hfuel (Nat.not_lt_zero _)
  | succ fuel ih =>
    have hce := h.cell (L := P) (e := e) (M := X) rfl
    rw [buildLeafNodes, node_eq hce, ok_bind]
    dsimp only
    cases X with
    | nil =>
      obtain ⟨low, high, hval, hspans⟩ := fillNonleafValue_single b.pool h
      obtain ⟨b', hrun, hfills, hnode⟩ := makeParentNode_spec hb
        (by rw [List.length_nil, half_one] at hpool; omega) hval
      refine ⟨b', [b.poolPos], ?_, .last hfills (.single hnode rfl rfl (hspans _ _)) half_one⟩
      simp only [first_nil, Option.map_none]
      rw [hrun]
      rfl
    | cons f X =>
      rw [List.length_cons] at hpool hfuel
      rw [half_add_two] at hpool
      obtain ⟨low, high, hval, hspans⟩ := fillNonleafValue_pair b.pool h
      obtain ⟨b₁, hrun, hfills, hnode⟩ := makeParentNode_spec hb (by omega) hval
      have hcovers : Covers b₁.pool b.poolPos [e, f] X := .pair hnode rfl rfl (hspans _ _)
      have hcf : t.mem f.1 = some ⟨f.2, some e.1, first X none⟩ := by
        simpa using h.cell (L := P ++ [e]) (e := f) (M := X) (by simp)
      simp only [first_cons, Option.map_some]
      rw [hrun, ok_bind]
      dsimp only
      rw [node_eq hcf, ok_bind]
      cases X with
      | nil => exact ⟨b₁, [b.poolPos], rfl, .last hfills hcovers half_two⟩
      | cons g X =>
        have h1 := hfills.pos
        have h2 := hfills.length
        rw [List.length_cons] at hpool hfuel
        obtain ⟨b', is, hrest, hrounds⟩ := ih (P := P ++ [e, f]) (nodeList ++ [b.poolPos])
          (by simpa using h) (hfills.isBlank hb) (by omega) (by omega)
        refine ⟨b', b.poolPos :: is, ?_, .cons hfills hcovers hrounds⟩
        dsimp only [first_cons]
        rw [hrest, List.append_assoc]
        rfl

/-- The layer over a layer. -/
theorem pairNodes_spec (newNodeList : List Nat) (h : Layer b.pool is es)
    (hlt : ∀ i ∈ is, i < b.poolPos) (hb : Blank b)
    (hpool : b.poolPos + half is.length ≤ b.pool.length) :
    ∃ b' is', t.pairNodes b is newNodeList = .ok (b', newNodeList ++ is') ∧
      Rounds b b' is' es is.length := by
  induction is using List.twoStepInduction generalizing b es newNodeList with
  | nil =>
    cases h
    refine ⟨b, [], ?_, ⟨rfl, rfl, fun _ _ => rfl, fun _ _ => rfl⟩, .nil, rfl, by simp⟩
    rw [pairNodes, List.append_nil]
    rfl
  | singleton i =>
    obtain _ | ⟨hX, hnil⟩ := h
    cases hnil
    rw [List.append_nil]
    obtain ⟨low, high, hval, hspans⟩ := fillNonleafValue_lone (t := t) hX
    rw [List.length_singleton, half_one] at hpool
    obtain ⟨b', hrun, hfills, hnode⟩ := makeParentNode_spec hb (by omega) hval
    have hi := hlt i List.mem_cons_self
    have hX' := hX.frame fun k hk => hfills.frame k (hk.trans_lt hi)
    refine ⟨b', [b.poolPos], ?_, .last hfills (.lone hX' hi hnode rfl rfl (hspans _ _)) half_one⟩
    rw [pairNodes, hrun]
    rfl
  | cons_cons i j is ih _ =>
    obtain _ | ⟨hX, hrest⟩ := h
    obtain _ | ⟨hY, hrest⟩ := hrest
    rw [List.length_cons, List.length_cons, half_add_two] at hpool
    obtain ⟨low, high, hval, hspans⟩ := fillNonleafValue_node (t := t) hX hY
    obtain ⟨b₁, hrun, hfills, hnode⟩ := makeParentNode_spec hb (by omega) hval
    have hi := hlt i List.mem_cons_self
    have hj := hlt j (List.mem_cons_of_mem _ List.mem_cons_self)
    have his : ∀ k ∈ is, k < b.poolPos := fun k hk =>
      hlt k (List.mem_cons_of_mem _ (List.mem_cons_of_mem _ hk))
    have h1 := hfills.pos
    have h2 := hfills.length
    have hcovers := Covers.node (hX.frame fun k hk => hfills.frame k (hk.trans_lt hi))
      (hY.frame fun k hk => hfills.frame k (hk.trans_lt hj)) hi hj hnode rfl rfl (hspans _ _)
    obtain ⟨b', is', hrec, hrounds⟩ := ih (newNodeList ++ [b.poolPos])
      (hrest.frame his hfills.frame) (fun k hk => (his k hk).trans (by omega)) (hfills.isBlank hb)
      (by omega)
    refine ⟨b', b.poolPos :: is', ?_, ?_⟩
    · rw [pairNodes, hrun, ok_bind]
      dsimp only
      rw [hrec, List.append_assoc]
      rfl
    · rw [← List.append_assoc]
      exact .cons hfills hcovers hrounds

theorem countNeeded_succ {m c : Nat} (hm : m ≠ 1) :
    countNeededNonleafNodes (fuel + 1) m c =
      countNeededNonleafNodes fuel (half m) (c + half m) := by
  have hhalf : (if m % 2 = 1 then m + 1 else m) / 2 = half m := by
    unfold half
    split_ifs <;> omega
  rw [countNeededNonleafNodes, if_neg hm]
  dsimp only
  rw [hhalf]

/-- The count ends, since there are fewer nodes in each layer. -/
theorem countNeeded_spec {m c : Nat} (hm : 1 ≤ m) (hfuel : m < fuel) :
    ∃ r, countNeededNonleafNodes fuel m c = .ok r := by
  induction fuel generalizing m c with
  | zero => exact absurd hfuel (Nat.not_lt_zero _)
  | succ fuel ih =>
    by_cases h1 : m = 1
    · exact ⟨c, by rw [countNeededNonleafNodes, if_pos h1]; rfl⟩
    · rw [countNeeded_succ h1]
      have hlt := half_lt (show 2 ≤ m by omega)
      exact ih (half_pos hm) (by omega)

theorem countNeeded_le {m c r : Nat} (h : countNeededNonleafNodes fuel m c = .ok r) : c ≤ r := by
  induction fuel generalizing m c with
  | zero => cases h
  | succ fuel ih =>
    by_cases h1 : m = 1
    · rw [countNeededNonleafNodes, if_pos h1] at h
      cases h
      exact le_rfl
    · rw [countNeeded_succ h1] at h
      exact (Nat.le_add_right _ _).trans (ih h)

/-- From a layer up to the root, with as many nodes of the pool as were counted. -/
theorem buildTreeNonLeaf_spec {m c r fuel' : Nat} (h : Layer b.pool is es)
    (hlt : ∀ i ∈ is, i < b.poolPos) (hb : Blank b) (hm : is.length = m) (hpos : 1 ≤ m)
    (hcount : countNeededNonleafNodes fuel m c = .ok r) (hpool : b.poolPos + r ≤ b.pool.length + c)
    (hfuel : m < fuel') :
    ∃ b' i, t.buildTreeNonLeaf fuel' b is = .ok (b', some i) ∧ Covers b'.pool i es [] := by
  induction fuel generalizing b is m c fuel' with
  | zero => cases hcount
  | succ fuel ih =>
    obtain ⟨fuel', rfl⟩ := Nat.exists_eq_add_one.mpr (Nat.zero_lt_of_lt hfuel)
    by_cases h1 : m = 1
    · obtain ⟨i, rfl⟩ := List.length_eq_one_iff.mp (hm.trans h1)
      obtain _ | ⟨hX, hnil⟩ := h
      cases hnil
      rw [List.append_nil]
      exact ⟨b, i, rfl, hX⟩
    · rw [countNeeded_succ h1] at hcount
      have hle := countNeeded_le hcount
      have hlt' := half_lt (show 2 ≤ m by omega)
      have hpos' := half_pos hpos
      obtain ⟨b₁, is', hrun, hrounds⟩ := pairNodes_spec (t := t) [] h hlt hb
        (by rw [hm]; omega)
      have hpos₁ := hrounds.fills.pos
      have hlen₁ := hrounds.fills.length
      rw [hm] at hpos₁
      obtain ⟨b', i, hrest, hcovers⟩ := ih hrounds.layer hrounds.lt (hrounds.fills.isBlank hb)
        (hm ▸ hrounds.length) (by omega) hcount (by omega) (show half m < fuel' by omega)
      refine ⟨b', i, ?_, hcovers⟩
      rw [buildTreeNonLeaf, if_neg (by omega), if_neg (by omega), hrun]
      exact hrest

theorem countLeafNodes_spec {r : Entry β} {p : Option Nat} (h : Links t.mem p (X ++ [r]) none)
    (hr : r.1 ∉ addrs X) (c : Nat) (hfuel : X.length < fuel) :
    t.countLeafNodes r.1 fuel (first (X ++ [r]) none) c = .ok (c + X.length) := by
  induction X generalizing p c fuel with
  | nil =>
    obtain ⟨fuel, rfl⟩ := Nat.exists_eq_add_one.mpr (Nat.zero_lt_of_lt hfuel)
    rw [List.nil_append, first_cons, countLeafNodes, if_pos rfl]
    rfl
  | cons e X ih =>
    obtain ⟨fuel, rfl⟩ := Nat.exists_eq_add_one.mpr (Nat.zero_lt_of_lt hfuel)
    have hne : some e.1 ≠ some r.1 := fun he => hr (by simp [Option.some.inj he])
    have hcell : t.mem e.1 = some ⟨e.2, p, first (X ++ [r]) none⟩ := h.1
    rw [List.cons_append, first_cons, countLeafNodes, if_neg hne, node_eq hcell, ok_bind]
    dsimp only
    rw [ih h.2 (fun hm => hr (List.mem_cons_of_mem _ hm)) (c + 1) (Nat.lt_of_succ_lt_succ hfuel),
      List.length_cons, Nat.add_assoc, Nat.add_comm 1]

variable {minKey maxKey : Int} {init : β} {l : List (Entry β)} {r : Entry β}

theorem Holds.leafSize (h : Holds t minKey maxKey init l r) :
    t.leafSize = .ok (1 + l.length) := by
  have hnodup := h.listed.nodup
  rw [addrs, List.map_append, List.nodup_append] at hnodup
  have hlen := h.listed.length_le
  rw [List.length_append, List.length_singleton] at hlen
  have hfirst : some t.mLeftLeaf = first (l ++ [r]) none := (first_append_of_some h.left).symm
  unfold FlatSegmentTree.leafSize
  rw [h.right, hfirst]
  exact countLeafNodes_spec h.listed.links
    (fun hr => hnodup.2.2 _ hr r.1 (List.mem_singleton_self _) rfl) 1 (by omega)

/-- The nodes of the pool stand over the leaves `es`. -/
def Built (t : FlatSegmentTree β) (es : List (Entry β)) : Prop :=
  ∃ i, t.mRootNode = some i ∧ Covers t.mNonleafNodePool i es []

/-- `build_tree` has as many nodes as it needs. -/
theorem buildTree_spec (h : Holds t minKey maxKey init l r) :
    ∃ t', t.buildTree = .ok t' ∧ Holds t' minKey maxKey init l r ∧ Built t' (l ++ [r]) ∧
      t' = { t with
        mNonleafNodePool := t'.mNonleafNodePool, mRootNode := t'.mRootNode,
        mValidTree := true } := by
  have hholds : ∀ pool root, Holds { t with
      mNonleafNodePool := pool, mRootNode := root, mValidTree := true } minKey maxKey init l r :=
    fun _ _ => ⟨⟨h.listed.links, h.listed.nodup, h.listed.lt, h.listed.sorted⟩, h.left, h.right,
      h.minKey, h.maxKey⟩
  obtain ⟨e, l₀, rfl, hleft, -, -⟩ := h.leftLeaf
  have hlen := h.listed.length_le
  rw [List.length_append, List.length_singleton, List.length_cons] at hlen
  obtain ⟨N, hcount⟩ := countNeeded_spec (c := 0) (show 1 ≤ 1 + (l₀.length + 1) by omega)
    (Nat.lt_succ_self _)
  have hneed := hcount
  rw [countNeeded_succ (by omega), Nat.zero_add] at hneed
  have hle := countNeeded_le hneed
  let b : TreeBuilder := ⟨List.replicate N ⟨0, 0, none, none⟩, 0⟩
  have hb : Blank b := by
    intro k n _ hn
    rw [(List.mem_replicate.mp (List.mem_of_getElem? hn)).2]
  have hbl : b.pool.length = N := List.length_replicate
  have hsize : (l₀ ++ [r]).length + 1 = 1 + (l₀.length + 1) := by
    rw [List.length_append, List.length_singleton, Nat.add_comm]
  have hlisted : Listed t ([] ++ e :: (l₀ ++ [r])) := h.listed
  have hpool : b.poolPos + half ((l₀ ++ [r]).length + 1) ≤ b.pool.length := by
    rw [hsize, hbl]
    exact (Nat.zero_add _).trans_le hle
  obtain ⟨b₁, is, hrun₁, hrounds⟩ := buildLeafNodes_spec [] hlisted hb hpool
    (show (l₀ ++ [r]).length < t.allocs + 1 by omega)
  rw [hsize] at hrounds
  obtain ⟨b₂, i, hrun₂, hcovers⟩ := buildTreeNonLeaf_spec (t := t) hrounds.layer hrounds.lt
    (hrounds.fills.isBlank hb) hrounds.length (half_pos (by omega)) hneed
    (by rw [hrounds.fills.length, hrounds.fills.pos, hbl, Nat.zero_add, Nat.add_comm])
    (Nat.lt_succ_self _)
  refine ⟨{ t with mNonleafNodePool := b₂.pool, mRootNode := some i, mValidTree := true }, ?_,
    hholds _ _, ⟨i, rfl, hcovers⟩, rfl⟩
  unfold buildTree build
  rw [h.leafSize, ok_bind, List.length_cons, hcount, ok_bind, hleft, hrun₁]
  dsimp only
  rw [ok_bind]
  dsimp only
  rw [List.nil_append, hrounds.length, hrun₂]
  rfl

/-- `c` is the leaf whose segment the key lies in, and `d` the one after it. -/
structure Neighbours (es : List (Entry β)) (key : Int) (c d : Entry β) : Prop where
  split : ∃ P Q, es = P ++ c :: d :: Q
  le : c.2.key ≤ key
  lt : key < d.2.key

/-- A built tree finds the segment around every key it holds. -/
theorem searchTree_spec (h : Holds t minKey maxKey init l r) (hbuilt : Built t (l ++ [r]))
    (hvalid : t.mValidTree = true) (hmin : minKey ≤ key) (hmax : key < maxKey) :
    ∃ c d, Neighbours (l ++ [r]) key c d ∧
      t.searchTree key = .ok (some ⟨c.1, c.2.val, c.2.key, d.2.key⟩) := by
  obtain ⟨i, hroot, hcovers⟩ := hbuilt
  obtain ⟨n, hn, hspans⟩ := hcovers.node_spans
  obtain ⟨e, l₀, rfl, -, hkey, hleft⟩ := h.leftLeaf
  have hlow : e.2.key = n.low := Option.some.inj hspans.low
  have hhigh : maxKey = n.high := by
    have hh := hspans.high
    rw [List.head?_nil, Option.none_or, List.getLast?_concat, Option.map_some, h.maxKey] at hh
    exact Option.some.inj hh
  have hi := (List.getElem?_eq_some_iff.mp hn).1
  obtain ⟨m, a, b, P, Q, hrun, hml, hmr, heq, hms, hma, hmb⟩ := descend_spec hcovers hn
    (show n.low ≤ key by omega) (show key < n.high by omega) (Nat.lt_succ_of_lt hi)
  rw [List.append_nil] at heq
  obtain ⟨P', c, d, Q', heq', hc, hd, hfound⟩ :=
    searchLeaves_spec (heq ▸ h.listed) hml hmr hms hma hmb
  refine ⟨c, d, ⟨⟨P', Q', heq.trans heq'⟩, hc, hd⟩, ?_⟩
  unfold searchTree
  rw [hroot, hvalid]
  dsimp only
  rw [node_eq hleft, ok_bind, node_eq h.rightLeaf, ok_bind]
  dsimp only
  rw [if_neg (by omega), nonleaf_eq hn, ok_bind, hrun, ok_bind]
  exact hfound

theorem searchTree_invalid (t : FlatSegmentTree β) (h : t.mValidTree = false) :
    t.searchTree key = .ok none := by
  unfold searchTree
  rw [h]
  cases t.mRootNode <;> rfl

theorem searchTree_outside (h : Holds t minKey maxKey init l r)
    (hkey : key < minKey ∨ maxKey ≤ key) : t.searchTree key = .ok none := by
  obtain ⟨e, l₀, rfl, -, hmin, hleft⟩ := h.leftLeaf
  unfold searchTree
  cases t.mRootNode with
  | none => rfl
  | some i =>
    cases t.mValidTree with
    | false => rfl
    | true =>
      dsimp only
      rw [node_eq hleft, ok_bind, node_eq h.rightLeaf, ok_bind]
      dsimp only
      rw [if_pos (by omega)]
      rfl

/-- The leaf that is found gives the value, and the iterator goes on to the next leaf. -/
theorem Neighbours.search {c d : Entry β} (hs : Sorted (leaves (l ++ [r])))
    (h : Neighbours (l ++ [r]) key c d) :
    search (leaves (l ++ [r])) key = some c.2 ∧ next (leaves (l ++ [r])) c.2.key = some d.2 := by
  obtain ⟨P, Q, heq⟩ := h.split
  rw [heq, leaves, List.map_append, List.map_cons, List.map_cons] at hs ⊢
  obtain ⟨-, hcs, hP⟩ := List.pairwise_append.mp hs
  obtain ⟨hc, hds⟩ := List.pairwise_cons.mp hcs
  have hd := (List.pairwise_cons.mp hds).1
  refine ⟨search_mid (fun m hm => ?_) h.le (List.forall_mem_cons.mpr ⟨h.lt, fun m hm => ?_⟩), ?_⟩
  · exact (hP m hm c.2 List.mem_cons_self).le.trans h.le
  · exact h.lt.trans (hd m hm)
  · rw [next_mid (fun m hm => hP m hm c.2 List.mem_cons_self) hc]
    rfl

end FlatSegmentTree
end EchoFs.Mdds
