import EchoFs.Avl.Walk
import Mathlib.Logic.Relation

/-! The teardown of the tree: `destroy_nodes` gives out the nodes one by one, children
before their parent, and `~avltree` deletes them. The cookie between two calls is the
parent of the node given out last, and the side it was on. -/

namespace EchoFs.Avl
open Checked SideTree AvlTree

variable {α κ : Type} [LinearOrder κ]

namespace AvlTree

/-- The loop to the leftmost descendant, with the parent of the node it ends at. -/
def descendLeft (t : AvlTree α) : Nat → Option Addr → Option Addr → Result (Option Addr × Addr)
  | 0, _, _ => .error .unfinished
  | fuel + 1, parent, p => do
    let n ← t.node p
    if n.mChildren .left ≠ none then
      t.descendLeft fuel p (n.mChildren .left)
    else
      match p with
      | some a => return (parent, a)
      | none => .error .badPointer

/-- The label `check_right_side`. -/
def checkRightSide (t : AvlTree α) (parent : Option Addr) (a : Addr) :
    Result (Option Addr × Addr) := do
  let n ← t.node (some a)
  match n.mChildren .right with
  | some child => do
    check (n.mBalance = 1)
    let c ← t.node (some child)
    check (c.mChildren .left = none ∧ c.mChildren .right = none)
    return (some a, child)
  | none => do
    check (n.mBalance ≤ 0)
    return (parent, a)

/-- The label `done`: the cookie for the next call, and the node to return. -/
def giveOut (t : AvlTree α) (parent : Option Addr) (a : Addr) :
    Result (InsertionPoint × Option Addr) :=
  if parent = none then do
    check (t.mRoot = some a)
    return (⟨none, some .right⟩, some a)
  else do
    let n ← t.node (some a)
    return (⟨parent, n.mWhichChild⟩, some a)

def destroyFirst (t : AvlTree α) : Result (InsertionPoint × Option Addr) := do
  match ← t.first with
  | none => return (⟨none, some .right⟩, none)
  | some a => do
    let n ← t.node (some a)
    let (parent, a) ← t.checkRightSide n.mParent a
    t.giveOut parent a

/-- The rest of a call, once the child on side `child` has left `parent`. -/
def destroyNext (t : AvlTree α) (parent : Addr) (child : Side) :
    Result (InsertionPoint × Option Addr) := do
  let n ← t.node (some parent)
  if child = .right ∨ n.mChildren .right = none then
    t.giveOut n.mParent parent
  else
    let (parent, a) ← t.descendLeft (t.allocs + 1) (some parent) (n.mChildren .right)
    let (parent, a) ← t.checkRightSide parent a
    t.giveOut parent a

def destroyNodes (t : AvlTree α) (current : InsertionPoint) :
    Result (AvlTree α × InsertionPoint × Option Addr) :=
  if current = .null then do
    let next ← t.destroyFirst
    return (t, next)
  else
    match current.mParent with
    | none =>
      if t.mRoot ≠ none then do
        check (t.mNumNodes = 1)
        return ({ t with mRoot := none, mNumNodes := 0 }, current, none)
      else
        return (t, current, none)
    | some parent => do
      let child ← index current.mChild
      let t ← t.modify (some parent) (·.setChild child none)
      check (t.mNumNodes > 1)
      let t := { t with mNumNodes := t.mNumNodes - 1 }
      let next ← t.destroyNext parent child
      return (t, next)

/-- The calls of `destroy_nodes` until it returns a null pointer, with the nodes they
return. The caller leaves `scrub a` where the node `a` was: nothing, if it deletes it. -/
def teardown (scrub : Addr → Option (Node α)) :
    Nat → AvlTree α → InsertionPoint → Result (AvlTree α × List Addr)
  | 0, _, _ => .error .unfinished
  | fuel + 1, t, current => do
    let (t, current, node) ← t.destroyNodes current
    match node with
    | none => return (t, [])
    | some a => do
      let (t, rest) ← teardown scrub fuel (t.store a (scrub a)) current
      return (t, a :: rest)

/-- A child of a node in memory. -/
def Child (t : AvlTree α) (a y : Addr) : Prop := ∃ n s, t.mem a = some n ∧ n.mChildren s = some y

end AvlTree

variable {t t' : AvlTree α} {w : Option Side} {x : SideTree Addr α} {k : Frame Addr α}
  {ks js : List (Frame Addr α)} {a : Addr} {b : Int} {d : α}

/-- A node without children. -/
def tip (a : Addr) (b : Int) (d : α) : SideTree Addr α := .node a b d fun _ => leaf

/-- On the way up from the hole nothing is left to the left of it, and the trees to the
right of it are as they were. -/
def Fallen (ks : List (Frame Addr α)) : Prop :=
  ∀ k ∈ ks, k.o.Balanced ∧ (k.side = .right → k.o = leaf)

/-- The cookie after the node in the hole of `ks` was returned. -/
def cookie (ks : List (Frame Addr α)) : InsertionPoint :=
  ⟨parentOf none ks, whichOf (some .right) ks⟩

theorem cookie_ne_null (ks : List (Frame Addr α)) : cookie ks ≠ .null := by
  intro h
  cases ks with
  | nil => cases congrArg InsertionPoint.mChild h
  | cons k ks => cases congrArg InsertionPoint.mParent h

theorem cookie_mParent : (cookie (k :: ks)).mParent = some k.a := rfl

theorem cookie_mChild : (cookie (k :: ks)).mChild = some k.side := rfl

theorem zip_whole : Zip t w [] (plug ks x) ↔ Zip t w ks x := by
  rw [← zip_plug, List.append_nil]

theorem fallen_nil : Fallen ([] : List (Frame Addr α)) := by
  intro k hk
  cases hk

theorem fallen_cons : Fallen (k :: ks) ↔
    (k.o.Balanced ∧ (k.side = .right → k.o = leaf)) ∧ Fallen ks := List.forall_mem_cons

theorem Fallen.append (hj : Fallen js) (hk : Fallen ks) : Fallen (js ++ ks) := fun k hm =>
  (List.mem_append.mp hm).elim (hj k) (hk k)

theorem Fallen.wound (h : Fallen ks) : wound ks = [] := by
  induction ks with
  | nil => rfl
  | cons k ks ih =>
    obtain ⟨⟨-, hk⟩, hks⟩ := fallen_cons.mp h
    rw [SideTree.wound, ih hks, List.nil_append]
    cases hs : k.side with
    | left => rfl
    | right => rw [hk hs]; rfl

/-- The nodes still to come after the one in the hole. -/
theorem Fallen.postorder_tip (h : Fallen ks) :
    (plug ks (tip a b d)).postorder = a :: unwound ks := by
  rw [postorder_plug, h.wound]
  rfl

theorem giveOut_spec (h : Zip t w ks (tip a b d)) :
    t.giveOut (parentOf none ks) a = .ok (cookie ks, some a) := by
  unfold giveOut
  cases ks with
  | nil =>
    have hroot : t.mRoot = some a := h.root
    simp only [parentOf, if_true, check_ok hroot, ok_bind, pure_eq_ok]
    rfl
  | cons k ks =>
    rw [if_neg (by simp [parentOf]), node_eq h.tree.1]
    rfl

theorem leaf_of_height {y : SideTree Addr α} (h : y.height = 0) : y = leaf := by
  cases y with
  | leaf => rfl
  | node a b d c =>
    rw [height] at h
    omega

/-- A node without a left child has at most a leaf on its right. -/
theorem checkRightSide_spec {n : SideTree Addr α} (h : Zip t w ks (branch .left a b d leaf n))
    (hb : (branch .left a b d leaf n).Balanced) :
    ∃ js a' b' d', branch .left a b d leaf n = plug js (tip a' b' d') ∧ Fallen js ∧
      t.checkRightSide (parentOf none ks) a = .ok (parentOf none (js ++ ks), a') := by
  obtain ⟨hbal, hlo, hhi, -, hn⟩ := balanced_branch.mp hb
  simp only [Side.sign, height] at hbal
  obtain ⟨hmem, -, hrep⟩ := rep_branch.mp h.tree
  unfold checkRightSide
  rw [node_eq hmem]
  cases n with
  | leaf =>
    refine ⟨[], a, b, d, ?_, fallen_nil, ?_⟩
    · rw [branch, Side.pick_same]
      rfl
    · simp only [height] at hbal
      simp [check_ok (show b ≤ 0 by omega), Side.pick, SideTree.root]
  | node a' b' d' c' =>
    have hleaf : c' = fun _ => leaf := by
      funext s
      apply leaf_of_height
      rw [height] at hbal
      cases s <;> omega
    subst hleaf
    have hb1 : b = 1 := by
      simp only [height] at hbal
      omega
    refine ⟨[⟨.right, a, b, d, leaf⟩], a', b', d', ?_, ?_, ?_⟩
    · exact branch_swap .right
    · exact fallen_cons.mpr ⟨⟨trivial, fun _ => rfl⟩, fallen_nil⟩
    · have hroot : Side.left.pick (leaf : SideTree Addr α).root
          (SideTree.node a' b' d' fun _ => leaf).root .right = some a' := rfl
      simp only [ok_bind, hroot, check_ok hb1, node_eq hrep.1]
      rfl

/-- From the root of a subtree to its first node in the order of the teardown. -/
theorem descend_spec (x : SideTree Addr α) : ∀ {ks : List (Frame Addr α)} {fuel : Nat},
    Zip t w ks x → x ≠ leaf → x.height ≤ fuel →
    ∃ js a b d n, x = plug js (branch .left a b d leaf n) ∧ (∀ k ∈ js, k.side = .left) ∧
      t.descendLeft fuel (parentOf none ks) x.root = .ok (parentOf none (js ++ ks), a) := by
  induction x with
  | leaf => intro _ _ _ hne; exact absurd rfl hne
  | node a b d c ih =>
    intro ks fuel hz _ hfuel
    obtain ⟨n, rfl⟩ : ∃ n, fuel = n + 1 := ⟨fuel - 1, by rw [height] at hfuel; omega⟩
    simp only [root, descendLeft, node_eq hz.tree.1, ok_bind]
    cases hc : c .left with
    | leaf =>
      refine ⟨[], a, b, d, c .right, ?_, (fun k hk => by cases hk), by simp⟩
      rw [node_eq_branch .left, hc]
      rfl
    | node a' b' d' c' =>
      have hz' : Zip t w (⟨.left, a, b, d, c .right⟩ :: ks) (c .left) := by
        rw [zip_cons]
        have hfill : Frame.fill ⟨.left, a, b, d, c .right⟩ (c .left) = .node a b d c :=
          (node_eq_branch .left a b d c).symm
        rwa [hfill]
      obtain ⟨js, a₁, b₁, d₁, n₁, he, hjs, hrun⟩ := ih .left hz' (by simp [hc])
        (show (c .left).height ≤ n by rw [height] at hfuel; omega)
      refine ⟨js ++ [⟨.left, a, b, d, c .right⟩], a₁, b₁, d₁, n₁, ?_, ?_, ?_⟩
      · rw [plug_append, ← he]
        exact node_eq_branch .left a b d c
      · intro k hk
        rcases List.mem_append.mp hk with hk | hk
        · exact hjs k hk
        · rw [List.mem_singleton.mp hk]
      · rw [hc] at hrun
        simpa [SideTree.root, parentOf] using hrun

/-- The end of a call that has gone down to the leftmost node of a subtree. -/
theorem leftmost_spec {n : SideTree Addr α} (h : Zip t w ks (plug js (branch .left a b d leaf n)))
    (hb : (plug js (branch .left a b d leaf n)).Balanced) (hjs : ∀ k ∈ js, k.side = .left) :
    ∃ js' a' b' d', plug js (branch .left a b d leaf n) = plug js' (tip a' b' d') ∧ Fallen js' ∧
      (t.checkRightSide (parentOf none (js ++ ks)) a >>= fun p => t.giveOut p.1 p.2) =
        .ok (cookie (js' ++ ks), some a') := by
  obtain ⟨hbn, hbjs⟩ := balanced_plug.mp hb
  have hz := zip_plug.mpr h
  obtain ⟨is, a', b', d', he, his, hrun⟩ := checkRightSide_spec hz hbn
  have hplug : plug js (branch .left a b d leaf n) = plug (is ++ js) (tip a' b' d') := by
    rw [plug_append, ← he]
  refine ⟨is ++ js, a', b', d', hplug, his.append fun k hk => ?_, ?_⟩
  · refine ⟨hbjs.other k hk, fun hr => ?_⟩
    rw [hjs k hk] at hr
    cases hr
  · have hz' : Zip t w (is ++ js ++ ks) (tip a' b' d') := by
      rw [zip_plug, ← hplug]
      exact h
    rw [hrun, ok_bind, ← List.append_assoc]
    exact giveOut_spec hz'

theorem destroyFirst_leaf (h : Holds t w leaf) :
    t.destroyFirst = .ok (⟨none, some .right⟩, none) := by
  have hroot : t.mRoot = none := h.zip.root
  unfold destroyFirst AvlTree.first
  rw [hroot]
  rfl

theorem destroyFirst_spec (h : Holds t w x) (hne : x ≠ leaf) :
    ∃ js a b d, x = plug js (tip a b d) ∧ Fallen js ∧ t.destroyFirst = .ok (cookie js, some a) := by
  obtain ⟨js, a, b, d, n, rfl, hjs⟩ := exists_leftmost x hne
  have hfirst : t.first = .ok (some a) := by
    have hroot : t.mRoot = (plug js (branch .left a b d leaf n)).root := h.zip.root
    unfold AvlTree.first
    rw [hroot, endLoop_spec .left _ h.zip.tree (Nat.lt_succ_of_le (h.height_le [] rfl)),
      ends_plug hjs]
    rfl
  have hz : Zip t w js (branch .left a b d leaf n) := zip_whole.mp h.zip
  obtain ⟨js', a', b', d', he, hf, hrun⟩ := leftmost_spec h.zip h.balanced hjs
  refine ⟨js', a', b', d', he, hf, ?_⟩
  rw [List.append_nil] at hrun
  unfold destroyFirst
  simp only [hfirst, ok_bind, node_eq (rep_branch.mp hz.tree).1]
  rw [List.append_nil] at hrun
  exact hrun

theorem fill_leaf (h : k.o = leaf) : k.fill leaf = tip k.a k.b k.d := by
  rw [Frame.fill, h, branch, Side.pick_same]
  rfl

/-- The next node of the teardown, once the hole of `k :: ks` is empty. -/
theorem destroyNext_spec (hz : Zip t w (k :: ks) leaf) (hf : Fallen (k :: ks))
    (hsize : k.o.height ≤ t.allocs) :
    ∃ js a b d, plug js (tip a b d) = plug (k :: ks) leaf ∧ Fallen js ∧
      t.destroyNext k.a k.side = .ok (cookie js, some a) := by
  obtain ⟨⟨hbal, hright⟩, hks⟩ := fallen_cons.mp hf
  unfold destroyNext
  rw [hz.node_frame, ok_bind]
  by_cases ho : k.o = leaf
  · have htip : Zip t w ks (tip k.a k.b k.d) := by
      rw [← fill_leaf ho]
      exact zip_cons.mp hz
    have hup : k.side = .right ∨
        k.side.pick (leaf : SideTree Addr α).root k.o.root .right = none := by
      rw [ho, Side.pick_same]
      exact .inr rfl
    refine ⟨ks, k.a, k.b, k.d, ?_, hks, ?_⟩
    · rw [plug, fill_leaf ho]
    · rw [if_pos hup]
      exact giveOut_spec htip
  · have hside : k.side = .left := by
      cases hs : k.side with
      | left => rfl
      | right => exact absurd (hright hs) ho
    -- seen from its right child, the node has nothing on the left any more
    have hfill : Frame.fill ⟨.right, k.a, k.b, k.d, leaf⟩ k.o = k.fill leaf := by
      rw [Frame.fill, Frame.fill, hside]
      exact branch_swap .left
    have hz' : Zip t w (⟨.right, k.a, k.b, k.d, leaf⟩ :: ks) k.o := by
      rw [zip_cons, hfill]
      exact zip_cons.mp hz
    have hdown : ¬ (k.side = .right ∨
        k.side.pick (leaf : SideTree Addr α).root k.o.root .right = none) := by
      rw [hside]
      rintro (hr | hroot)
      · cases hr
      · cases hk : k.o with
        | leaf => exact ho hk
        | node a b d c =>
          rw [hk] at hroot
          cases hroot
    obtain ⟨js, a, b, d, n, he, hjs, hrun⟩ := descend_spec k.o hz' ho (Nat.le_succ_of_le hsize)
    obtain ⟨is, a', b', d', he', his, hrun'⟩ := leftmost_spec (he ▸ hz') (he ▸ hbal) hjs
    refine ⟨is ++ ⟨.right, k.a, k.b, k.d, leaf⟩ :: ks, a', b', d', ?_, his.append ?_, ?_⟩
    · rw [plug_append, ← he', ← he, plug, hfill]
      rfl
    · exact fallen_cons.mpr ⟨⟨trivial, fun _ => rfl⟩, hks⟩
    · have hroot : k.side.pick (leaf : SideTree Addr α).root k.o.root .right = k.o.root := by
        rw [hside]
        rfl
      have hgo : t.descendLeft (t.allocs + 1) (some k.a) k.o.root = _ := hrun
      rw [if_neg hdown]
      dsimp only
      rw [hroot, hgo, ok_bind]
      exact hrun'

/-- What is left in memory after a node was returned: the frames around its hole. -/
structure Torn (t : AvlTree α) (w : Option Side) (ks : List (Frame Addr α)) (p : Option Addr) :
    Prop where
  frames : RepFrames t.mem none w p ks
  root : t.mRoot = rootOf p ks
  nodup : (frameNames ks).Nodup
  fallen : Fallen ks
  num : t.mNumNodes = (frameNames ks).length + 1
  size : (frameNames ks).length ≤ t.allocs

theorem Zip.tip_notMem (hz : Zip t w ks (tip a b d)) : a ∉ frameNames ks := fun hm =>
  (List.nodup_append.mp hz.nodup_append).2.2 a (root_mem_names rfl) a hm rfl

/-- The node in the hole may hold anything from now on. -/
theorem Zip.torn (hz : Zip t w ks (tip a b d)) (hf : Fallen ks)
    (hnum : t.mNumNodes = (plug ks (tip a b d)).names.length)
    (hsize : (plug ks (tip a b d)).names.length ≤ t.allocs) (v : Option (Node α)) :
    Torn (t.store a v) w ks (some a) := by
  have hlen : (plug ks (tip a b d)).names.length = (frameNames ks).length + 1 := by
    rw [names_plug_perm.length_eq, List.length_append, Nat.add_comm]
    rfl
  obtain ⟨-, hnd, -⟩ := List.nodup_append.mp hz.nodup_append
  have ha := hz.tip_notMem
  refine ⟨hz.frames.frame fun y hy => store_mem_ne fun he => ha (he ▸ hy), hz.root, hnd, hf,
    hnum.trans hlen, ?_⟩
  show (frameNames ks).length ≤ t.allocs
  omega

/-- The next call after one that returned the node in the hole. -/
theorem Torn.next (h : Torn t w (k :: ks) (some a)) : ∃ t' js a' b' d',
    t.destroyNodes (cookie (k :: ks)) = .ok (t', cookie js, some a') ∧
      Zip t' w js (tip a' b' d') ∧ Fallen js ∧ plug js (tip a' b' d') = plug (k :: ks) leaf ∧
      t'.mNumNodes = (frameNames (k :: ks)).length ∧ t'.allocs = t.allocs ∧
      ∀ z ∉ frameNames (k :: ks), t'.mem z = t.mem z := by
  obtain ⟨t₁, he₁, hframes, hroot₁, hout, hcount⟩ := setHole_spec h.frames h.nodup none
  have hnum : t₁.mNumNodes = (frameNames (k :: ks)).length + 1 := hcount.num.trans h.num
  have hpos : 0 < (frameNames (k :: ks)).length :=
    List.length_pos_of_mem (mem_frameNames_cons.mpr (.inl rfl))
  have hz : Zip { t₁ with mNumNodes := t₁.mNumNodes - 1 } w (k :: ks) leaf :=
    ⟨trivial, hframes, hroot₁.trans h.root, names_plug_perm.nodup_iff.mpr h.nodup⟩
  have hheight : k.o.height ≤ t₁.allocs := by
    have hlen : k.o.toList.length ≤ (frameNames (k :: ks)).length := by
      rw [frameNames_cons_perm.length_eq, List.length_cons, List.length_append, names,
        List.length_map]
      omega
    have := height_le_length k.o
    have := hcount.allocs
    have := h.size
    omega
  obtain ⟨js, a', b', d', hplug, hjs, hrun⟩ := destroyNext_spec hz h.fallen hheight
  refine ⟨{ t₁ with mNumNodes := t₁.mNumNodes - 1 }, js, a', b', d', ?_, ?_, hjs, hplug, ?_,
    hcount.allocs, hout⟩
  · unfold destroyNodes
    rw [if_neg (cookie_ne_null _)]
    simp only [cookie_mParent, cookie_mChild, index, ok_bind, he₁, hrun, pure_eq_ok,
      check_ok (show t₁.mNumNodes > 1 by omega)]
  · rw [← zip_whole, hplug]
    exact hz.whole
  · show t₁.mNumNodes - 1 = _
    omega

theorem Torn.last (h : Torn t w [] (some a)) : t.destroyNodes ⟨none, some .right⟩ =
    .ok ({ t with mRoot := none, mNumNodes := 0 }, ⟨none, some .right⟩, none) := by
  have hroot : t.mRoot = some a := h.root
  have hnum : t.mNumNodes = 1 := h.num
  unfold destroyNodes
  rw [if_neg (by simp [InsertionPoint.null])]
  simp only [hroot, ne_eq, reduceCtorEq, not_false_eq_true, if_true, check_ok hnum, ok_bind,
    pure_eq_ok]

/-- What the calls return and leave, when the nodes `l` are still to come. -/
structure TornDown (scrub : Addr → Option (Node α)) (t t' : AvlTree α) (l : List Addr) : Prop where
  root : t'.mRoot = none
  num : t'.mNumNodes = 0
  scrubbed : ∀ z ∈ l, t'.mem z = scrub z
  outside : ∀ z ∉ l, t'.mem z = t.mem z

theorem Fallen.mem_unwound (h : Fallen ks) {z : Addr} : z ∈ unwound ks ↔ z ∈ frameNames ks := by
  have hpost : (plug ks leaf).postorder = unwound ks := by
    rw [postorder_plug, h.wound]
    rfl
  rw [← hpost, (postorder_perm _).mem_iff, mem_names_plug]
  exact or_iff_right (by simp [names, toList])

theorem TornDown.cons {scrub : Addr → Option (Node α)} {t₁ : AvlTree α} {l : List Addr}
    (h : TornDown scrub (t₁.store a (scrub a)) t' l) (ha : a ∉ l)
    (hout : ∀ z ∉ a :: l, t₁.mem z = t.mem z) : TornDown scrub t t' (a :: l) := by
  refine ⟨h.root, h.num, fun z hz => ?_, fun z hz => ?_⟩
  · rcases List.mem_cons.mp hz with rfl | hz
    · rw [h.outside _ ha, store_mem_self]
    · exact h.scrubbed z hz
  · obtain ⟨hza, hzl⟩ := not_or.mp (mt List.mem_cons.mpr hz)
    rw [h.outside z hzl, store_mem_ne hza, hout z hz]

/-- The calls after the one that returned the node in the hole. -/
theorem teardown_next (scrub : Addr → Option (Node α)) : ∀ {fuel : Nat} {t : AvlTree α}
    {ks : List (Frame Addr α)} {a : Addr}, Torn t w ks (some a) → (unwound ks).length < fuel →
    ∃ t', t.teardown scrub fuel (cookie ks) = .ok (t', unwound ks) ∧
      TornDown scrub t t' (unwound ks) := by
  intro fuel
  induction fuel with
  | zero =>
    intro t ks a _ hlt
    omega
  | succ fuel ih =>
    intro t ks a h hlt
    cases ks with
    | nil =>
      refine ⟨{ t with mRoot := none, mNumNodes := 0 }, ?_, rfl, rfl, ?_, fun _ _ => rfl⟩
      · show t.teardown scrub (fuel + 1) ⟨none, some .right⟩ = _
        rw [teardown, h.last]
        rfl
      · intro z hz
        cases hz
    | cons k ks =>
      obtain ⟨t₁, js, a', b', d', he, hz, hjs, hplug, hnum, hallocs, hout⟩ := h.next
      have hperm : (plug js (tip a' b' d')).names.Perm (frameNames (k :: ks)) := by
        rw [hplug]
        exact names_plug_perm
      have hunwound : unwound (k :: ks) = a' :: unwound js := by
        have hpost := postorder_plug (k :: ks) (leaf : SideTree Addr α)
        rw [h.fallen.wound, ← hplug, hjs.postorder_tip] at hpost
        exact hpost.symm
      have htorn := hz.torn hjs (hnum.trans hperm.length_eq.symm)
        (by rw [hperm.length_eq, hallocs]; exact h.size) (scrub a')
      have ha' : a' ∉ unwound js := by
        rw [hjs.mem_unwound]
        exact hz.tip_notMem
      have hlen : (unwound js).length < fuel := by
        rw [hunwound, List.length_cons] at hlt
        omega
      obtain ⟨t', he', hdown⟩ := ih htorn hlen
      rw [hunwound]
      refine ⟨t', ?_, hdown.cons ha' fun z hzl => hout z ?_⟩
      · rw [teardown, he, ok_bind]
        simp only [he', ok_bind, pure_eq_ok]
      · rw [← h.fallen.mem_unwound, hunwound]
        exact hzl

theorem teardown_spec (scrub : Addr → Option (Node α)) (h : Holds t w x)
    (hnum : t.mNumNodes = x.names.length) :
    ∃ t', t.teardown scrub (t.allocs + 1) .null = .ok (t', x.postorder) ∧
      TornDown scrub t t' x.postorder := by
  have hsize : x.names.length ≤ t.allocs := by
    rw [names, List.length_map]
    exact h.size
  by_cases hne : x = leaf
  · subst hne
    have hfirst : t.destroyNodes .null = .ok (t, ⟨none, some .right⟩, none) := by
      rw [destroyNodes, if_pos rfl, destroyFirst_leaf h]
      rfl
    refine ⟨t, ?_, h.zip.root, hnum, (fun z hz => by cases hz), fun _ _ => rfl⟩
    rw [teardown, hfirst]
    rfl
  · obtain ⟨js, a, b, d, hx, hjs, hfirst⟩ := destroyFirst_spec h hne
    subst hx
    have hz := zip_whole.mp h.zip
    have hstart : t.destroyNodes .null = .ok (t, cookie js, some a) := by
      rw [destroyNodes, if_pos rfl, hfirst]
      rfl
    have hlen : (unwound js).length < t.allocs := by
      have hpost := (postorder_perm (plug js (tip a b d))).length_eq
      rw [hjs.postorder_tip, List.length_cons] at hpost
      omega
    have ha : a ∉ unwound js := by
      rw [hjs.mem_unwound]
      exact hz.tip_notMem
    obtain ⟨t', he, hdown⟩ := teardown_next scrub (hz.torn hjs hnum hsize (scrub a)) hlen
    rw [hjs.postorder_tip]
    refine ⟨t', ?_, hdown.cons ha fun _ _ => rfl⟩
    rw [teardown, hstart, ok_bind]
    simp only [he, ok_bind, pure_eq_ok]

/-- A child is given out before its parent. -/
theorem Holds.idxOf_child_lt (h : Holds t w x) {y : Addr} (hc : t.Child a y) :
    x.postorder.idxOf y < x.postorder.idxOf a := by
  obtain ⟨n, s, hmem, hn⟩ := hc
  have ha : a ∈ x.names := by
    by_contra hno
    rw [h.outside a hno] at hmem
    cases hmem
  obtain ⟨ks, b, d, c, rfl⟩ := exists_plug x ha
  have hz := zip_whole.mp h.zip
  obtain rfl := Option.some.inj (hmem.symm.trans hz.tree.1)
  exact idxOf_postorder_lt h.zip.nodup (root_mem_names hn)

/-- The calls of `destroy_nodes` return every node once, after all nodes below it, keep off
the nodes they have returned, whatever these hold by then, and empty the tree. -/
theorem teardown_correct {key : α → κ} (h : Sound key t)
    (hnum : t.mNumNodes = t.elements.length) (scrub : Addr → Option (Node α)) :
    ∃ t' l, t.teardown scrub (t.allocs + 1) .null = .ok (t', l) ∧ l.Nodup ∧
      (∀ a, a ∈ l ↔ a ∈ t.nodes) ∧
      (∀ a y, Relation.TransGen t.Child a y → l.idxOf y < l.idxOf a) ∧
      t'.mRoot = none ∧ t'.mNumNodes = 0 ∧ ∀ a ∈ l, t'.mem a = scrub a := by
  obtain ⟨w, x, hx, -⟩ := h
  have hlen : t.mNumNodes = x.names.length := by
    rw [hnum, hx.elements, names, List.length_map]
  obtain ⟨t', he, hdown⟩ := teardown_spec scrub hx hlen
  refine ⟨t', x.postorder, he, (postorder_perm x).nodup_iff.mpr hx.zip.nodup, fun a => ?_,
    fun a y hay => ?_, hdown.root, hdown.num, hdown.scrubbed⟩
  · rw [hx.nodes, (postorder_perm x).mem_iff]
  · induction hay with
    | single hc => exact hx.idxOf_child_lt hc
    | tail _ hc ih => exact (hx.idxOf_child_lt hc).trans ih

theorem teardown_correct_threeAdds : ∃ t : AvlTree Nat, Reachable id t ∧
    t.nodes = [.heap 0, .heap 1, .heap 2] ∧
    ∃ t' l, t.teardown (fun _ => none) (t.allocs + 1) .null = .ok (t', l) ∧ l.Nodup ∧
      t'.mRoot = none ∧ ∀ a ∈ l, t'.mem a = none := by
  have h₁ : Reachable id _ := .next (e := .add 1 1) (.start rfl) ⟨rfl, rfl⟩
  have h₂ : Reachable id _ := .next (e := .add 0 0) h₁ ⟨rfl, rfl⟩
  have h₃ : Reachable id _ := .next (e := .add 2 2) h₂ ⟨rfl, rfl⟩
  obtain ⟨t', l, he, hnd, -, -, hroot, -, hgone⟩ :=
    teardown_correct h₃.sound (by decide) fun _ => none
  exact ⟨_, h₃, by decide, t', l, he, hnd, hroot, hgone⟩

end EchoFs.Avl
