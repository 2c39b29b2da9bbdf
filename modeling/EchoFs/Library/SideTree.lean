import Mathlib.Data.List.Basic
import Mathlib.Tactic.Linarith

/-! Binary trees whose children are indexed by a side, with a stored balance at
every node, and trees with a hole: the path from a node up to the root. A statement
about one side covers its mirror image. -/

inductive Side where
  | left
  | right
deriving DecidableEq, Repr

namespace Side

def other : Side → Side
  | left => right
  | right => left

/-- What a longer subtree on this side adds to the balance. -/
def sign : Side → Int
  | left => -1
  | right => 1

@[simp] theorem other_other (s : Side) : s.other.other = s := by cases s <;> rfl

@[simp] theorem other_ne (s : Side) : s.other ≠ s := by cases s <;> decide

@[simp] theorem ne_other (s : Side) : s ≠ s.other := by cases s <;> decide

theorem eq_or_other (s x : Side) : x = s ∨ x = s.other := by cases s <;> cases x <;> decide

@[simp] theorem sign_other (s : Side) : s.other.sign = -s.sign := by cases s <;> rfl

theorem sign_cases (s : Side) : s.sign = -1 ∨ s.sign = 1 := by cases s <;> decide

/-- One value on side `s`, another one on the other side. -/
def pick {γ : Type*} (s : Side) (near far : γ) : Side → γ := fun x => if x = s then near else far

variable {γ : Type*}

@[simp] theorem pick_self (s : Side) (n f : γ) : s.pick n f s = n := if_pos rfl

@[simp] theorem pick_other (s : Side) (n f : γ) : s.pick n f s.other = f := if_neg (other_ne s)

theorem pick_eta (s : Side) (c : Side → γ) : s.pick (c s) (c s.other) = c := by
  funext x
  obtain rfl | rfl := eq_or_other s x <;> simp

theorem pick_same (s : Side) (x : γ) : s.pick x x = fun _ => x := funext fun _ => ite_self x

theorem pick_swap (s : Side) (n f : γ) : s.other.pick n f = s.pick f n := by
  funext x
  obtain rfl | rfl := eq_or_other s x
  · have := pick_other x.other n f
    rw [other_other] at this
    rw [this, pick_self]
  · rw [pick_self, pick_other]

theorem map_pick {δ : Type*} (g : γ → δ) (s : Side) (n f : γ) :
    (fun x => g (s.pick n f x)) = s.pick (g n) (g f) := by
  funext x
  obtain rfl | rfl := eq_or_other s x <;> simp

theorem update_pick (s : Side) (n f x : γ) : Function.update (s.pick n f) s x = s.pick x f := by
  funext y
  obtain rfl | rfl := eq_or_other s y <;> simp [Function.update]

theorem update_pick_other (s : Side) (n f x : γ) :
    Function.update (s.pick n f) s.other x = s.pick n x := by
  funext y
  obtain rfl | rfl := eq_or_other s y <;> simp [Function.update]

end Side

/-- A node has a name, a stored balance and data. -/
inductive SideTree (ι α : Type*) where
  | leaf
  | node (a : ι) (b : Int) (d : α) (c : Side → SideTree ι α)

namespace SideTree
variable {ι α : Type*}

def root : SideTree ι α → Option ι
  | leaf => none
  | node a _ _ _ => some a

def height : SideTree ι α → Nat
  | leaf => 0
  | node _ _ _ c => 1 + max (height (c .left)) (height (c .right))

def balance : SideTree ι α → Int
  | leaf => 0
  | node _ b _ _ => b

/-- The nodes from left to right. -/
def toList : SideTree ι α → List (ι × α)
  | leaf => []
  | node a _ d c => toList (c .left) ++ (a, d) :: toList (c .right)

def names (t : SideTree ι α) : List ι := t.toList.map Prod.fst

/-- Every stored balance is the difference of the heights below, and at most one. -/
def Balanced : SideTree ι α → Prop
  | leaf => True
  | node _ b _ c => b = height (c .right) - height (c .left) ∧ -1 ≤ b ∧ b ≤ 1 ∧ ∀ s, Balanced (c s)

/-- A node with `near` on side `s`. -/
def branch (s : Side) (a : ι) (b : Int) (d : α) (near far : SideTree ι α) : SideTree ι α :=
  node a b d (s.pick near far)

variable {s : Side} {a : ι} {b : Int} {d : α} {n f : SideTree ι α}

theorem node_eq_branch (s : Side) (a : ι) (b : Int) (d : α) (c : Side → SideTree ι α) :
    node a b d c = branch s a b d (c s) (c s.other) := by
  unfold branch
  rw [Side.pick_eta]

theorem branch_swap (s : Side) : branch s.other a b d n f = branch s a b d f n :=
  congrArg (node a b d) (Side.pick_swap s n f)

theorem height_branch : (branch s a b d n f).height = 1 + max n.height f.height := by
  cases s
  · rfl
  · show 1 + max f.height n.height = _
    rw [max_comm]

theorem toList_branch : (branch s a b d n f).toList = match s with
    | .left => n.toList ++ (a, d) :: f.toList
    | .right => f.toList ++ (a, d) :: n.toList := by
  cases s <;> rfl

theorem balanced_branch : (branch s a b d n f).Balanced ↔
    b = s.sign * (n.height - f.height) ∧ -1 ≤ b ∧ b ≤ 1 ∧ n.Balanced ∧ f.Balanced := by
  constructor
  · rintro ⟨hb, hlo, hhi, hc⟩
    have hn := hc s
    have hf := hc s.other
    simp only [Side.pick_self, Side.pick_other] at hn hf
    refine ⟨?_, hlo, hhi, hn, hf⟩
    cases s
    · have : b = f.height - n.height := hb
      simp only [Side.sign]
      omega
    · have : b = n.height - f.height := hb
      simp only [Side.sign]
      omega
  · rintro ⟨hb, hlo, hhi, hn, hf⟩
    refine ⟨?_, hlo, hhi, fun x => ?_⟩
    · cases s
      · show b = f.height - n.height
        simp only [Side.sign] at hb
        omega
      · show b = n.height - f.height
        simp only [Side.sign] at hb
        omega
    · obtain rfl | rfl := Side.eq_or_other s x
      · simpa using hn
      · simpa using hf

theorem names_branch_perm : (branch s a b d n f).names.Perm (a :: (n.names ++ f.names)) := by
  unfold names
  rw [toList_branch]
  cases s
  · simp only [List.map_append, List.map_cons]
    exact List.perm_middle
  · simp only [List.map_append, List.map_cons]
    exact List.perm_middle.trans ((List.perm_append_comm).cons a)

theorem mem_names_branch {x : ι} :
    x ∈ (branch s a b d n f).names ↔ x = a ∨ x ∈ n.names ∨ x ∈ f.names := by
  rw [names_branch_perm.mem_iff, List.mem_cons, List.mem_append]

theorem root_branch : (branch s a b d n f).root = some a := rfl

theorem root_mem_names {t : SideTree ι α} {x : ι} (h : t.root = some x) : x ∈ t.names := by
  cases t with
  | leaf => cases h
  | node a b d c =>
    obtain rfl := Option.some.inj h
    simp [names, toList]

/-- A node with a hole on side `side`. -/
structure Frame (ι α : Type*) where
  side : Side
  a : ι
  b : Int
  d : α
  o : SideTree ι α

def Frame.fill (k : Frame ι α) (t : SideTree ι α) : SideTree ι α := branch k.side k.a k.b k.d t k.o

/-- The tree around a hole, from the parent of the hole up to the root. -/
def plug : List (Frame ι α) → SideTree ι α → SideTree ι α
  | [], t => t
  | k :: ks, t => plug ks (k.fill t)

/-- What lies to the left and to the right of the hole. -/
def before : List (Frame ι α) → List (ι × α)
  | [] => []
  | k :: ks => before ks ++ match k.side with
    | .left => []
    | .right => k.o.toList ++ [(k.a, k.d)]

def after : List (Frame ι α) → List (ι × α)
  | [] => []
  | k :: ks => (match k.side with
    | .left => (k.a, k.d) :: k.o.toList
    | .right => []) ++ after ks

/-- The frames are balanced around a hole of height `h`. -/
def FramesBalanced : List (Frame ι α) → Nat → Prop
  | [], _ => True
  | k :: ks, h => k.b = k.side.sign * (h - k.o.height) ∧ -1 ≤ k.b ∧ k.b ≤ 1 ∧ k.o.Balanced ∧
    FramesBalanced ks (1 + max h k.o.height)

def frameNames (ks : List (Frame ι α)) : List ι := (before ks ++ after ks).map Prod.fst

variable {k : Frame ι α} {ks js : List (Frame ι α)} {t : SideTree ι α}

theorem toList_plug (ks : List (Frame ι α)) (t : SideTree ι α) :
    (plug ks t).toList = before ks ++ t.toList ++ after ks := by
  induction ks generalizing t with
  | nil => simp [plug, before, after]
  | cons k ks ih =>
    unfold plug before after
    rw [ih, Frame.fill, toList_branch]
    cases k.side <;> simp

theorem plug_append : plug (ks ++ js) t = plug js (plug ks t) := by
  induction ks generalizing t with
  | nil => rfl
  | cons k ks ih =>
    rw [List.cons_append, plug, plug]
    exact ih

theorem before_append : before (ks ++ js) = before js ++ before ks := by
  induction ks with
  | nil => simp [before]
  | cons k ks ih =>
    rw [List.cons_append, before, ih, before, List.append_assoc]

theorem after_append : after (ks ++ js) = after ks ++ after js := by
  induction ks with
  | nil => simp [after]
  | cons k ks ih =>
    rw [List.cons_append, after, ih, after, List.append_assoc]

theorem before_left (h : ∀ k ∈ ks, k.side = .left) : before ks = [] := by
  induction ks with
  | nil => rfl
  | cons k ks ih =>
    rw [before, h k List.mem_cons_self, ih fun j hj => h j (List.mem_cons_of_mem _ hj)]
    rfl

theorem after_right (h : ∀ k ∈ ks, k.side = .right) : after ks = [] := by
  induction ks with
  | nil => rfl
  | cons k ks ih =>
    rw [after, h k List.mem_cons_self, ih fun j hj => h j (List.mem_cons_of_mem _ hj)]
    rfl

/-- The elements on one side of the hole. -/
def beside (s : Side) (ks : List (Frame ι α)) : List (ι × α) :=
  match s with
  | .left => before ks
  | .right => after ks

/-- The element of the list that is the last one towards a side. -/
def ends {γ : Type*} (s : Side) (l : List γ) : Option γ :=
  match s with
  | .left => l.head?
  | .right => l.getLast?

theorem ends_node (s : Side) (a : ι) (b : Int) (d : α) (c : Side → SideTree ι α) :
    ends s (node a b d c).toList = (ends s (c s).toList).or (some (a, d)) := by
  cases s with
  | left => rw [toList, ends, ends, List.head?_append, List.head?_cons]
  | right =>
    rw [toList, ends, ends, List.append_cons, List.getLast?_append, List.getLast?_concat]

/-- The element next to the hole belongs to the first node whose other side the hole is on. -/
theorem ends_beside_cons (s : Side) : ends s.other (beside s (k :: ks)) =
    if k.side = s then ends s.other (beside s ks) else some (k.a, k.d) := by
  cases s with
  | left => cases hk : k.side <;> simp [ends, beside, before, Side.other, hk]
  | right => cases hk : k.side <;> simp [ends, beside, after, Side.other, hk]

/-- The node without a child on side `s`, with only nodes above it that lean there. -/
theorem ends_plug {a : ι} {b : Int} {d : α} {n : SideTree ι α} {s : Side}
    (h : ∀ k ∈ ks, k.side = s) : ends s (plug ks (branch s a b d leaf n)).toList = some (a, d) := by
  rw [toList_plug, toList_branch]
  cases s with
  | left => simp [ends, before_left h, toList]
  | right => simp [ends, after_right h, toList]

theorem height_le_length (t : SideTree ι α) : t.height ≤ t.toList.length := by
  induction t with
  | leaf => exact Nat.zero_le _
  | node a b d c ih =>
    have hl := ih .left
    have hr := ih .right
    rw [height, toList, List.length_append, List.length_cons]
    omega

theorem height_fill : (k.fill t).height = 1 + max t.height k.o.height := height_branch

theorem balanced_plug : (plug ks t).Balanced ↔ t.Balanced ∧ FramesBalanced ks t.height := by
  induction ks generalizing t with
  | nil => simp [plug, FramesBalanced]
  | cons k ks ih =>
    unfold plug FramesBalanced
    rw [ih, height_fill, Frame.fill, balanced_branch]
    constructor
    · rintro ⟨⟨hb, hlo, hhi, ht, ho⟩, hks⟩
      exact ⟨ht, hb, hlo, hhi, ho, hks⟩
    · rintro ⟨ht, hb, hlo, hhi, ho, hks⟩
      exact ⟨⟨hb, hlo, hhi, ht, ho⟩, hks⟩

theorem FramesBalanced.other {h : Nat} (hb : FramesBalanced ks h) : ∀ k ∈ ks, k.o.Balanced := by
  induction ks generalizing h with
  | nil =>
    intro k hk
    cases hk
  | cons k ks ih =>
    obtain ⟨-, -, -, ho, hks⟩ := hb
    exact List.forall_mem_cons.mpr ⟨ho, ih hks⟩

theorem names_plug_perm : (plug ks t).names.Perm (t.names ++ frameNames ks) := by
  unfold names frameNames
  rw [toList_plug, List.map_append, List.map_append, List.map_append, List.append_assoc]
  exact List.perm_append_comm_assoc _ _ _

theorem mem_names_plug {x : ι} : x ∈ (plug ks t).names ↔ x ∈ t.names ∨ x ∈ frameNames ks := by
  rw [names_plug_perm.mem_iff, List.mem_append]

theorem frameNames_cons_perm :
    (frameNames (k :: ks)).Perm (k.a :: (k.o.names ++ frameNames ks)) := by
  have h : (plug (k :: ks) leaf).names.Perm (leaf.names ++ frameNames (k :: ks)) := names_plug_perm
  have h' : (plug ks (k.fill leaf)).names.Perm ((k.fill leaf).names ++ frameNames ks) :=
    names_plug_perm
  have hfill : (k.fill leaf).names.Perm (k.a :: k.o.names) := by
    exact names_branch_perm (n := leaf)
  have hleaf : (leaf : SideTree ι α).names = [] := rfl
  rw [hleaf, List.nil_append] at h
  exact h.symm.trans (h'.trans (hfill.append_right _))

theorem mem_frameNames_cons {x : ι} :
    x ∈ frameNames (k :: ks) ↔ x = k.a ∨ x ∈ k.o.names ∨ x ∈ frameNames ks := by
  rw [frameNames_cons_perm.mem_iff, List.mem_cons, List.mem_append]

theorem length_le_frameNames (ks : List (Frame ι α)) : ks.length ≤ (frameNames ks).length := by
  induction ks with
  | nil => exact Nat.zero_le _
  | cons k ks ih =>
    rw [frameNames_cons_perm.length_eq, List.length_cons, List.length_cons, List.length_append]
    omega

theorem frameNames_append_perm : (frameNames (ks ++ js)).Perm (frameNames ks ++ frameNames js) := by
  induction ks with
  | nil => rfl
  | cons k ks ih =>
    rw [List.cons_append]
    refine frameNames_cons_perm.trans (.trans ?_ (frameNames_cons_perm.symm.append_right _))
    rw [List.cons_append, List.append_assoc]
    exact (ih.append_left _).cons _

theorem names_around_perm {x : ι} {s' : Side} {b' : Int} {d' : α} :
    (plug (js ++ ⟨s, x, b, d, f⟩ :: ks) (branch s' a b' d' leaf n)).names.Perm
      (a :: x :: (n.names ++ f.names ++ frameNames js ++ frameNames ks)) := by
  have hbranch : (branch s' a b' d' leaf n).names.Perm (a :: n.names) :=
    names_branch_perm (n := leaf)
  have hframes : (frameNames (js ++ ⟨s, x, b, d, f⟩ :: ks)).Perm
      (x :: (f.names ++ (frameNames js ++ frameNames ks))) := by
    refine frameNames_append_perm.trans ((frameNames_cons_perm.append_left _).trans ?_)
    refine List.perm_middle.trans (.cons _ ?_)
    exact List.perm_append_comm_assoc _ _ _
  refine names_plug_perm.trans ((hbranch.append hframes).trans (.cons _ ?_))
  refine List.perm_middle.trans (.cons _ ?_)
  rw [List.append_assoc, List.append_assoc]

theorem framesBalanced_rename {x : ι} {d' : α} {h : Nat}
    (hb : FramesBalanced (js ++ ⟨s, a, b, d, f⟩ :: ks) h) :
    FramesBalanced (js ++ ⟨s, x, b, d', f⟩ :: ks) h := by
  induction js generalizing h with
  | nil => exact hb
  | cons j js ih => exact ⟨hb.1, hb.2.1, hb.2.2.1, hb.2.2.2.1, ih hb.2.2.2.2⟩

theorem exists_plug {x : ι} (t : SideTree ι α) (h : x ∈ t.names) :
    ∃ ks b d c, t = plug ks (node x b d c) := by
  induction t with
  | leaf => simp [names, toList] at h
  | node a b d c ih =>
    have hsplit : x ∈ (c .left).names ∨ x = a ∨ x ∈ (c .right).names := by
      simpa [names, toList, or_assoc] using h
    have hside : ∀ s, x ∈ (c s).names → ∃ ks b' d' c', node a b d c = plug ks (node x b' d' c') := by
      intro s hs
      obtain ⟨ks, b', d', c', he⟩ := ih s hs
      refine ⟨ks ++ [⟨s, a, b, d, c s.other⟩], b', d', c', ?_⟩
      rw [plug_append, ← he]
      exact node_eq_branch s a b d c
    rcases hsplit with hs | rfl | hs
    · exact hside .left hs
    · exact ⟨[], b, d, c, rfl⟩
    · exact hside .right hs

/-- The child `c` on side `s` takes the place of its parent `a`. -/
def single (s : Side) (a c : ι) (d cd : α) (e : Int) (x y f : SideTree ι α) : SideTree ι α :=
  branch s c e cd x (branch s a (-e) d y f)

/-- The grandchild `g` takes the place of `a`, between `c` and `a`. -/
def double (s : Side) (a c g : ι) (d cd gd : α) (e i : Int) (x p q f : SideTree ι α) :
    SideTree ι α :=
  branch s g 0 gd (branch s c e cd x p) (branch s a i d q f)

section Rotation
variable {c g : ι} {cb gb : Int} {cd gd : α} {x y p q : SideTree ι α}

theorem toList_single (e : Int) : (single s a c d cd e x y f).toList =
    (branch s a b d (branch s c cb cd x y) f).toList := by
  unfold single
  cases s <;> simp [toList_branch]

theorem toList_double (e i : Int) : (double s a c g d cd gd e i x p q f).toList =
    (branch s a b d (branch s c cb cd x (branch s g gb gd p q)) f).toList := by
  unfold double
  cases s <;> simp [toList_branch]

/-- A single rotation of a tree whose near child is two levels higher. -/
theorem balanced_single (hc : (branch s c cb cd x y).Balanced) (hf : f.Balanced)
    (hh : (branch s c cb cd x y).height = f.height + 2) (hcb : cb ≠ -s.sign) :
    (single s a c d cd (cb - s.sign) x y f).Balanced ∧
    ((single s a c d cd (cb - s.sign) x y f).height : Int) =
      f.height + if cb - s.sign = 0 then 2 else 3 := by
  rw [balanced_branch] at hc
  obtain ⟨hb, hlo, hhi, hx, hy⟩ := hc
  unfold single
  rw [height_branch] at hh ⊢
  simp only [balanced_branch, height_branch]
  obtain hs | hs := s.sign_cases
  · rw [hs] at hb hcb ⊢
    split_ifs <;> refine ⟨⟨?_, ?_, ?_, hx, ?_, ?_, ?_, hy, hf⟩, ?_⟩ <;> omega
  · rw [hs] at hb hcb ⊢
    split_ifs <;> refine ⟨⟨?_, ?_, ?_, hx, ?_, ?_, ?_, hy, hf⟩, ?_⟩ <;> omega

/-- A double rotation of such a tree whose near child leans the other way. -/
theorem balanced_double (hc : (branch s c (-s.sign) cd x (branch s g gb gd p q)).Balanced)
    (hf : f.Balanced)
    (hh : (branch s c (-s.sign) cd x (branch s g gb gd p q)).height = f.height + 2) :
    (double s a c g d cd gd (if gb = -s.sign then s.sign else 0)
      (if gb = s.sign then -s.sign else 0) x p q f).Balanced ∧
    (double s a c g d cd gd (if gb = -s.sign then s.sign else 0)
      (if gb = s.sign then -s.sign else 0) x p q f).height = f.height + 2 := by
  simp only [balanced_branch] at hc
  obtain ⟨hb, _, _, hx, hgb, hlo, hhi, hp, hq⟩ := hc
  unfold double
  rw [height_branch, height_branch] at hh
  rw [height_branch] at hb
  simp only [balanced_branch, height_branch]
  obtain hs | hs := s.sign_cases
  · rw [hs] at hb hgb ⊢
    split_ifs <;>
      refine ⟨⟨?_, ?_, ?_, ⟨?_, ?_, ?_, hx, hp⟩, ?_, ?_, ?_, hq, hf⟩, ?_⟩ <;> omega
  · rw [hs] at hb hgb ⊢
    split_ifs <;>
      refine ⟨⟨?_, ?_, ?_, ⟨?_, ?_, ?_, hx, hp⟩, ?_, ?_, ?_, hq, hf⟩, ?_⟩ <;> omega

end Rotation

/-- Every node after the nodes of its subtrees. -/
def postorder : SideTree ι α → List ι
  | leaf => []
  | node a _ _ c => postorder (c .left) ++ postorder (c .right) ++ [a]

/-- The nodes that come before and after the hole in this order. -/
def wound : List (Frame ι α) → List ι
  | [] => []
  | k :: ks => wound ks ++ match k.side with
    | .left => []
    | .right => k.o.postorder

def unwound : List (Frame ι α) → List ι
  | [] => []
  | k :: ks => (match k.side with
    | .left => k.o.postorder
    | .right => []) ++ k.a :: unwound ks

theorem postorder_plug (ks : List (Frame ι α)) (t : SideTree ι α) :
    (plug ks t).postorder = wound ks ++ t.postorder ++ unwound ks := by
  induction ks generalizing t with
  | nil => simp [plug, wound, unwound]
  | cons k ks ih =>
    unfold plug wound unwound
    rw [ih, Frame.fill, branch, postorder]
    cases k.side <;> simp [Side.pick]

theorem postorder_perm (t : SideTree ι α) : t.postorder.Perm t.names := by
  induction t with
  | leaf => exact .nil
  | node a b d c ih =>
    rw [node_eq_branch .left]
    refine .trans ?_ names_branch_perm.symm
    exact List.perm_append_comm.trans (((ih .left).append (ih .right)).cons a)

/-- A node of a subtree comes before the node above it. -/
theorem idxOf_postorder_lt [DecidableEq ι] {c : Side → SideTree ι α} {x : ι}
    (hnd : (plug ks (node a b d c)).names.Nodup) (hx : x ∈ (c s).names) :
    (plug ks (node a b d c)).postorder.idxOf x < (plug ks (node a b d c)).postorder.idxOf a := by
  have hnd' := (postorder_perm _).nodup_iff.mpr hnd
  have hmem : x ∈ wound ks ++ ((c .left).postorder ++ (c .right).postorder) := by
    have hx' := (postorder_perm _).mem_iff.mpr hx
    cases s <;> simp [hx']
  have hsplit : (plug ks (node a b d c)).postorder =
      wound ks ++ ((c .left).postorder ++ (c .right).postorder) ++ a :: unwound ks := by
    rw [postorder_plug, postorder]
    simp
  rw [hsplit] at hnd' ⊢
  have ha : a ∉ wound ks ++ ((c .left).postorder ++ (c .right).postorder) := fun ha =>
    (List.nodup_append.mp hnd').2.2 a ha a List.mem_cons_self rfl
  rw [List.idxOf_append_of_mem hmem, List.idxOf_append_of_notMem ha, List.idxOf_cons_self,
    Nat.add_zero]
  exact List.idxOf_lt_length_iff.mpr hmem

/-- The left-most node, with only left children above it. -/
theorem exists_leftmost (t : SideTree ι α) (h : t ≠ leaf) :
    ∃ ks a b d n, t = plug ks (branch .left a b d leaf n) ∧ ∀ k ∈ ks, k.side = .left := by
  induction t with
  | leaf => exact absurd rfl h
  | node a b d c ih =>
    by_cases hc : c .left = leaf
    · refine ⟨[], a, b, d, c .right, ?_, fun k hk => by cases hk⟩
      rw [node_eq_branch .left, hc]
      rfl
    · obtain ⟨ks, a', b', d', n, he, hks⟩ := ih .left hc
      refine ⟨ks ++ [⟨.left, a, b, d, c .right⟩], a', b', d', n, ?_, fun k hk => ?_⟩
      · rw [plug_append, ← he]
        exact node_eq_branch .left a b d c
      · rcases List.mem_append.mp hk with hk | hk
        · exact hks k hk
        · rw [List.mem_singleton.mp hk]

end SideTree
