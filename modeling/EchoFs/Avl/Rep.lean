import EchoFs.Avl.Heap

/-! Trees in memory: a pure tree whose names are addresses describes the nodes, and
a tree with a hole describes the nodes around a subtree. -/

namespace EchoFs.Avl
open Checked SideTree

variable {α : Type}

/-- The memory holds the tree, below `parent` and on its side `which`. -/
def Rep (mem : Addr → Option (Node α)) :
    Option Addr → Option Side → SideTree Addr α → Prop
  | _, _, .leaf => True
  | parent, which, .node a b d c =>
    mem a = some ⟨fun s => (c s).root, parent, which, b, d⟩ ∧
      ∀ s, Rep mem (some a) (some s) (c s)

/-- What stands in the hole's node as its place: in the innermost frame, or `P` and
`W` above all frames. -/
def parentOf (P : Option Addr) : List (Frame Addr α) → Option Addr
  | [] => P
  | k :: _ => some k.a

def whichOf (W : Option Side) : List (Frame Addr α) → Option Side
  | [] => W
  | k :: _ => some k.side

def rootOf (p : Option Addr) : List (Frame Addr α) → Option Addr
  | [] => p
  | k :: ks => rootOf (some k.a) ks

/-- The memory holds the nodes around a hole that `p` points to. -/
def RepFrames (mem : Addr → Option (Node α)) (P : Option Addr) (W : Option Side) :
    Option Addr → List (Frame Addr α) → Prop
  | _, [] => True
  | p, k :: ks =>
    mem k.a = some ⟨k.side.pick p k.o.root, parentOf P ks, whichOf W ks, k.b, k.d⟩ ∧
      Rep mem (some k.a) (some k.side.other) k.o ∧ RepFrames mem P W (some k.a) ks

structure Zip (t : AvlTree α) (w : Option Side) (ks : List (Frame Addr α))
    (x : SideTree Addr α) : Prop where
  tree : Rep t.mem (parentOf none ks) (whichOf w ks) x
  frames : RepFrames t.mem none w x.root ks
  root : t.mRoot = rootOf x.root ks
  nodup : (plug ks x).names.Nodup

section
variable {mem mem' : Addr → Option (Node α)} {parent P : Option Addr} {which w W : Option Side}
  {s : Side} {a : Addr} {b : Int} {d : α} {n f x : SideTree Addr α} {p : Option Addr}
  {k : Frame Addr α} {ks : List (Frame Addr α)}

theorem rep_node {c : Side → SideTree Addr α} : Rep mem parent which (.node a b d c) ↔
    mem a = some ⟨fun s => (c s).root, parent, which, b, d⟩ ∧
      ∀ s, Rep mem (some a) (some s) (c s) := Iff.rfl

theorem rep_branch : Rep mem parent which (branch s a b d n f) ↔
    mem a = some ⟨s.pick n.root f.root, parent, which, b, d⟩ ∧
      Rep mem (some a) (some s) n ∧ Rep mem (some a) (some s.other) f := by
  unfold branch
  rw [rep_node, Side.map_pick]
  constructor
  · rintro ⟨h, hc⟩
    exact ⟨h, by simpa using hc s, by simpa using hc s.other⟩
  · rintro ⟨h, hn, hf⟩
    refine ⟨h, fun y => ?_⟩
    obtain rfl | rfl := Side.eq_or_other s y
    · simpa using hn
    · simpa using hf

theorem Rep.frame (h : Rep mem parent which x) (heq : ∀ y ∈ x.names, mem' y = mem y) :
    Rep mem' parent which x := by
  induction x generalizing parent which with
  | leaf => trivial
  | node a b d c ih =>
    have hmem : ∀ s, ∀ y ∈ (c s).names, mem' y = mem y := by
      intro s y hy
      apply heq
      rw [node_eq_branch s, mem_names_branch]
      exact .inr (.inl hy)
    refine ⟨?_, fun s => ih s (h.2 s) (hmem s)⟩
    rw [heq a (root_mem_names rfl)]
    exact h.1

theorem RepFrames.frame (h : RepFrames mem P W p ks)
    (heq : ∀ y ∈ frameNames ks, mem' y = mem y) : RepFrames mem' P W p ks := by
  induction ks generalizing p with
  | nil => trivial
  | cons k ks ih =>
    refine ⟨?_, h.2.1.frame fun y hy => heq y ?_, ih h.2.2 fun y hy => heq y ?_⟩
    · rw [heq k.a (mem_frameNames_cons.mpr (.inl rfl))]
      exact h.1
    · exact mem_frameNames_cons.mpr (.inr (.inl hy))
    · exact mem_frameNames_cons.mpr (.inr (.inr hy))

theorem Rep.mem_some (h : Rep mem parent which x) : ∀ y ∈ x.names, ∃ m, mem y = some m := by
  induction x generalizing parent which with
  | leaf => simp [names, toList]
  | node a b d c ih =>
    intro y hy
    rw [node_eq_branch .left, mem_names_branch] at hy
    rcases hy with rfl | hy | hy
    · exact ⟨_, h.1⟩
    · exact ih .left (h.2 _) y hy
    · exact ih .right (h.2 _) y hy

theorem parentOf_append (js : List (Frame Addr α)) :
    parentOf P (js ++ k :: ks) = parentOf (some k.a) js := by cases js <;> rfl

theorem whichOf_append (js : List (Frame Addr α)) :
    whichOf W (js ++ k :: ks) = whichOf (some k.side) js := by cases js <;> rfl

theorem rootOf_append (js : List (Frame Addr α)) :
    rootOf p (js ++ k :: ks) = rootOf (some k.a) ks := by
  induction js generalizing p with
  | nil => rfl
  | cons j js ih => exact ih

theorem root_plug : (plug ks x).root = rootOf x.root ks := by
  induction ks generalizing x with
  | nil => rfl
  | cons k ks ih => exact ih

theorem exists_rootOf (k : Frame Addr α) (ks : List (Frame Addr α)) :
    ∃ z ∈ frameNames (k :: ks), ∀ p, rootOf p (k :: ks) = some z := by
  induction ks generalizing k with
  | nil => exact ⟨k.a, mem_frameNames_cons.mpr (.inl rfl), fun _ => rfl⟩
  | cons j ks ih =>
    obtain ⟨z, hz, hroot⟩ := ih j
    exact ⟨z, mem_frameNames_cons.mpr (.inr (.inr hz)), fun _ => hroot (some k.a)⟩

theorem repFrames_append {js : List (Frame Addr α)} : RepFrames mem P W p (js ++ k :: ks) ↔
    RepFrames mem (some k.a) (some k.side) p js ∧ RepFrames mem P W (rootOf p js) (k :: ks) := by
  induction js generalizing p with
  | nil => simp [RepFrames, rootOf]
  | cons j js ih =>
    simp only [List.cons_append, RepFrames, rootOf, parentOf_append, whichOf_append, ih, and_assoc]

/-- The focus moves between a subtree and the node above it. -/
theorem zip_cons {t : AvlTree α} : Zip t w (k :: ks) x ↔ Zip t w ks (k.fill x) := by
  constructor
  · rintro ⟨ht, ⟨hk, ho, hks⟩, hr, hn⟩
    exact ⟨rep_branch.mpr ⟨hk, ht, ho⟩, hks, hr, hn⟩
  · rintro ⟨ht, hks, hr, hn⟩
    obtain ⟨hk, hx, ho⟩ := rep_branch.mp ht
    exact ⟨hx, ⟨hk, ho, hks⟩, hr, hn⟩

theorem zip_plug {t : AvlTree α} {js : List (Frame Addr α)} :
    Zip t w (ks ++ js) x ↔ Zip t w js (plug ks x) := by
  induction ks generalizing x with
  | nil => rfl
  | cons k ks ih =>
    rw [List.cons_append, zip_cons, ih]
    rfl

theorem Zip.whole {t : AvlTree α} (h : Zip t w ks x) : Zip t w [] (plug ks x) :=
  zip_plug.mp (by simpa using h)

theorem Zip.mem_some {t : AvlTree α} (h : Zip t w ks x) : ∀ y ∈ (plug ks x).names,
    ∃ m, t.mem y = some m := h.whole.tree.mem_some

theorem Zip.nodup_append {t : AvlTree α} (h : Zip t w ks x) : (x.names ++ frameNames ks).Nodup :=
  names_plug_perm.nodup_iff.mp h.nodup

end

namespace AvlTree
variable {t t' : AvlTree α} {a y : Addr} {n : Option (Node α)}

@[simp] theorem store_mem_self : (t.store a n).mem a = n := Function.update_self ..

theorem store_mem_ne (h : y ≠ a) : (t.store a n).mem y = t.mem y := Function.update_of_ne h ..

theorem store_none (h : t.mem a = none) : t.store a none = t := by
  unfold store
  rw [← h, Function.update_eq_self]

@[simp] theorem store_mRoot : (t.store a n).mRoot = t.mRoot := rfl

theorem node_eq {m : Node α} (h : t.mem a = some m) : t.node (some a) = .ok m := by
  unfold node
  rw [Option.bind_some, h]

theorem modify_eq {m : Node α} (h : t.mem a = some m) (g : Node α → Node α) :
    t.modify (some a) g = .ok (t.store a (some (g m))) := by
  unfold modify
  rw [node_eq h, ok_bind]
  rfl

/-- Only the memory and the root differ. -/
structure SameCount (t t' : AvlTree α) : Prop where
  num : t'.mNumNodes = t.mNumNodes
  allocs : t'.allocs = t.allocs

theorem SameCount.refl (t : AvlTree α) : SameCount t t := ⟨rfl, rfl⟩

theorem SameCount.trans {t₁ t₂ t₃ : AvlTree α} (h : SameCount t₁ t₂) (h' : SameCount t₂ t₃) :
    SameCount t₁ t₃ := ⟨h'.num.trans h.num, h'.allocs.trans h.allocs⟩

theorem sameCount_store (t : AvlTree α) (a : Addr) (n : Option (Node α)) :
    SameCount t (t.store a n) := ⟨rfl, rfl⟩

theorem adopt_spec {parent : Option Addr} {which : Option Side} {x : SideTree Addr α}
    (h : Rep t.mem parent which x) (hnd : x.names.Nodup) (parent' : Option Addr)
    (which' : Option Side) :
    ∃ t', t.adopt x.root parent' which' = .ok t' ∧ Rep t'.mem parent' which' x ∧
      (∀ y, x.root ≠ some y → t'.mem y = t.mem y) ∧ t'.mRoot = t.mRoot ∧ SameCount t t' := by
  cases x with
  | leaf => exact ⟨t, rfl, trivial, fun _ _ => rfl, rfl, .refl t⟩
  | node a b d c =>
    have hadopt : t.adopt (some a) parent' which' =
        .ok (t.store a (some ⟨fun s => (c s).root, parent', which', b, d⟩)) := by
      unfold adopt
      rw [if_neg (by simp), modify_eq h.1]
      rfl
    refine ⟨_, hadopt, ⟨store_mem_self, fun s => (h.2 s).frame fun y hy => ?_⟩, fun y hy => ?_, rfl,
      sameCount_store _ _ _⟩
    · apply store_mem_ne
      rintro rfl
      rw [node_eq_branch s] at hnd
      have := names_branch_perm.nodup_iff.mp hnd
      rw [List.nodup_cons, List.mem_append] at this
      exact this.1 (.inl hy)
    · exact store_mem_ne fun he => hy (by rw [he]; rfl)

theorem setParent_spec {parent : Option Addr} {which : Option Side} {x : SideTree Addr α}
    (h : Rep t.mem parent which x) (hnd : x.names.Nodup) (hne : x ≠ leaf)
    (parent' : Option Addr) :
    ∃ t', t.modify x.root (·.setParent parent') = .ok t' ∧ Rep t'.mem parent' which x ∧
      (∀ y, x.root ≠ some y → t'.mem y = t.mem y) ∧ t'.mRoot = t.mRoot ∧ SameCount t t' := by
  cases x with
  | leaf => exact absurd rfl hne
  | node a b d c =>
    obtain ⟨t', he, hspec⟩ := adopt_spec h hnd parent' which
    refine ⟨t', ?_, hspec⟩
    rw [← he, root, adopt, if_neg (by simp), modify_eq h.1, modify_eq h.1]
    rfl

theorem setTop_spec {P p : Option Addr} {W : Option Side} {k : Frame Addr α}
    {ks : List (Frame Addr α)} (h : RepFrames t.mem P W p (k :: ks))
    (hnd : (frameNames (k :: ks)).Nodup) (P' : Option Addr) :
    ∃ t', t.modify (rootOf p (k :: ks)) (·.setParent P') = .ok t' ∧
      RepFrames t'.mem P' W p (k :: ks) ∧ t'.mRoot = t.mRoot ∧
      (∀ y ∉ frameNames (k :: ks), t'.mem y = t.mem y) ∧ SameCount t t' := by
  induction ks generalizing k p with
  | nil =>
    obtain ⟨hk, ho, -⟩ := h
    have hka := (List.nodup_cons.mp (frameNames_cons_perm.nodup_iff.mp hnd)).1
    refine ⟨_, modify_eq hk _, ⟨store_mem_self, ho.frame fun y hy => store_mem_ne ?_, trivial⟩, rfl,
      fun y hy => store_mem_ne ?_, sameCount_store _ _ _⟩
    · rintro rfl
      exact hka (List.mem_append_left _ hy)
    · rintro rfl
      exact hy (mem_frameNames_cons.mpr (.inl rfl))
  | cons j ks ih =>
    obtain ⟨hk, ho, hks⟩ := h
    have hnd' := frameNames_cons_perm.nodup_iff.mp hnd
    rw [List.nodup_cons, List.mem_append, not_or, List.nodup_append] at hnd'
    obtain ⟨⟨-, hka⟩, -, hndk, hdisj⟩ := hnd'
    obtain ⟨t', he, hks', hroot, hout, hc⟩ := ih hks hndk
    refine ⟨t', he, ⟨?_, ho.frame fun y hy => hout y fun hyk => hdisj y hy y hyk rfl, hks'⟩, hroot,
      fun y hy => hout y fun hyk => hy (mem_frameNames_cons.mpr (.inr (.inr hyk))), hc⟩
    rw [hout k.a hka]
    exact hk

theorem setHole_spec {P p : Option Addr} {W : Option Side} {k : Frame Addr α}
    {ks : List (Frame Addr α)} (h : RepFrames t.mem P W p (k :: ks))
    (hnd : (frameNames (k :: ks)).Nodup) (p' : Option Addr) :
    ∃ t', t.modify (some k.a) (·.setChild k.side p') = .ok t' ∧
      RepFrames t'.mem P W p' (k :: ks) ∧ t'.mRoot = t.mRoot ∧
      (∀ y ∉ frameNames (k :: ks), t'.mem y = t.mem y) ∧ SameCount t t' := by
  obtain ⟨hk, ho, hks⟩ := h
  have hnd' := frameNames_cons_perm.nodup_iff.mp hnd
  rw [List.nodup_cons, List.mem_append] at hnd'
  obtain ⟨hka, _⟩ := hnd'
  have hne : ∀ y, y ∈ k.o.names ∨ y ∈ frameNames ks → y ≠ k.a := by
    rintro y hy rfl
    exact hka hy
  have hmod : t.modify (some k.a) (·.setChild k.side p') = .ok (t.store k.a
      (some ⟨k.side.pick p' k.o.root, parentOf P ks, whichOf W ks, k.b, k.d⟩)) := by
    rw [modify_eq hk]
    simp only [Node.setChild, Side.update_pick]
  refine ⟨_, hmod, ⟨store_mem_self, ho.frame fun y hy => store_mem_ne (hne y (.inl hy)),
    hks.frame fun y hy => store_mem_ne (hne y (.inr hy))⟩, rfl, fun y hy => store_mem_ne ?_,
    sameCount_store _ _ _⟩
  rintro rfl
  exact hy (mem_frameNames_cons.mpr (.inl rfl))

theorem relink_spec {w : Option Side} {p : Option Addr} {ks : List (Frame Addr α)}
    (h : RepFrames t.mem none w p ks) (hroot : t.mRoot = rootOf p ks)
    (hnd : (frameNames ks).Nodup) (p' : Option Addr) :
    ∃ t', t.relink (parentOf none ks) (whichOf w ks) p' = .ok t' ∧ RepFrames t'.mem none w p' ks ∧
      t'.mRoot = rootOf p' ks ∧ (∀ y ∉ frameNames ks, t'.mem y = t.mem y) ∧ SameCount t t' := by
  cases ks with
  | nil => exact ⟨{ t with mRoot := p' }, rfl, trivial, rfl, fun _ _ => rfl, ⟨rfl, rfl⟩⟩
  | cons k ks =>
    obtain ⟨t', he, hks, hr, hout, hn⟩ := setHole_spec h hnd p'
    exact ⟨t', he, hks, hr.trans hroot, hout, hn⟩

/-- The frames get another tree into their hole. -/
theorem relink_zip {w : Option Side} {p : Option Addr} {ks : List (Frame Addr α)}
    {x : SideTree Addr α} (h : RepFrames t.mem none w p ks) (hroot : t.mRoot = rootOf p ks)
    (hx : Rep t.mem (parentOf none ks) (whichOf w ks) x) (hnd : (plug ks x).names.Nodup) :
    ∃ t', t.relink (parentOf none ks) (whichOf w ks) x.root = .ok t' ∧ Zip t' w ks x ∧
      (∀ y ∉ frameNames ks, t'.mem y = t.mem y) ∧ SameCount t t' := by
  obtain ⟨-, hndk, hdisj⟩ := List.nodup_append.mp (names_plug_perm.nodup_iff.mp hnd)
  obtain ⟨t', he, hks, hr, hout, hn⟩ := relink_spec h hroot hndk x.root
  have hx' : Rep t'.mem (parentOf none ks) (whichOf w ks) x :=
    hx.frame fun y hy => hout y fun hyk => hdisj y hy y hyk rfl
  exact ⟨t', he, ⟨hx', hks, hr, hnd⟩, hout, hn⟩

end AvlTree

/-- The memory holds the nodes of `x` and nothing else: the links agree, the balances
are those of the heights, and the counter counts the nodes. -/
structure Holds (t : AvlTree α) (w : Option Side) (x : SideTree Addr α) : Prop where
  zip : Zip t w [] x
  balanced : x.Balanced
  outside : ∀ z ∉ x.names, t.mem z = none
  tmp : Addr.tmp ∉ x.names
  num : t.mNumNodes = x.toList.length % 2 ^ 32
  size : x.toList.length ≤ t.allocs

end EchoFs.Avl
