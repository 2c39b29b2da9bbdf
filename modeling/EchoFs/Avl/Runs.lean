import Mathlib.Data.List.Nodup
import EchoFs.Avl.Remove
import EchoFs.Library.Transition

/-! Runs of the tree from the empty one: what is in memory after every operation,
read through the pointers. -/

namespace EchoFs.Avl
open Checked SideTree AvlTree Transition

variable {α κ : Type} [LinearOrder κ]

namespace AvlTree

/-- The nodes below a pointer, from left to right. -/
def collect (t : AvlTree α) : Nat → Option Addr → List (Addr × α)
  | 0, _ => []
  | fuel + 1, p => match p with
    | none => []
    | some a => match t.mem a with
      | none => []
      | some n => t.collect fuel (n.mChildren .left) ++ (a, n.mData) ::
          t.collect fuel (n.mChildren .right)

def elements (t : AvlTree α) : List (Addr × α) := t.collect t.allocs t.mRoot

def nodes (t : AvlTree α) : List Addr := t.elements.map Prod.fst

def heightFrom (t : AvlTree α) : Nat → Option Addr → Nat
  | 0, _ => 0
  | fuel + 1, p => match p with
    | none => 0
    | some a => match t.mem a with
      | none => 0
      | some n => 1 + max (t.heightFrom fuel (n.mChildren .left))
          (t.heightFrom fuel (n.mChildren .right))

def heightAt (t : AvlTree α) (p : Option Addr) : Nat := t.heightFrom t.allocs p

/-- The node `n` at `a`: its balance, its children and its parent. -/
structure NodeOk (t : AvlTree α) (a : Addr) (n : Node α) : Prop where
  balance : n.mBalance = t.heightAt (n.mChildren .right) - t.heightAt (n.mChildren .left)
  bounds : -1 ≤ n.mBalance ∧ n.mBalance ≤ 1
  children : ∀ s p, n.mChildren s = some p → p ∈ t.nodes ∧
    ∃ m, t.mem p = some m ∧ m.mParent = some a ∧ m.mWhichChild = some s
  parent : ∀ p, n.mParent = some p → p ∈ t.nodes ∧
    ∃ s m, n.mWhichChild = some s ∧ t.mem p = some m ∧ m.mChildren s = some a
  top : n.mParent = none → t.mRoot = some a

structure WellFormed (key : α → κ) (t : AvlTree α) : Prop where
  increasing : Increasing key t.elements
  nodup : t.nodes.Nodup
  nodes : ∀ a ∈ t.nodes, ∃ n, t.mem a = some n ∧ NodeOk t a n
  root : ∀ a, t.mRoot = some a → a ∈ t.nodes
  allocated : ∀ a, t.mem a ≠ none → a ∈ t.nodes
  tmp : Addr.tmp ∉ t.nodes
  num : t.mNumNodes = t.elements.length % 2 ^ 32

end AvlTree

section
variable {t : AvlTree α} {w : Option Side} {x : SideTree Addr α}

theorem collect_eq {parent : Option Addr} {which : Option Side} {fuel : Nat}
    (h : Rep t.mem parent which x) (hfuel : x.height ≤ fuel) :
    t.collect fuel x.root = x.toList ∧ t.heightFrom fuel x.root = x.height := by
  induction x generalizing parent which fuel with
  | leaf => cases fuel <;> exact ⟨rfl, rfl⟩
  | node a b d c ih =>
    rw [height] at hfuel
    obtain ⟨n, rfl⟩ : ∃ n, fuel = n + 1 := ⟨fuel - 1, by omega⟩
    obtain ⟨hl, hl'⟩ := ih .left (h.2 .left) (show _ ≤ n by omega)
    obtain ⟨hr, hr'⟩ := ih .right (h.2 .right) (show _ ≤ n by omega)
    show t.collect (n + 1) (some a) = _ ∧ t.heightFrom (n + 1) (some a) = _
    simp only [collect, heightFrom, h.1, hl, hr, hl', hr', toList, height, and_self]

theorem Holds.elements (h : Holds t w x) : t.elements = x.toList := by
  unfold AvlTree.elements
  rw [show t.mRoot = x.root from h.zip.root]
  exact (collect_eq h.zip.tree (h.height_le [] rfl)).1

theorem Holds.nodes (h : Holds t w x) : t.nodes = x.names := by
  unfold AvlTree.nodes
  rw [h.elements]
  rfl

theorem Holds.nodeOk {ks : List (Frame Addr α)} {a : Addr} {b : Int} {d : α}
    {c : Side → SideTree Addr α} (h : Holds t w (plug ks (node a b d c))) :
    NodeOk t a ⟨fun s => (c s).root, parentOf none ks, whichOf w ks, b, d⟩ := by
  have hz := h.atNode
  have hsub : ∀ s, Zip t w (⟨s, a, b, d, c s.other⟩ :: ks) (c s) := by
    intro s
    rw [zip_cons, Frame.fill, ← node_eq_branch s]
    exact hz
  have hheight : ∀ s, t.heightAt (c s).root = (c s).height := by
    intro s
    refine (collect_eq (hsub s).tree (h.height_le (⟨s, a, b, d, c s.other⟩ :: ks) ?_)).2
    rw [plug, Frame.fill, ← node_eq_branch s]
  obtain ⟨hb, hlo, hhi, -⟩ := (balanced_plug.mp h.balanced).1
  refine ⟨?_, ⟨hlo, hhi⟩, fun s p hp => ?_, fun p hp => ?_, fun hp => ?_⟩
  · rw [hheight, hheight]
    exact hb
  · replace hp : (c s).root = some p := hp
    have hmem : p ∈ (plug ks (node a b d c)).names := by
      rw [mem_names_plug, node_eq_branch s, mem_names_branch]
      exact .inl (.inr (.inl (root_mem_names hp)))
    rw [h.nodes]
    refine ⟨hmem, ?_⟩
    have hrep := hz.tree.2 s
    cases hc : c s with
    | leaf => simp [hc, SideTree.root] at hp
    | node a' b' d' c' =>
      rw [hc] at hrep hp
      obtain rfl := Option.some.inj hp
      exact ⟨_, hrep.1, rfl, rfl⟩
  · cases ks with
    | nil => cases hp
    | cons k ks =>
      obtain rfl := Option.some.inj hp
      rw [h.nodes]
      refine ⟨mem_names_plug.mpr (.inr (mem_frameNames_cons.mpr (.inl rfl))), k.side, _, rfl,
        hz.frames.1, ?_⟩
      simp [SideTree.root]
  · cases ks with
    | nil => exact hz.root
    | cons k ks => cases hp

theorem Holds.wellFormed {key : α → κ} (h : Holds t w x) (hinc : Increasing key x.toList) :
    WellFormed key t where
  increasing := by
    rw [h.elements]
    exact hinc
  nodup := by
    rw [h.nodes]
    exact h.zip.nodup
  nodes := by
    intro a ha
    rw [h.nodes] at ha
    obtain ⟨ks, b, d, c, rfl⟩ := exists_plug x ha
    exact ⟨_, h.atNode.tree.1, h.nodeOk⟩
  root := by
    intro a ha
    rw [h.nodes]
    exact root_mem_names (h.zip.root.symm.trans ha)
  allocated := by
    intro a ha
    rw [h.nodes]
    by_contra hm
    exact ha (h.outside a hm)
  tmp := by
    rw [h.nodes]
    exact h.tmp
  num := by
    rw [h.elements]
    exact h.num

end

inductive Op (α : Type) where
  | insertAt (new : Nat) (newData : α) (point : InsertionPoint)
  | add (new : Nat) (newData : α)
  | insertHere (new : Nat) (newData : α) (here : Addr) (dir : Side)
  | remove (data : α)
  | removeNode (toRm : Option Addr)

namespace Op

def apply (key : α → κ) (t : AvlTree α) : Op α → Result (AvlTree α)
  | insertAt new newData point => t.insertAt new newData point
  | add new newData => t.add key new newData
  | insertHere new newData here dir => t.insertHere new newData here dir
  | remove data => t.remove key data
  | removeNode toRm => t.removeNode toRm

/-- What the callers promise: the allocator returns free memory, the insertion point is
the one that `find` returned for an absent key, the new key lies between the
neighbours, and pointers point to nodes. -/
def Allowed (key : α → κ) (t : AvlTree α) : Op α → Prop
  | insertAt new newData point =>
    t.mem (.heap new) = none ∧ t.find key newData = .ok (none, point)
  | add new _ => t.mem (.heap new) = none
  | insertHere new newData here dir =>
    t.mem (.heap new) = none ∧ here ∈ t.nodes ∧ NextTo key t.elements here dir newData
  | remove _ => True
  | removeNode toRm => ∀ a, toRm = some a → a ∈ t.nodes

def Adds (l l' : List (Addr × α)) (a : Addr) (d : α) : Prop :=
  ∃ xs ys, l = xs ++ ys ∧ l' = xs ++ (a, d) :: ys

/-- What the operation does to the elements. -/
def Effect (key : α → κ) (l l' : List (Addr × α)) : Op α → Prop
  | insertAt new newData _ => Adds l l' (.heap new) newData
  | add new newData => (∀ e ∈ l, key e.2 ≠ key newData) ∧ Adds l l' (.heap new) newData
  | insertHere new newData _ _ => Adds l l' (.heap new) newData
  | remove data => ((∀ e ∈ l, key e.2 ≠ key data) ∧ l' = l) ∨
    ∃ a d, key d = key data ∧ Adds l' l a d
  | removeNode toRm => match toRm with
    | none => l' = l
    | some a => ∃ d, Adds l' l a d

/-- The assertions fail for a key that is there already, and for a counter that is zero
although there are nodes. -/
def Refused (key : α → κ) (t : AvlTree α) : Op α → Prop
  | add _ newData => ∃ e ∈ t.elements, key e.2 = key newData
  | remove data => t.mNumNodes = 0 ∧ ∃ e ∈ t.elements, key e.2 = key data
  | removeNode toRm => t.mNumNodes = 0 ∧ toRm ≠ none
  | _ => False

end Op

def step (key : α → κ) (t : AvlTree α) (op : Op α) (t' : AvlTree α) : Prop :=
  op.Allowed key t ∧ op.apply key t = .ok t'

def Reachable (key : α → κ) : AvlTree α → Prop := Reach (· = AvlTree.empty) (step key)

/-- The memory holds a search tree. -/
def Sound (key : α → κ) (t : AvlTree α) : Prop :=
  ∃ w x, Holds t w x ∧ Increasing key x.toList

section
variable {key : α → κ} {t t' : AvlTree α}

theorem sound_empty : Sound key (AvlTree.empty : AvlTree α) :=
  ⟨none, leaf, ⟨⟨trivial, trivial, rfl, List.nodup_nil⟩, trivial, fun _ _ => rfl,
    List.not_mem_nil, rfl, le_rfl⟩, List.Pairwise.nil⟩

theorem Inserted.sound {l : List (Addr × α)} {a : Addr} {d : α} (h : Inserted key t' l a d) :
    Sound key t' ∧ Op.Adds l t'.elements a d := by
  obtain ⟨w, y, xs, ys, hy, hinc, hl, hly⟩ := h.holds
  refine ⟨⟨w, y, hy, hinc⟩, xs, ys, hl, ?_⟩
  rw [hy.elements, hly]

theorem Removed.sound {l : List (Addr × α)} {a : Addr} (h : Removed t' l a)
    (hinc : Increasing key l) : Sound key t' ∧ ∃ d, Op.Adds t'.elements l a d := by
  obtain ⟨w, y, xs, ys, d, hy, hl, hly⟩ := h.holds
  refine ⟨⟨w, y, hy, ?_⟩, d, xs, ys, ?_, hl⟩
  · rw [hl] at hinc
    rw [hly]
    exact hinc.sublist ((List.sublist_cons_self _ ys).append_left xs)
  · rw [hy.elements, hly]

theorem apply_spec (h : Sound key t) (op : Op α) (hop : op.Allowed key t) :
    (∃ t', op.apply key t = .ok t' ∧ Sound key t' ∧ op.Effect key t.elements t'.elements) ∨
    (op.Refused key t ∧ op.apply key t = .error .assertion) := by
  obtain ⟨w, x, hx, hinc⟩ := h
  cases op with
  | insertAt new d point =>
    obtain ⟨t', he, hi⟩ := insertAt_find hx hinc hop.2 hop.1
    rw [← hx.elements] at hi
    exact .inl ⟨t', he, hi.sound⟩
  | add new d =>
    rcases add_spec hx hinc d hop with ⟨habs, t', he, hi⟩ | ⟨hmem, he⟩
    · rw [← hx.elements] at hi habs
      exact .inl ⟨t', he, hi.sound.1, habs, hi.sound.2⟩
    · rw [← hx.elements] at hmem
      exact .inr ⟨hmem, he⟩
  | insertHere new d here dir =>
    obtain ⟨hnew, hhere, hnext⟩ := hop
    rw [hx.nodes] at hhere
    rw [hx.elements] at hnext
    obtain ⟨t', he, hi⟩ := insertHere_spec hx hinc hhere hnext hnew
    rw [← hx.elements] at hi
    exact .inl ⟨t', he, hi.sound⟩
  | remove v =>
    rcases remove_spec hx hinc v with ⟨habs, he⟩ | ⟨a, d, hmem, hkey, he⟩
    · rw [← hx.elements] at habs
      exact .inl ⟨t, he, ⟨w, x, hx, hinc⟩, .inl ⟨habs, rfl⟩⟩
    · have ha : a ∈ x.names := List.mem_map.mpr ⟨_, hmem, rfl⟩
      rw [← hx.elements] at hinc hmem
      rcases removeNode_spec hx ha with ⟨-, t', he', hr⟩ | ⟨hzero, he'⟩
      · rw [← hx.elements] at hr
        obtain ⟨hs, d', hadds⟩ := hr.sound hinc
        obtain rfl : d' = d := by
          obtain ⟨xs, ys, -, hl⟩ := hadds
          have hmem' : (a, d') ∈ t.elements := by
            rw [hl]
            exact List.mem_append_right _ List.mem_cons_self
          have hnd : t.nodes.Nodup := by
            rw [hx.nodes]
            exact hx.zip.nodup
          exact congrArg Prod.snd (List.inj_on_of_nodup_map hnd hmem' hmem rfl)
        exact .inl ⟨t', he.trans he', hs, .inr ⟨a, d', hkey, hadds⟩⟩
      · exact .inr ⟨⟨hzero, _, hmem, hkey⟩, he.trans he'⟩
  | removeNode p =>
    cases p with
    | none => exact .inl ⟨t, rfl, ⟨w, x, hx, hinc⟩, rfl⟩
    | some a =>
      have ha : a ∈ x.names := by
        rw [← hx.nodes]
        exact hop a rfl
      rw [← hx.elements] at hinc
      rcases removeNode_spec hx ha with ⟨-, t', he, hr⟩ | ⟨hzero, he⟩
      · rw [← hx.elements] at hr
        exact .inl ⟨t', he, hr.sound hinc⟩
      · exact .inr ⟨⟨hzero, by simp⟩, he⟩

theorem Reachable.sound (h : Reachable key t) : Sound key t := by
  refine Reach.invariant ?_ ?_ h
  · rintro _ rfl
    exact sound_empty
  · rintro t op t' hs ⟨hop, he⟩
    rcases apply_spec hs op hop with ⟨t'', he', hs', -⟩ | ⟨-, he'⟩
    · obtain rfl := Except.ok.inj (he.symm.trans he')
      exact hs'
    · cases he.symm.trans he'

theorem Reachable.wellFormed (h : Reachable key t) : WellFormed key t := by
  obtain ⟨w, x, hx, hinc⟩ := h.sound
  exact hx.wellFormed hinc

theorem AvlTree.WellFormed.numNodes_iff (h : WellFormed key t) :
    t.mNumNodes = t.elements.length ↔ t.elements.length < 2 ^ 32 := by
  rw [h.num]
  constructor
  · intro he
    rw [← he]
    exact Nat.mod_lt _ (by norm_num)
  · exact Nat.mod_eq_of_lt

/-- While the counter tells the number of nodes, nothing but `add` fails. -/
theorem Op.Refused.of_lt {op : Op α} (h : op.Refused key t) (ht : WellFormed key t)
    (hop : op.Allowed key t) (hlt : t.elements.length < 2 ^ 32) : ∃ new d, op = .add new d := by
  have hempty : t.mNumNodes = 0 → t.elements = [] := fun hzero => by
    rw [← List.length_eq_zero_iff, ← ht.numNodes_iff.mpr hlt, hzero]
  cases op with
  | add new d => exact ⟨new, d, rfl⟩
  | remove data =>
    obtain ⟨hzero, e, he, -⟩ := h
    rw [hempty hzero] at he
    cases he
  | removeNode toRm =>
    obtain ⟨hzero, hne⟩ := h
    obtain ⟨a, rfl⟩ := Option.ne_none_iff_exists'.mp hne
    have ha := hop a rfl
    rw [AvlTree.nodes, hempty hzero] at ha
    cases ha
  | insertAt _ _ _ => exact h.elim
  | insertHere _ _ _ _ => exact h.elim

/-- Every tree that a run from the empty one reaches is a balanced search tree, and the
next operation adds or takes out exactly its element, or fails its assertion. The counter is
the number of nodes, and a removal never fails, exactly up to 2³² nodes. -/
theorem avltree_correct (h : Reachable key t) : WellFormed key t ∧
    (t.mNumNodes = t.elements.length ↔ t.elements.length < 2 ^ 32) ∧
    ∀ op : Op α, op.Allowed key t →
      (∃ t', op.apply key t = .ok t' ∧ op.Effect key t.elements t'.elements) ∨
      (op.Refused key t ∧ op.apply key t = .error .assertion ∧
        (t.elements.length < 2 ^ 32 → ∃ new d, op = .add new d)) := by
  refine ⟨h.wellFormed, h.wellFormed.numNodes_iff, ?_⟩
  intro op hop
  rcases apply_spec h.sound op hop with ⟨t', he, -, heff⟩ | ⟨hrefused, he⟩
  · exact .inl ⟨t', he, heff⟩
  · exact .inr ⟨hrefused, he, hrefused.of_lt h.wellFormed hop⟩

end

theorem avltree_correct_threeAdds : ∃ t : AvlTree Nat, Reachable id t ∧
    t.elements = [(.heap 0, 0), (.heap 2, 2)] ∧ WellFormed id t := by
  have h₁ : Reachable id _ := .next (e := .add 1 1) (.start rfl) ⟨rfl, rfl⟩
  have h₂ : Reachable id _ := .next (e := .add 0 0) h₁ ⟨rfl, rfl⟩
  have h₃ : Reachable id _ := .next (e := .add 2 2) h₂ ⟨rfl, rfl⟩
  have h₄ : Reachable id _ := .next (e := .removeNode (some (.heap 1))) h₃ ⟨by
    rintro a ⟨⟩
    decide, rfl⟩
  exact ⟨_, h₄, by decide, (avltree_correct h₄).1⟩

/-- There is a tree with any number of nodes. -/
theorem exists_reachable (n : Nat) : ∃ t : AvlTree Nat, Reachable id t ∧ t.elements.length = n ∧
    ∀ e ∈ t.elements, e.1 = .heap e.2 ∧ e.2 < n := by
  induction n with
  | zero => exact ⟨.empty, .start rfl, rfl, fun e he => by cases he⟩
  | succ n ih =>
    obtain ⟨t, ht, hlen, hall⟩ := ih
    have hnew : t.mem (.heap n) = none := by
      by_contra hne
      obtain ⟨e, he, hen⟩ := List.mem_map.mp (ht.wellFormed.allocated _ hne)
      obtain ⟨he₁, he₂⟩ := hall e he
      rw [he₁, Addr.heap.injEq] at hen
      omega
    rcases apply_spec ht.sound (.add n n) hnew with ⟨t', he, -, -, xs, ys, hl, hl'⟩ | ⟨⟨e, he, hkey⟩, -⟩
    · refine ⟨t', .next (e := .add n n) ht ⟨hnew, he⟩, ?_, fun e hm => ?_⟩
      · rw [hl', ← hlen, hl]
        simp only [List.length_append, List.length_cons]
        omega
      · rw [hl', List.mem_append, List.mem_cons] at hm
        rw [hl] at hall
        rcases hm with hm | rfl | hm
        · obtain ⟨h₁, h₂⟩ := hall e (List.mem_append_left _ hm)
          exact ⟨h₁, by omega⟩
        · exact ⟨rfl, Nat.lt_succ_self n⟩
        · obtain ⟨h₁, h₂⟩ := hall e (List.mem_append_right _ hm)
          exact ⟨h₁, by omega⟩
    · exact absurd hkey (by simpa using (hall e he).2.ne)

/-- With 2³² nodes the counter is back at zero. -/
theorem numNodes_wraps : ¬∀ t : AvlTree Nat, Reachable id t → t.mNumNodes = t.elements.length := by
  intro hclaim
  obtain ⟨t, ht, hlen, -⟩ := exists_reachable (2 ^ 32)
  have hnum := ht.wellFormed.num
  rw [hclaim t ht, hlen] at hnum
  simp at hnum

end EchoFs.Avl
