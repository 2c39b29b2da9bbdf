import EchoFs.Avl.Runs

/-! Moving through the tree: `first`, `last`, `next`, `prev` and `nearest`, where one
routine serves both directions and climbs by `m_which_child`. -/

namespace EchoFs.Avl
open Checked SideTree AvlTree

variable {α κ : Type} [LinearOrder κ]

namespace AvlTree

/-- The loops of `first_node` and `last_node`: `prev` is the node visited last. -/
def endLoop (t : AvlTree α) (s : Side) : Nat → Option Addr → Option Addr → Result (Option Addr)
  | 0, _, _ => .error .unfinished
  | _ + 1, none, prev => return prev
  | fuel + 1, some a, _ => do
    let n ← t.node (some a)
    t.endLoop s fuel (n.mChildren s) (some a)

def first (t : AvlTree α) : Result (Option Addr) := t.endLoop .left (t.allocs + 1) t.mRoot none

def last (t : AvlTree α) : Result (Option Addr) := t.endLoop .right (t.allocs + 1) t.mRoot none

/-- The loop of `walk` that goes up until it comes from the side `far`. -/
def climb (t : AvlTree α) (far : Side) : Nat → Addr → Result (Option Addr)
  | 0, _ => .error .unfinished
  | fuel + 1, a => do
    let n ← t.node (some a)
    match n.mParent with
    | none => return none
    | some p => if n.mWhichChild = some far then return some p else t.climb far fuel p

/-- The sides are the `left` and `right` of the source, which stand for either direction. -/
def walk (t : AvlTree α) (node : Option Addr) (near : Side) : Result (Option Addr) :=
  let far := near.other
  match node with
  | none => return none
  | some a => do
    let n ← t.node (some a)
    if n.mChildren near ≠ none then
      let m ← t.lastOn far (t.allocs + 1) (n.mChildren near)
      return some m
    else
      t.climb far (t.allocs + 1) a

/-- `BEFORE` is the left side. -/
def nearest (t : AvlTree α) (point : InsertionPoint) (dir : Side) : Result (Option Addr) :=
  if point = .null then return none else do
    let _ ← t.node point.mParent
    if point.mChild ≠ some dir then
      return point.mParent
    else
      t.walk point.mParent dir

def next (t : AvlTree α) (elem : Addr) : Result (Option Addr) := t.walk (some elem) .right

def prev (t : AvlTree α) (elem : Addr) : Result (Option Addr) := t.walk (some elem) .left

end AvlTree

/-- A pointer to the best of some keys, null if there are none. -/
def PointsTo (best : Set κ → κ → Prop) (key : α → κ) (l : List (Addr × α)) (keys : Set κ)
    (p : Option Addr) : Prop :=
  match p with
  | none => keys = ∅
  | some a => ∃ d, (a, d) ∈ l ∧ best keys (key d)

/-- The keys in the tree. -/
def keysOf (key : α → κ) (l : List (Addr × α)) : Set κ := {k | ∃ e ∈ l, key e.2 = k}

/-- `find` and the moves agree with the order of the keys. -/
structure Navigates (key : α → κ) (t : AvlTree α) : Prop where
  find : ∀ v, ∃ p point, t.find key v = .ok (p, point) ∧
    (∀ a, p = some a ↔ ∃ d, (a, d) ∈ t.elements ∧ key d = key v) ∧
    (p = none → (∃ q, t.nearest point .left = .ok q ∧
        PointsTo IsGreatest key t.elements {k ∈ keysOf key t.elements | k < key v} q) ∧
      ∃ q, t.nearest point .right = .ok q ∧
        PointsTo IsLeast key t.elements {k ∈ keysOf key t.elements | key v < k} q)
  inOrder : ∀ e ∈ t.elements, ∃ xs ys, t.elements = xs ++ e :: ys ∧
    t.prev e.1 = .ok (xs.getLast?.map Prod.fst) ∧ t.next e.1 = .ok (ys.head?.map Prod.fst)
  first : ∃ a, t.first = .ok (some a) ∧
    PointsTo IsLeast key t.elements (keysOf key t.elements) (some a)
  last : ∃ a, t.last = .ok (some a) ∧
    PointsTo IsGreatest key t.elements (keysOf key t.elements) (some a)

variable {key : α → κ} {t : AvlTree α} {w : Option Side} {x : SideTree Addr α}
  {ks : List (Frame Addr α)} {a : Addr} {b : Int} {d : α} {c : Side → SideTree Addr α}
  {l : List (Addr × α)} {v : α}

theorem endLoop_spec (s : Side) (x : SideTree Addr α) : ∀ {fuel : Nat} {parent prev : Option Addr}
    {which : Option Side}, Rep t.mem parent which x → x.height < fuel →
    t.endLoop s fuel x.root prev = .ok (((ends s x.toList).map Prod.fst).or prev) := by
  induction x with
  | leaf =>
    intro fuel parent prev which _ hfuel
    obtain ⟨n, rfl⟩ : ∃ n, fuel = n + 1 := ⟨fuel - 1, by omega⟩
    cases s <;> rfl
  | node a b d c ih =>
    intro fuel parent prev which h hfuel
    obtain ⟨n, rfl⟩ : ∃ n, fuel = n + 1 := ⟨fuel - 1, by omega⟩
    have hheight : (c s).height < n := by
      rw [height] at hfuel
      cases s <;> omega
    change t.endLoop s (n + 1) (some a) prev = _
    rw [endLoop, node_eq h.1, ok_bind, ih s (h.2 s) hheight, ends_node, Option.map_or,
      Option.or_assoc]
    rfl

/-- Going up leads to the neighbour outside the subtree. -/
theorem climb_spec (s : Side) : ∀ {ks : List (Frame Addr α)} {fuel : Nat} {a : Addr} {b : Int} {d : α}
    {c : Side → SideTree Addr α}, Zip t w ks (node a b d c) → ks.length < fuel →
    t.climb s.other fuel a = .ok ((ends s.other (beside s ks)).map Prod.fst) := by
  intro ks
  induction ks with
  | nil =>
    intro fuel a b d c hz hfuel
    obtain ⟨n, rfl⟩ : ∃ n, fuel = n + 1 := ⟨fuel - 1, by omega⟩
    have hends : ends s.other (beside s ([] : List (Frame Addr α))) = none := by cases s <;> rfl
    rw [hends, climb, node_eq hz.tree.1]
    rfl
  | cons k ks ih =>
    intro fuel a b d c hz hfuel
    obtain ⟨n, rfl⟩ : ∃ n, fuel = n + 1 := ⟨fuel - 1, by omega⟩
    simp only [climb, node_eq hz.tree.1, ok_bind, parentOf, whichOf, ends_beside_cons]
    obtain hk | hk := Side.eq_or_other s k.side
    · have hnear : some k.side ≠ some s.other := by simp [hk]
      rw [if_neg hnear, if_pos hk]
      exact ih (zip_cons.mp hz) (by simpa using hfuel)
    · have hfar : k.side ≠ s := by simp [hk]
      rw [if_pos (congrArg some hk), if_neg hfar]
      rfl

theorem Holds.length_frames (h : Holds t w (plug ks x)) : ks.length ≤ t.allocs := by
  have hperm : (names (plug ks x)).length = (names x ++ frameNames ks).length :=
    names_plug_perm.length_eq
  have hle := length_le_frameNames ks
  have hsize := h.size
  rw [names, List.length_map, List.length_append] at hperm
  omega

/-- One step to a side leads to the next element there. -/
theorem walk_spec (h : Holds t w (plug ks (node a b d c))) (s : Side) : t.walk (some a) s =
    .ok (((ends s.other (c s).toList).or (ends s.other (beside s ks))).map Prod.fst) := by
  have hz := h.atNode
  unfold walk
  simp only [node_eq hz.tree.1, ok_bind]
  cases hc : c s with
  | leaf =>
    rw [if_neg (by simp [root]), climb_spec s hz (Nat.lt_succ_of_le h.length_frames)]
    cases s <;> rfl
  | node a' b' d' c' =>
    have hz' : Zip t w (⟨s, a, b, d, c s.other⟩ :: ks) (c s) := by
      rw [zip_cons, Frame.fill, ← node_eq_branch s]
      exact hz
    have hplug : plug (⟨s, a, b, d, c s.other⟩ :: ks) (c s) = plug ks (node a b d c) := by
      rw [plug, Frame.fill, ← node_eq_branch s]
    have hfuel : (c s).height ≤ t.allocs + 1 := (h.height_le _ hplug).trans (Nat.le_succ _)
    obtain ⟨js, m, mb, md, n, he, hjs, hrun⟩ :=
      lastOn_spec s.other (c s) hz' (by rw [hc]; simp) hfuel
    rw [← hc, if_pos (by rw [hc]; simp [root]), hrun, he, ends_plug hjs]
    rfl

theorem walk_neighbours (h : Holds t w x) {e : Addr × α} (he : e ∈ x.toList) :
    ∃ xs ys, x.toList = xs ++ e :: ys ∧ t.prev e.1 = .ok (xs.getLast?.map Prod.fst) ∧
      t.next e.1 = .ok (ys.head?.map Prod.fst) := by
  have hnd : x.names.Nodup := h.zip.nodup
  obtain ⟨ks, b, d, c, rfl⟩ := exists_plug x (List.mem_map.mpr ⟨e, he, rfl⟩)
  have hlist : (plug ks (node e.1 b d c)).toList =
      (before ks ++ (c .left).toList) ++ (e.1, d) :: ((c .right).toList ++ after ks) := by
    rw [toList_plug, toList]
    simp
  have hd : (e.1, d) = e := by
    have hmem : (e.1, d) ∈ (plug ks (node e.1 b d c)).toList := by
      rw [hlist]
      simp
    exact List.inj_on_of_nodup_map hnd hmem he rfl
  refine ⟨_, _, hd ▸ hlist, ?_, ?_⟩
  · rw [prev, walk_spec h, List.getLast?_append]
    rfl
  · rw [next, walk_spec h, List.head?_append]
    rfl

/-- The insertion point of an absent key lies between its neighbours. -/
theorem nearest_spec {k : Frame Addr α} (h : Holds t w (plug (k :: ks) leaf)) (s : Side) :
    t.nearest ⟨some k.a, some k.side⟩ s =
      .ok ((ends s.other (beside s (k :: ks))).map Prod.fst) := by
  have hz : Zip t w (k :: ks) leaf := h.atNode
  unfold nearest
  rw [if_neg (by simp [InsertionPoint.null]), hz.node_frame, ok_bind, ends_beside_cons]
  dsimp only
  obtain hk | hk := Side.eq_or_other s k.side
  · have hleaf : (k.side.pick leaf k.o) s = (leaf : SideTree Addr α) := by
      rw [← hk, Side.pick_self]
    have hnear : ¬ some k.side ≠ some s := by simp [hk]
    rw [if_neg hnear, if_pos hk]
    have hwalk : t.walk (some k.a) s = .ok (((ends s.other (k.side.pick leaf k.o s).toList).or
        (ends s.other (beside s ks))).map Prod.fst) := walk_spec h s
    rw [hleaf] at hwalk
    rw [hwalk]
    cases s <;> rfl
  · have hfar : k.side ≠ s := by simp [hk]
    rw [if_pos fun he => hfar (Option.some.inj he), if_neg hfar]
    rfl

theorem pointsTo_getLast {m : List (Addr × α)} (h : Increasing key l) (hm : ∀ e ∈ l, e ∈ m) :
    PointsTo IsGreatest key m (keysOf key l) (l.getLast?.map Prod.fst) := by
  obtain rfl | ⟨l, e, rfl⟩ := l.eq_nil_or_concat'
  · exact Set.eq_empty_of_forall_notMem fun k ⟨e, he, _⟩ => List.not_mem_nil he
  · rw [List.getLast?_concat]
    refine ⟨e.2, hm e (by simp), ⟨e, by simp, rfl⟩, ?_⟩
    rintro _ ⟨e', he', rfl⟩
    rcases List.mem_append.mp he' with he' | he'
    · exact ((List.pairwise_append.mp h).2.2 e' he' e (by simp)).le
    · rw [List.mem_singleton.mp he']

theorem pointsTo_head {m : List (Addr × α)} (h : Increasing key l) (hm : ∀ e ∈ l, e ∈ m) :
    PointsTo IsLeast key m (keysOf key l) (l.head?.map Prod.fst) := by
  cases l with
  | nil => exact Set.eq_empty_of_forall_notMem fun k ⟨e, he, _⟩ => List.not_mem_nil he
  | cons e l =>
    refine ⟨e.2, hm e List.mem_cons_self, ⟨e, List.mem_cons_self, rfl⟩, ?_⟩
    rintro _ ⟨e', he', rfl⟩
    rcases List.mem_cons.mp he' with rfl | he'
    · exact le_rfl
    · exact ((List.pairwise_cons.mp h).1 e' he').le

theorem Increasing.eq_of_key (h : Increasing key l) {e e' : Addr × α} (he : e ∈ l) (he' : e' ∈ l)
    (hkey : key e.2 = key e'.2) : e = e' := by
  have hnd : (l.map fun e => key e.2).Nodup := List.pairwise_map.mpr (h.imp ne_of_lt)
  exact List.inj_on_of_nodup_map hnd he he' hkey

/-- The keys below an absent key are those to the left of its hole. -/
theorem Between.keys_lt (hv : Between key ks v) :
    {k ∈ keysOf key (before ks ++ after ks) | k < key v} = keysOf key (before ks) := by
  ext k
  constructor
  · rintro ⟨⟨e, he, rfl⟩, hlt⟩
    rcases List.mem_append.mp he with he | he
    · exact ⟨e, he, rfl⟩
    · exact absurd hlt (hv.upper e he).not_gt
  · rintro ⟨e, he, rfl⟩
    exact ⟨⟨e, List.mem_append_left _ he, rfl⟩, hv.lower e he⟩

theorem Between.lt_keys (hv : Between key ks v) :
    {k ∈ keysOf key (before ks ++ after ks) | key v < k} = keysOf key (after ks) := by
  ext k
  constructor
  · rintro ⟨⟨e, he, rfl⟩, hlt⟩
    rcases List.mem_append.mp he with he | he
    · exact absurd hlt (hv.lower e he).not_gt
    · exact ⟨e, he, rfl⟩
  · rintro ⟨e, he, rfl⟩
    exact ⟨⟨e, List.mem_append_right _ he, rfl⟩, hv.upper e he⟩

theorem find_nearest (h : Holds t w x) (hinc : Increasing key x.toList) (hne : x.toList ≠ [])
    (v : α) : ∃ p point, t.find key v = .ok (p, point) ∧
    (∀ a, p = some a ↔ ∃ d, (a, d) ∈ x.toList ∧ key d = key v) ∧
    (p = none → (∃ q, t.nearest point .left = .ok q ∧
        PointsTo IsGreatest key x.toList {k ∈ keysOf key x.toList | k < key v} q) ∧
      ∃ q, t.nearest point .right = .ok q ∧
        PointsTo IsLeast key x.toList {k ∈ keysOf key x.toList | key v < k} q) := by
  unfold AvlTree.find
  rcases findNode_spec h hinc v with ⟨js, he, hz, rfl, hv⟩ | ⟨js, a, b, d, c, he, hz, rfl, hkey⟩
  · have hlist : (plug js leaf).toList = before js ++ after js := by
      rw [toList_plug, toList, List.append_nil]
    rw [hlist] at hinc hne ⊢
    obtain ⟨hbefore, hafter, -⟩ := List.pairwise_append.mp hinc
    refine ⟨none, _, by rw [he]; rfl, fun a => ⟨(fun ha => by cases ha), ?_⟩, fun _ => ?_⟩
    · rintro ⟨d, hm, hkey⟩
      rcases List.mem_append.mp hm with hm | hm
      · exact absurd hkey (hv.lower _ hm).ne
      · exact absurd hkey (hv.upper _ hm).ne'
    · rw [hv.keys_lt, hv.lt_keys]
      obtain ⟨k, ks, rfl⟩ := List.exists_cons_of_ne_nil (l := js) (by rintro rfl; exact hne rfl)
      exact ⟨⟨_, nearest_spec h .left, pointsTo_getLast hbefore fun _ => List.mem_append_left _⟩,
        _, nearest_spec h .right, pointsTo_head hafter fun _ => List.mem_append_right _⟩
  · refine ⟨some a, .null, by rw [he]; rfl, fun a' => ⟨fun ha => ?_, ?_⟩, fun ha => by cases ha⟩
    · obtain rfl := Option.some.inj ha
      exact ⟨d, by rw [toList_plug, toList]; simp, hkey⟩
    · rintro ⟨d', hm, hkey'⟩
      have hmem : (a, d) ∈ (plug js (node a b d c)).toList := by
        rw [toList_plug, toList]
        simp
      have hpair : (a, d) = (a', d') := hinc.eq_of_key hmem hm (hkey.trans hkey'.symm)
      rw [(Prod.mk.inj hpair).1]

/-- On a search tree with an element, `find`, `nearest` and the steps from element to
element follow the order of the keys. -/
theorem navigation_correct (h : Sound key t) (hne : t.elements ≠ []) : Navigates key t := by
  obtain ⟨w, x, hx, hinc⟩ := h
  have hlist := hx.elements
  rw [hlist] at hne
  have hends : ∀ s, t.endLoop s (t.allocs + 1) t.mRoot none =
      .ok ((ends s x.toList).map Prod.fst) := by
    intro s
    have hroot : t.mRoot = x.root := hx.zip.root
    have hfuel : x.height < t.allocs + 1 := Nat.lt_succ_of_le (hx.height_le [] rfl)
    rw [hroot, endLoop_spec s x hx.zip.tree hfuel, Option.or_none]
  constructor
  · rw [hlist]
    exact find_nearest hx hinc hne
  · rw [hlist]
    exact fun e he => walk_neighbours hx he
  · rw [hlist]
    have hleast := pointsTo_head hinc fun _ he => he
    obtain ⟨e, l, hl⟩ := List.exists_cons_of_ne_nil hne
    refine ⟨e.1, (hends .left).trans ?_, ?_⟩
    · rw [ends, hl]
      rfl
    · rw [hl] at hleast ⊢
      exact hleast
  · rw [hlist]
    have hgreatest := pointsTo_getLast hinc fun _ he => he
    obtain ⟨l, e, hl⟩ := (List.eq_nil_or_concat' x.toList).resolve_left hne
    refine ⟨e.1, (hends .right).trans ?_, ?_⟩
    · rw [ends, hl, List.getLast?_concat]
      rfl
    · rw [hl, List.getLast?_concat] at hgreatest
      rw [hl]
      exact hgreatest

theorem navigation_correct_twoAdds : ∃ t : AvlTree Nat, Reachable id t ∧ Navigates id t := by
  have h₁ : Reachable id _ := .next (e := .add 1 1) (.start rfl) ⟨rfl, rfl⟩
  have h₂ : Reachable id _ := .next (e := .add 0 0) h₁ ⟨rfl, rfl⟩
  exact ⟨_, h₂, navigation_correct h₂.sound (by decide)⟩

end EchoFs.Avl
