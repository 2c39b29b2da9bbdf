import EchoFs.Avl.Insert

/-! Searches: `find` ends at the node of a key or at the hole where the key
belongs, and the walk along one side ends at the last node there. -/

namespace EchoFs.Avl
open Checked SideTree AvlTree

variable {α κ : Type} [LinearOrder κ] (key : α → κ) {t : AvlTree α} {w : Option Side}

/-- The keys increase from left to right. -/
def Increasing (l : List (Addr × α)) : Prop := l.Pairwise fun p q => key p.2 < key q.2

/-- The hole that `ks` leaves is where the key of `v` belongs. -/
structure Between (ks : List (Frame Addr α)) (v : α) : Prop where
  lower : ∀ e ∈ before ks, key e.2 < key v
  upper : ∀ e ∈ after ks, key v < key e.2

variable {key}

theorem findLoop_spec {v : α} (x : SideTree Addr α) : ∀ {ks : List (Frame Addr α)} {fuel : Nat}
    {child : Side}, Zip t w ks x → Increasing key x.toList → Between key ks v →
    whichOf (some .left) ks = some child → x.height < fuel →
    (∃ js, t.findLoop key v fuel x.root (parentOf none ks) child =
        .ok (none, ⟨parentOf none js, whichOf (some .left) js⟩) ∧
      Zip t w js leaf ∧ plug js leaf = plug ks x ∧ Between key js v) ∨
    (∃ js a b d c, t.findLoop key v fuel x.root (parentOf none ks) child =
        .ok (some a, ⟨some a, none⟩) ∧
      Zip t w js (node a b d c) ∧ plug js (node a b d c) = plug ks x ∧ key d = key v) := by
  induction x with
  | leaf =>
    intro ks fuel child hz _ hv hw hfuel
    obtain ⟨n, rfl⟩ : ∃ n, fuel = n + 1 := ⟨fuel - 1, by omega⟩
    refine .inl ⟨ks, ?_, hz, rfl, hv⟩
    rw [hw]
    rfl
  | node a b d c ih =>
    intro ks fuel child hz hinc hv hw hfuel
    obtain ⟨n, rfl⟩ : ∃ n, fuel = n + 1 := ⟨fuel - 1, by omega⟩
    unfold Increasing at hinc
    rw [toList, List.pairwise_append, List.pairwise_cons] at hinc
    obtain ⟨hleft, ⟨hright, hright'⟩, hcross⟩ := hinc
    have hheight : ∀ s, (c s).height < n := by
      intro s
      rw [height] at hfuel
      cases s <;> omega
    have hplug : ∀ s, plug (⟨s, a, b, d, c s.other⟩ :: ks) (c s) = plug ks (node a b d c) := by
      intro s
      rw [plug, Frame.fill, ← node_eq_branch s]
    have hzs : ∀ s, Zip t w (⟨s, a, b, d, c s.other⟩ :: ks) (c s) := by
      intro s
      rw [zip_cons, Frame.fill, ← node_eq_branch s]
      exact hz
    simp only [root, findLoop, node_eq hz.tree.1, ok_bind]
    cases hcmp : compare (key v) (key d) with
    | eq => exact .inr ⟨ks, a, b, d, c, rfl, hz, rfl, (compare_eq_iff_eq.mp hcmp).symm⟩
    | lt =>
      have hlt := compare_lt_iff_lt.mp hcmp
      have hv' : Between key (⟨.left, a, b, d, c .right⟩ :: ks) v := by
        constructor
        · intro e he
          exact hv.lower e (by simpa [before] using he)
        · intro e he
          have he : e = (a, d) ∨ e ∈ (c .right).toList ∨ e ∈ after ks := by
            simpa [after, or_assoc] using he
          rcases he with rfl | he | he
          · exact hlt
          · exact hlt.trans (hright e he)
          · exact hv.upper e he
      rw [← hplug .left]
      exact ih .left (hzs .left) hleft hv' rfl (hheight .left)
    | gt =>
      have hgt := compare_gt_iff_gt.mp hcmp
      have hv' : Between key (⟨.right, a, b, d, c .left⟩ :: ks) v := by
        constructor
        · intro e he
          have he : e ∈ before ks ∨ e ∈ (c .left).toList ∨ e = (a, d) := by
            simpa [before] using he
          rcases he with he | he | rfl
          · exact hv.lower e he
          · exact (hcross e he (a, d) List.mem_cons_self).trans hgt
          · exact hgt
        · intro e he
          exact hv.upper e (by simpa [after] using he)
      rw [← hplug .right]
      exact ih .right (hzs .right) hright' hv' rfl (hheight .right)

/-- `find_node` ends at the hole for a key that is absent, or at the node of the key. -/
theorem findNode_spec {x : SideTree Addr α} (h : Holds t w x) (hinc : Increasing key x.toList)
    (v : α) :
    (∃ js, t.findNode key v = .ok (none, ⟨parentOf none js, whichOf (some .left) js⟩) ∧
      Zip t w js leaf ∧ plug js leaf = x ∧ Between key js v) ∨
    (∃ js a b d c, t.findNode key v = .ok (some a, ⟨some a, none⟩) ∧
      Zip t w js (node a b d c) ∧ plug js (node a b d c) = x ∧ key d = key v) := by
  have hfuel : x.height < t.allocs + 1 := by
    have h₁ := x.height_le_length
    have h₂ := h.size
    omega
  have hroot : t.mRoot = x.root := h.zip.root
  unfold findNode
  rw [hroot]
  have hv : Between key [] v := ⟨by simp [before], by simp [after]⟩
  exact findLoop_spec x h.zip hinc hv rfl hfuel

theorem lastOn_spec (s : Side) (x : SideTree Addr α) : ∀ {ks : List (Frame Addr α)} {fuel : Nat},
    Zip t w ks x → x ≠ leaf → x.height ≤ fuel →
    ∃ js a b d n, x = plug js (branch s a b d leaf n) ∧ (∀ k ∈ js, k.side = s) ∧
      t.lastOn s fuel x.root = .ok a := by
  induction x with
  | leaf => intro _ _ _ hne; exact absurd rfl hne
  | node a b d c ih =>
    intro ks fuel hz _ hfuel
    have hh : ∀ y, (c y).height < (node a b d c).height := by
      intro y
      rw [height]
      cases y <;> omega
    obtain ⟨n, rfl⟩ : ∃ n, fuel = n + 1 := ⟨fuel - 1, by have := hh .left; omega⟩
    simp only [root, lastOn, node_eq hz.tree.1, ok_bind]
    cases hc : c s with
    | leaf =>
      refine ⟨[], a, b, d, c s.other, ?_, by simp, by simp⟩
      rw [node_eq_branch s, hc]
      rfl
    | node a' b' d' c' =>
      have hz' : Zip t w (⟨s, a, b, d, c s.other⟩ :: ks) (c s) := by
        rw [zip_cons, Frame.fill, ← node_eq_branch s]
        exact hz
      obtain ⟨js, a₁, b₁, d₁, n₁, he, hjs, hrun⟩ := ih s hz' (by simp [hc])
        (show (c s).height ≤ n by have := hh s; omega)
      refine ⟨js ++ [⟨s, a, b, d, c s.other⟩], a₁, b₁, d₁, n₁, ?_, ?_, ?_⟩
      · rw [plug_append, ← he]
        exact node_eq_branch s a b d c
      · intro k hk
        rcases List.mem_append.mp hk with hk | hk
        · exact hjs k hk
        · rw [List.mem_singleton.mp hk]
      · rw [hc] at hrun
        simpa [SideTree.root] using hrun

theorem Between.increasing {js : List (Frame Addr α)} {v : α} {a : Addr} (h : Between key js v)
    (hinc : Increasing key (plug js leaf).toList) :
    Increasing key (before js ++ (a, v) :: after js) := by
  unfold Increasing at hinc ⊢
  rw [toList_plug, toList, List.append_nil, List.pairwise_append] at hinc
  obtain ⟨hb, ha, hcross⟩ := hinc
  rw [List.pairwise_append, List.pairwise_cons]
  refine ⟨hb, ⟨fun e he => h.upper e he, ha⟩, fun e he e' he' => ?_⟩
  rcases List.mem_cons.mp he' with rfl | he'
  · exact h.lower e he
  · exact hcross e he e' he'

/-- The tree with one element more. -/
structure Inserted (key : α → κ) (t' : AvlTree α) (l : List (Addr × α)) (a : Addr) (d : α) :
    Prop where
  holds : ∃ w y xs ys, Holds t' w y ∧ Increasing key y.toList ∧ l = xs ++ ys ∧
    y.toList = xs ++ (a, d) :: ys

theorem insertAt_between {js : List (Frame Addr α)} {new : Nat} {d : α}
    (h : Holds t w (plug js leaf)) (hz : Zip t w js leaf)
    (hinc : Increasing key (plug js leaf).toList) (hv : Between key js d)
    (hnew : t.mem (.heap new) = none) :
    ∃ t', t.insertAt new d ⟨parentOf none js, whichOf w js⟩ = .ok t' ∧
      Inserted key t' (plug js leaf).toList (.heap new) d := by
  obtain ⟨t', y, he, hy, hl⟩ := insertAt_spec d h hz hnew
  refine ⟨t', he, ⟨w, y, before js, after js, hy, ?_, ?_, hl⟩⟩
  · rw [hl]
    exact hv.increasing hinc
  · rw [toList_plug, toList, List.append_nil]

theorem Holds.atHole {js : List (Frame Addr α)} (h : Holds t w (plug js leaf))
    (hz : Zip t w js leaf) : ∃ w', whichOf (some .left) js = whichOf w' js ∧
      Holds t w' (plug js leaf) ∧ Zip t w' js leaf := by
  cases js with
  | nil =>
    have hz' : Zip t (some .left) [] leaf := ⟨trivial, trivial, hz.root, hz.nodup⟩
    exact ⟨some .left, rfl, ⟨hz', h.balanced, h.outside, h.tmp, h.num, h.size⟩, hz'⟩
  | cons k ks => exact ⟨w, rfl, h, hz⟩

section
variable {x : SideTree Addr α} (h : Holds t w x) (hinc : Increasing key x.toList)
include h hinc

/-- A key is found if and only if an element has it. -/
theorem find_spec (v : α) :
    (∃ point, t.find key v = .ok (none, point) ∧ (∀ e ∈ x.toList, key e.2 ≠ key v) ∧
      ∀ {new : Nat}, t.mem (.heap new) = none →
        ∃ t', t.insertAt new v point = .ok t' ∧ Inserted key t' x.toList (.heap new) v) ∨
    (∃ a d, t.find key v = .ok (some a, .null) ∧ (a, d) ∈ x.toList ∧ key d = key v) := by
  unfold find
  rcases findNode_spec h hinc v with ⟨js, he, hz, rfl, hv⟩ | ⟨js, a, b, d, c, he, hz, rfl, hkey⟩
  · obtain ⟨w', hw, h', hz'⟩ := h.atHole hz
    refine .inl ⟨_, by rw [he]; rfl, fun e hm => ?_, fun hnew => ?_⟩
    · rw [toList_plug, toList, List.append_nil, List.mem_append] at hm
      rcases hm with hm | hm
      · exact (hv.lower e hm).ne
      · exact (hv.upper e hm).ne'
    · rw [hw]
      exact insertAt_between h' hz' hinc hv hnew
  · refine .inr ⟨a, d, by rw [he]; rfl, ?_, hkey⟩
    rw [toList_plug, toList]
    simp

theorem insertAt_find {new : Nat} {d : α} {point : InsertionPoint}
    (hfind : t.find key d = .ok (none, point)) (hnew : t.mem (.heap new) = none) :
    ∃ t', t.insertAt new d point = .ok t' ∧ Inserted key t' x.toList (.heap new) d := by
  rcases find_spec h hinc d with ⟨point', he, _, hins⟩ | ⟨a, d', he, _⟩
  · obtain ⟨_, rfl⟩ := Prod.mk.inj (Except.ok.inj (hfind.symm.trans he))
    exact hins hnew
  · cases hfind.symm.trans he

theorem add_spec {new : Nat} (d : α) (hnew : t.mem (.heap new) = none) :
    ((∀ e ∈ x.toList, key e.2 ≠ key d) ∧
      ∃ t', t.add key new d = .ok t' ∧ Inserted key t' x.toList (.heap new) d) ∨
    ((∃ e ∈ x.toList, key e.2 = key d) ∧ t.add key new d = .error .assertion) := by
  unfold add
  rcases find_spec h hinc d with ⟨point, he, habs, hins⟩ | ⟨a, d', he, hm, hkey⟩
  · obtain ⟨t', he', hi⟩ := hins hnew
    refine .inl ⟨habs, t', ?_, hi⟩
    simp only [he, ok_bind, check_ok, he']
  · refine .inr ⟨⟨_, hm, hkey⟩, ?_⟩
    have hcheck : check (some a = (none : Option Addr)) = .error .assertion := if_neg (by simp)
    simp only [he, ok_bind, hcheck, error_bind]

end

theorem Holds.atNode {ks : List (Frame Addr α)} {x : SideTree Addr α} (h : Holds t w (plug ks x)) :
    Zip t w ks x := by
  have := zip_plug.mpr h.zip
  rwa [List.append_nil] at this

theorem Holds.height_le {x y : SideTree Addr α} (h : Holds t w y) (ks : List (Frame Addr α))
    (hx : plug ks x = y) : x.height ≤ t.allocs := by
  have hle : x.toList.length ≤ y.toList.length := by
    rw [← hx, toList_plug, List.length_append, List.length_append]
    omega
  exact (x.height_le_length.trans hle).trans h.size

theorem exists_hole {ks : List (Frame Addr α)} {a : Addr} {b : Int} {d : α}
    {c : Side → SideTree Addr α} (dir : Side) (new : Nat) (v : α)
    (h : Holds t w (plug ks (node a b d c))) :
    ∃ js, plug js leaf = plug ks (node a b d c) ∧ Zip t w js leaf ∧
      t.insertHere new v a dir = t.insertAt new v ⟨parentOf none js, whichOf w js⟩ ∧
      (dir = .left → after js = (a, d) :: (c .right).toList ++ after ks) ∧
      (dir = .right → before js = before ks ++ (c .left).toList ++ [(a, d)]) := by
  have hz' : Zip t w (⟨dir, a, b, d, c dir.other⟩ :: ks) (c dir) := by
    rw [zip_cons, Frame.fill, ← node_eq_branch dir]
    exact h.atNode
  have hplug : plug (⟨dir, a, b, d, c dir.other⟩ :: ks) (c dir) = plug ks (node a b d c) := by
    rw [plug, Frame.fill, ← node_eq_branch dir]
  unfold insertHere
  simp only [node_eq h.atNode.tree.1, ok_bind]
  by_cases hc : c dir = leaf
  · rw [hc] at hz' hplug
    refine ⟨_, hplug, hz', ?_, ?_, ?_⟩
    · simp only [hc, root, ne_eq, not_true_eq_false, if_false, check_ok, ok_bind]
      rfl
    · rintro rfl
      simp [after, Side.other]
    · rintro rfl
      simp [before, Side.other]
  · have hfuel : (c dir).height ≤ t.allocs + 1 := (h.height_le _ hplug).trans (Nat.le_succ _)
    have hroot : (c dir).root ≠ none := by
      cases hcd : c dir with
      | leaf => exact absurd hcd hc
      | node => simp [root]
    obtain ⟨js, m, mb, md, n, he, hjs, hrun⟩ := lastOn_spec dir.other (c dir) hz' hc hfuel
    rw [he] at hz' hplug
    have hz'' : Zip t w (⟨dir.other, m, mb, md, n⟩ ::
        (js ++ ⟨dir, a, b, d, c dir.other⟩ :: ks)) leaf :=
      zip_cons.mpr (zip_plug.mpr hz')
    refine ⟨_, ?_, hz'', ?_, ?_, ?_⟩
    · rw [plug, plug_append]
      exact hplug
    · rw [if_pos hroot, hrun]
      simp only [ok_bind, hz''.node_frame, Side.pick_self, root, check_ok]
      rfl
    · rintro rfl
      rw [after, after_append, after_right hjs]
      simp [after, Side.other]
    · rintro rfl
      rw [before, before_append, before_left hjs]
      simp [before, Side.other]

/-- The key of `v` lies strictly between those of the node `here` and its neighbour on
side `dir`. -/
def NextTo (key : α → κ) (l : List (Addr × α)) (here : Addr) (dir : Side) (v : α) : Prop :=
  ∀ xs ys e, l = xs ++ e :: ys → e.1 = here →
    match dir with
    | .left => key v < key e.2 ∧ ∀ e' ∈ xs.getLast?, key e'.2 < key v
    | .right => key e.2 < key v ∧ ∀ e' ∈ ys.head?, key v < key e'.2

theorem Increasing.lt_of_getLast {l : List (Addr × α)} (h : Increasing key l) {v : α}
    (hv : ∀ e ∈ l.getLast?, key e.2 < key v) : ∀ e ∈ l, key e.2 < key v := by
  intro e he
  obtain ⟨ys, z, rfl⟩ := (List.eq_nil_or_concat' l).resolve_left (List.ne_nil_of_mem he)
  have hz := hv z (by simp)
  rcases List.mem_append.mp he with he | he
  · exact ((List.pairwise_append.mp h).2.2 e he z (by simp)).trans hz
  · rw [List.mem_singleton.mp he]
    exact hz

theorem Increasing.lt_of_head {l : List (Addr × α)} (h : Increasing key l) {v : α}
    (hv : ∀ e ∈ l.head?, key v < key e.2) : ∀ e ∈ l, key v < key e.2 := by
  intro e he
  cases l with
  | nil => cases he
  | cons z zs =>
    have hz := hv z (by simp)
    rcases List.mem_cons.mp he with rfl | he
    · exact hz
    · exact hz.trans ((List.pairwise_cons.mp h).1 e he)

theorem insertHere_spec {x : SideTree Addr α} (h : Holds t w x) (hinc : Increasing key x.toList)
    {here : Addr} {dir : Side} {v : α} {new : Nat} (hm : here ∈ x.names)
    (hnext : NextTo key x.toList here dir v) (hnew : t.mem (.heap new) = none) :
    ∃ t', t.insertHere new v here dir = .ok t' ∧ Inserted key t' x.toList (.heap new) v := by
  obtain ⟨ks, b, d, c, rfl⟩ := exists_plug x hm
  obtain ⟨js, hplug, hzj, he, hleft, hright⟩ := exists_hole dir new v h
  rw [← hplug] at h hinc hnext ⊢
  have hlist : (plug js leaf).toList = before js ++ after js := by
    rw [toList_plug, toList, List.append_nil]
  unfold Increasing at hinc
  have hinc' := hinc
  rw [hlist, List.pairwise_append] at hinc'
  obtain ⟨hb, ha, hcross⟩ := hinc'
  have hbetween : Between key js v := by
    cases dir with
    | left =>
      have hafter := hleft rfl
      obtain ⟨hlt, hlast⟩ := hnext (before js) ((c .right).toList ++ after ks) (here, d)
        (by rw [hlist, hafter]; rfl) rfl
      exact ⟨Increasing.lt_of_getLast hb hlast,
        Increasing.lt_of_head ha (by rw [hafter]; simpa using hlt)⟩
    | right =>
      have hbefore := hright rfl
      obtain ⟨hlt, hhead⟩ := hnext (before ks ++ (c .left).toList) (after js) (here, d)
        (by rw [hlist, hbefore]; simp) rfl
      exact ⟨Increasing.lt_of_getLast hb (by rw [hbefore]; simpa using hlt),
        Increasing.lt_of_head ha hhead⟩
  obtain ⟨t', he', hi⟩ := insertAt_between h hzj hinc hbetween hnew
  exact ⟨t', he.trans he', hi⟩

end EchoFs.Avl
