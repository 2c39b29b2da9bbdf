import EchoFs.Avl.Search

/-! Removal of a node with at most one child: its child takes its place, and the
balances are put right on the way up. -/

namespace EchoFs.Avl
open Checked SideTree AvlTree

variable {α : Type} {w : Option Side}

/-- The loop of `remove_node`: the tree `x` is one level lower than its frames are
balanced for. -/
theorem removeLoop_spec (ks : List (Frame Addr α)) : ∀ {t : AvlTree α} {x : SideTree Addr α}
    {fuel : Nat}, Zip t w ks x → x.Balanced → FramesBalanced ks (x.height + 1) →
    ks.length < fuel →
    ∃ t' y, removeLoop fuel t (parentOf none ks) (whichOf w ks) = .ok t' ∧
      Rebuilt t t' w [] (plug ks x) y := by
  induction ks with
  | nil =>
    intro t x fuel hz hb _ hfuel
    obtain ⟨n, rfl⟩ : ∃ n, fuel = n + 1 := ⟨fuel - 1, by simp at hfuel; omega⟩
    exact ⟨t, x, rfl, hz, hb, rfl, .refl t, fun _ _ => rfl⟩
  | cons k ks ih =>
    intro t x fuel hz hb hks hfuel
    obtain ⟨n, rfl⟩ : ∃ n, fuel = n + 1 := ⟨fuel - 1, by simp at hfuel; omega⟩
    have hfuel' : ks.length < n := by
      simp at hfuel
      omega
    obtain ⟨hkb, hlo, hhi, ho, hup⟩ := hks
    push_cast at hkb
    have hs := k.side.sign_cases
    simp only [parentOf, whichOf, removeLoop, hz.node_frame, ok_bind, index]
    by_cases hzero : k.b = 0
    · -- the height above does not change
      rw [if_pos hzero]
      obtain ⟨t', he, hz', hc, hout⟩ := hz.setBalance (k.b - k.side.sign)
      refine ⟨t', plug ({ k with b := k.b - k.side.sign } :: ks) x, he, hz'.whole,
        balanced_plug.mpr ⟨hb, ?_, ?_, ?_, ho, ?_⟩, toList_setBalance _, hc, hout⟩
      · simp only
        rcases hs with hs | hs <;> rw [hs] at hkb ⊢ <;> omega
      · simp only
        rcases hs with hs | hs <;> rw [hs] <;> omega
      · simp only
        rcases hs with hs | hs <;> rw [hs] <;> omega
      · have : 1 + max x.height k.o.height = 1 + max (x.height + 1) k.o.height := by
          rcases hs with hs | hs <;> rw [hs] at hkb <;> omega
        simp only [this]
        exact hup
    rw [if_neg hzero]
    by_cases hnew : k.b - k.side.sign = 0
    · -- this side was higher, and the tree above is lower now
      rw [if_pos hnew]
      obtain ⟨t₁, he₁, hz₁, hc₁, hout₁⟩ := hz.setBalance (k.b - k.side.sign)
      have hho : k.o.height = x.height := by
        rcases hs with hs | hs <;> rw [hs] at hkb hnew <;> omega
      have hfill : (Frame.fill { k with b := k.b - k.side.sign } x).Balanced := by
        refine balanced_branch.mpr ⟨?_, ?_, ?_, hb, ho⟩ <;> simp only <;> rw [hnew] <;> try omega
        rw [hho, sub_self, mul_zero]
      rw [he₁, ok_bind]
      obtain ⟨t', y, he, hr⟩ := ih (zip_cons.mp hz₁) hfill
        (by
          rw [height_fill]
          simp only
          rw [show 1 + max x.height k.o.height + 1 = 1 + max (x.height + 1) k.o.height by omega]
          exact hup) hfuel'
      exact ⟨t', y, he, hr.trans hc₁ hout₁ (toList_setBalance _)⟩
    · -- the other side was higher already
      rw [if_neg hnew]
      have htwo : k.b - k.side.sign = 2 * k.side.other.sign := by
        rw [Side.sign_other]
        rcases hs with hs | hs <;> rw [hs] at hkb hnew ⊢ <;> omega
      have hho : k.o.height = x.height + 2 := by
        rcases hs with hs | hs <;> rw [hs] at hkb hnew <;> omega
      have hmirror : k.fill x = branch k.side.other k.a k.b k.d k.o x := by
        rw [Frame.fill, branch, branch, Side.pick_swap]
      have hz' := zip_cons.mp hz
      rw [hmirror] at hz'
      obtain ⟨t₁, shorter, x', he₁, hr₁, hht, -⟩ := rotation_spec hz' ho hb hho
      rw [htwo, he₁, ok_bind, plug, hmirror]
      cases shorter with
      | true =>
        simp only [if_true] at hht ⊢
        obtain ⟨t', y, he, hr⟩ := ih hr₁.zip hr₁.balanced
          (by
            rw [hht, show x.height + 2 + 1 = 1 + max (x.height + 1) k.o.height by omega]
            exact hup) hfuel'
        refine ⟨t', y, he, hr.trans hr₁.count hr₁.outside ?_⟩
        rw [toList_plug, toList_plug, hr₁.toList]
      | false =>
        simp only [Bool.false_eq_true, if_false] at hht ⊢
        refine ⟨t₁, _, rfl, hr₁.whole ?_⟩
        rw [hht, show x.height + 3 = 1 + max (x.height + 1) k.o.height by omega]
        exact hup

/-- The tree without a node: what `unlink` leaves in memory. -/
structure Unlinked (t t' : AvlTree α) (w : Option Side) (ks : List (Frame Addr α))
    (x : SideTree Addr α) (old : Addr) : Prop where
  tree : ∃ y, Zip t' w [] y ∧ y.Balanced ∧ y.toList = (plug ks x).toList
  num : t'.mNumNodes = t.mNumNodes - 1
  allocs : t'.allocs = t.allocs
  freed : t'.mem old = none
  outside : ∀ z ∉ (plug ks x).names, z ≠ old → t'.mem z = t.mem z

theorem unlink_spec {t : AvlTree α} {ks : List (Frame Addr α)} {s : Side} {p old : Addr} {b : Int}
    {d : α} {x : SideTree Addr α} (hz : Zip t w ks (branch s p b d leaf x)) (hb : x.Balanced)
    (hks : FramesBalanced ks (x.height + 1)) (hold : old ∉ (plug ks x).names)
    (hnum : t.mNumNodes > 0) (hsize : ks.length ≤ t.allocs) :
    ∃ t', t.unlink p old = .ok t' ∧ Unlinked t t' w ks x old := by
  obtain ⟨hp, -, hx⟩ := rep_branch.mp hz.tree
  rw [root] at hp
  have hnd : (x.names ++ frameNames ks).Nodup := by
    have h := (names_branch_perm.append_right (frameNames ks)).nodup_iff.mp hz.nodup_append
    exact (List.nodup_cons.mp h).2
  obtain ⟨hndx, -, hdisj⟩ := List.nodup_append.mp hnd
  have hchild : (if s.pick none x.root .left ≠ none then s.pick none x.root .left
      else s.pick none x.root .right) = x.root := by
    cases s
    · exact if_neg fun h => h rfl
    · cases x <;> rfl
  have hne : ∀ z, z ∈ x.names ∨ z ∈ frameNames ks → z ≠ old := fun z hzm =>
    ne_of_mem_of_not_mem (mem_names_plug.mpr hzm) hold
  set t₁ : AvlTree α := AvlTree.store { t with mNumNodes := t.mNumNodes - 1 } old none with ht₁
  have hout₁ : ∀ z, z ≠ old → t₁.mem z = t.mem z := fun z hzo => store_mem_ne hzo
  have hx₁ := hx.frame fun z hzm => hout₁ z (hne z (.inl hzm))
  obtain ⟨t₂, he₂, hx₂, hout₂, hr₂, hc₂⟩ :=
    adopt_spec hx₁ hndx (parentOf none ks) (whichOf w ks)
  have hroot : ∀ z, z ∉ x.names → x.root ≠ some z := fun z hzm he => hzm (root_mem_names he)
  have hks₂ : RepFrames t₂.mem none w (some p) ks := hz.frames.frame fun z hzm => by
    rw [hout₂ z (hroot z fun hzx => hdisj z hzx z hzm rfl), hout₁ z (hne z (.inr hzm))]
  obtain ⟨t₃, he₃, hz₃, hout₃, hc₃⟩ :=
    relink_zip hks₂ (hr₂.trans hz.root) hx₂ (names_plug_perm.nodup_iff.mpr hnd)
  have hallocs : t₃.allocs = t.allocs := hc₃.allocs.trans hc₂.allocs
  obtain ⟨t', y, he, hr⟩ := removeLoop_spec ks hz₃ hb hks
    (show ks.length < t₃.allocs + 1 by rw [hallocs]; omega)
  have hrun : t.unlink p old = .ok t' := by
    unfold unlink
    rw [check_ok hnum, ok_bind]
    simp only
    rw [node_eq (by exact hp), ok_bind]
    simp only [hchild]
    rw [← ht₁, he₂, ok_bind, he₃, ok_bind]
    split_ifs with hnone
    · rw [hnone] at he
      exact he
    · exact he
  refine ⟨t', hrun, ⟨y, hr.zip, hr.balanced, hr.toList⟩, ?_, ?_, ?_, fun z hzm hzo => ?_⟩
  · rw [hr.count.num, hc₃.num, hc₂.num]
    rfl
  · rw [hr.count.allocs, hallocs]
  · obtain ⟨hox, hok⟩ := not_or.mp (mt mem_names_plug.mpr hold)
    rw [hr.outside old hold, hout₃ old hok, hout₂ old (hroot old hox), ht₁, store_mem_self]
  · obtain ⟨hzx, hzk⟩ := not_or.mp (mt mem_names_plug.mpr hzm)
    rw [hr.outside z hzm, hout₃ z hzk, hout₂ z (hroot z hzx), hout₁ z hzo]

section Swap
variable {t : AvlTree α} {s : Side} {a m : Addr} {b mb : Int} {d md : α}
  {n f : SideTree Addr α} {js ks : List (Frame Addr α)}

/-- The nodes around the spot of `a` and around its neighbour `m` are apart. -/
structure Apart (a m : Addr) (n f : SideTree Addr α) (js ks : List (Frame Addr α)) : Prop where
  nodup : (a :: m :: (n.names ++ f.names ++ frameNames js ++ frameNames ks)).Nodup
  tmp : Addr.tmp ∉ a :: m :: (n.names ++ f.names ++ frameNames js ++ frameNames ks)

/-- Only the nodes around the two places and the temporary have changed. -/
def SameOutside (t t' : AvlTree α) (a m : Addr) (n f : SideTree Addr α)
    (js ks : List (Frame Addr α)) : Prop :=
  ∀ z ∉ a :: m :: (n.names ++ f.names ++ frameNames js ++ frameNames ks), z ≠ .tmp →
    t'.mem z = t.mem z

/-- Half way: `m` is at the spot of `a`, and the nodes around the place where it was
still point to it. -/
structure Moved (t : AvlTree α) (w : Option Side) (s : Side) (m : Addr) (b mb : Int) (md : α)
    (n f : SideTree Addr α) (js ks : List (Frame Addr α)) : Prop where
  tmp : t.mem .tmp =
    some ⟨s.other.pick none n.root, parentOf (some m) js, whichOf (some s) js, mb, md⟩
  spot : t.mem m =
    some ⟨s.pick (rootOf (some .tmp) js) f.root, parentOf none ks, whichOf w ks, b, md⟩
  near : Rep t.mem (some m) (some s) n
  far : Rep t.mem (some m) (some s.other) f
  lower : RepFrames t.mem (some m) (some s) (some m) js
  upper : RepFrames t.mem none w (some m) ks
  root : t.mRoot = rootOf (some m) ks

theorem copyNode_spec (hj : m ∉ frameNames js) (hm : Addr.tmp ≠ m) {nm : Node α}
    (hnm : t.mem m = some nm) {P q : Option Addr} {W : Option Side} :
    ∃ t', t.copyNode ⟨s.pick (rootOf (some m) js) q, P, W, b, d⟩ s m = .ok t' ∧
      t'.mem .tmp = some nm ∧
      t'.mem m = some ⟨s.pick (rootOf (some .tmp) js) q, P, W, b, nm.mData⟩ ∧
      (∀ z, z ≠ .tmp → z ≠ m → t'.mem z = t.mem z) ∧ t'.mRoot = t.mRoot ∧ SameCount t t' := by
  have hnm' : (t.store .tmp (some nm)).mem m = some nm := by
    rw [store_mem_ne hm.symm, hnm]
  unfold copyNode
  simp only [node_eq hnm, ok_bind, modify_eq hnm', Side.pick_self, Node.copyLinks]
  cases js with
  | nil =>
    -- `m` is a child of the node
    rw [rootOf, if_pos rfl, modify_eq store_mem_self]
    refine ⟨_, rfl, ?_, ?_, fun z hz hzm => ?_, rfl, ⟨rfl, rfl⟩⟩
    · rw [store_mem_ne hm, store_mem_ne hm, store_mem_self]
    · rw [store_mem_self, Node.setChild, Side.update_pick]
      rfl
    · rw [store_mem_ne hzm, store_mem_ne hzm, store_mem_ne hz]
  | cons j js =>
    obtain ⟨z, hz, hroot⟩ := exists_rootOf j js
    have hne : ¬rootOf (some m) (j :: js) = some m := by
      rw [hroot, Option.some_inj]
      rintro rfl
      exact hj hz
    rw [if_neg hne, hroot (some m), hroot (some .tmp)]
    refine ⟨_, rfl, ?_, store_mem_self, fun z hz hzm => ?_, rfl, ⟨rfl, rfl⟩⟩
    · rw [store_mem_ne hm, store_mem_self]
    · rw [store_mem_ne hzm, store_mem_ne hz]

theorem retop_spec (nm : Node α) (htmp : t.mem .tmp =
      some ⟨nm.mChildren, parentOf (some a) js, whichOf (some s) js, nm.mBalance, nm.mData⟩)
    (hjs : RepFrames t.mem (some a) (some s) (some m) js) (hnd : (frameNames js).Nodup)
    (hj : Addr.tmp ∉ frameNames js) :
    ∃ t', t.modify (rootOf (some .tmp) js) (·.setParent (some m)) = .ok t' ∧
      t'.mem .tmp =
        some ⟨nm.mChildren, parentOf (some m) js, whichOf (some s) js, nm.mBalance, nm.mData⟩ ∧
      RepFrames t'.mem (some m) (some s) (some m) js ∧ t'.mRoot = t.mRoot ∧
      (∀ z, z ≠ .tmp → z ∉ frameNames js → t'.mem z = t.mem z) ∧ SameCount t t' := by
  cases js with
  | nil =>
    exact ⟨_, modify_eq htmp _, store_mem_self, trivial, rfl, fun z hz _ => store_mem_ne hz,
      sameCount_store _ _ _⟩
  | cons j js =>
    obtain ⟨z, hz, hroot⟩ := exists_rootOf j js
    obtain ⟨t', he, hjs', hr, hout, hc⟩ := setTop_spec hjs hnd (some m)
    rw [hroot] at he ⊢
    refine ⟨t', he, ?_, hjs', hr, fun z _ hz => hout z hz, hc⟩
    rw [hout _ hj]
    exact htmp

theorem moveToSpot_spec (hap : Apart a m n f js ks) (hf : f ≠ leaf)
    (hz : Zip t w (js ++ ⟨s, a, b, d, f⟩ :: ks) (branch s.other m mb md leaf n)) :
    ∃ t', t.moveToSpot ⟨s.pick (rootOf (some m) js) f.root, parentOf none ks, whichOf w ks, b, d⟩ s m
        = .ok t' ∧ Moved t' w s m b mb md n f js ks ∧ SameCount t t' ∧
      SameOutside t t' a m n f js ks := by
  obtain ⟨hm, -, hn⟩ := rep_branch.mp hz.tree
  obtain ⟨hjs, -, hf', hks⟩ := repFrames_append.mp hz.frames
  have hroot : t.mRoot = rootOf (some a) ks := hz.root.trans (rootOf_append js)
  rw [parentOf_append, whichOf_append] at hm
  rw [Side.other_other] at hn
  have hnd := hap.nodup
  have htmp := hap.tmp
  simp only [List.nodup_cons, List.nodup_append, List.mem_cons, List.mem_append, not_or] at hnd htmp
  obtain ⟨hta, htm, ⟨⟨htn, htf⟩, htj⟩, htk⟩ := htmp
  obtain ⟨-, ⟨⟨⟨hmn, hmf⟩, hmj⟩, hmk⟩, ⟨⟨-, hndf, hdf⟩, hndj, hdj⟩, hndk, hdk⟩ := hnd
  obtain ⟨t₁, he₁, htmp₁, hm₁, hout₁, hr₁, hc₁⟩ := copyNode_spec (b := b) (d := d) (s := s) hmj htm
    hm (P := parentOf none ks) (W := whichOf w ks) (q := f.root)
  have hks₁ : RepFrames t₁.mem none w (some a) ks := hks.frame fun z hz =>
    hout₁ z (ne_of_mem_of_not_mem hz htk) (ne_of_mem_of_not_mem hz hmk)
  obtain ⟨t₂, he₂, hks₂, hr₂, hout₂, hc₂⟩ :=
    relink_spec hks₁ (hr₁.trans hroot) hndk (some m)
  have hjs₂ : RepFrames t₂.mem (some a) (some s) (some m) js := hjs.frame fun z hz => by
    rw [hout₂ z fun hzk => hdk z (.inr hz) z hzk rfl,
      hout₁ z (ne_of_mem_of_not_mem hz htj) (ne_of_mem_of_not_mem hz hmj)]
  obtain ⟨t₃, he₃, htmp₃, hjs₃, hr₃, hout₃, hc₃⟩ := retop_spec (m := m)
    ⟨s.other.pick none n.root, parentOf (some a) js, whichOf (some s) js, mb, md⟩
    (by rw [hout₂ _ htk, htmp₁]; rfl) hjs₂ hndj htj
  have hkeep : ∀ z, z ≠ .tmp → z ≠ m → z ∉ frameNames js → z ∉ frameNames ks →
      t₃.mem z = t.mem z := by
    intro z hzt hzm hzj hzk
    rw [hout₃ z hzt hzj, hout₂ z hzk, hout₁ z hzt hzm]
  have hf₃ : Rep t₃.mem (some a) (some s.other) f := hf'.frame fun z hz =>
    hkeep z (ne_of_mem_of_not_mem hz htf) (ne_of_mem_of_not_mem hz hmf)
      (fun hzj => hdj z (.inr hz) z hzj rfl) (fun hzk => hdk z (.inl (.inr hz)) z hzk rfl)
  obtain ⟨t', he', hf'', hout', hr', hc'⟩ := setParent_spec hf₃ hndf hf (some m)
  have hout'' : ∀ z ∉ f.names, t'.mem z = t₃.mem z := fun z hz =>
    hout' z fun he => hz (root_mem_names he)
  have hm₂ : t₂.mem m = _ := (hout₂ m hmk).trans hm₁
  refine ⟨t', ?_, ⟨?_, ?_, ?_, hf'', ?_, ?_, ?_⟩, ((hc₁.trans hc₂).trans hc₃).trans hc', ?_⟩
  · unfold moveToSpot
    simp only [he₁, ok_bind, node_eq hm₁, he₂, Side.pick_self, he₃, Side.pick_other, he']
  · rw [hout'' _ htf, htmp₃]
  · rw [hout'' m hmf, hout₃ m (Ne.symm htm) hmj, hm₂]
  · refine hn.frame fun z hz => ?_
    rw [hout'' z fun hzf => hdf z hz z hzf rfl]
    exact hkeep z (ne_of_mem_of_not_mem hz htn) (ne_of_mem_of_not_mem hz hmn)
      (fun hzj => hdj z (.inl hz) z hzj rfl) (fun hzk => hdk z (.inl (.inl hz)) z hzk rfl)
  · exact hjs₃.frame fun z hz => hout'' z fun hzf => hdj z (.inr hzf) z hz rfl
  · refine hks₂.frame fun z hz => ?_
    rw [hout'' z fun hzf => hdk z (.inl (.inr hzf)) z hz rfl,
      hout₃ z (ne_of_mem_of_not_mem hz htk) fun hzj => hdk z (.inr hzj) z hz rfl]
  · rw [hr', hr₃, hr₂]
  · intro z hz hzt
    simp only [List.mem_cons, List.mem_append, not_or] at hz
    obtain ⟨-, hzm, ⟨⟨-, hzf⟩, hzj⟩, hzk⟩ := hz
    rw [hout'' z hzf, hkeep z hzt hzm hzj hzk]

theorem setTmp_spec (h : Moved t w s m b mb md n f js ks) (hnd : (frameNames js).Nodup)
    (hj : m ∉ frameNames js) :
    ∃ which t', whichOf (some s) js = some which ∧
      t.modify (parentOf (some m) js) (·.setChild which (some .tmp)) = .ok t' ∧
      RepFrames t'.mem (some m) (some s) (some .tmp) js ∧ t'.mRoot = t.mRoot ∧
      (∀ z ∉ frameNames js, t'.mem z = t.mem z) ∧ SameCount t t' := by
  cases js with
  | nil =>
    refine ⟨s, _, rfl, modify_eq h.spot _, trivial, rfl, fun z _ => ?_, sameCount_store _ _ _⟩
    -- `m` points to the temporary already
    by_cases hz : z = m
    · rw [hz, store_mem_self, h.spot]
      simp only [Node.setChild, Side.update_pick, rootOf]
    · exact store_mem_ne hz
  | cons j js =>
    obtain ⟨t', he, hjs, hr, hout, hc⟩ := setHole_spec h.lower hnd (some .tmp)
    exact ⟨j.side, t', rfl, he, hjs, hr, hout, hc⟩

theorem putTmp_spec (hap : Apart a m n f js ks) (h : Moved t w s m b mb md n f js ks) :
    ∃ t', t.putTmp = .ok t' ∧ SameCount t t' ∧ SameOutside t t' a m n f js ks ∧
      Zip t' w (js ++ ⟨s, m, b, md, f⟩ :: ks) (branch s.other .tmp mb md leaf n) := by
  have hnd := hap.nodup
  have htmp := hap.tmp
  simp only [List.nodup_cons, List.nodup_append, List.mem_cons, List.mem_append, not_or] at hnd htmp
  obtain ⟨hta, htm, ⟨⟨htn, htf⟩, htj⟩, htk⟩ := htmp
  obtain ⟨-, ⟨⟨⟨hmn, hmf⟩, hmj⟩, hmk⟩, ⟨⟨hndn, hndf, hdf⟩, hndj, hdj⟩, hndk, hdk⟩ := hnd
  obtain ⟨which, t₁, hwhich, he₁, hjs₁, hr₁, hout₁, hc₁⟩ := setTmp_spec h hndj hmj
  have hn₁ : Rep t₁.mem (some m) (some s) n := h.near.frame fun z hz =>
    hout₁ z fun hzj => hdj z (.inl hz) z hzj rfl
  obtain ⟨t', he', hn', hout', hr', hc'⟩ : ∃ t', (if n.root ≠ none then
      t₁.modify n.root (·.setParent (some .tmp)) else pure t₁) = .ok t' ∧
      Rep t'.mem (some .tmp) (some s) n ∧ (∀ y, n.root ≠ some y → t'.mem y = t₁.mem y) ∧
      t'.mRoot = t₁.mRoot ∧ SameCount t₁ t' := by
    cases n with
    | leaf => exact ⟨t₁, rfl, trivial, fun _ _ => rfl, rfl, .refl t₁⟩
    | node => exact setParent_spec hn₁ hndn (by simp) (some .tmp)
  have hout : ∀ z ∉ n.names, z ∉ frameNames js → t'.mem z = t.mem z := by
    intro z hzn hzj
    rw [hout' z fun he => hzn (root_mem_names he), hout₁ z hzj]
  have hchild : s.other.pick none n.root (if s.other.pick none n.root .right ≠ none then
      .right else .left) = n.root := by
    cases s <;> cases n <;> rfl
  refine ⟨t', ?_, hc₁.trans hc', ?_, ?_, repFrames_append.mpr ⟨?_, ?_, ?_, ?_⟩, ?_, ?_⟩
  · unfold putTmp
    simp only [node_eq h.tmp, ok_bind, hwhich, index, he₁, hchild]
    exact he'
  · intro z hz _
    simp only [List.mem_cons, List.mem_append, not_or] at hz
    exact hout z hz.2.2.1.1.1 hz.2.2.1.2
  · rw [parentOf_append, whichOf_append, rep_branch, Side.other_other]
    refine ⟨?_, trivial, hn'⟩
    rw [hout _ htn htj, h.tmp]
    rfl
  · exact hjs₁.frame fun z hz => hout' z fun he => hdj z (.inl (root_mem_names he)) z hz rfl
  · rw [hout m hmn hmj, h.spot, root_branch]
  · exact h.far.frame fun z hz => hout z (fun hzn => hdf z hzn z hz rfl)
      fun hzj => hdj z (.inr hz) z hzj rfl
  · exact h.upper.frame fun z hz => hout z (fun hzn => hdk z (.inl (.inl hzn)) z hz rfl)
      fun hzj => hdk z (.inr hzj) z hz rfl
  · rw [hr', hr₁, h.root, root_branch, rootOf_append]
  · rw [names_around_perm.nodup_iff, List.nodup_cons]
    exact ⟨fun hm => hap.tmp (List.mem_cons_of_mem _ hm), (List.nodup_cons.mp hap.nodup).2⟩

/-- A node with two children: its neighbour is at its spot, and the temporary has at
most one child. -/
theorem swapNeighbour_spec {c : Side → SideTree Addr α} (h : Holds t w (plug ks (node a b d c)))
    (hc : ∀ s, c s ≠ leaf) :
    ∃ t' s m mb md n f js,
      t.swapNeighbour ⟨fun s => (c s).root, parentOf none ks, whichOf w ks, b, d⟩ = .ok t' ∧
      plug (js ++ ⟨s, a, b, d, f⟩ :: ks) (branch s.other m mb md leaf n) =
        plug ks (node a b d c) ∧
      (∀ j ∈ js, j.side = s.other) ∧ Apart a m n f js ks ∧ SameCount t t' ∧
      SameOutside t t' a m n f js ks ∧
      Zip t' w (js ++ ⟨s, m, b, md, f⟩ :: ks) (branch s.other .tmp mb md leaf n) := by
  obtain ⟨s, hs⟩ : ∃ s : Side, s = if b ≤ 0 then .left else .right := ⟨_, rfl⟩
  have hz : Zip t w (⟨s, a, b, d, c s.other⟩ :: ks) (c s) := by
    rw [zip_cons, Frame.fill, ← node_eq_branch s]
    exact h.atNode
  have hplug : plug (⟨s, a, b, d, c s.other⟩ :: ks) (c s) = plug ks (node a b d c) := by
    rw [plug, Frame.fill, ← node_eq_branch s]
  have hfuel : (c s).height ≤ t.allocs + 1 := (h.height_le _ hplug).trans (Nat.le_succ _)
  obtain ⟨js, m, mb, md, n, he, hjs, hrun⟩ := lastOn_spec s.other (c s) hz (hc s) hfuel
  have hwhole : plug (js ++ ⟨s, a, b, d, c s.other⟩ :: ks) (branch s.other m mb md leaf n) =
      plug ks (node a b d c) := by
    rw [plug_append, ← he, hplug]
  have hroot : (c s).root = rootOf (some m) js := by
    rw [he, root_plug, root_branch]
  have hchildren : (fun s => (c s).root) = s.pick (rootOf (some m) js) (c s.other).root := by
    rw [← hroot, Side.pick_eta s fun s => (c s).root]
  rw [he] at hz
  have hap : Apart a m n (c s.other) js ks := by
    have hnames : (plug ks (node a b d c)).names.Perm _ := hwhole ▸ names_around_perm
    have hswap := hnames.trans (List.Perm.swap _ _ _)
    exact ⟨hswap.nodup_iff.mp h.zip.nodup, fun hm => h.tmp (hswap.mem_iff.mpr hm)⟩
  obtain ⟨t₁, he₁, hmoved, hc₁, ho₁⟩ := moveToSpot_spec hap (hc s.other) (zip_plug.mpr hz)
  obtain ⟨t', he', hc', ho', hz'⟩ := putTmp_spec hap hmoved
  refine ⟨t', s, m, mb, md, n, c s.other, js, ?_, hwhole, hjs, hap, hc₁.trans hc',
    fun z hz hzt => (ho' z hz hzt).trans (ho₁ z hz hzt), hz'⟩
  unfold swapNeighbour
  simp only [← hs]
  rw [hrun, ok_bind, hchildren, he₁, ok_bind, he']

end Swap

structure Removed (t' : AvlTree α) (l : List (Addr × α)) (a : Addr) : Prop where
  holds : ∃ w y xs ys d, Holds t' w y ∧ l = xs ++ (a, d) :: ys ∧ y.toList = xs ++ ys

section Remove
variable {t t' : AvlTree α} {ks : List (Frame Addr α)} {x : SideTree Addr α} {a : Addr}

theorem unlink_zero {p old : Addr} (h : t.mNumNodes = 0) :
    t.unlink p old = .error .assertion := by
  unfold unlink
  rw [check, if_neg (by omega), error_bind]

theorem Unlinked.holds {l : List (Addr × α)} (h : Unlinked t t' w ks x a)
    (hlen : l.length = (plug ks x).toList.length + 1) (hnum : t.mNumNodes = l.length % 2 ^ 32)
    (hpos : 0 < t.mNumNodes) (hsize : l.length ≤ t.allocs) (htmp : .tmp ∉ (plug ks x).names)
    (hout : ∀ z ∉ (plug ks x).names, z ≠ a → z ≠ .tmp → t.mem z = none) :
    ∃ y, Holds (t'.store .tmp none) w y ∧ y.toList = (plug ks x).toList := by
  obtain ⟨y, hz, hb, hl⟩ := h.tree
  have hnames : y.names = (plug ks x).names := by
    unfold names
    rw [hl]
  refine ⟨y, ⟨⟨?_, trivial, hz.root, hz.nodup⟩, hb, fun z hzm => ?_, ?_, ?_, ?_⟩, hl⟩
  · exact hz.tree.frame fun z hm => store_mem_ne (ne_of_mem_of_not_mem (hnames ▸ hm) htmp)
  · rw [hnames] at hzm
    by_cases hzt : z = .tmp
    · rw [hzt, store_mem_self]
    rw [store_mem_ne hzt]
    by_cases hza : z = a
    · rw [hza, h.freed]
    · rw [h.outside z hzm hza, hout z hzm hza hzt]
  · rw [hnames]
    exact htmp
  · show t'.mNumNodes = _
    rw [h.num, hl]
    rw [hnum, hlen] at hpos ⊢
    omega
  · show _ ≤ t'.allocs
    rw [h.allocs, hl]
    omega

theorem framesLength_le (h : Holds t w (plug ks x)) : ks.length ≤ t.allocs := by
  have h₁ := length_le_frameNames ks
  have h₂ : (plug ks x).names.length = (plug ks x).toList.length := List.length_map _
  rw [names_plug_perm.length_eq, List.length_append] at h₂
  have h₃ := h.size
  omega

theorem unlink_removes {s : Side} {b : Int} {d : α}
    (h : Holds t w (plug ks (branch s a b d leaf x))) (hpos : 0 < t.mNumNodes) :
    ∃ t', t.unlink a a = .ok t' ∧ Removed t' (plug ks (branch s a b d leaf x)).toList a := by
  obtain ⟨hbal, hks⟩ := balanced_plug.mp h.balanced
  rw [height_branch] at hks
  have hperm : (plug ks (branch s a b d leaf x)).names.Perm (a :: (plug ks x).names) := by
    refine names_plug_perm.trans ((names_branch_perm.append_right _).trans (.cons _ ?_))
    exact names_plug_perm.symm
  obtain ⟨ha, -⟩ := List.nodup_cons.mp (hperm.nodup_iff.mp h.zip.nodup)
  have htmp := h.tmp
  rw [hperm.mem_iff, List.mem_cons, not_or] at htmp
  obtain ⟨t', he, hu⟩ := unlink_spec h.atNode (balanced_branch.mp hbal).2.2.2.2
    (by rw [show x.height + 1 = 1 + max leaf.height x.height by simp [height, add_comm]]; exact hks)
    ha hpos (framesLength_le h)
  have hlen := hperm.length_eq
  simp only [names, List.length_map, List.length_cons] at hlen
  have hout : ∀ z ∉ (plug ks x).names, z ≠ a → z ≠ .tmp → t.mem z = none := by
    intro z hz hza _
    apply h.outside
    rw [hperm.mem_iff, List.mem_cons, not_or]
    exact ⟨hza, hz⟩
  obtain ⟨y, hy, hl⟩ := hu.holds hlen h.num hpos h.size htmp.2 hout
  have hnone : t'.mem .tmp = none := (hu.outside _ htmp.2 htmp.1).trans (h.outside _ h.tmp)
  rw [store_none hnone] at hy
  rw [toList_plug] at hl ⊢
  rw [toList_branch]
  cases s with
  | left => exact ⟨t', he, w, y, before ks, x.toList ++ after ks, d, hy, by simp [toList], by simp [hl]⟩
  | right => exact ⟨t', he, w, y, before ks ++ x.toList, after ks, d, hy, by simp [toList], hl⟩

theorem swap_removes {b : Int} {d : α} {c : Side → SideTree Addr α}
    (h : Holds t w (plug ks (node a b d c))) (hc : ∀ s, c s ≠ leaf) (hpos : 0 < t.mNumNodes) :
    ∃ t₁ t₂,
      t.swapNeighbour ⟨fun s => (c s).root, parentOf none ks, whichOf w ks, b, d⟩ = .ok t₁ ∧
      t₁.unlink .tmp a = .ok t₂ ∧
      Removed (t₂.store .tmp none) (plug ks (node a b d c)).toList a := by
  obtain ⟨t₁, s, m, mb, md, n, f, js, he₁, hwhole, hjs, hap, hc₁, ho₁, hz₁⟩ :=
    swapNeighbour_spec h hc
  rw [← hwhole] at h ⊢
  obtain ⟨hbal, hks⟩ := balanced_plug.mp h.balanced
  rw [height_branch] at hks
  have hnames : (plug (js ++ ⟨s, m, b, md, f⟩ :: ks) (branch s.other Addr.tmp mb md leaf n)).names.Perm
      (Addr.tmp :: (plug (js ++ ⟨s, m, b, md, f⟩ :: ks) n).names) :=
    names_plug_perm.trans ((names_branch_perm.append_right _).trans (names_plug_perm.symm.cons _))
  have hrest : (plug (js ++ ⟨s, m, b, md, f⟩ :: ks) n).names.Perm
      (m :: (n.names ++ f.names ++ frameNames js ++ frameNames ks)) :=
    (hnames.symm.trans names_around_perm).cons_inv
  have ha : a ∉ (plug (js ++ ⟨s, m, b, md, f⟩ :: ks) n).names := by
    rw [hrest.mem_iff]
    exact (List.nodup_cons.mp hap.nodup).1
  have htmp : Addr.tmp ∉ (plug (js ++ ⟨s, m, b, md, f⟩ :: ks) n).names := by
    rw [hrest.mem_iff]
    exact fun hm => hap.tmp (List.mem_cons_of_mem _ hm)
  have hframes : (js ++ (⟨s, m, b, md, f⟩ : Frame Addr α) :: ks).length ≤ t₁.allocs := by
    have := framesLength_le h
    rw [hc₁.allocs]
    simpa using this
  obtain ⟨t₂, he₂, hu⟩ := unlink_spec hz₁ (balanced_branch.mp hbal).2.2.2.2
    (by
      rw [show n.height + 1 = 1 + max leaf.height n.height by simp [height, add_comm]]
      exact framesBalanced_rename hks)
    ha (by rw [hc₁.num]; exact hpos) hframes
  obtain ⟨xs, ys, hold, hnew⟩ : ∃ xs ys,
      (plug (js ++ ⟨s, a, b, d, f⟩ :: ks) (branch s.other m mb md leaf n)).toList =
        xs ++ (a, d) :: ys ∧ (plug (js ++ ⟨s, m, b, md, f⟩ :: ks) n).toList = xs ++ ys := by
    simp only [toList_plug, before_append, after_append, before, after, toList_branch]
    cases s with
    | left =>
      rw [after_right hjs]
      exact ⟨before ks ++ before js ++ n.toList ++ [(m, md)], f.toList ++ after ks,
        by simp [Side.other, toList], by simp⟩
    | right =>
      rw [before_left hjs]
      exact ⟨before ks ++ f.toList, (m, md) :: n.toList ++ after js ++ after ks,
        by simp [Side.other, toList], by simp⟩
  have hnum : t₁.mNumNodes = (xs ++ (a, d) :: ys).length % 2 ^ 32 := by
    rw [hc₁.num, h.num, hold]
  have hsize : (xs ++ (a, d) :: ys).length ≤ t₁.allocs := by
    rw [hc₁.allocs, ← hold]
    exact h.size
  have hout : ∀ z ∉ (plug (js ++ ⟨s, m, b, md, f⟩ :: ks) n).names, z ≠ a → z ≠ .tmp →
      t₁.mem z = none := by
    intro z hz hza hzt
    rw [hrest.mem_iff] at hz
    rw [ho₁ z (List.not_mem_cons_of_ne_of_not_mem hza hz) hzt]
    apply h.outside
    rw [(names_around_perm.trans (List.Perm.swap _ _ _)).mem_iff]
    exact List.not_mem_cons_of_ne_of_not_mem hza hz
  obtain ⟨y, hy, hl⟩ := hu.holds (by rw [hnew]; simp; omega) hnum (by rw [hc₁.num]; exact hpos)
    hsize htmp hout
  exact ⟨t₁, t₂, he₁, he₂, w, y, xs, ys, d, hy, hold, hl.trans hnew⟩

/-- `remove_node` of a node of the tree takes it out, or fails its assertion if the
counter is zero. -/
theorem removeNode_spec (h : Holds t w x) (ha : a ∈ x.names) :
    (0 < t.mNumNodes ∧ ∃ t', t.removeNode (some a) = .ok t' ∧ Removed t' x.toList a) ∨
    (t.mNumNodes = 0 ∧ t.removeNode (some a) = .error .assertion) := by
  obtain ⟨ks, b, d, c, rfl⟩ := exists_plug x ha
  have hroot : ∀ s, (c s).root = none ↔ c s = leaf := by
    intro s
    cases c s <;> simp [root]
  unfold removeNode
  simp only [node_eq h.atNode.tree.1, ok_bind]
  by_cases hc : ∀ s, c s ≠ leaf
  · rw [if_pos ⟨mt (hroot _).mp (hc .left), mt (hroot _).mp (hc .right)⟩]
    rcases Nat.eq_zero_or_pos t.mNumNodes with hzero | hpos
    · obtain ⟨t₁, s, m, mb, md, n, f, js, he₁, -, -, -, hc₁, -, -⟩ := swapNeighbour_spec h hc
      refine .inr ⟨hzero, ?_⟩
      rw [he₁, ok_bind, unlink_zero (hc₁.num.trans hzero), error_bind]
    · obtain ⟨t₁, t₂, he₁, he₂, hr⟩ := swap_removes h hc hpos
      refine .inl ⟨hpos, _, ?_, hr⟩
      rw [he₁, ok_bind, he₂]
      rfl
  · have hone : ∃ s, c s = leaf := by
      simpa using hc
    obtain ⟨s, hs⟩ := hone
    have hif : ¬((c .left).root ≠ none ∧ (c .right).root ≠ none) := by
      rintro ⟨hl, hr⟩
      cases s
      · exact hl ((hroot _).mpr hs)
      · exact hr ((hroot _).mpr hs)
    rw [if_neg hif]
    rcases Nat.eq_zero_or_pos t.mNumNodes with hzero | hpos
    · exact .inr ⟨hzero, unlink_zero hzero⟩
    · rw [node_eq_branch s, hs] at h ⊢
      exact .inl ⟨hpos, unlink_removes h hpos⟩

theorem Removed.mem {t' : AvlTree α} {l : List (Addr × α)} (h : Removed t' l a) : ∃ d, (a, d) ∈ l := by
  obtain ⟨w, y, xs, ys, d, -, rfl, -⟩ := h.holds
  exact ⟨d, by simp⟩

theorem remove_spec {κ : Type} [LinearOrder κ] {key : α → κ} (h : Holds t w x)
    (hinc : Increasing key x.toList) (v : α) :
    ((∀ e ∈ x.toList, key e.2 ≠ key v) ∧ t.remove key v = .ok t) ∨
    (∃ a d, (a, d) ∈ x.toList ∧ key d = key v ∧ t.remove key v = t.removeNode (some a)) := by
  unfold remove
  rcases findNode_spec h hinc v with ⟨js, he, hz, rfl, hv⟩ | ⟨js, a, b, d, c, he, hz, rfl, hkey⟩
  · refine .inl ⟨fun e hm => ?_, by rw [he]; rfl⟩
    rw [toList_plug, toList, List.append_nil, List.mem_append] at hm
    rcases hm with hm | hm
    · exact (hv.lower e hm).ne
    · exact (hv.upper e hm).ne'
  · refine .inr ⟨a, d, ?_, hkey, ?_⟩
    · rw [toList_plug, toList]
      simp
    · rw [he, ok_bind]
      simp

end Remove

end EchoFs.Avl
