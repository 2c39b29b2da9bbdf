import EchoFs.Avl.Rotation

/-! Insertion: the new node goes into a hole of the tree, and the balances are put
right on the way up. -/

namespace EchoFs.Avl
open Checked SideTree AvlTree

variable {α : Type} {t : AvlTree α} {w : Option Side} {ks : List (Frame Addr α)}
  {k : Frame Addr α} {x : SideTree Addr α}

theorem Zip.node_frame (h : Zip t w (k :: ks) x) : t.node (some k.a) =
    .ok ⟨k.side.pick x.root k.o.root, parentOf none ks, whichOf w ks, k.b, k.d⟩ :=
  node_eq h.frames.1

theorem toList_setBalance (b : Int) : (plug ({ k with b := b } :: ks) x).toList =
    (plug (k :: ks) x).toList := by
  rw [toList_plug, toList_plug]
  rfl

theorem Zip.setBalance (h : Zip t w (k :: ks) x) (b : Int) :
    ∃ t', t.modify (some k.a) (·.setBalance b) = .ok t' ∧ Zip t' w ({ k with b := b } :: ks) x ∧
      SameCount t t' ∧ ∀ z ∉ (plug (k :: ks) x).names, t'.mem z = t.mem z := by
  obtain ⟨hk, ho, hks⟩ := h.frames
  have hnd := ((frameNames_cons_perm.append_left x.names).nodup_iff).mp h.nodup_append
  simp only [List.nodup_append, List.nodup_cons, List.mem_cons, List.mem_append, not_or] at hnd
  obtain ⟨_, ⟨⟨hko, hkk⟩, _⟩, hx⟩ := hnd
  refine ⟨_, modify_eq hk _, ⟨?_, ⟨store_mem_self, ?_, ?_⟩, h.root, ?_⟩, sameCount_store _ _ _, ?_⟩
  · exact h.tree.frame fun z hz => store_mem_ne (hx z hz k.a (.inl rfl))
  · exact ho.frame fun z hz => store_mem_ne (ne_of_mem_of_not_mem hz hko)
  · exact hks.frame fun z hz => store_mem_ne (ne_of_mem_of_not_mem hz hkk)
  · unfold names
    rw [toList_setBalance]
    exact h.nodup
  · intro z hz
    apply store_mem_ne
    rintro rfl
    exact hz (mem_names_plug.mpr (.inr (mem_frameNames_cons.mpr (.inl rfl))))

theorem Rebuilt.whole {t' : AvlTree α} {x' : SideTree Addr α} (h : Rebuilt t t' w ks x x')
    (hks : FramesBalanced ks x'.height) : Rebuilt t t' w [] (plug ks x) (plug ks x') where
  zip := h.zip.whole
  balanced := balanced_plug.mpr ⟨h.balanced, hks⟩
  toList := by rw [toList_plug, toList_plug, h.toList]
  count := h.count
  outside := h.outside

theorem Rebuilt.trans {t₁ t₂ t₃ : AvlTree α} {js : List (Frame Addr α)}
    {x₁ x₂ x₃ : SideTree Addr α} (h : Rebuilt t₂ t₃ w js x₂ x₃) (hc : SameCount t₁ t₂)
    (hout : ∀ z ∉ (plug js x₁).names, t₂.mem z = t₁.mem z) (hl : x₂.toList = x₁.toList) :
    Rebuilt t₁ t₃ w js x₁ x₃ where
  zip := h.zip
  balanced := h.balanced
  toList := h.toList.trans hl
  count := hc.trans h.count
  outside := fun z hz => by
    have hn : (plug js x₂).names = (plug js x₁).names := by
      unfold names
      rw [toList_plug, toList_plug, hl]
    rw [h.outside z (by rw [hn]; exact hz), hout z hz]

/-- The loop of `insert_at`: the tree `x` is one level higher than its frames are
balanced for. -/
theorem insertLoop_spec (ks : List (Frame Addr α)) : ∀ {t : AvlTree α} {x : SideTree Addr α}
    {h fuel : Nat}, Zip t w ks x → x.Balanced → x.height = h + 1 → FramesBalanced ks h →
    (x.balance ≠ 0 ∨ h = 0) → ks.length < fuel →
    ∃ t' y, insertLoop fuel t (parentOf none ks) (whichOf w ks) = .ok t' ∧
      Rebuilt t t' w [] (plug ks x) y := by
  induction ks with
  | nil =>
    intro t x h fuel hz hb _ _ _ hfuel
    obtain ⟨n, rfl⟩ : ∃ n, fuel = n + 1 := ⟨fuel - 1, by simp at hfuel; omega⟩
    exact ⟨t, x, rfl, hz, hb, rfl, .refl t, fun _ _ => rfl⟩
  | cons k ks ih =>
    intro t x h fuel hz hb hh hks hbal hfuel
    obtain ⟨n, rfl⟩ : ∃ n, fuel = n + 1 := ⟨fuel - 1, by simp at hfuel; omega⟩
    obtain ⟨hkb, hlo, hhi, ho, hup⟩ := hks
    have hs := k.side.sign_cases
    simp only [parentOf, whichOf, insertLoop, hz.node_frame, ok_bind, index]
    by_cases hnew : k.b + k.side.sign = 0
    · -- the other side was higher
      rw [if_pos hnew]
      obtain ⟨t', he, hz', hc, hout⟩ := hz.setBalance 0
      refine ⟨t', plug ({ k with b := 0 } :: ks) x, he, hz'.whole,
        balanced_plug.mpr ⟨hb, ?_, by simp, by simp, ho, ?_⟩, toList_setBalance _, hc, hout⟩
      · simp only
        rcases hs with hs | hs <;> rw [hs] at hkb hnew ⊢ <;> omega
      · have : 1 + max x.height k.o.height = 1 + max h k.o.height := by
          rcases hs with hs | hs <;> rw [hs] at hkb hnew <;> omega
        simp only [this]
        exact hup
    rw [if_neg hnew]
    by_cases hzero : k.b = 0
    · -- this side is higher now, and the tree above has grown
      rw [if_neg (by simp [hzero])]
      obtain ⟨t₁, he₁, hz₁, hc₁, hout₁⟩ := hz.setBalance (k.b + k.side.sign)
      have hho : k.o.height = h := by
        rcases hs with hs | hs <;> rw [hs] at hkb <;> omega
      have hfill : (Frame.fill { k with b := k.b + k.side.sign } x).Balanced := by
        refine balanced_branch.mpr ⟨?_, ?_, ?_, hb, ho⟩ <;> simp only <;>
          rcases hs with hs | hs <;> rw [hs] at hkb ⊢ <;> omega
      rw [he₁, ok_bind]
      obtain ⟨t', y, he, hr⟩ := ih (h := h + 1) (zip_cons.mp hz₁) hfill
        (by rw [height_fill]; simp only; omega)
        (by rw [show h + 1 = 1 + max h k.o.height by omega]; exact hup)
        (.inl (by
          show k.b + k.side.sign ≠ 0
          exact hnew)) (by simp at hfuel; omega)
      exact ⟨t', y, he, hr.trans hc₁ hout₁ (toList_setBalance _)⟩
    · -- this side was higher already
      rw [if_pos hzero]
      have htwo : k.b + k.side.sign = 2 * k.side.sign := by
        rcases hs with hs | hs <;> rw [hs] at hkb hnew ⊢ <;> omega
      have hho : h = k.o.height + 1 := by
        rcases hs with hs | hs <;> rw [hs] at hkb hnew <;> omega
      obtain ⟨t', shorter, x', he, hr, hht, hsh⟩ :=
        rotation_spec (zip_cons.mp hz) hb ho (by omega)
      obtain rfl : shorter = true := hsh (hbal.resolve_right (by omega))
      rw [htwo, he]
      refine ⟨t', _, rfl, hr.whole ?_⟩
      rw [hht]
      simp only [if_true]
      rw [show k.o.height + 2 = 1 + max h k.o.height by omega]
      exact hup

theorem Zip.vacant (h : Zip t w ks leaf) : t.vacant ⟨parentOf none ks, whichOf w ks⟩ = .ok () := by
  unfold AvlTree.vacant
  cases ks with
  | nil =>
    rw [if_neg (by simp [parentOf])]
    exact check_ok h.root
  | cons k ks =>
    rw [if_pos (by simp [parentOf])]
    simp only [parentOf, whichOf, h.node_frame, ok_bind, index]
    apply check_ok
    rw [Side.pick_self]
    rfl

/-- A new node in the hole of the tree. -/
theorem insertAt_spec {new : Nat} (d : α) (hh : Holds t w (plug ks leaf)) (hz : Zip t w ks leaf)
    (hnew : t.mem (.heap new) = none) :
    ∃ t' y, t.insertAt new d ⟨parentOf none ks, whichOf w ks⟩ = .ok t' ∧ Holds t' w y ∧
      y.toList = before ks ++ (.heap new, d) :: after ks := by
  have hfresh : ∀ z ∈ (plug ks leaf).names, z ≠ .heap new := by
    rintro z hzm rfl
    obtain ⟨m, hm⟩ := hz.mem_some _ hzm
    rw [hnew] at hm
    cases hm
  have hframes : ∀ z ∈ frameNames ks, z ≠ .heap new := fun z hzm =>
    hfresh z (mem_names_plug.mpr (.inr hzm))
  have hnd : (frameNames ks).Nodup := (List.nodup_append.mp hz.nodup_append).2.1
  set n : Node α := ⟨fun _ => none, parentOf none ks, whichOf w ks, 0, d⟩ with hn
  set t₁ : AvlTree α := AvlTree.store { t with
    mNumNodes := (t.mNumNodes + 1) % 2 ^ 32, allocs := t.allocs + 1 } (.heap new) (some n) with ht₁
  have hout₁ : ∀ z, z ≠ .heap new → t₁.mem z = t.mem z := fun z hzn => store_mem_ne hzn
  have hks₁ : RepFrames t₁.mem none w none ks :=
    hz.frames.frame fun z hzm => hout₁ z (hframes z hzm)
  have hz₁ : Zip t₁ w ks leaf := ⟨trivial, hks₁, hz.root, hz.nodup⟩
  have hnot : Addr.heap new ∉ frameNames ks := fun hm => hframes _ hm rfl
  have hrep : Rep t₁.mem (parentOf none ks) (whichOf w ks)
      (node (.heap new) 0 d fun _ => leaf) := ⟨store_mem_self, fun _ => trivial⟩
  have hnd' : (plug ks (node (.heap new) 0 d fun _ => leaf)).names.Nodup := by
    rw [names_plug_perm.nodup_iff]
    exact List.nodup_cons.mpr ⟨hnot, hnd⟩
  obtain ⟨t₂, he₂, hz₂, hout₂, hc₂⟩ := relink_zip hks₁ hz.root hrep hnd'
  have hframesBal : FramesBalanced ks 0 := (balanced_plug.mp hh.balanced).2
  have hlen : (plug ks leaf).toList.length = (before ks ++ after ks).length := by
    rw [toList_plug]
    simp [toList]
  have hfuel : ks.length < t₂.allocs + 1 := by
    have h₁ := length_le_frameNames ks
    have h₂ : (frameNames ks).length = (before ks ++ after ks).length := List.length_map _
    have h₃ := hh.size
    have h₄ : t₂.allocs = t.allocs + 1 := hc₂.allocs
    omega
  obtain ⟨t', y, he, hr⟩ := insertLoop_spec ks (h := 0) hz₂
    ⟨by simp [height], by decide, by decide, fun _ => trivial⟩ (by simp [height]) hframesBal
    (.inr rfl) hfuel
  have hlist : y.toList = before ks ++ (.heap new, d) :: after ks := by
    rw [hr.toList, toList_plug]
    simp [toList]
  have hylen : y.toList.length = (plug ks leaf).toList.length + 1 := by
    rw [hlist, hlen, List.length_append, List.length_cons, List.length_append]
    omega
  have hnames : y.names = (plug ks (node (.heap new) 0 d fun _ => leaf)).names := by
    unfold names
    rw [hr.toList]
  refine ⟨t', y, ?_, ⟨hr.zip, hr.balanced, fun z hzm => ?_, ?_, ?_, ?_⟩, hlist⟩
  · unfold insertAt
    simp only
    rw [root] at he₂
    rw [← hn, ← ht₁, hz₁.vacant, ok_bind, he₂, ok_bind, he]
  · rw [hnames] at hzm
    obtain ⟨hzn, hzk⟩ := not_or.mp (mt mem_names_plug.mpr hzm)
    have hzn' : z ≠ .heap new := by
      rintro rfl
      exact hzn (root_mem_names rfl)
    rw [hr.outside z hzm, hout₂ z hzk, hout₁ z hzn']
    exact hh.outside z fun hm => hzk ((mem_names_plug.mp hm).resolve_left (by simp [names, toList]))
  · rw [hnames, mem_names_plug]
    rintro (hm | hm)
    · simp [names, toList] at hm
    · exact hh.tmp (mem_names_plug.mpr (.inr hm))
  · rw [hr.count.num, hc₂.num, hylen]
    show (t.mNumNodes + 1) % 2 ^ 32 = _
    rw [hh.num, Nat.mod_add_mod]
  · rw [hr.count.allocs, hc₂.allocs, hylen]
    exact Nat.succ_le_succ hh.size

end EchoFs.Avl
