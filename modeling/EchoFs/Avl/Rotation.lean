import EchoFs.Avl.Rep

/-! `rotation` in memory: the child, or the grandchild, takes the place of the
node, and every pointer follows. -/

namespace EchoFs.Avl
open Checked SideTree AvlTree

variable {α : Type} {t : AvlTree α} {w : Option Side} {ks : List (Frame Addr α)} {s : Side}
  {a c g : Addr} {b cb gb : Int} {d cd gd : α} {x y p q f : SideTree Addr α}

theorem near_eq (s : Side) : (if 2 * s.sign < 0 then Side.left else .right) = s := by
  cases s <;> rfl

theorem heavy_eq (s : Side) : (2 * s.sign) >>> (1 : Nat) = s.sign := by cases s <;> rfl

theorem Zip.nodup_child (h : Zip t w ks (branch s a b d (branch s c cb cd x y) f)) :
    (a :: c :: (x.names ++ y.names ++ f.names ++ frameNames ks)).Nodup := by
  have hperm : (branch s a b d (branch s c cb cd x y) f).names.Perm
      (a :: (c :: (x.names ++ y.names) ++ f.names)) :=
    names_branch_perm.trans ((names_branch_perm.append_right _).cons a)
  have hall := (hperm.append_right (frameNames ks)).nodup_iff.mp h.nodup_append
  simpa only [List.cons_append] using hall

theorem rotation_single (h : Zip t w ks (branch s a b d (branch s c cb cd x y) f))
    (hcb : cb ≠ -s.sign) :
    ∃ t', t.rotation a (2 * s.sign) = .ok (t', cb - s.sign == 0) ∧
      Zip t' w ks (single s a c d cd (cb - s.sign) x y f) ∧ SameCount t t' ∧
      ∀ z ∉ (plug ks (branch s a b d (branch s c cb cd x y) f)).names, t'.mem z = t.mem z := by
  obtain ⟨ha, hX, hf⟩ := rep_branch.mp h.tree
  obtain ⟨hc, hx, hy⟩ := rep_branch.mp hX
  rw [root_branch] at ha
  have hnd := h.nodup_child
  simp only [List.nodup_cons, List.mem_cons, List.mem_append, not_or, List.nodup_append] at hnd
  obtain ⟨⟨hac, ⟨⟨hax, hay⟩, haf⟩, hak⟩, ⟨⟨⟨hcx, hcy⟩, hcf⟩, hck⟩, ⟨⟨-, hxy₂, hxy⟩, -, hxyf⟩, -,
    hk⟩ := hnd
  -- the node takes the inner grandchild
  set t₁ := t.store a (some ⟨s.pick y.root f.root, parentOf none ks, whichOf w ks, b, d⟩) with ht₁
  have hy₁ : Rep t₁.mem (some c) (some s.other) y :=
    hy.frame fun z hz => store_mem_ne fun he => hay (he ▸ hz)
  obtain ⟨t₂, he₂, hy₂, hsame₂, hr₂, hn₂⟩ := adopt_spec hy₁ hxy₂ (some a) (some s)
  have hout₂ : ∀ z ∉ y.names, t₂.mem z = t₁.mem z := fun z hz =>
    hsame₂ z fun hr => hz (root_mem_names hr)
  -- then it goes below the child
  set t₃ := t₂.store c (some ⟨s.pick x.root (some a), some a, some s, cb, cd⟩) with ht₃
  set t₄ := t₃.store a (some ⟨s.pick y.root f.root, some c, some s.other, -(cb - s.sign), d⟩)
    with ht₄
  set t₅ := t₄.store c
    (some ⟨s.pick x.root (some a), parentOf none ks, whichOf w ks, cb - s.sign, cd⟩) with ht₅
  have hc₂ : t₂.mem c = some ⟨s.pick x.root y.root, some a, some s, cb, cd⟩ := by
    rw [hout₂ c hcy, ht₁, store_mem_ne (Ne.symm hac), hc]
  have ha₃ : t₃.mem a = some ⟨s.pick y.root f.root, parentOf none ks, whichOf w ks, b, d⟩ := by
    rw [ht₃, store_mem_ne hac, hout₂ a hay, ht₁, store_mem_self]
  have hc₄ : t₄.mem c = some ⟨s.pick x.root (some a), some a, some s, cb, cd⟩ := by
    rw [ht₄, store_mem_ne (Ne.symm hac), ht₃, store_mem_self]
  have hout₅ : ∀ z, z ≠ a → z ≠ c → t₅.mem z = t₂.mem z := by
    intro z hza hzc
    rw [ht₅, store_mem_ne hzc, ht₄, store_mem_ne hza, ht₃, store_mem_ne hzc]
  have ha₅ : t₅.mem a = some ⟨s.pick y.root f.root, some c, some s.other, -(cb - s.sign), d⟩ := by
    rw [ht₅, store_mem_ne hac, ht₄, store_mem_self]
  have hkeep : ∀ z, z ≠ a → z ≠ c → z ∉ y.names → t₅.mem z = t.mem z := by
    intro z hza hzc hzy
    rw [hout₅ z hza hzc, hout₂ z hzy, ht₁, store_mem_ne hza]
  have hks : RepFrames t₅.mem none w (some a) ks := h.frames.frame fun z hz => by
    apply hkeep
    · exact ne_of_mem_of_not_mem hz hak
    · exact ne_of_mem_of_not_mem hz hck
    · exact fun hzy => hk z (.inl (.inr hzy)) z hz rfl
  have hrep : Rep t₅.mem (parentOf none ks) (whichOf w ks)
      (single s a c d cd (cb - s.sign) x y f) := by
    refine rep_branch.mpr ⟨?_, ?_, rep_branch.mpr ⟨ha₅, ?_, ?_⟩⟩
    · rw [ht₅, store_mem_self]
      rfl
    · refine hx.frame fun z hz => ?_
      apply hkeep
      · exact ne_of_mem_of_not_mem hz hax
      · exact ne_of_mem_of_not_mem hz hcx
      · exact fun hzy => hxy z hz z hzy rfl
    · refine hy₂.frame fun z hz => ?_
      apply hout₅
      · exact ne_of_mem_of_not_mem hz hay
      · exact ne_of_mem_of_not_mem hz hcy
    · refine hf.frame fun z hz => ?_
      apply hkeep
      · exact ne_of_mem_of_not_mem hz haf
      · exact ne_of_mem_of_not_mem hz hcf
      · exact fun hzy => hxyf z (.inr hzy) z hz rfl
  have hnd' : (plug ks (single s a c d cd (cb - s.sign) x y f)).names.Nodup := by
    unfold names
    rw [toList_plug, toList_single, ← toList_plug]
    exact h.nodup
  obtain ⟨t₆, he₆, hz₆, hout₆, hn₆⟩ := relink_zip hks (hr₂.trans h.root) hrep hnd'
  have hrun : t.rotation a (2 * s.sign) = .ok (t₆, cb - s.sign == 0) := by
    rw [single, root_branch] at he₆
    unfold AvlTree.rotation
    simp only [near_eq, heavy_eq, node_eq ha, ok_bind, Side.pick_self, Side.pick_other, node_eq hc,
      if_pos hcb, ← sub_eq_add_neg, modify_eq ha, Node.setChild, Side.update_pick]
    rw [← ht₁, he₂]
    simp only [ok_bind, modify_eq hc₂, Side.update_pick_other, ← ht₃, modify_eq ha₃,
      Node.setBalance, Node.setPlace, ← ht₄, modify_eq hc₄, ← ht₅, he₆, pure_eq_ok]
  refine ⟨t₆, hrun, hz₆, ⟨hn₆.num.trans hn₂.num, hn₆.allocs.trans hn₂.allocs⟩, fun z hz => ?_⟩
  simp only [mem_names_plug, mem_names_branch, not_or] at hz
  obtain ⟨⟨hza, ⟨hzc, _, hzy⟩, _⟩, hzk⟩ := hz
  rw [hout₆ z hzk, hkeep z hza hzc hzy]

theorem Zip.nodup_grandchild
    (h : Zip t w ks (branch s a b d (branch s c cb cd x (branch s g gb gd p q)) f)) :
    (a :: c :: g :: (x.names ++ p.names ++ q.names ++ f.names ++ frameNames ks)).Nodup := by
  have hperm : (a :: c :: (x.names ++ (branch s g gb gd p q).names ++ f.names ++
      frameNames ks)).Perm
      (a :: c :: g :: (x.names ++ p.names ++ q.names ++ f.names ++ frameNames ks)) := by
    apply List.Perm.cons
    apply List.Perm.cons
    have hmid : (x.names ++ (branch s g gb gd p q).names).Perm
        (g :: (x.names ++ p.names ++ q.names)) := by
      apply (names_branch_perm.append_left x.names).trans
      rw [List.append_assoc]
      exact List.perm_middle
    exact (hmid.append_right _).append_right _
  exact hperm.nodup_iff.mp h.nodup_child

theorem rotation_double
    (h : Zip t w ks (branch s a b d (branch s c (-s.sign) cd x (branch s g gb gd p q)) f)) :
    ∃ t', t.rotation a (2 * s.sign) = .ok (t', true) ∧
      Zip t' w ks (double s a c g d cd gd (if gb = -s.sign then s.sign else 0)
        (if gb = s.sign then -s.sign else 0) x p q f) ∧ SameCount t t' ∧
      ∀ z ∉ (plug ks (branch s a b d (branch s c (-s.sign) cd x (branch s g gb gd p q)) f)).names,
        t'.mem z = t.mem z := by
  obtain ⟨ha, hX, hf⟩ := rep_branch.mp h.tree
  obtain ⟨hc, hx, hY⟩ := rep_branch.mp hX
  obtain ⟨hg, hp, hq⟩ := rep_branch.mp hY
  rw [root_branch] at ha hc
  have hnd := h.nodup_grandchild
  simp only [List.nodup_cons, List.mem_cons, List.mem_append, not_or, List.nodup_append] at hnd
  obtain ⟨⟨hac, hag, ⟨⟨⟨hax, hap⟩, haq⟩, haf⟩, hak⟩, ⟨hcg, ⟨⟨⟨hcx, hcp⟩, hcq⟩, hcf⟩, hck⟩,
    ⟨⟨⟨⟨hgx, hgp⟩, hgq⟩, hgf⟩, hgk⟩, ⟨⟨⟨-, hp₁, hxp⟩, hq₁, hxpq⟩, -, hxpqf⟩, -, hk⟩ := hnd
  set e : Int := if gb = -s.sign then s.sign else 0 with he
  set i : Int := if gb = s.sign then -s.sign else 0 with hi
  -- the outer grandchildren go to the node and to the child
  set t₁ := t.store a (some ⟨s.pick q.root f.root, parentOf none ks, whichOf w ks, b, d⟩) with ht₁
  have hq' : Rep t₁.mem (some g) (some s.other) q :=
    hq.frame fun z hz => store_mem_ne fun he => haq (he ▸ hz)
  obtain ⟨t₂, he₂, hq₂, hsame₂, hr₂, hn₂⟩ := adopt_spec hq' hq₁ (some a) (some s)
  have hout₂ : ∀ z ∉ q.names, t₂.mem z = t₁.mem z := fun z hz =>
    hsame₂ z fun hr => hz (root_mem_names hr)
  have hc₂ : t₂.mem c = some ⟨s.pick x.root (some g), some a, some s, -s.sign, cd⟩ := by
    rw [hout₂ c hcq, ht₁, store_mem_ne (Ne.symm hac), hc]
  set t₃ := t₂.store c (some ⟨s.pick x.root p.root, some a, some s, -s.sign, cd⟩) with ht₃
  have hp' : Rep t₃.mem (some g) (some s) p := hp.frame fun z hz => by
    have hza : z ≠ a := by
      exact ne_of_mem_of_not_mem hz hap
    have hzc : z ≠ c := by
      exact ne_of_mem_of_not_mem hz hcp
    rw [ht₃, store_mem_ne hzc, hout₂ z fun hzq => hxpq z (.inr hz) z hzq rfl, ht₁, store_mem_ne hza]
  obtain ⟨t₄, he₄, hp₄, hsame₄, hr₄, hn₄⟩ := adopt_spec hp' hp₁ (some c) (some s.other)
  have hout₄ : ∀ z ∉ p.names, t₄.mem z = t₃.mem z := fun z hz =>
    hsame₄ z fun hr => hz (root_mem_names hr)
  -- the grandchild takes the child and the node
  set t₅ := t₄.store g (some ⟨s.pick (some c) q.root, some c, some s.other, gb, gd⟩) with ht₅
  set t₆ := t₅.store c (some ⟨s.pick x.root p.root, some g, some s, e, cd⟩) with ht₆
  set t₇ := t₆.store g (some ⟨s.pick (some c) (some a), some c, some s.other, gb, gd⟩) with ht₇
  set t₈ := t₇.store a (some ⟨s.pick q.root f.root, some g, some s.other, i, d⟩) with ht₈
  set t₉ := t₈.store g (some ⟨s.pick (some c) (some a), parentOf none ks, whichOf w ks, 0, gd⟩)
    with ht₉
  have hg₄ : t₄.mem g = some ⟨s.pick p.root q.root, some c, some s.other, gb, gd⟩ := by
    rw [hout₄ g hgp, ht₃, store_mem_ne (Ne.symm hcg), hout₂ g hgq, ht₁, store_mem_ne (Ne.symm hag),
      hg]
  have hc₅ : t₅.mem c = some ⟨s.pick x.root p.root, some a, some s, -s.sign, cd⟩ := by
    rw [ht₅, store_mem_ne hcg, hout₄ c hcp, ht₃, store_mem_self]
  have hg₆ : t₆.mem g = some ⟨s.pick (some c) q.root, some c, some s.other, gb, gd⟩ := by
    rw [ht₆, store_mem_ne (Ne.symm hcg), ht₅, store_mem_self]
  have ha₇ : t₇.mem a = some ⟨s.pick q.root f.root, parentOf none ks, whichOf w ks, b, d⟩ := by
    rw [ht₇, store_mem_ne hag, ht₆, store_mem_ne hac, ht₅, store_mem_ne hag, hout₄ a hap, ht₃,
      store_mem_ne hac, hout₂ a haq, ht₁, store_mem_self]
  have hg₈ : t₈.mem g = some ⟨s.pick (some c) (some a), some c, some s.other, gb, gd⟩ := by
    rw [ht₈, store_mem_ne (Ne.symm hag), ht₇, store_mem_self]
  have ha₉ : t₉.mem a = some ⟨s.pick q.root f.root, some g, some s.other, i, d⟩ := by
    rw [ht₉, store_mem_ne hag, ht₈, store_mem_self]
  have hc₉ : t₉.mem c = some ⟨s.pick x.root p.root, some g, some s, e, cd⟩ := by
    rw [ht₉, store_mem_ne hcg, ht₈, store_mem_ne (Ne.symm hac), ht₇, store_mem_ne hcg, ht₆,
      store_mem_self]
  have hout₉ : ∀ z, z ≠ a → z ≠ c → z ≠ g → t₉.mem z = t₄.mem z := by
    intro z hza hzc hzg
    rw [ht₉, store_mem_ne hzg, ht₈, store_mem_ne hza, ht₇, store_mem_ne hzg, ht₆, store_mem_ne hzc,
      ht₅, store_mem_ne hzg]
  have hkeep : ∀ z, z ≠ a → z ≠ c → z ≠ g → z ∉ p.names → z ∉ q.names → t₉.mem z = t.mem z := by
    intro z hza hzc hzg hzp hzq
    rw [hout₉ z hza hzc hzg, hout₄ z hzp, ht₃, store_mem_ne hzc, hout₂ z hzq, ht₁, store_mem_ne hza]
  have hks : RepFrames t₉.mem none w (some a) ks := h.frames.frame fun z hz => by
    apply hkeep
    · exact ne_of_mem_of_not_mem hz hak
    · exact ne_of_mem_of_not_mem hz hck
    · exact ne_of_mem_of_not_mem hz hgk
    · exact fun hzp => hk z (.inl (.inl (.inr hzp))) z hz rfl
    · exact fun hzq => hk z (.inl (.inr hzq)) z hz rfl
  have hrep : Rep t₉.mem (parentOf none ks) (whichOf w ks)
      (double s a c g d cd gd e i x p q f) := by
    refine rep_branch.mpr ⟨?_, rep_branch.mpr ⟨hc₉, ?_, ?_⟩, rep_branch.mpr ⟨ha₉, ?_, ?_⟩⟩
    · rw [ht₉, store_mem_self]
      rfl
    · refine hx.frame fun z hz => ?_
      apply hkeep
      · exact ne_of_mem_of_not_mem hz hax
      · exact ne_of_mem_of_not_mem hz hcx
      · exact ne_of_mem_of_not_mem hz hgx
      · exact fun hzp => hxp z hz z hzp rfl
      · exact fun hzq => hxpq z (.inl hz) z hzq rfl
    · refine hp₄.frame fun z hz => ?_
      apply hout₉
      · exact ne_of_mem_of_not_mem hz hap
      · exact ne_of_mem_of_not_mem hz hcp
      · exact ne_of_mem_of_not_mem hz hgp
    · refine hq₂.frame fun z hz => ?_
      have hzc : z ≠ c := by
        exact ne_of_mem_of_not_mem hz hcq
      rw [hout₉ z _ hzc, hout₄ z fun hzp => hxpq z (.inr hzp) z hz rfl, ht₃, store_mem_ne hzc]
      · exact ne_of_mem_of_not_mem hz hgq
      · exact ne_of_mem_of_not_mem hz haq
    · refine hf.frame fun z hz => ?_
      apply hkeep
      · exact ne_of_mem_of_not_mem hz haf
      · exact ne_of_mem_of_not_mem hz hcf
      · exact ne_of_mem_of_not_mem hz hgf
      · exact fun hzp => hxpqf z (.inl (.inr hzp)) z hz rfl
      · exact fun hzq => hxpqf z (.inr hzq) z hz rfl
  have hnd' : (plug ks (double s a c g d cd gd e i x p q f)).names.Nodup := by
    unfold names
    rw [toList_plug, toList_double, ← toList_plug]
    exact h.nodup
  obtain ⟨t', he', hz', hout', hn'⟩ := relink_zip hks ((hr₄.trans hr₂).trans h.root) hrep hnd'
  have hrun : t.rotation a (2 * s.sign) = .ok (t', true) := by
    rw [double, root_branch] at he'
    unfold AvlTree.rotation
    simp only [near_eq, heavy_eq, node_eq ha, ok_bind, Side.pick_self, Side.pick_other, node_eq hc,
      ne_eq, not_true_eq_false, if_false, node_eq hg, modify_eq ha, Node.setChild, Side.update_pick]
    rw [← ht₁, he₂]
    simp only [ok_bind, modify_eq hc₂, Side.update_pick_other]
    rw [← ht₃, he₄]
    simp only [ok_bind, modify_eq hg₄, Side.update_pick, ← ht₅, modify_eq hc₅, Node.setBalance,
      Node.setPlace, ← he, ← ht₆, modify_eq hg₆, Side.update_pick_other, ← ht₇, modify_eq ha₇, ← hi,
      ← ht₈, modify_eq hg₈, ← ht₉, he', pure_eq_ok]
  refine ⟨t', hrun, hz', ⟨hn'.num.trans (hn₄.num.trans hn₂.num),
    hn'.allocs.trans (hn₄.allocs.trans hn₂.allocs)⟩, fun z hz => ?_⟩
  simp only [mem_names_plug, mem_names_branch, not_or] at hz
  obtain ⟨⟨hza, ⟨hzc, _, hzg, hzp, hzq⟩, _⟩, hzk⟩ := hz
  rw [hout' z hzk, hkeep z hza hzc hzg hzp hzq]

/-- What becomes of the tree `x` inside its frames: a balanced tree with the same
nodes in the same order, and nothing else in memory. -/
structure Rebuilt (t t' : AvlTree α) (w : Option Side) (ks : List (Frame Addr α))
    (x x' : SideTree Addr α) : Prop where
  zip : Zip t' w ks x'
  balanced : x'.Balanced
  toList : x'.toList = x.toList
  count : SameCount t t'
  outside : ∀ z ∉ (plug ks x).names, t'.mem z = t.mem z

/-- `rotation` of a node that leans to side `s` by two. It tells whether the tree has
become lower, which it has unless the child was in balance. -/
theorem rotation_spec {n : SideTree Addr α} (h : Zip t w ks (branch s a b d n f))
    (hn : n.Balanced) (hf : f.Balanced) (hh : n.height = f.height + 2) :
    ∃ t' shorter x', t.rotation a (2 * s.sign) = .ok (t', shorter) ∧
      Rebuilt t t' w ks (branch s a b d n f) x' ∧
      x'.height = f.height + (if shorter then 2 else 3) ∧ (n.balance ≠ 0 → shorter = true) := by
  obtain ⟨c, cb, cd, x, y, rfl⟩ : ∃ c cb cd x y, n = branch s c cb cd x y := by
    cases n with
    | leaf => simp [height] at hh
    | node c cb cd cc => exact ⟨c, cb, cd, cc s, cc s.other, node_eq_branch s c cb cd cc⟩
  by_cases hcb : cb = -s.sign
  · subst hcb
    obtain ⟨g, gb, gd, p, q, rfl⟩ : ∃ g gb gd p q, y = branch s g gb gd p q := by
      cases y with
      | leaf =>
        have hbal := (balanced_branch.mp hn).1
        simp only [height] at hbal
        obtain hs | hs := s.sign_cases <;> rw [hs] at hbal <;> omega
      | node g gb gd gc => exact ⟨g, gb, gd, gc s, gc s.other, node_eq_branch s g gb gd gc⟩
    obtain ⟨t', he, hz, hc, hout⟩ := rotation_double h
    obtain ⟨hbal, hht⟩ := balanced_double (a := a) (d := d) hn hf hh
    exact ⟨t', true, _, he, ⟨hz, hbal, toList_double _ _, hc, hout⟩, hht, fun _ => rfl⟩
  · obtain ⟨t', he, hz, hc, hout⟩ := rotation_single h hcb
    obtain ⟨hbal, hht⟩ := balanced_single (a := a) (d := d) hn hf hh hcb
    refine ⟨t', _, _, he, ⟨hz, hbal, toList_single _, hc, hout⟩, ?_, fun hne => ?_⟩
    · by_cases hz : cb - s.sign = 0
      · simp only [hz, if_true, beq_self_eq_true] at hht ⊢
        omega
      · simp only [if_neg hz, beq_iff_eq] at hht ⊢
        omega
    · have hne : cb ≠ 0 := hne
      obtain ⟨_, hlo, hhi, _, _⟩ := balanced_branch.mp hn
      rw [beq_iff_eq]
      obtain hs | hs := s.sign_cases <;> rw [hs] at hcb ⊢ <;> omega

end EchoFs.Avl
