import EchoFs.RangeLock.Table

/-! What the tree operations and the helpers of `range_lock.cpp` do to a table
whose entries are in order, at an entry whose place is known. -/

namespace EchoFs.RangeLock
open Checked Slots

abbrev Ordered (l : List Node) : Prop :=
  Intervals.Ordered (fun n : Node => n.data.mStart) (fun n => n.data.mEnd) l

theorem ordered_cons {n : Node} {r : List Node} :
    Ordered (n :: r) ↔ n.data.mStart < n.data.mEnd ∧
      (∀ m ∈ r, n.data.mEnd ≤ m.data.mStart) ∧ Ordered r := Intervals.ordered_cons

theorem ordered_append {l r : List Node} :
    Ordered (l ++ r) ↔ Ordered l ∧ Ordered r ∧
      ∀ a ∈ l, ∀ b ∈ r, a.data.mEnd ≤ b.data.mStart := Intervals.ordered_append

theorem Ordered.lt {l : List Node} (h : Ordered l) {n : Node} (hn : n ∈ l) :
    n.data.mStart < n.data.mEnd := h.1 n hn

abbrev Spread (l : List Node) : Prop :=
  Intervals.Spread (fun n : Node => n.data.mStart) (fun n => n.data.mEnd) l

theorem spread_cons {n : Node} {r : List Node} :
    Spread (n :: r) ↔ n.data.mStart ≤ n.data.mEnd ∧
      (∀ m ∈ r, n.data.mEnd ≤ m.data.mStart ∧ n.data.mStart < m.data.mStart) ∧ Spread r :=
  Intervals.spread_cons

theorem spread_append {l r : List Node} :
    Spread (l ++ r) ↔ Spread l ∧ Spread r ∧
      ∀ a ∈ l, ∀ b ∈ r, a.data.mEnd ≤ b.data.mStart ∧ a.data.mStart < b.data.mStart :=
  Intervals.spread_append

theorem Ordered.spread {l : List Node} (h : Ordered l) : Spread l := Intervals.Ordered.spread h

theorem Spread.le {l : List Node} (h : Spread l) {n : Node} (hn : n ∈ l) :
    n.data.mStart ≤ n.data.mEnd := h.1 n hn

/-- The entries on both sides of an entry. -/
theorem Spread.around {L R : List Node} {n : Node} (hO : Spread (L ++ n :: R)) :
    (∀ m ∈ L, m.data.mEnd ≤ n.data.mStart ∧ m.data.mStart < n.data.mStart) ∧
      ∀ m ∈ R, n.data.mEnd ≤ m.data.mStart ∧ n.data.mStart < m.data.mStart := by
  obtain ⟨_, hnR, hcross⟩ := spread_append.mp hO
  exact ⟨fun m hm => hcross m hm n List.mem_cons_self, (spread_cons.mp hnR).2.1⟩

/-- The entries are in the order of their keys, whether they overlap or not. -/
abbrev Keyed (l : List Node) : Prop := l.Pairwise fun a b => a.data.mStart < b.data.mStart

theorem Spread.keyed {l : List Node} (h : Spread l) : Keyed l := h.2.imp And.right

theorem Keyed.around {L R : List Node} {n : Node} (hO : Keyed (L ++ n :: R)) :
    (∀ m ∈ L, m.data.mStart < n.data.mStart) ∧ ∀ m ∈ R, n.data.mStart < m.data.mStart := by
  obtain ⟨-, hnR, hcross⟩ := List.pairwise_append.mp hO
  exact ⟨fun m hm => hcross m hm n List.mem_cons_self, (List.pairwise_cons.mp hnR).1⟩

theorem Spread.le_starts {L R : List Node} {n : Node} (hO : Spread (L ++ n :: R)) :
    ∀ m ∈ n :: R, n.data.mStart ≤ m.data.mStart := by
  intro m hm
  rcases List.mem_cons.mp hm with rfl | hm
  · exact le_rfl
  · exact (hO.around.2 m hm).2.le

theorem Spread.between {L R : List Node} {m : Node} (hO : Spread (L ++ R))
    (hm : m.data.mStart ≤ m.data.mEnd)
    (hL : ∀ p ∈ L, p.data.mEnd ≤ m.data.mStart ∧ p.data.mStart < m.data.mStart)
    (hR : ∀ p ∈ R, m.data.mEnd ≤ p.data.mStart ∧ m.data.mStart < p.data.mStart) :
    Spread (L ++ m :: R) := by
  obtain ⟨hOL, hOR, hcross⟩ := spread_append.mp hO
  refine spread_append.mpr ⟨hOL, spread_cons.mpr ⟨hm, hR, hOR⟩, fun a ha b hb => ?_⟩
  rcases List.mem_cons.mp hb with rfl | hb
  · exact hL a ha
  · exact hcross a ha b hb

theorem Spread.replace {L R : List Node} {n m : Node} (hO : Spread (L ++ n :: R))
    (hs : m.data.mStart = n.data.mStart) (he : m.data.mEnd = n.data.mEnd) :
    Spread (L ++ m :: R) := by
  obtain ⟨hL, hR⟩ := hO.around
  obtain ⟨hOL, hnR, hcross⟩ := spread_append.mp hO
  obtain ⟨hn, _, hOR⟩ := spread_cons.mp hnR
  refine Spread.between (spread_append.mpr ⟨hOL, hOR, fun a ha b hb =>
    hcross a ha b (List.mem_cons_of_mem _ hb)⟩) (by omega) ?_ ?_
  · rwa [hs]
  · rwa [hs, he]

/-- Every descriptor has an address of its own, none of them the null node's. -/
structure Table.AddrOk (t : Table) : Prop where
  nodup : (addrs (t.nodes ++ t.removed)).Nodup
  pos : ∀ a ∈ addrs (t.nodes ++ t.removed), nullNodeData < a
  lt : ∀ a ∈ addrs (t.nodes ++ t.removed), a < t.fresh
  fresh_pos : nullNodeData < t.fresh

namespace Table
variable {t : Table} {L R : List Node} {n : Node}

theorem AddrOk.nodes_nodup (h : t.AddrOk) : (addrs t.nodes).Nodup := by
  have := h.nodup
  rw [addrs_append] at this
  exact (List.nodup_append.mp this).1

theorem AddrOk.notMem_removed (h : t.AddrOk) (hn : n ∈ t.nodes) : n.addr ∉ addrs t.removed := by
  intro hr
  have := h.nodup
  rw [addrs_append] at this
  exact (List.nodup_append.mp this).2.2 _ (mem_addrs hn) _ hr rfl

theorem AddrOk.notMem_nodes (h : t.AddrOk) {m : Node} (hm : m ∈ t.removed) :
    m.addr ∉ addrs t.nodes := by
  intro hr
  obtain ⟨n, hn, he⟩ := exists_of_mem_addrs hr
  exact h.notMem_removed hn (he ▸ mem_addrs hm)

theorem AddrOk.fresh_notMem (h : t.AddrOk) : t.fresh ∉ addrs (t.nodes ++ t.removed) :=
  fun hm => absurd (h.lt _ hm) (lt_irrefl _)

theorem AddrOk.around (h : t.AddrOk) (hn : t.nodes = L ++ n :: R) :
    n.addr ∉ addrs L ∧ n.addr ∉ addrs R := notMem_of_nodup_mid (hn ▸ h.nodes_nodup)

theorem AddrOk.eq_of_addr (h : t.AddrOk) {m : Node} (hn : n ∈ t.nodes) (hm : m ∈ t.nodes)
    (he : n.addr = m.addr) : n = m := by
  have h₁ := get?_of_mem h.nodes_nodup hn
  have h₂ := get?_of_mem h.nodes_nodup hm
  rw [he, h₂] at h₁
  cases n
  cases m
  simp_all

/-- Only addresses matter, and only as a set without repetitions. -/
theorem AddrOk.of_perm {t' : Table} (h : t.AddrOk)
    (hp : (addrs (t'.nodes ++ t'.removed)).Perm (addrs (t.nodes ++ t.removed)))
    (hf : t.fresh ≤ t'.fresh) : t'.AddrOk :=
  ⟨hp.nodup_iff.mpr h.nodup, fun a ha => h.pos a (hp.mem_iff.mp ha),
    fun a ha => (h.lt a (hp.mem_iff.mp ha)).trans_le hf, h.fresh_pos.trans_le hf⟩

theorem AddrOk.of_sublist {t' : Table} (h : t.AddrOk)
    (hs : (addrs (t'.nodes ++ t'.removed)).Sublist (addrs (t.nodes ++ t.removed)))
    (hf : t.fresh ≤ t'.fresh) : t'.AddrOk :=
  ⟨h.nodup.sublist hs, fun a ha => h.pos a (hs.subset ha),
    fun a ha => (h.lt a (hs.subset ha)).trans_le hf, h.fresh_pos.trans_le hf⟩

/-- The table after `new` has put a node between `L` and `R`. -/
theorem AddrOk.insert {r : Range} (h : t.AddrOk) (hn : t.nodes = L ++ R) :
    AddrOk { t with nodes := L ++ ⟨t.fresh, r⟩ :: R, fresh := t.fresh + 1 } := by
  have hperm : (addrs ((L ++ ⟨t.fresh, r⟩ :: R) ++ t.removed)).Perm
      (t.fresh :: addrs (t.nodes ++ t.removed)) := by
    rw [hn]
    simp only [addrs_append, addrs_cons, List.append_assoc, List.cons_append]
    exact List.perm_middle
  refine ⟨?_, ?_, ?_, h.fresh_pos.trans (Nat.lt_succ_self _)⟩
  · exact hperm.nodup_iff.mpr (List.nodup_cons.mpr ⟨h.fresh_notMem, h.nodup⟩)
  · intro a ha
    rcases List.mem_cons.mp (hperm.mem_iff.mp ha) with rfl | ha
    · exact h.fresh_pos
    · exact h.pos a ha
  · intro a ha
    rcases List.mem_cons.mp (hperm.mem_iff.mp ha) with rfl | ha
    · exact Nat.lt_succ_self _
    · exact (h.lt a ha).trans (Nat.lt_succ_self _)

theorem get_node (h : t.AddrOk) (hn : n ∈ t.nodes) : t.get n.addr = .ok n.data := by
  simp only [get, get?_of_mem h.nodup (List.mem_append_left _ hn)]

theorem get_removed (h : t.AddrOk) {m : Node} (hm : m ∈ t.removed) : t.get m.addr = .ok m.data := by
  simp only [get, get?_of_mem h.nodup (List.mem_append_right _ hm)]

theorem get_at (h : t.AddrOk) {a : Nat} {r : Range} (hn : t.nodes = L ++ ⟨a, r⟩ :: R) :
    t.get a = .ok r := get_node (n := ⟨a, r⟩) h (by simp [hn])

theorem modify_at (h : t.AddrOk) {a : Nat} {r : Range} (hn : t.nodes = L ++ ⟨a, r⟩ :: R)
    (f : Range → Range) : t.modify a f = { t with nodes := L ++ ⟨a, f r⟩ :: R } := by
  have hm : ⟨a, r⟩ ∈ t.nodes := by simp [hn]
  obtain ⟨hL, hR⟩ := h.around hn
  simp only [modify, modify_of_notMem f (h.notMem_removed hm)]
  rw [hn, modify_mid (n := ⟨a, r⟩) f hL hR]

theorem modify_removed (h : t.AddrOk) {m : Node} {D E : List Node} (hm : t.removed = D ++ m :: E)
    (f : Range → Range) : t.modify m.addr f = { t with removed := D ++ ⟨m.addr, f m.data⟩ :: E } := by
  have hmem : m ∈ t.removed := by simp [hm]
  have hnd : (addrs t.removed).Nodup := by
    have := h.nodup
    rw [addrs_append] at this
    exact (List.nodup_append.mp this).2.1
  obtain ⟨hD, hE⟩ := notMem_of_nodup_mid (hm ▸ hnd)
  simp only [modify, modify_of_notMem f (h.notMem_nodes hmem)]
  rw [hm, modify_mid f hD hE]

theorem AddrOk.modify (h : t.AddrOk) (a : Nat) (f : Range → Range) : (t.modify a f).AddrOk :=
  h.of_perm (by simp [Table.modify]) le_rfl

theorem modify_spec (h : t.AddrOk) {a : Nat} {r : Range} (hn : t.nodes = L ++ ⟨a, r⟩ :: R)
    (f : Range → Range) : (t.modify a f).AddrOk ∧ (t.modify a f).removed = t.removed ∧
      (t.modify a f).nodes = L ++ ⟨a, f r⟩ :: R := by
  have hA := h.modify a f
  rw [modify_at h hn f] at hA ⊢
  exact ⟨hA, rfl, rfl⟩

theorem size_pos (hc : t.nodes.length % 2 ^ 32 ≠ 0) : t.size > 0 := Nat.pos_of_ne_zero hc

theorem removeNode_node (h : t.AddrOk) (hn : t.nodes = L ++ n :: R)
    (hc : t.nodes.length % 2 ^ 32 ≠ 0) :
    t.removeNode n.addr = .ok { t with nodes := L ++ R, removed := n :: t.removed } := by
  obtain ⟨hL, hR⟩ := h.around hn
  simp only [removeNode, check_ok (size_pos hc), ok_bind, pure_eq_ok]
  simp only [hn, get?_mid hL, erase_mid hL hR]

/-- With a multiple of `2 ^ 32` entries the counter is zero, and nothing can be taken out. -/
theorem removeNode_wrapped (hc : t.nodes.length % 2 ^ 32 = 0) (a : Nat) :
    t.removeNode a = .error .assertion := by
  have hzero : ¬t.size > 0 := not_lt.mpr hc.le
  simp only [removeNode, check, if_neg hzero, error_bind]

theorem AddrOk.removeNode (h : t.AddrOk) (hn : t.nodes = L ++ n :: R) :
    AddrOk { t with nodes := L ++ R, removed := n :: t.removed } := by
  refine h.of_perm ?_ le_rfl
  rw [hn]
  simp only [addrs_append, addrs_cons, List.append_assoc, List.cons_append]
  exact List.perm_middle.append_left _

theorem AddrOk.delete (h : t.AddrOk) (a : Nat) : (t.delete a).AddrOk := by
  refine h.of_sublist ?_ le_rfl
  simp only [Table.delete, addrs_append]
  exact List.Sublist.append_left (List.filter_sublist.map _) _

theorem next_node (h : t.AddrOk) (hn : t.nodes = L ++ n :: R) :
    t.next n.addr = R.head?.map Slot.addr := by
  rw [next, hn, nextOf_mid (h.around hn).1]

theorem insertIdx_length (hn : t.nodes = L ++ R) (r : Range) :
    t.insertIdx L.length r =
      ({ t with nodes := L ++ ⟨t.fresh, r⟩ :: R, fresh := t.fresh + 1 }, t.fresh) := by
  simp [insertIdx, hn]

theorem insertHere_after (h : t.AddrOk) {a : Nat} {s : Range}
    (hn : t.nodes = L ++ ⟨a, s⟩ :: R) (r : Range) :
    t.insertHere r a .after =
      .ok ({ t with nodes := (L ++ [⟨a, s⟩]) ++ ⟨t.fresh, r⟩ :: R, fresh := t.fresh + 1 },
        t.fresh) := by
  have hmem : a ∈ addrs t.nodes := mem_addrs (n := ⟨a, s⟩) (by simp [hn])
  have hidx : (addrs t.nodes).idxOf a = L.length := by
    rw [hn, addrs_append, addrs_cons, List.idxOf_append_of_notMem (h.around hn).1,
      List.idxOf_cons_self]
    simp [addrs]
  have hn' : t.nodes = (L ++ [⟨a, s⟩]) ++ R := by simp [hn]
  have hlen : L.length + 1 = (L ++ [(⟨a, s⟩ : Node)]).length := by simp
  simp only [insertHere, if_pos hmem, hidx, hlen, insertIdx_length hn']

theorem insertHere_spec (h : t.AddrOk) {a : Nat} {s : Range}
    (hn : t.nodes = L ++ ⟨a, s⟩ :: R) (r : Range) :
    ∃ t' b, t.insertHere r a .after = .ok (t', b) ∧ t'.AddrOk ∧ t'.removed = t.removed ∧
      t'.nodes = L ++ ⟨a, s⟩ :: ⟨b, r⟩ :: R := by
  refine ⟨_, _, insertHere_after h hn r, h.insert (by simp [hn]), rfl, ?_⟩
  simp

theorem find_between (hn : t.nodes = L ++ R) {k : Int} (hL : ∀ m ∈ L, m.data.mStart < k)
    (hR : ∀ m ∈ R, k < m.data.mStart) : t.find k = (none, .at L.length) := by
  have hnone : t.nodes.find? (fun m => m.data.mStart = k) = none := by
    rw [List.find?_eq_none]
    intro m hm
    simp only [decide_eq_true_eq]
    rcases List.mem_append.mp (hn ▸ hm) with hm | hm
    · exact (hL m hm).ne
    · exact (hR m hm).ne'
  have hcL : L.countP (fun m => m.data.mStart < k) = L.length :=
    List.countP_eq_length.mpr fun m hm => by simpa using hL m hm
  have hcR : R.countP (fun m => m.data.mStart < k) = 0 :=
    List.countP_eq_zero.mpr fun m hm => by simpa using (hR m hm).le
  simp only [find, hnone]
  rw [hn, List.countP_append, hcL, hcR, add_zero]

theorem find_at (hn : t.nodes = L ++ n :: R) (hL : ∀ m ∈ L, m.data.mStart ≠ n.data.mStart) :
    t.find n.data.mStart = (some n.addr, .null) := by
  have hnone : L.find? (fun m => m.data.mStart = n.data.mStart) = none := by
    rw [List.find?_eq_none]
    intro m hm
    simpa using hL m hm
  simp only [find, hn, List.find?_append, hnone, Option.none_or]
  simp

theorem add_between (hn : t.nodes = L ++ R) {r : Range} (hL : ∀ m ∈ L, m.data.mStart < r.mStart)
    (hR : ∀ m ∈ R, r.mStart < m.data.mStart) :
    t.add r = .ok ({ t with nodes := L ++ ⟨t.fresh, r⟩ :: R, fresh := t.fresh + 1 }, t.fresh) := by
  simp only [add, find_between hn hL hR, insertAt, insertIdx_length hn, pure_eq_ok]

theorem add_spec (h : t.AddrOk) (hn : t.nodes = L ++ R) {r : Range}
    (hL : ∀ m ∈ L, m.data.mStart < r.mStart) (hR : ∀ m ∈ R, r.mStart < m.data.mStart) :
    ∃ t' b, t.add r = .ok (t', b) ∧ t'.AddrOk ∧ t'.removed = t.removed ∧
      t'.nodes = L ++ ⟨b, r⟩ :: R :=
  ⟨_, _, add_between hn hL hR, h.insert hn, rfl, rfl⟩

theorem nearest_before (hn : t.nodes = L ++ R) (hne : t.nodes ≠ []) :
    t.nearest (.at L.length) .before = L.getLast?.map Slot.addr := by
  have hcons : ∃ m l, t.nodes = m :: l := List.exists_cons_of_ne_nil hne
  obtain ⟨m, l, hml⟩ := hcons
  simp only [nearest, hml]
  rw [← hml, hn]
  rcases List.eq_nil_or_concat L with rfl | ⟨L', p, rfl⟩
  · simp
  · simp

theorem nearest_after (hn : t.nodes = L ++ R) (hne : t.nodes ≠ []) :
    t.nearest (.at L.length) .after = R.head?.map Slot.addr := by
  obtain ⟨m, l, hml⟩ := List.exists_cons_of_ne_nil hne
  simp only [nearest, hml]
  rw [← hml, hn]
  rw [List.getElem?_append_right le_rfl, Nat.sub_self, List.head?_eq_getElem?]

end Table
end EchoFs.RangeLock
