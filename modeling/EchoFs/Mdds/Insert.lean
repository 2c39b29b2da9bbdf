import Mathlib.Data.List.Nodup
import EchoFs.Mdds.Leaves

/-! `insert_front` and `insert_back` on the leaf nodes: the list in memory stays linked
both ways, and what it holds changes as an interval map does. -/

namespace EchoFs.Mdds
open Checked Linked IntervalMap

variable {β : Type}

/-- A leaf with its address. -/
abbrev Entry (β : Type) := Nat × Leaf β

abbrev leaves (l : List (Entry β)) : List (Leaf β) := l.map Prod.snd

namespace FlatSegmentTree

variable {t t' : FlatSegmentTree β} {l A R B L M : List (Entry β)} {e b r : Entry β}
  {p q cur endPos : Option Nat} {a fuel : Nat} {key lo hi : Int} {val old w : β} {changed : Bool}

section Access
variable {n : Node β} {f : Node β → Node β}

theorem node_eq (h : t.mem a = some n) : t.node (some a) = .ok n := by
  unfold node
  rw [Option.bind_some, h]

theorem modify_eq (h : t.mem a = some n) : t.modify (some a) f = .ok (t.store a (f n)) := by
  unfold modify
  dsimp only
  rw [node_eq h]
  rfl

theorem setNext_eq (h : t.mem a = some n) (p : Option Nat) :
    t.setNext (some a) p = .ok (t.store a { n with next := p }) := modify_eq h

theorem setPrev_eq (h : t.mem a = some n) (p : Option Nat) :
    t.setPrev (some a) p = .ok (t.store a { n with prev := p }) := modify_eq h

@[simp] theorem store_mem (n : Node β) :
    (t.store a n).mem = Function.update t.mem a (some n) := rfl

@[simp] theorem store_allocs (n : Node β) : (t.store a n).allocs = t.allocs := rfl

end Access

/-- Two trees that differ in the memory of the leaves at most. -/
def SameBut (t t' : FlatSegmentTree β) : Prop := t' = { t with mem := t'.mem }

theorem SameBut.refl (t : FlatSegmentTree β) : SameBut t t := rfl

theorem SameBut.trans {t'' : FlatSegmentTree β} (h : SameBut t t') (h' : SameBut t' t'') :
    SameBut t t'' := by
  unfold SameBut at *
  rw [h', h]

/-- The search from the front passes the leaves below the key. -/
theorem insertionPos (h : Links t.mem p (L ++ R) none) (hL : ∀ e ∈ L, e.2.key < key)
    (hR : ∀ e ∈ R.head?, key ≤ e.2.key) (hfuel : L.length < fuel) :
    t.getInsertionPosLeaf key fuel (first (L ++ R) none) = .ok (first R none) := by
  induction L generalizing p fuel with
  | nil =>
    obtain ⟨fuel, rfl⟩ := Nat.exists_eq_add_one.mpr (Nat.zero_lt_of_lt hfuel)
    cases R with
    | nil => rfl
    | cons r R =>
      rw [List.nil_append, first_cons, getInsertionPosLeaf, node_eq h.1]
      simp only [ok_bind]
      rw [if_pos (hR r rfl)]
      rfl
  | cons e L ih =>
    obtain ⟨fuel, rfl⟩ := Nat.exists_eq_add_one.mpr (Nat.zero_lt_of_lt hfuel)
    rw [List.cons_append, first_cons, getInsertionPosLeaf, node_eq h.1]
    simp only [ok_bind]
    rw [if_neg (not_le.mpr (hL e List.mem_cons_self))]
    exact ih h.2 (fun e he => hL e (List.mem_cons_of_mem _ he)) (Nat.lt_of_succ_lt_succ hfuel)

/-- The search from the back passes the leaves that are not below the key. -/
theorem insertionPosReverse (h : Links t.mem none (L ++ R) q) (hL : ∀ e ∈ L.getLast?, e.2.key < key)
    (hR : ∀ e ∈ R, key ≤ e.2.key) (hfuel : R.length < fuel) :
    t.getInsertionPosLeafReverse key fuel (last none (L ++ R)) = .ok (last none L) := by
  induction R using List.reverseRecOn generalizing q fuel with
  | nil =>
    obtain ⟨fuel, rfl⟩ := Nat.exists_eq_add_one.mpr (Nat.zero_lt_of_lt hfuel)
    rw [List.append_nil] at h ⊢
    induction L using List.reverseRecOn with
    | nil => rfl
    | append_singleton L e _ =>
      rw [last_snoc, getInsertionPosLeafReverse, node_eq (links_snoc.mp h).2]
      simp only [ok_bind]
      rw [if_pos (hL e List.getLast?_concat)]
      rfl
  | append_singleton R e ih =>
    rw [List.length_append, List.length_singleton] at hfuel
    obtain ⟨fuel, rfl⟩ := Nat.exists_eq_add_one.mpr (Nat.zero_lt_of_lt hfuel)
    rw [← List.append_assoc] at h ⊢
    obtain ⟨hfront, he⟩ := links_snoc.mp h
    rw [last_snoc, getInsertionPosLeafReverse, node_eq he]
    simp only [ok_bind]
    rw [if_neg (not_lt.mpr (hR e (List.mem_append_right R List.mem_cons_self)))]
    exact ih hfront (fun e he => hR e (List.mem_append_left _ he)) (by omega)

/-- The last value of the removed leaves, if any was removed. -/
def lastValue (R : List (Entry β)) (old : β) : β := (R.getLast?.map fun e => e.2.val).getD old

/-- The leaves between the new start node and the end position leave the list. -/
theorem disconnect_spec (old : β) (changed : Bool) (h : Links t.mem none (A ++ R ++ B) none)
    (hA : A ≠ []) (hnodup : (addrs (A ++ R ++ B)).Nodup) (hB : B ≠ []) (hfuel : R.length < fuel) :
    ∃ t', disconnect (first B none) fuel t (first (R ++ B) none) old changed =
        .ok (t', lastValue R old, changed || !R.isEmpty) ∧ SameBut t t' ∧
      (∀ a ∉ addrs (A ++ R), t'.mem a = t.mem a) ∧
      Links t'.mem none A (if R = [] then first B none else none) := by
  induction R generalizing t A old changed fuel with
  | nil =>
    obtain ⟨fuel, rfl⟩ := Nat.exists_eq_add_one.mpr (Nat.zero_lt_of_lt hfuel)
    refine ⟨t, ?_, .refl t, fun _ _ => rfl, ?_⟩
    · rw [List.nil_append, disconnect, if_pos rfl]
      simp [lastValue]
    · rw [List.append_nil] at h
      exact (links_append.mp h).1
  | cons c R ih =>
    obtain ⟨fuel, rfl⟩ := Nat.exists_eq_add_one.mpr (Nat.zero_lt_of_lt hfuel)
    obtain ⟨A, e, rfl⟩ := (List.eq_nil_or_concat' A).resolve_left hA
    obtain ⟨b, B, rfl⟩ := List.exists_cons_of_ne_nil hB
    have hsplit : A ++ [e] ++ c :: R ++ b :: B = A ++ e :: c :: (R ++ b :: B) := by simp
    rw [hsplit] at h hnodup
    have he := h.cell
    have hA' := (links_append.mp h).1
    have hc : t.mem c.1 = some ⟨c.2, some e.1, first (R ++ b :: B) none⟩ :=
      (links_append.mp h).2.2.1
    have hrest : Links t.mem (some c.1) (R ++ b :: B) none := (links_append.mp h).2.2.2
    have hnodup' : (addrs ([c] ++ R ++ b :: B)).Nodup := hnodup.sublist
      (List.Sublist.map _ ((List.sublist_cons_self e _).trans (List.sublist_append_right A _)))
    simp only [addrs, List.map_append, List.map_cons, List.nodup_append, List.nodup_cons,
      List.mem_append, List.mem_cons, not_or] at hnodup
    obtain ⟨-, ⟨⟨hec, heR, heb, heB⟩, ⟨hcR, hcb, hcB⟩, -⟩, hdisj⟩ := hnodup
    -- the two stores of the round
    let t₁ := t.store e.1 ⟨e.2, last none A, none⟩
    let t₂ := t₁.store c.1 ⟨c.2, none, first (R ++ b :: B) none⟩
    have hc₁ : t₁.mem c.1 = some ⟨c.2, some e.1, first (R ++ b :: B) none⟩ :=
      (Function.update_of_ne (Ne.symm hec) _ _).trans hc
    have hc₂ : t₂.mem c.1 = some ⟨c.2, none, first (R ++ b :: B) none⟩ := Function.update_self ..
    have he₂ : t₂.mem e.1 = some ⟨e.2, last none A, none⟩ :=
      (Function.update_of_ne hec _ _).trans (Function.update_self ..)
    have hmem₂ : ∀ a, a ≠ e.1 → a ≠ c.1 → t₂.mem a = t.mem a := fun a hae hac =>
      (Function.update_of_ne hac _ _).trans (Function.update_of_ne hae _ _)
    have hround : disconnect (first (b :: B) none) (fuel + 1) t (first (c :: R ++ b :: B) none) old
        changed =
          disconnect (first (b :: B) none) fuel t₂ (first (R ++ b :: B) none) c.2.val true := by
      rw [List.cons_append, first_cons, first_cons, disconnect,
        if_neg fun h => hcb (Option.some.inj h), node_eq hc]
      simp only [ok_bind]
      rw [setNext_eq he, ok_bind, setPrev_eq hc₁, ok_bind, node_eq hc₂]
      rfl
    have hlinks₂ : Links t₂.mem none ([c] ++ R ++ b :: B) none := by
      refine ⟨hc₂, hrest.frame fun a ha => hmem₂ a ?_ ?_⟩ <;> rintro rfl <;>
        simp only [addrs, List.map_append, List.map_cons, List.mem_append, List.mem_cons] at ha <;>
        tauto
    obtain ⟨t', hrun, hsame, hframe, -⟩ := ih c.2.val true hlinks₂ (by simp)
      hnodup' (Nat.lt_of_succ_lt_succ hfuel)
    have hnotMem : ∀ a, a ≠ c.1 → a ∉ R.map Prod.fst → t'.mem a = t₂.mem a := by
      intro a hac haR
      refine hframe a fun ha => ?_
      simp only [addrs, List.map_append, List.map_cons, List.map_nil, List.mem_append,
        List.mem_singleton] at ha
      exact ha.elim hac haR
    refine ⟨t', ?_, hsame, ?_, ?_⟩
    · rw [hround, hrun]
      cases R <;> simp [lastValue, List.getLast?_cons]
    · intro a ha
      simp only [addrs, List.map_append, List.map_cons, List.mem_append, List.mem_cons,
        not_or] at ha
      rw [hnotMem a ha.2.1 ha.2.2, hmem₂ a ha.1.2.1 ha.2.1]
    · rw [if_neg (List.cons_ne_nil c R)]
      refine links_snoc.mpr ⟨hA'.frame fun a ha => ?_, (hnotMem e.1 hec heR).trans he₂⟩
      have hda := hdisj a ha
      rw [hnotMem a (hda c.1 (by simp)) fun hR => hda a (by simp [hR]) rfl,
        hmem₂ a (hda e.1 (by simp)) (hda c.1 (by simp))]

/-- The leaves `l` in memory, linked both ways and with increasing keys. -/
structure Listed (t : FlatSegmentTree β) (l : List (Entry β)) : Prop where
  links : Links t.mem none l none
  nodup : (addrs l).Nodup
  lt : ∀ a ∈ addrs l, a < t.allocs
  sorted : Sorted (leaves l)

theorem Listed.length_le (h : Listed t l) : l.length ≤ t.allocs := length_le_of_nodup h.nodup h.lt

theorem lastValue_eq (h : (leaves L).getLast?.map Leaf.val = some old) :
    (leaves (L ++ M)).getLast?.map Leaf.val = some (lastValue M old) := by
  unfold lastValue
  rw [leaves, List.map_append, List.getLast?_append, List.getLast?_map (l := M)]
  cases M.getLast? with
  | none => simpa using h
  | some e => rfl

/-- A leaf of a new list is at the address that its key had in the list `l`, if it had one. -/
def Stays (l : List (Entry β)) (a : Entry β) : Prop :=
  (∃ e ∈ l, e.1 = a.1 ∧ e.2.key = a.2.key) ∨ ∀ e ∈ l, e.2.key ≠ a.2.key

theorem stays_of_mem (h : e ∈ l) : Stays l e := .inl ⟨e, h, rfl, rfl⟩

theorem stays_left (h : e ∈ L) : Stays (L ++ M ++ B) e :=
  stays_of_mem (List.mem_append_left B (List.mem_append_left M h))

/-- What the first part of `insert_to_pos` leaves: the list up to the new start node, the
leaves to remove, and the list from the end position on. -/
structure Started [DecidableEq β] (t : FlatSegmentTree β) (L M B : List (Entry β)) (lo : Int)
    (val : β) (t' : FlatSegmentTree β) (s : Start β) (A R : List (Entry β)) : Prop where
  listed : Listed t' (A ++ R ++ B)
  same : t' = { t with mem := t'.mem, allocs := t'.allocs }
  ne : A ≠ []
  start : s.newStartNode = last none A
  front : first A none = first (L ++ M) none
  kept : leaves A = upTo (leaves L) lo val
  old : (leaves (L ++ M)).getLast?.map Leaf.val = some (lastValue R s.oldValue)
  changed : s.changed = true → value (leaves (L ++ M)) lo ≠ some val
  unchanged : s.changed = false → R = [] → A = L ++ M
  removed : ∀ e ∈ R, e ∈ M
  stay : ∀ a ∈ A, Stays (L ++ M ++ B) a

theorem Listed.cell (h : Listed t l) (hl : l = L ++ e :: M) :
    t.mem e.1 = some ⟨e.2, last none L, first M none⟩ := (hl ▸ h.links).cell

theorem lastValue_cons : lastValue (e :: M) old = lastValue M e.2.val := by
  unfold lastValue
  rw [List.getLast?_cons]
  cases M.getLast? <;> rfl

theorem lastValue_mid (L M : List (Entry β)) :
    (leaves (L ++ e :: M)).getLast?.map Leaf.val = some (lastValue M e.2.val) := by
  rw [List.append_cons]
  exact lastValue_eq (by simp)

theorem value_mid (h : Sorted (leaves (L ++ e :: M))) :
    value (leaves (L ++ e :: M)) e.2.key = some e.2.val := by
  rw [List.append_cons, leaves, List.map_append] at h ⊢
  rw [List.map_append, value_append]
  · exact value_snoc le_rfl
  · rw [Sorted, List.pairwise_append] at h
    exact h.2.2 e.2 (by simp)

theorem Listed.keys (h : Listed t (L ++ M)) : ∀ e ∈ L, ∀ f ∈ M, e.2.key < f.2.key := by
  have hs := h.sorted
  unfold Sorted at hs
  rw [leaves, List.map_append, List.pairwise_append] at hs
  exact fun e he f hf => hs.2.2 _ (List.mem_map_of_mem he) _ (List.mem_map_of_mem hf)

/-- The list is the same but for the value of one leaf. -/
theorem Listed.setVal (h : Listed t (L ++ e :: M)) (v : β) :
    Listed (t.store e.1 ⟨⟨e.2.key, v⟩, last none L, first M none⟩)
      (L ++ (e.1, ⟨e.2.key, v⟩) :: M) where
  links := by
    obtain ⟨hL, -, hM⟩ := links_append.mp h.links
    have hnodup := h.nodup
    simp only [addrs, List.map_append, List.map_cons, List.nodup_append, List.nodup_cons,
      List.mem_cons, forall_eq_or_imp] at hnodup
    refine links_append.mpr ⟨hL.update_of_notMem (fun he => (hnodup.2.2 _ he).1 rfl) _,
      Function.update_self .., hM.update_of_notMem hnodup.2.1.1 _⟩
  nodup := by simpa using h.nodup
  lt := by simpa using h.lt
  sorted := by
    have hs := h.sorted
    simp only [Sorted, leaves, List.map_append, List.map_cons, List.pairwise_append,
      List.pairwise_cons, List.mem_cons, forall_eq_or_imp] at hs ⊢
    exact hs

theorem upTo_join [DecidableEq β] (h : e.2.val = val) :
    upTo (leaves (L ++ [e])) lo val = leaves (L ++ [e]) := by
  unfold upTo
  rw [if_pos]
  simp [h]

theorem upTo_new [DecidableEq β] (h : ∀ e ∈ L.getLast?, e.2.val ≠ val) :
    upTo (leaves L) lo val = leaves L ++ [⟨lo, val⟩] := by
  unfold upTo
  rw [if_neg]
  intro hv
  rw [leaves, List.getLast?_map, Option.map_map] at hv
  obtain ⟨e, he, hev⟩ := Option.map_eq_some_iff.mp hv
  exact h e he hev

variable [DecidableEq β] {m : Entry β}

/-- The range starts at a leaf, and the value before it is the new one. -/
theorem setStart_join (h : Listed t (L ++ [e] ++ m :: M ++ B)) (hm : m.2.key = lo)
    (he : e.2.val = val) : ∃ s, t.setStart (some m.1) lo val = .ok (t, s) ∧
      Started t (L ++ [e]) (m :: M) B lo val t s (L ++ [e]) (m :: M) := by
  have hcm : t.mem m.1 = some ⟨m.2, some e.1, first (M ++ B) none⟩ := by
    simpa using h.cell (L := L ++ [e]) (M := M ++ B) (by simp)
  have hce := h.cell (L := L) (e := e) (M := m :: M ++ B) (by simp)
  refine ⟨⟨some e.1, m.2.val, false⟩, ?_, h, rfl, by simp, by simp, ?_, (upTo_join he).symm,
    ?_, by simp, by simp, fun f hf => hf, fun a ha => stays_left ha⟩
  · unfold setStart
    rw [node_eq hcm]
    simp only [ok_bind, hm, if_true]
    rw [node_eq hce]
    simp [he]
  · rw [first_append, first_append, first_append]
    cases L <;> rfl
  · rw [lastValue_cons]
    exact lastValue_mid _ _

/-- The range starts at a leaf, which takes the new value. -/
theorem setStart_reuse (h : Listed t (L ++ m :: M ++ B)) (hm : m.2.key = lo)
    (hL : ∀ e ∈ L.getLast?, e.2.val ≠ val) : ∃ t' s, t.setStart (some m.1) lo val = .ok (t', s) ∧
      Started t L (m :: M) B lo val t' s (L ++ [(m.1, ⟨lo, val⟩)]) M := by
  have hl : L ++ m :: M ++ B = L ++ m :: (M ++ B) := by simp
  have hcm := h.cell hl
  rw [hl] at h
  have hlisted := h.setVal val
  rw [hm] at hlisted
  have hsorted : Sorted (leaves (L ++ m :: M)) := by
    have hs := h.sorted
    rw [← hl, leaves, List.map_append] at hs
    exact (List.pairwise_append.mp hs).1
  refine ⟨_, ⟨some m.1, m.2.val, decide (m.2.val ≠ val)⟩, ?_, by simpa using hlisted, rfl, by simp,
    by simp, ?_, ?_, lastValue_mid _ _, ?_, ?_, fun f hf => List.mem_cons_of_mem _ hf, ?_⟩
  · unfold setStart
    rw [node_eq hcm]
    simp only [ok_bind, hm, if_true]
    rcases List.eq_nil_or_concat' L with rfl | ⟨L, e, rfl⟩
    · simp only [last_nil, pure_eq_ok, ok_bind]
      rw [if_neg Bool.false_ne_true, modify_eq hcm, hm]
      rfl
    · have hce := h.cell (L := L) (e := e) (M := m :: (M ++ B)) (by simp)
      have hev := hL e (by simp)
      simp only [last_snoc] at hcm ⊢
      rw [node_eq hce]
      simp only [ok_bind, pure_eq_ok, hev, decide_false]
      rw [if_neg Bool.false_ne_true, modify_eq hcm, hm]
      rfl
  · rw [first_append, first_append]
    rfl
  · rw [upTo_new hL]
    simp
  · intro hch hval
    rw [← hm, value_mid hsorted] at hval
    exact (decide_eq_true_eq.mp hch) (Option.some.inj hval)
  · intro hch hR
    have hmv : m.2.val = val := not_not.mp (decide_eq_false_iff_not.mp hch)
    rw [hR, ← hm, ← hmv]
  · intro a ha
    rcases List.mem_append.mp ha with ha | ha
    · exact stays_left ha
    · rw [List.mem_singleton.mp ha]
      exact .inl ⟨m, by simp, rfl, hm⟩

omit [DecidableEq β] in
/-- Two lists are linked to one. -/
theorem linkNodes_spec {x : Entry β} {X : List (Entry β)} (hA : Links t.mem none (L ++ [e]) p)
    (hX : Links t.mem q (x :: X) none) (hnodup : (addrs (L ++ [e] ++ x :: X)).Nodup) :
    ∃ t', t.linkNodes (some e.1) (some x.1) = .ok t' ∧ SameBut t t' ∧
      Links t'.mem none (L ++ [e] ++ x :: X) none ∧
      ∀ a, a ≠ e.1 → a ≠ x.1 → t'.mem a = t.mem a := by
  simp only [addrs, List.map_append, List.map_cons, List.append_assoc, List.singleton_append,
    List.nodup_append, List.nodup_cons, List.mem_cons, not_or] at hnodup
  obtain ⟨-, ⟨⟨hex, heX⟩, hxX, -⟩, hLX⟩ := hnodup
  have hce := (links_snoc.mp hA).2
  have hcx : (t.store e.1 ⟨e.2, last none L, some x.1⟩).mem x.1 = some ⟨x.2, q, first X none⟩ :=
    (Function.update_of_ne (Ne.symm hex) _ _).trans hX.1
  have hframe : ∀ a, a ≠ e.1 → a ≠ x.1 →
      ((t.store e.1 ⟨e.2, last none L, some x.1⟩).store x.1 ⟨x.2, some e.1, first X none⟩).mem a =
        t.mem a := fun a hae hax =>
    (Function.update_of_ne hax _ _).trans (Function.update_of_ne hae _ _)
  refine ⟨(t.store e.1 ⟨e.2, last none L, some x.1⟩).store x.1 ⟨x.2, some e.1, first X none⟩, ?_,
    rfl, ?_, hframe⟩
  · unfold linkNodes
    rw [setNext_eq hce, ok_bind, setPrev_eq hcx]
  · refine links_append.mpr ⟨hA.setNext ?_ fun a ha => hframe a ?_ ?_, ?_⟩
    · exact (Function.update_of_ne hex _ _).trans (Function.update_self ..)
    · exact hLX a ha _ (.inl rfl)
    · exact hLX a ha _ (.inr (.inl rfl))
    · rw [last_snoc]
      exact hX.setPrev (Function.update_self ..) fun a ha => hframe a
        (ne_of_mem_of_not_mem ha heX) (ne_of_mem_of_not_mem ha hxX)

omit [DecidableEq β] in
/-- A new leaf is linked in between two lists. -/
theorem linkNew_spec {x : Entry β} {X : List (Entry β)} (new : Leaf β)
    (hA : Links t.mem none (L ++ [e]) p) (hX : Links t.mem q (x :: X) none)
    (hnodup : (addrs (L ++ [e] ++ x :: X)).Nodup)
    (hlt : ∀ a ∈ addrs (L ++ [e] ++ x :: X), a < t.allocs) :
    (addrs (L ++ [e] ++ (t.allocs, new) :: x :: X)).Nodup ∧
      ∃ t₁ t', (t.newNode new).1.linkNodes (some e.1) (some t.allocs) = .ok t₁ ∧
        t₁.linkNodes (some t.allocs) (some x.1) = .ok t' ∧
        t' = { t with mem := t'.mem, allocs := t.allocs + 1 } ∧
        Links t'.mem none (L ++ [e] ++ (t.allocs, new) :: x :: X) none := by
  have hnodup' : (addrs (L ++ [e] ++ (t.allocs, new) :: x :: X)).Nodup := by
    rw [addrs, List.map_append, List.map_cons, List.nodup_middle, ← List.map_append]
    exact List.nodup_cons.mpr ⟨fun ha => (hlt _ ha).ne rfl, hnodup⟩
  have hfreshA : t.allocs ∉ addrs (L ++ [e]) := fun ha =>
    (hlt _ (by rw [addrs, List.map_append]; exact List.mem_append_left _ ha)).ne rfl
  have hfreshX : t.allocs ∉ addrs (x :: X) := fun ha =>
    (hlt _ (by rw [addrs, List.map_append]; exact List.mem_append_right _ ha)).ne rfl
  have hsplit : L ++ [e] ++ (t.allocs, new) :: x :: X =
      (L ++ [e] ++ [(t.allocs, new)]) ++ x :: X := by simp
  rw [hsplit] at hnodup' ⊢
  obtain ⟨t₁, hrun₁, hsame₁, hlinks₁, hframe₁⟩ := linkNodes_spec (t := (t.newNode new).1)
    (hA.update_of_notMem hfreshA _) (x := (t.allocs, new)) (X := []) (q := none)
    ⟨Function.update_self .., trivial⟩
    (hnodup'.sublist (List.Sublist.map _ (List.sublist_append_left _ _)))
  have hX₁ : Links t₁.mem q (x :: X) none := by
    refine (hX.update_of_notMem hfreshX _).frame fun a ha => hframe₁ a ?_ ?_
    · rw [addrs, List.map_append, List.nodup_append] at hnodup
      exact fun hae => hnodup.2.2 e.1 (by simp) a ha hae.symm
    · exact ne_of_mem_of_not_mem ha hfreshX
  obtain ⟨t', hrun, hsame, hlinks, -⟩ := linkNodes_spec hlinks₁ hX₁ hnodup'
  refine ⟨hnodup', t₁, t', hrun₁, hrun, ?_, hlinks⟩
  rw [hsame, hsame₁]
  rfl

omit [DecidableEq β] in
/-- A new leaf whose key lies between those of its neighbours. -/
theorem Listed.link {x : Entry β} {X : List (Entry β)} {new : Leaf β}
    (hlt : ∀ a ∈ addrs (L ++ [e] ++ x :: X), a < t.allocs)
    (hsorted : Sorted (leaves (L ++ [e] ++ x :: X)))
    (hnodup : (addrs (L ++ [e] ++ (t.allocs, new) :: x :: X)).Nodup)
    (hlinks : Links t'.mem none (L ++ [e] ++ (t.allocs, new) :: x :: X) none)
    (hsame : t' = { t with mem := t'.mem, allocs := t.allocs + 1 })
    (hlo : ∀ f ∈ L ++ [e], f.2.key < new.key) (hhi : ∀ f ∈ x :: X, new.key < f.2.key) :
    Listed t' (L ++ [e] ++ (t.allocs, new) :: x :: X) where
  links := hlinks
  nodup := hnodup
  lt := by
    intro a ha
    rw [hsame]
    simp only [addrs, List.map_append, List.map_cons, List.mem_append, List.mem_cons] at ha hlt
    rcases ha with ha | rfl | ha
    · exact (hlt a (.inl ha)).trans (Nat.lt_succ_self _)
    · exact Nat.lt_succ_self _
    · exact (hlt a (.inr ha)).trans (Nat.lt_succ_self _)
  sorted := by
    rw [leaves, Sorted, List.map_append, List.pairwise_append] at hsorted ⊢
    refine ⟨hsorted.1, List.pairwise_cons.mpr ⟨?_, hsorted.2.1⟩, ?_⟩
    · intro l hl
      obtain ⟨f, hf, rfl⟩ := List.mem_map.mp hl
      exact hhi f hf
    · intro l hl m hm
      rcases List.mem_cons.mp hm with rfl | hm
      · obtain ⟨f, hf, rfl⟩ := List.mem_map.mp hl
        exact hlo f hf
      · exact hsorted.2.2 l hl m hm

/-- The range starts after a leaf with the new value. -/
theorem setStart_extend {x : Entry β} {X : List (Entry β)} (h : Listed t (L ++ [e] ++ M ++ B))
    (hx : M ++ B = x :: X) (hxlo : x.2.key ≠ lo) (he : e.2.val = val) :
    ∃ s, t.setStart (some x.1) lo val = .ok (t, s) ∧
      Started t (L ++ [e]) M B lo val t s (L ++ [e]) M := by
  have hcx : t.mem x.1 = some ⟨x.2, some e.1, first X none⟩ := by
    simpa using h.cell (L := L ++ [e]) (M := X) (by rw [List.append_assoc, hx])
  have hce := h.cell (L := L) (e := e) (M := M ++ B) (by simp)
  refine ⟨⟨some e.1, e.2.val, false⟩, ?_, h, rfl, by simp, by simp, ?_, (upTo_join he).symm,
    lastValue_eq (by simp), by simp, ?_, fun f hf => hf, fun a ha => stays_left ha⟩
  · unfold setStart
    rw [node_eq hcx]
    simp only [ok_bind, hxlo, if_false]
    rw [node_eq hce]
    simp [he]
  · rw [first_append, first_append, first_append]
    cases L <;> rfl
  · intro _ hM
    rw [hM, List.append_nil]

/-- The range starts after a leaf with another value. -/
theorem setStart_insert {x : Entry β} {X : List (Entry β)} (h : Listed t (L ++ [e] ++ M ++ B))
    (hx : M ++ B = x :: X) (hxlo : ∀ f ∈ x :: X, lo < f.2.key) (helo : ∀ f ∈ L ++ [e], f.2.key < lo)
    (he : e.2.val ≠ val) : ∃ t' s, t.setStart (some x.1) lo val = .ok (t', s) ∧
      Started t (L ++ [e]) M B lo val t' s (L ++ [e] ++ [(t.allocs, ⟨lo, val⟩)]) M := by
  have h' : Listed t (L ++ [e] ++ x :: X) := by
    rw [← hx, ← List.append_assoc]
    exact h
  have hcx : t.mem x.1 = some ⟨x.2, some e.1, first X none⟩ := by simpa using h'.cell rfl
  have hce := h'.cell (L := L) (e := e) (M := x :: X) (by simp)
  obtain ⟨hA, hX⟩ := links_append.mp h'.links
  obtain ⟨hnodup, t₁, t', hrun₁, hrun, hsame, hlinks⟩ :=
    linkNew_spec ⟨lo, val⟩ hA hX h'.nodup h'.lt
  have hlisted := Listed.link h'.lt h'.sorted hnodup hlinks hsame helo hxlo
  refine ⟨t', ⟨some t.allocs, e.2.val, true⟩, ?_, ?_, ?_, by simp, ?_, ?_, ?_,
    lastValue_eq (by simp), ?_, by simp, fun f hf => hf, ?_⟩
  · unfold setStart
    rw [node_eq hcx]
    simp only [ok_bind, (hxlo x List.mem_cons_self).ne', if_false]
    rw [node_eq hce]
    simp only [ok_bind, he, if_false]
    change ((t.newNode ⟨lo, val⟩).1.linkNodes (some e.1) (some t.allocs) >>= _) = _
    rw [hrun₁, ok_bind]
    change (t₁.linkNodes (some t.allocs) (some x.1) >>= _) = _
    rw [hrun]
    rfl
  · rw [← hx] at hlisted
    simpa using hlisted
  · rw [hsame]
  · rw [last_append]
    rfl
  · rw [first_append, first_append, first_append, first_append]
    cases L <;> rfl
  · rw [upTo_new (by simpa using he)]
    simp
  · intro _ hval
    rw [leaves, List.map_append, value_append, value_of_le] at hval
    · exact he (by simpa using hval)
    · intro l hl
      obtain ⟨f, hf, rfl⟩ := List.mem_map.mp hl
      exact (helo f hf).le
    · intro l hl
      obtain ⟨f, hf, rfl⟩ := List.mem_map.mp hl
      exact hxlo f (hx ▸ List.mem_append_left B hf)
  · intro a ha
    rcases List.mem_append.mp ha with ha | ha
    · exact stays_left ha
    · rw [List.mem_singleton.mp ha]
      refine .inr fun f hf => ?_
      rw [List.append_assoc, hx] at hf
      exact (List.mem_append.mp hf).elim (fun hf => (helo f hf).ne) fun hf => (hxlo f hf).ne'

theorem setStart_spec (val : β) (h : Listed t (L ++ M ++ B)) (hL : ∀ e ∈ L, e.2.key < lo)
    (hM : ∀ e ∈ M, lo ≤ e.2.key) (hB : ∀ e ∈ B, lo < e.2.key) (hne : B ≠ [])
    (hlo : L = [] → ∃ m ∈ M.head?, m.2.key = lo) :
    ∃ t' s A R, t.setStart (first (M ++ B) none) lo val = .ok (t', s) ∧
      Started t L M B lo val t' s A R := by
  by_cases hat : ∃ m ∈ M.head?, m.2.key = lo
  · obtain ⟨m, hm, hkey⟩ := hat
    obtain ⟨M, rfl⟩ := List.head?_eq_some_iff.mp hm
    by_cases hjoin : ∃ e ∈ L.getLast?, e.2.val = val
    · obtain ⟨e, he, hval⟩ := hjoin
      obtain ⟨L, rfl⟩ := List.getLast?_eq_some_iff.mp he
      obtain ⟨s, hrun, hs⟩ := setStart_join h hkey hval
      exact ⟨t, s, _, _, hrun, hs⟩
    · obtain ⟨t', s, hrun, hs⟩ := setStart_reuse h hkey fun e he hval => hjoin ⟨e, he, hval⟩
      exact ⟨t', s, _, _, hrun, hs⟩
  · obtain ⟨L, e, rfl⟩ := (List.eq_nil_or_concat' L).resolve_left fun hL => hat (hlo hL)
    obtain ⟨x, X, hx⟩ := List.exists_cons_of_ne_nil (List.append_ne_nil_of_right_ne_nil M hne)
    have hMlo : ∀ f ∈ M, lo < f.2.key := by
      intro f hf
      cases M with
      | nil => cases hf
      | cons m M =>
        have hm := (hM m List.mem_cons_self).lt_of_ne fun hk => hat ⟨m, rfl, hk.symm⟩
        rcases List.mem_cons.mp hf with rfl | hf
        · exact hm
        · have hkeys := Listed.keys (L := L ++ [e] ++ [m]) (M := M ++ B) (by simpa using h)
          exact hm.trans (hkeys m (by simp) f (List.mem_append_left B hf))
    have hxlo : ∀ f ∈ x :: X, lo < f.2.key := fun f hf =>
      (List.mem_append.mp (hx ▸ hf)).elim (hMlo f) (hB f)
    rw [hx, first_cons]
    by_cases he : e.2.val = val
    · obtain ⟨s, hrun, hs⟩ := setStart_extend h hx (hxlo x List.mem_cons_self).ne' he
      exact ⟨t, s, _, _, hrun, hs⟩
    · obtain ⟨t', s, hrun, hs⟩ := setStart_insert h hx hxlo hL he
      exact ⟨t', s, _, _, hrun, hs⟩

/-- The list up to the new start node and the one from the end position on, which are
still linked if no leaf was removed between them. -/
structure Parted (t : FlatSegmentTree β) (A B : List (Entry β)) (removed : Bool) : Prop where
  front : Links t.mem none A (if removed then none else first B none)
  back : ∃ q, Links t.mem q B none
  linked : removed = false → Links t.mem none (A ++ B) none
  nodup : (addrs (A ++ B)).Nodup
  lt : ∀ a ∈ addrs (A ++ B), a < t.allocs
  sorted : Sorted (leaves (A ++ B))

omit [DecidableEq β] in
theorem Parted.listed {removed : Bool} (h : Parted t A B removed) (hsame : SameBut t t')
    (hlinks : Links t'.mem none (A ++ B) none) : Listed t' (A ++ B) where
  links := hlinks
  nodup := h.nodup
  lt := by
    rw [hsame]
    exact h.lt
  sorted := h.sorted

omit [DecidableEq β] in
/-- The two lists are linked again unless they are still. -/
theorem Parted.relink {removed : Bool} (h : Parted t (A ++ [e]) (b :: B) removed) :
    ∃ n, t.mem e.1 = some n ∧ (n.next ≠ some b.1 ↔ removed = true) ∧
      (removed = false → Listed t (A ++ [e] ++ b :: B)) ∧
      ∃ t', t.linkNodes (some e.1) (some b.1) = .ok t' ∧ SameBut t t' ∧
        Listed t' (A ++ [e] ++ b :: B) := by
  obtain ⟨q, hback⟩ := h.back
  obtain ⟨t', hrun, hsame, hlinks, -⟩ := linkNodes_spec h.front hback h.nodup
  refine ⟨_, (links_snoc.mp h.front).2, ?_, fun hr => h.listed (.refl t) (h.linked hr), t', hrun,
    hsame, h.listed hsame hlinks⟩
  cases removed <;> simp

/-- Where the new segment ends at a leaf of the same value that is not the last one. -/
def JoinsEnd (b : Entry β) (B : List (Entry β)) (hi : Int) (val : β) : Prop :=
  b.2.key = hi ∧ B ≠ [] ∧ b.2.val = val

omit [DecidableEq β] in
theorem disconnectAllNodes_eq {n : Node β} (h : t.mem a = some n) :
    ∃ t', t.disconnectAllNodes (some a) = .ok t' ∧ SameBut t t' ∧
      ∀ c, c ≠ a → t'.mem c = t.mem c := by
  have hstore : (t.store a { n with prev := none }).mem a = some { n with prev := none } :=
    Function.update_self ..
  refine ⟨(t.store a { n with prev := none }).store a ⟨n.data, none, none⟩, ?_, rfl, fun c hc => ?_⟩
  · unfold disconnectAllNodes
    rw [setPrev_eq h, ok_bind, setNext_eq hstore]
  · exact (Function.update_of_ne hc _ _).trans (Function.update_of_ne hc _ _)

omit [DecidableEq β] in
/-- The end node leaves the list, and its two neighbours are linked. -/
theorem Parted.dropEnd {c : Entry β} {removed : Bool}
    (h : Parted t (A ++ [e]) (b :: c :: B) removed) :
    ∃ t₁ t₂ t', t.setNext (some e.1) (some c.1) = .ok t₁ ∧
      t₁.setPrev (some c.1) (some e.1) = .ok t₂ ∧ t₂.disconnectAllNodes (some b.1) = .ok t' ∧
      SameBut t t' ∧ Listed t' (A ++ [e] ++ c :: B) := by
  obtain ⟨q, hb, hback⟩ := h.back
  have hsub : (A ++ [e] ++ c :: B).Sublist (A ++ [e] ++ b :: c :: B) :=
    (List.sublist_cons_self b _).append_left _
  have hnodup := h.nodup.sublist (hsub.map Prod.fst)
  have hfresh : b.1 ∉ addrs (A ++ [e] ++ c :: B) := by
    have hn := h.nodup
    rw [addrs, List.map_append, List.map_cons, List.nodup_middle, ← List.map_append] at hn
    exact (List.nodup_cons.mp hn).1
  have hbe : b.1 ≠ e.1 := fun he => hfresh (by simp [he])
  have hbc : b.1 ≠ c.1 := fun hc => hfresh (by simp [hc])
  obtain ⟨t₂, hlink, hsame₂, hlinks₂, hframe₂⟩ := linkNodes_spec h.front hback hnodup
  obtain ⟨t₁, hnext, hprev⟩ := bind_eq_ok.mp hlink
  obtain ⟨t', hrun, hsame, hframe⟩ := disconnectAllNodes_eq ((hframe₂ b.1 hbe hbc).trans hb)
  refine ⟨t₁, t₂, t', hnext, hprev, hrun, hsame₂.trans hsame, ?_, hnodup, ?_, ?_⟩
  · exact hlinks₂.frame fun a ha => hframe a (ne_of_mem_of_not_mem ha hfresh)
  · intro a ha
    rw [hsame, hsame₂]
    exact h.lt a ((hsub.map Prod.fst).subset ha)
  · exact h.sorted.sublist (hsub.map Prod.snd)

theorem setEnd_spec (val old : β) (changed : Bool) {removed : Bool}
    (h : Parted t (A ++ [e]) (b :: B) removed) (hhi : hi ≤ b.2.key)
    (hA : ∀ f ∈ A ++ [e], f.2.key < hi) :
    ∃ t' ch, t.setEnd (some e.1) (some b.1) hi val old changed = .ok (t', ch) ∧
      t' = { t with mem := t'.mem, allocs := t'.allocs } ∧
      (JoinsEnd b B hi val ∧ Listed t' (A ++ [e] ++ B) ∧ ch = true ∨
        ¬ JoinsEnd b B hi val ∧ (b.2.key = hi ∨ old = val) ∧ Listed t' (A ++ [e] ++ b :: B) ∧
          ch = (changed || removed) ∨
        b.2.key ≠ hi ∧ old ≠ val ∧ Listed t' (A ++ [e] ++ (t.allocs, ⟨hi, old⟩) :: b :: B) ∧
          ch = true) := by
  obtain ⟨n, hn, hnext, hkeep, t', hlink, hsame, hlisted⟩ := h.relink
  obtain ⟨q, hback⟩ := h.back
  obtain ⟨t₁, hset, hprev⟩ := bind_eq_ok.mp hlink
  unfold setEnd
  rw [node_eq hback.1, ok_bind, node_eq hn, ok_bind]
  dsimp only
  by_cases hkey : b.2.key = hi
  · rw [if_pos hkey]
    by_cases hjoin : first B none ≠ none ∧ b.2.val = val
    · obtain ⟨c, B, rfl⟩ := List.exists_cons_of_ne_nil fun hB : B = [] => hjoin.1 (hB ▸ rfl)
      obtain ⟨t₁, t₂, t', hset, hprev, hrun, hsame, hlisted⟩ := h.dropEnd
      refine ⟨t', true, ?_, ?_, .inl ⟨⟨hkey, by simp, hjoin.2⟩, hlisted, rfl⟩⟩
      · rw [if_pos hjoin, first_cons, hset, ok_bind, hprev, ok_bind, hrun]
        rfl
      · rw [hsame]
    · have hnot : ¬ JoinsEnd b B hi val := by
        rintro ⟨-, hB, hval⟩
        obtain ⟨c, B, rfl⟩ := List.exists_cons_of_ne_nil hB
        exact hjoin ⟨by simp, hval⟩
      rw [if_neg hjoin]
      cases removed with
      | true =>
        refine ⟨t', true, ?_, by rw [hsame], .inr (.inl ⟨hnot, .inl hkey, hlisted, by simp⟩)⟩
        rw [if_pos (hnext.mpr rfl), hset, ok_bind, hprev]
        rfl
      | false =>
        refine ⟨t, changed, ?_, rfl, .inr (.inl ⟨hnot, .inl hkey, hkeep rfl, by simp⟩)⟩
        rw [if_neg fun hne => Bool.false_ne_true (hnext.mp hne)]
        rfl
  · have hnot : ¬ JoinsEnd b B hi val := fun hj => hkey hj.1
    rw [if_neg hkey]
    by_cases hold : old = val
    · rw [if_pos hold]
      cases removed with
      | true =>
        refine ⟨t', true, ?_, by rw [hsame], .inr (.inl ⟨hnot, .inr hold, hlisted, by simp⟩)⟩
        rw [if_pos (hnext.mpr rfl), hlink]
        rfl
      | false =>
        refine ⟨t, changed, ?_, rfl, .inr (.inl ⟨hnot, .inr hold, hkeep rfl, by simp⟩)⟩
        rw [if_neg fun hne => Bool.false_ne_true (hnext.mp hne)]
        rfl
    · rw [if_neg hold]
      obtain ⟨hnodup, t₁, t', hrun₁, hrun, hsame, hlinks⟩ :=
        linkNew_spec ⟨hi, old⟩ h.front hback h.nodup h.lt
      refine ⟨t', true, ?_, by rw [hsame], .inr (.inr ⟨hkey, hold, ?_, rfl⟩)⟩
      · change ((t.newNode ⟨hi, old⟩).1.linkNodes (some e.1) (some t.allocs) >>= _) = _
        rw [hrun₁, ok_bind]
        change (t₁.linkNodes (some t.allocs) (some b.1) >>= _) = _
        rw [hrun]
        rfl
      · refine Listed.link h.lt h.sorted hnodup hlinks hsame hA fun f hf => ?_
        have hb := hhi.lt_of_ne (Ne.symm hkey)
        rcases List.mem_cons.mp hf with rfl | hf
        · exact hb
        · have hs := h.sorted
          rw [Sorted, leaves, List.map_append, List.pairwise_append, List.map_cons,
            List.pairwise_cons] at hs
          exact hb.trans (hs.2.1.1 _ (List.mem_map_of_mem hf))

/-- After the loop nothing lies between the new start node and the end position. -/
theorem Started.parted {s : Start β} {A R : List (Entry β)} (h : Started t L M B lo val t' s A R)
    (hB : B ≠ []) : ∃ t'', (t'.node s.newStartNode >>= fun n =>
        disconnect (first B none) (t'.allocs + 1) t' n.next s.oldValue s.changed) =
        .ok (t'', lastValue R s.oldValue, s.changed || !R.isEmpty) ∧ SameBut t' t'' ∧
      Parted t'' A B (!R.isEmpty) := by
  obtain ⟨A, e, rfl⟩ := (List.eq_nil_or_concat' A).resolve_left h.ne
  have hcell := h.listed.cell (L := A) (e := e) (M := R ++ B) (by simp)
  have hlen := h.listed.length_le
  simp only [List.length_append] at hlen
  obtain ⟨t'', hrun, hsame, hframe, hfront⟩ := disconnect_spec s.oldValue s.changed
    h.listed.links h.ne h.listed.nodup hB (show R.length < t'.allocs + 1 by omega)
  have hsub : (A ++ [e] ++ B).Sublist (A ++ [e] ++ R ++ B) :=
    (List.sublist_append_left _ R).append_right B
  have hback : Links t''.mem (last none (A ++ [e] ++ R)) B none := by
    refine (links_append.mp h.listed.links).2.frame fun a ha => hframe a fun ha' => ?_
    have hn := h.listed.nodup
    rw [addrs, List.map_append, List.nodup_append] at hn
    exact hn.2.2 a ha' a ha rfl
  refine ⟨t'', ?_, hsame, ?_, ⟨_, hback⟩, ?_, h.listed.nodup.sublist (hsub.map _), ?_,
    h.listed.sorted.sublist (hsub.map _)⟩
  · rw [h.start, last_snoc, node_eq hcell]
    exact hrun
  · cases R <;> simpa using hfront
  · intro hR
    obtain rfl : R = [] := by simpa using hR
    rw [List.append_nil] at hback
    exact links_append.mpr ⟨by simpa using hfront, hback⟩
  · intro a ha
    rw [hsame]
    exact h.listed.lt a ((hsub.map Prod.fst).subset ha)

/-- The leaves before the end of the span. -/
def below (maxKey : Int) (l : List (Leaf β)) : List (Leaf β) := l.filter fun f => f.key < maxKey

omit [DecidableEq β] in
theorem Listed.below (h : Listed t (l ++ [r])) : below r.2.key (leaves l) = leaves l := by
  refine List.filter_eq_self.mpr fun f hf => ?_
  obtain ⟨e, he, rfl⟩ := List.mem_map.mp hf
  simpa using h.keys e he r List.mem_cons_self

/-- What an insertion comes to. -/
structure Inserted (t : FlatSegmentTree β) (l : List (Entry β)) (r : Entry β) (lo hi : Int)
    (val : β) (t' : FlatSegmentTree β) (e : Entry β) (changed : Bool) (l' : List (Entry β)) :
    Prop where
  listed : Listed t' (l' ++ [r])
  same : t' = { t with
    mem := t'.mem, allocs := t'.allocs, mValidTree := if changed then false else t.mValidTree }
  front : first (l' ++ [r]) none = first (l ++ [r]) none
  inserted : leaves l' = FlatSegmentTree.below r.2.key (insert (leaves l) lo hi val)
  mem : e ∈ l'
  found : search (leaves l') lo = some e.2
  unchanged : changed = false → l' = l
  changed : changed = true → leaves l' ≠ leaves l
  stay : ∀ a ∈ l', Stays (l ++ [r]) a

/-- A range around the leaves `M`, the span with the leaves `l` and `r` at its end. -/
structure Around (l : List (Entry β)) (r : Entry β) (lo hi : Int) (L M B : List (Entry β)) :
    Prop where
  eq : l ++ [r] = L ++ M ++ B
  lt : lo < hi
  below : ∀ e ∈ L, e.2.key < lo
  inside : ∀ e ∈ M, lo ≤ e.2.key ∧ e.2.key < hi
  beyond : ∀ e ∈ B, hi ≤ e.2.key
  ne : B ≠ []

omit [DecidableEq β] in
theorem Around.last (h : Around l r lo hi L M B) : ∃ B', B = B' ++ [r] ∧ l = L ++ M ++ B' := by
  obtain ⟨B', b, rfl⟩ := (List.eq_nil_or_concat' B).resolve_left h.ne
  have heq := h.eq
  rw [← List.append_assoc] at heq
  obtain ⟨hl, hr⟩ := List.append_inj' heq rfl
  rw [List.singleton_inj] at hr
  exact ⟨B', by rw [hr], hl⟩

omit [DecidableEq β] in
/-- The range ends before the next leaf, or at the end of the span. -/
theorem Around.splits_before (h : Around l r lo hi L M (B ++ [r])) (hB : ∀ e ∈ B, hi < e.2.key)
    (hw : (leaves (L ++ M)).getLast?.map Leaf.val = some w) :
    Splits (leaves l) lo hi (leaves L) (leaves M) (leaves B) w where
  eq := by
    obtain ⟨B', hB', rfl⟩ := h.last
    obtain rfl := List.append_cancel_right hB'
    simp
  below := List.forall_mem_map.mpr h.below
  inside := List.forall_mem_map.mpr fun e he => ⟨(h.inside e he).1, (h.inside e he).2.le⟩
  beyond := List.forall_mem_map.mpr hB
  value := by simpa using hw

omit [DecidableEq β] in
/-- The range ends at a leaf. -/
theorem Around.splits_at (h : Around l r lo hi L M (b :: (B ++ [r]))) (hb : b.2.key = hi)
    (hB : ∀ e ∈ B, hi < e.2.key) :
    Splits (leaves l) lo hi (leaves L) (leaves (M ++ [b])) (leaves B) b.2.val where
  eq := by
    obtain ⟨B', hB', rfl⟩ := h.last
    rw [← List.cons_append] at hB'
    obtain rfl := List.append_cancel_right hB'
    simp
  below := List.forall_mem_map.mpr h.below
  inside := by
    refine List.forall_mem_map.mpr fun e he => ?_
    rcases List.mem_append.mp he with he | he
    · exact ⟨(h.inside e he).1, (h.inside e he).2.le⟩
    · rw [List.mem_singleton.mp he]
      exact ⟨(h.lt.trans_eq hb.symm).le, hb.le⟩
  beyond := List.forall_mem_map.mpr hB
  value := by simp

theorem Started.keys {s : Start β} {A R : List (Entry β)} (h : Started t L M B lo val t' s A R)
    (hL : ∀ e ∈ L, e.2.key < lo) : ∀ f ∈ A, f.2.key ≤ lo := by
  intro f hf
  have hmem : f.2 ∈ leaves A := List.mem_map_of_mem hf
  rw [h.kept] at hmem
  exact upTo_le (List.forall_mem_map.mpr hL) f.2 hmem

theorem Started.found {s : Start β} {A R X : List (Entry β)}
    (h : Started t L M B lo val t' s (A ++ [e]) R) (hL : ∀ e ∈ L, e.2.key < lo)
    (hX : ∀ f ∈ X, lo < f.2.key) :
    search (leaves (A ++ [e] ++ X)) lo = some e.2 ∧
      value (leaves (A ++ [e] ++ X)) lo = some val := by
  have hsearch : search (leaves (A ++ [e] ++ X)) lo = some e.2 := by
    rw [leaves, List.map_append, search_append (List.forall_mem_map.mpr hX)]
    unfold search
    rw [List.filter_eq_self.mpr]
    · simp
    · intro l hl
      obtain ⟨f, hf, rfl⟩ := List.mem_map.mp hl
      simpa using h.keys hL f hf
  refine ⟨hsearch, ?_⟩
  have hlast : (upTo (leaves L) lo val).getLast?.map Leaf.val = some val := getLast_upTo
  rw [← h.kept] at hlast
  unfold value
  rw [hsearch]
  simpa using hlast

omit [DecidableEq β] in
/-- A leaf that left the list, or came into it, tells the two lists apart. -/
theorem ne_of_key {l l' : List (Entry β)} (he : e ∈ l) (hl : ∀ f ∈ l', f.2.key ≠ e.2.key) :
    leaves l ≠ leaves l' := by
  intro heq
  have hmem : e.2 ∈ leaves l' := heq ▸ List.mem_map_of_mem he
  obtain ⟨f, hf, hfe⟩ := List.mem_map.mp hmem
  exact hl f hf (by rw [hfe])

omit [DecidableEq β] in
theorem first_append_of_some (h : first l none = some a) : first (l ++ M) q = some a := by
  cases l with
  | nil => cases h
  | cons e l => exact h

/-- The insertion ends with the leaves `X` between the new start node and the end. -/
theorem Started.inserted {s : Start β} {R X : List (Entry β)} {t₁ : FlatSegmentTree β}
    (h : Started t L M B lo val t₁ s (A ++ [e]) R) (ha : Around l r lo hi L M B)
    (hsame : t' = { t with
      mem := t'.mem, allocs := t'.allocs, mValidTree := if changed then false else t.mValidTree })
    (hlisted : Listed t' (A ++ [e] ++ X ++ [r])) (hX : ∀ f ∈ X, lo < f.2.key)
    (hins : leaves (A ++ [e] ++ X) = FlatSegmentTree.below r.2.key (insert (leaves l) lo hi val))
    (hun : changed = false → A ++ [e] ++ X = l)
    (hch : changed = true → leaves (A ++ [e] ++ X) ≠ leaves l)
    (hstay : ∀ a ∈ X, Stays (l ++ [r]) a) :
    Inserted t l r lo hi val t' e changed (A ++ [e] ++ X) where
  listed := hlisted
  same := hsame
  front := by
    have hfront := h.front
    obtain ⟨a, ha'⟩ : ∃ a, first (A ++ [e]) none = some a := by cases A <;> exact ⟨_, rfl⟩
    rw [List.append_assoc, first_append_of_some ha', ha.eq, first_append_of_some (hfront ▸ ha')]
  inserted := hins
  mem := by simp
  found := (h.found ha.below hX).1
  unchanged := hun
  changed := hch
  stay a hmem := (List.mem_append.mp hmem).elim (fun hA => ha.eq ▸ h.stay a hA) (hstay a)

/-- What tells the leaves from those before, if the first two parts changed something. -/
theorem Started.changes {s : Start β} {R X : List (Entry β)} {t₁ : FlatSegmentTree β}
    (h : Started t L M B lo val t₁ s (A ++ [e]) R) (ha : Around l r lo hi L M B)
    (hX : ∀ f ∈ X, hi ≤ f.2.key) (hch : (s.changed || !R.isEmpty) = true) :
    leaves (A ++ [e] ++ X) ≠ leaves l := by
  obtain ⟨Bm, rfl, rfl⟩ := ha.last
  cases hs : s.changed with
  | true =>
    intro heq
    refine h.changed hs ?_
    have hval := (h.found ha.below fun f hf => ha.lt.trans_le (hX f hf)).2
    rw [heq, leaves, List.map_append, value_append] at hval
    · exact hval
    · exact List.forall_mem_map.mpr fun f hf =>
        ha.lt.trans_le (ha.beyond f (List.mem_append_left _ hf))
  | false =>
    rw [hs, Bool.false_or] at hch
    obtain ⟨f, R, rfl⟩ := List.exists_cons_of_ne_nil fun hR : R = [] => by simp [hR] at hch
    have hf := ha.inside f (h.removed f List.mem_cons_self)
    refine (ne_of_key (e := f) ?_ ?_).symm
    · exact List.mem_append_left _ (List.mem_append_right _ (h.removed f List.mem_cons_self))
    · intro g hg
      rcases List.mem_append.mp hg with hg | hg
      · have hlist : Listed t₁ (A ++ [e] ++ (f :: R ++ (Bm ++ [r]))) := by simpa using h.listed
        exact (hlist.keys g hg f (by simp)).ne
      · exact (hf.2.trans_le (hX g hg)).ne'

/-- The leaves after an assignment, where the span goes on after its end. -/
theorem Around.insert_before (h : Around l r lo hi L M (B ++ [r])) (hB : ∀ e ∈ B, hi < e.2.key)
    (hw : (leaves (L ++ M)).getLast?.map Leaf.val = some w) (val : β) :
    insert (leaves l) lo hi val = upTo (leaves L) lo val ++ endLeaf hi val w ++ leaves B :=
  (h.splits_before hB hw).insert h.lt

/-- The range ends at a leaf of the same value. -/
theorem Around.insert_join (h : Around l r lo hi L M (b :: (B ++ [r]))) (hb : b.2.key = hi)
    (hB : ∀ e ∈ B, hi < e.2.key) (hval : b.2.val = val) :
    insert (leaves l) lo hi val = upTo (leaves L) lo val ++ leaves B := by
  rw [(h.splits_at hb hB).insert h.lt, endLeaf, if_pos hval, List.append_nil]

/-- The range ends at a leaf of another value, which stays. -/
theorem Around.insert_meet (h : Around l r lo hi L M (b :: (B ++ [r]))) (hb : b.2.key = hi)
    (hB : ∀ e ∈ B, hi < e.2.key) (hval : b.2.val ≠ val) :
    insert (leaves l) lo hi val = upTo (leaves L) lo val ++ leaves (b :: B) := by
  rw [(h.splits_at hb hB).insert h.lt, endLeaf, if_neg hval, List.append_assoc, ← hb]
  rfl

/-- The leaves of an assignment that stay within the span. -/
theorem Listed.inserted {X : List (Entry β)} (h : Listed t (A ++ X ++ [r]))
    (hA : leaves A = upTo (leaves L) lo val)
    (hins : insert (leaves l) lo hi val = upTo (leaves L) lo val ++ leaves X) :
    leaves (A ++ X) = FlatSegmentTree.below r.2.key (insert (leaves l) lo hi val) := by
  rw [hins, ← hA, ← List.map_append, h.below]

/-- The range ends at the end of the span. -/
theorem Around.inserted_last (h : Around l r lo r.2.key L M [r])
    (hw : (leaves (L ++ M)).getLast?.map Leaf.val = some w) :
    FlatSegmentTree.below r.2.key (insert (leaves l) lo r.2.key val) = upTo (leaves L) lo val := by
  rw [h.insert_before (B := []) (by simp) hw, FlatSegmentTree.below, List.filter_append,
    List.filter_append, List.filter_eq_self.mpr, List.filter_eq_nil_iff.mpr]
  · simp
  · intro f hf
    simp [endLeaf_key f hf]
  · intro f hf
    simpa using (upTo_le (List.forall_mem_map.mpr h.below) f hf).trans_lt h.lt

section Ends
variable {s : Start β} {R X : List (Entry β)} {t₁ : FlatSegmentTree β}

/-- The end node leaves the list. -/
theorem Started.inserted_join (h : Started t L M (b :: (X ++ [r])) lo val t₁ s (A ++ [e]) R)
    (ha : Around l r lo hi L M (b :: (X ++ [r]))) (hkey : b.2.key = hi) (hval : b.2.val = val)
    (hX : ∀ f ∈ X, hi < f.2.key)
    (hsame : t' = { t with mem := t'.mem, allocs := t'.allocs, mValidTree := false })
    (hlisted : Listed t' (A ++ [e] ++ X ++ [r])) :
    Inserted t l r lo hi val t' e true (A ++ [e] ++ X) := by
  obtain ⟨B', hB', rfl⟩ := ha.last
  rw [← List.cons_append] at hB'
  obtain rfl := List.append_cancel_right hB'
  refine h.inserted ha hsame hlisted (fun f hf => ha.lt.trans (hX f hf))
    (hlisted.inserted h.kept (ha.insert_join hkey hX hval)) (by simp) (fun _ => ?_)
    fun f hf => stays_of_mem (by simp [hf])
  refine (ne_of_key (e := b) (by simp) fun f hf => ?_).symm
  rcases List.mem_append.mp hf with hf | hf
  · exact ((h.keys ha.below f hf).trans_lt (ha.lt.trans_eq hkey.symm)).ne
  · exact (hkey.trans_lt (hX f hf)).ne'

/-- Nothing is put in at the end. -/
theorem Started.inserted_keep (h : Started t L M (B ++ [r]) lo val t₁ s (A ++ [e]) R)
    (ha : Around l r lo hi L M (B ++ [r])) (hchanged : changed = (s.changed || !R.isEmpty))
    (hins : leaves (A ++ [e] ++ B) = FlatSegmentTree.below r.2.key (insert (leaves l) lo hi val))
    (hsame : t' = { t with
      mem := t'.mem, allocs := t'.allocs, mValidTree := if changed then false else t.mValidTree })
    (hlisted : Listed t' (A ++ [e] ++ B ++ [r])) :
    Inserted t l r lo hi val t' e changed (A ++ [e] ++ B) := by
  have hhi : ∀ f ∈ B, hi ≤ f.2.key := fun f hf => ha.beyond f (List.mem_append_left _ hf)
  refine h.inserted ha hsame hlisted (fun f hf => ha.lt.trans_le (hhi f hf)) hins ?_ ?_
    fun f hf => stays_of_mem (ha.eq ▸ List.mem_append_right _ (List.mem_append_left _ hf))
  · rw [hchanged, Bool.or_eq_false_iff]
    rintro ⟨hs, hR⟩
    obtain ⟨B', hB', rfl⟩ := ha.last
    rw [h.unchanged hs (by simpa using hR), List.append_cancel_right hB']
  · exact fun hch => h.changes ha hhi (hchanged ▸ hch)

/-- The end node is a new one. -/
theorem Started.inserted_new (h : Started t L M (B ++ [r]) lo val t₁ s (A ++ [e]) R)
    (ha : Around l r lo hi L M (B ++ [r])) (hend : ∀ f ∈ B ++ [r], hi < f.2.key)
    (hold : lastValue R s.oldValue ≠ val)
    (hsame : t' = { t with mem := t'.mem, allocs := t'.allocs, mValidTree := false })
    (hlisted : Listed t' (A ++ [e] ++ (a, ⟨hi, lastValue R s.oldValue⟩) :: B ++ [r])) :
    Inserted t l r lo hi val t' e true (A ++ [e] ++ (a, ⟨hi, lastValue R s.oldValue⟩) :: B) := by
  have hB : ∀ f ∈ B, hi < f.2.key := fun f hf => hend f (List.mem_append_left _ hf)
  refine h.inserted ha hsame hlisted ?_ (hlisted.inserted h.kept ?_) (by simp) (fun _ => ?_) ?_
  · intro f hf
    rcases List.mem_cons.mp hf with rfl | hf
    · exact ha.lt
    · exact ha.lt.trans (hB f hf)
  · rw [ha.insert_before hB h.old, endLeaf, if_neg hold]
    simp
  · obtain ⟨B', hB', rfl⟩ := ha.last
    obtain rfl := List.append_cancel_right hB'
    refine ne_of_key (e := (a, ⟨hi, lastValue R s.oldValue⟩)) (by simp) fun f hf => ?_
    rcases List.mem_append.mp hf with hf | hf
    · rcases List.mem_append.mp hf with hf | hf
      · exact ((ha.below f hf).trans ha.lt).ne
      · exact (ha.inside f hf).2.ne
    · exact (hB f hf).ne'
  · intro f hf
    rcases List.mem_cons.mp hf with rfl | hf
    · refine .inr fun g hg => ?_
      rw [ha.eq, List.mem_append, List.mem_append] at hg
      rcases hg with (hg | hg) | hg
      · exact ((ha.below g hg).trans ha.lt).ne
      · exact (ha.inside g hg).2.ne
      · exact (hend g hg).ne'
    · exact stays_of_mem (ha.eq ▸ List.mem_append_right _ (List.mem_append_left _ hf))

end Ends

/-- The parts of `insert_to_pos` put together; `b` is the node at the end position. -/
theorem insertToPos_run (val : β) (h : Listed t (L ++ M ++ b :: B)) (hlt : lo < hi)
    (hL : ∀ e ∈ L, e.2.key < lo) (hM : ∀ e ∈ M, lo ≤ e.2.key ∧ e.2.key < hi)
    (hB : ∀ e ∈ b :: B, hi ≤ e.2.key) (hlo : L = [] → ∃ m ∈ M.head?, m.2.key = lo) :
    ∃ t₁ t' s A e R ch c,
      t.insertToPos (first (M ++ b :: B) none) lo hi val = .ok (t', some e.1, ch) ∧
      Started t L M (b :: B) lo val t₁ s (A ++ [e]) R ∧
      t' = { t with
        mem := t'.mem, allocs := t'.allocs, mValidTree := if ch then false else t.mValidTree } ∧
      (JoinsEnd b B hi val ∧ Listed t' (A ++ [e] ++ B) ∧ ch = true ∨
        ¬ JoinsEnd b B hi val ∧ (b.2.key = hi ∨ lastValue R s.oldValue = val) ∧
          Listed t' (A ++ [e] ++ b :: B) ∧ ch = (s.changed || !R.isEmpty) ∨
        b.2.key ≠ hi ∧ lastValue R s.oldValue ≠ val ∧
          Listed t' (A ++ [e] ++ (c, ⟨hi, lastValue R s.oldValue⟩) :: b :: B) ∧ ch = true) := by
  have hlen := h.length_le
  simp only [List.length_append] at hlen
  have hlinks := h.links
  rw [List.append_assoc L] at hlinks
  have hend := insertionPos (links_append.mp hlinks).2 (fun e he => (hM e he).2)
    (fun e he => hB e (List.mem_of_mem_head? he)) (show M.length < t.allocs + 1 by omega)
  obtain ⟨t₁, s, A, R, hstart, hst⟩ := setStart_spec val h hL (fun e he => (hM e he).1)
    (fun e he => hlt.trans_le (hB e he)) (List.cons_ne_nil b B) hlo
  obtain ⟨t₂, hloop, hsame₂, hparted⟩ := hst.parted (List.cons_ne_nil b B)
  obtain ⟨A, e, rfl⟩ := (List.eq_nil_or_concat' A).resolve_left hst.ne
  rw [first_cons] at hend hloop
  obtain ⟨n, hn, hloop⟩ := bind_eq_ok.mp hloop
  obtain ⟨t₃, ch, hrun, hsame₃, hcases⟩ := setEnd_spec val
    (lastValue R s.oldValue) (s.changed || !R.isEmpty) hparted
    (hB b List.mem_cons_self) fun f hf => (hst.keys hL f hf).trans_lt hlt
  have hstart' : s.newStartNode = some e.1 := hst.start.trans last_snoc
  rw [hstart'] at hn
  have hvalid : ∀ {l : List (Entry β)}, Listed t₃ l →
      Listed { t₃ with mValidTree := if ch then false else t₃.mValidTree } l :=
    fun h => ⟨h.links, h.nodup, h.lt, h.sorted⟩
  refine ⟨t₁, { t₃ with mValidTree := if ch then false else t₃.mValidTree }, s, A, e, R, ch,
    t₂.allocs, ?_, hst, ?_, ?_⟩
  · unfold insertToPos
    rw [hend, ok_bind, if_neg (Option.some_ne_none b.1), hstart, ok_bind]
    dsimp only
    rw [hstart', hn, ok_bind, hloop, ok_bind]
    dsimp only
    rw [hrun]
    rfl
  · rw [hsame₃, hsame₂, hst.same]
  · rw [Bool.or_assoc, Bool.or_self] at hcases
    rcases hcases with ⟨hj, hl, hc⟩ | ⟨hj, he, hl, hc⟩ | ⟨hk, ho, hl, hc⟩
    · exact .inl ⟨hj, hvalid hl, hc⟩
    · exact .inr (.inl ⟨hj, he, hvalid hl, hc⟩)
    · exact .inr (.inr ⟨hk, ho, hvalid hl, hc⟩)

/-- The leaves that stay from the end position on are those of the assignment. -/
theorem Started.inserted_rest {s : Start β} {R : List (Entry β)} {t₁ : FlatSegmentTree β}
    (h : Started t L M (B ++ [r]) lo val t₁ s (A ++ [e]) R) (ha : Around l r lo hi L M (B ++ [r]))
    {B' : List (Entry β)} (hb : B ++ [r] = b :: B') (hnot : ¬ JoinsEnd b B' hi val)
    (hend : b.2.key = hi ∨ lastValue R s.oldValue = val) (hafter : ∀ f ∈ B', b.2.key < f.2.key)
    (hlisted : Listed t' (A ++ [e] ++ B ++ [r])) :
    leaves (A ++ [e] ++ B) = FlatSegmentTree.below r.2.key (insert (leaves l) lo hi val) := by
  have hbhi := ha.beyond b (hb ▸ List.mem_cons_self)
  by_cases hkey : b.2.key = hi
  · cases B with
    | nil =>
      obtain ⟨rfl, rfl⟩ := List.cons.inj hb
      subst hkey
      rw [ha.inserted_last h.old, ← h.kept, List.append_nil]
    | cons c B =>
      obtain ⟨rfl, rfl⟩ := List.cons.inj hb
      refine hlisted.inserted h.kept (ha.insert_meet hkey (fun f hf => ?_) fun hval =>
        hnot ⟨hkey, by simp, hval⟩)
      exact hkey ▸ hafter f (List.mem_append_left _ hf)
  · refine hlisted.inserted h.kept ?_
    rw [ha.insert_before (fun f hf => ?_) h.old, endLeaf, if_pos (hend.resolve_left hkey),
      List.append_nil]
    rcases List.mem_cons.mp (hb ▸ List.mem_append_left [r] hf) with rfl | hf
    · exact hbhi.lt_of_ne (Ne.symm hkey)
    · exact hbhi.trans_lt (hafter f hf)

theorem insertToPos_spec (val : β) (h : Listed t (l ++ [r])) (ha : Around l r lo hi L M B)
    (hlo : L = [] → ∃ m ∈ M.head?, m.2.key = lo) :
    ∃ t' e ch l', t.insertToPos (first (M ++ B) none) lo hi val = .ok (t', some e.1, ch) ∧
      Inserted t l r lo hi val t' e ch l' := by
  obtain ⟨Bm, rfl, -⟩ := ha.last
  obtain ⟨b, B', hb⟩ := List.exists_cons_of_ne_nil ha.ne
  have hsplit : Listed t (L ++ M ++ b :: B') := hb ▸ ha.eq ▸ h
  have hafter : ∀ f ∈ B', b.2.key < f.2.key :=
    Listed.keys (L := L ++ M ++ [b]) (by simpa using hsplit) b (by simp)
  have hbhi := ha.beyond b (hb ▸ List.mem_cons_self)
  obtain ⟨t₁, t', s, A, e, R, ch, c, hrun, hst, hsame, hcases⟩ := insertToPos_run val
    hsplit ha.lt ha.below ha.inside (hb ▸ ha.beyond) hlo
  rw [← hb] at hrun hst
  refine ⟨t', e, ch, ?_⟩
  rcases hcases with ⟨⟨hkey, hne, hval⟩, hlisted, rfl⟩ | ⟨hnot, hend, hlisted, rfl⟩ |
    ⟨hkey, hold, hlisted, rfl⟩
  · obtain ⟨X, x, rfl⟩ := (List.eq_nil_or_concat' B').resolve_left hne
    obtain ⟨rfl, hx⟩ := List.append_inj' (show Bm ++ [r] = (b :: X) ++ [x] from hb) rfl
    obtain rfl := List.singleton_inj.mp hx
    rw [← List.append_assoc] at hlisted
    exact ⟨_, hrun, hst.inserted_join ha hkey hval
      (fun f hf => hkey ▸ hafter f (List.mem_append_left _ hf)) hsame hlisted⟩
  · rw [← hb, ← List.append_assoc] at hlisted
    exact ⟨_, hrun, hst.inserted_keep ha rfl (hst.inserted_rest ha hb hnot hend hafter hlisted)
      hsame hlisted⟩
  · rw [← hb, ← List.cons_append, ← List.append_assoc] at hlisted
    refine ⟨_, hrun, hst.inserted_new ha (fun f hf => ?_) hold hsame hlisted⟩
    rw [hb] at hf
    rcases List.mem_cons.mp hf with rfl | hf
    · exact hbhi.lt_of_ne (Ne.symm hkey)
    · exact hbhi.trans_lt (hafter f hf)

omit [DecidableEq β] in
/-- The leaves around a range that ends within the span. -/
theorem Listed.around (h : Listed t (l ++ [r])) (hlt : lo < hi) (hhi : hi ≤ r.2.key) :
    ∃ L M B, Around l r lo hi L M B := by
  obtain ⟨X, Y, hXY, hX, hY⟩ := h.sorted.split lo
  obtain ⟨L, T, hl, rfl, rfl⟩ := List.map_eq_append_iff.mp hXY
  have hT : Sorted (leaves T) := by
    have hs := h.sorted
    rw [hl, leaves, List.map_append] at hs
    exact (List.pairwise_append.mp hs).2.1
  obtain ⟨X, Y, hXY, hM, hB⟩ := hT.split hi
  obtain ⟨M, B, rfl, rfl, rfl⟩ := List.map_eq_append_iff.mp hXY
  rw [List.forall_mem_map] at hX hY hM hB
  refine ⟨L, M, B, (hl.trans (List.append_assoc ..).symm), hlt, hX,
    fun e he => ⟨hY e (List.mem_append_left B he), hM e he⟩, hB, ?_⟩
  rintro rfl
  have hr : r ∈ L ++ (M ++ []) := hl ▸ List.mem_append_right l (List.mem_singleton_self r)
  rw [List.append_nil] at hr
  rcases List.mem_append.mp hr with hr | hr
  · exact absurd (hhi.trans_lt (hX r hr)) (not_lt.mpr hlt.le)
  · exact absurd hhi (not_le.mpr (hM r hr))

/-- The tree holds the leaves `l` from `minKey` on and the last one, `r`, at `maxKey`. -/
structure Holds (t : FlatSegmentTree β) (minKey maxKey : Int) (init : β) (l : List (Entry β))
    (r : Entry β) : Prop where
  listed : Listed t (l ++ [r])
  left : first l none = some t.mLeftLeaf
  right : t.mRightLeaf = r.1
  minKey : (leaves l).head?.map Leaf.key = some minKey
  maxKey : r.2 = ⟨maxKey, init⟩

variable {minKey maxKey : Int} {init : β} {forward : Bool}

omit [DecidableEq β] in
theorem Holds.leftLeaf (h : Holds t minKey maxKey init l r) : ∃ e l₀, l = e :: l₀ ∧
    t.mLeftLeaf = e.1 ∧ e.2.key = minKey ∧
      t.mem t.mLeftLeaf = some ⟨e.2, none, first (l₀ ++ [r]) none⟩ := by
  have hleft := h.left
  have hmin := h.minKey
  cases l with
  | nil => cases hleft
  | cons e l₀ =>
    have hleft : e.1 = t.mLeftLeaf := Option.some.inj hleft
    rw [← hleft]
    exact ⟨e, l₀, rfl, rfl, Option.some.inj hmin, h.listed.links.1⟩

omit [DecidableEq β] in
theorem Holds.rightLeaf (h : Holds t minKey maxKey init l r) :
    t.mem t.mRightLeaf = some ⟨⟨maxKey, init⟩, last none l, none⟩ := by
  rw [h.right, ← h.maxKey]
  exact (links_snoc.mp h.listed.links).2

omit [DecidableEq β] in
theorem Holds.lt (h : Holds t minKey maxKey init l r) : minKey < maxKey := by
  obtain ⟨e, l₀, rfl, -, rfl, -⟩ := h.leftLeaf
  have hlt := h.listed.keys e List.mem_cons_self r List.mem_cons_self
  rw [h.maxKey] at hlt
  exact hlt

omit [DecidableEq β] in
/-- Where the range is empty or misses the keys of the tree, nothing is done. -/
theorem Holds.adjustSegmentRange (h : Holds t minKey maxKey init l r)
    (hpre : lo < hi → hi ≠ minKey ∧ lo ≠ maxKey) :
    t.adjustSegmentRange lo hi =
      .ok (if max lo minKey < min hi maxKey then some (max lo minKey, min hi maxKey)
        else none) := by
  obtain ⟨e, l₀, -, -, hkey, hcell⟩ := h.leftLeaf
  have hlt := h.lt
  unfold FlatSegmentTree.adjustSegmentRange
  by_cases hle : lo ≥ hi
  · rw [if_pos hle, if_neg (by omega)]
    rfl
  · have hne := hpre (not_le.mp hle)
    rw [if_neg hle, node_eq hcell, ok_bind, node_eq h.rightLeaf, ok_bind]
    dsimp only
    rw [hkey]
    by_cases hout : hi < minKey ∨ lo > maxKey
    · rw [if_pos hout, if_neg (by omega)]
      rfl
    · rw [if_neg hout]
      have hmax : (if lo < minKey then minKey else lo) = max lo minKey := by
        split_ifs <;> omega
      have hmin : (if hi > maxKey then maxKey else hi) = min hi maxKey := by
        split_ifs <;> omega
      rw [hmax, hmin, if_pos (show max lo minKey < min hi maxKey by omega)]
      rfl

omit [DecidableEq β] in
/-- Both searches come to the first leaf that is not below the range. -/
theorem Holds.startPosFor (h : Holds t minKey maxKey init l r) (ha : Around l r lo hi L M B) :
    t.startPosFor lo forward = .ok (first (M ++ B) none) := by
  have hlinks := h.listed.links
  have hlen := h.listed.length_le
  have hfirst : some t.mLeftLeaf = first (l ++ [r]) none :=
    (first_append_of_some h.left).symm
  have hlast : some t.mRightLeaf = last none (l ++ [r]) := by rw [last_snoc, h.right]
  rw [ha.eq, List.append_assoc] at hlinks hfirst hlast hlen
  rw [List.length_append] at hlen
  have hge : ∀ e ∈ M ++ B, lo ≤ e.2.key := fun e he => (List.mem_append.mp he).elim
    (fun he => (ha.inside e he).1) fun he => ha.lt.le.trans (ha.beyond e he)
  unfold FlatSegmentTree.startPosFor
  cases forward with
  | true =>
    rw [if_pos rfl, hfirst]
    exact insertionPos hlinks ha.below (fun e he => hge e (List.mem_of_mem_head? he)) (by omega)
  | false =>
    rw [if_neg Bool.false_ne_true, hlast, insertionPosReverse hlinks
      (fun e he => ha.below e (List.mem_of_mem_getLast? he)) hge (by omega), ok_bind]
    rcases List.eq_nil_or_concat' L with rfl | ⟨L, e, rfl⟩
    · rw [hfirst]
      rfl
    · have hce := (links_snoc.mp (links_append.mp hlinks).1).2
      rw [last_snoc]
      dsimp only
      rw [node_eq hce]
      rfl

/-- An assignment within the keys of the tree. -/
def assign (minKey maxKey : Int) (t : List (Leaf β)) (lo hi : Int) (val : β) : List (Leaf β) :=
  FlatSegmentTree.below maxKey (insert t (max lo minKey) (min hi maxKey) val)

/-- What `insert_front` and `insert_back` come to: the leaves are those of the assignment, the
flag tells whether they changed, and the iterator stands on the leaf at the start of the
range, if any of it lies within the keys. A leaf whose key stays is at the same address. -/
structure Assigned (minKey maxKey : Int) (l : List (Entry β)) (r : Entry β) (lo hi : Int)
    (val : β) (position : Option Nat) (changed : Bool) (l' : List (Entry β)) : Prop where
  assigned : leaves l' = assign minKey maxKey (leaves l) lo hi val
  changed : changed = true ↔ leaves l' ≠ leaves l
  found : max lo minKey < min hi maxKey → ∃ e ∈ l', position = some e.1 ∧
    search (leaves l') (max lo minKey) = some e.2
  missed : ¬ max lo minKey < min hi maxKey → position = none
  stay : ∀ a ∈ l', Stays (l ++ [r]) a

omit [DecidableEq β] in
theorem head_below {l : List (Leaf β)} (h : l.head?.map Leaf.key = some minKey)
    (hlt : minKey < maxKey) : (below maxKey l).head?.map Leaf.key = some minKey := by
  obtain ⟨a, ha, rfl⟩ := Option.map_eq_some_iff.mp h
  obtain ⟨l, rfl⟩ := List.head?_eq_some_iff.mp ha
  unfold below
  rw [List.filter_cons_of_pos (by simpa using hlt)]
  rfl

omit [DecidableEq β] in
/-- A range within the keys starts at a leaf or after one. -/
theorem Holds.splits (h : Holds t minKey maxKey init l r) (hlt : lo < hi) (hlo : minKey ≤ lo) :
    ∃ L M R w, Splits (leaves l) lo hi L M R w := by
  obtain ⟨e, l₀, rfl, -, hkey, -⟩ := h.leftLeaf
  have hs := h.listed.sorted
  rw [leaves, List.map_append] at hs
  exact Sorted.splits (List.pairwise_append.mp hs).1 hlt ⟨e.2, by simp, hkey.trans_le hlo⟩

/-- `insert_front` and `insert_back` on any range but one that ends at the first key, or
starts at the last one: there the source follows a null pointer. -/
theorem insertSegmentImpl_spec (val : β) (forward : Bool) (h : Holds t minKey maxKey init l r)
    (hpre : lo < hi → hi ≠ minKey ∧ lo ≠ maxKey) :
    ∃ t' position changed l',
      t.insertSegmentImpl lo hi val forward = .ok (t', position, changed) ∧
      Holds t' minKey maxKey init l' r ∧
      t' = { t with
        mem := t'.mem, allocs := t'.allocs,
        mValidTree := if changed then false else t.mValidTree } ∧
      Assigned minKey maxKey l r lo hi val position changed l' ∧ (changed = false → l' = l) := by
  unfold insertSegmentImpl
  rw [h.adjustSegmentRange hpre, ok_bind]
  by_cases hlt : max lo minKey < min hi maxKey
  · rw [if_pos hlt]
    have hrkey : r.2.key = maxKey := by rw [h.maxKey]
    obtain ⟨L, M, B, ha⟩ := h.listed.around hlt (hrkey ▸ min_le_right hi maxKey)
    obtain ⟨e₀, l₀, hl, -, hkey, -⟩ := h.leftLeaf
    have hlo : L = [] → ∃ m ∈ M.head?, m.2.key = max lo minKey := by
      rintro rfl
      have heq := ha.eq
      rw [hl, List.nil_append] at heq
      cases M with
      | nil =>
        rw [List.nil_append] at heq
        have hge := ha.beyond e₀ (heq ▸ List.mem_cons_self)
        omega
      | cons m M =>
        obtain rfl : e₀ = m := (List.cons.inj heq).1
        have hge := (ha.inside e₀ List.mem_cons_self).1
        exact ⟨e₀, rfl, le_antisymm (hkey ▸ le_max_right lo minKey) hge⟩
    obtain ⟨t', e, ch, l', hrun, hins⟩ := insertToPos_spec val h.listed ha hlo
    obtain ⟨S, T, R, w, hsplits⟩ := h.splits hlt (le_max_right lo minKey)
    have hhead := head_insert (v := val) hlt hsplits h.minKey (le_max_right lo minKey)
    have hassign : leaves l' = assign minKey maxKey (leaves l) lo hi val := by
      rw [hins.inserted, hrkey]
      rfl
    obtain ⟨a, l₁, hl'⟩ := List.exists_cons_of_ne_nil (List.ne_nil_of_mem hins.mem)
    have hfront := hins.front
    rw [hl', first_append_of_some h.left] at hfront
    have hsame := hins.same
    refine ⟨t', some e.1, ch, l', ?_, ⟨hins.listed, ?_, ?_, ?_, h.maxKey⟩, hsame,
      ⟨hassign, ⟨hins.changed, fun hne => ?_⟩, fun _ => ⟨e, hins.mem, rfl, hins.found⟩,
        fun hnot => absurd hlt hnot, hins.stay⟩, hins.unchanged⟩
    · dsimp only
      obtain ⟨b, B, rfl⟩ := List.exists_cons_of_ne_nil ha.ne
      have hstart : first (M ++ b :: B) none ≠ none := by cases M <;> simp
      rw [h.startPosFor ha, ok_bind, check_ok hstart, ok_bind]
      exact hrun
    · rw [hl', hsame]
      exact hfront
    · rw [hsame]
      exact h.right
    · rw [hassign]
      exact head_below hhead h.lt
    · by_contra hch
      exact hne (congrArg leaves (hins.unchanged (Bool.eq_false_iff.mpr hch)))
  · rw [if_neg hlt]
    have hassign : leaves l = assign minKey maxKey (leaves l) lo hi val := by
      unfold assign IntervalMap.insert
      rw [if_pos (not_lt.mp hlt), ← show r.2.key = maxKey by rw [h.maxKey], h.listed.below]
    exact ⟨t, none, false, l, rfl, h, rfl,
      ⟨hassign, by simp, fun hlt' => absurd hlt' hlt, fun _ => rfl, fun a ha =>
        stays_of_mem (List.mem_append_left _ ha)⟩, fun _ => rfl⟩

end FlatSegmentTree
end EchoFs.Mdds
