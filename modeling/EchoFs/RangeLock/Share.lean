import EchoFs.RangeLock.Ops

/-! `add_reader` as a relation on the entries of the tree. Each piece of the new
range that was free becomes a proxy with one reference, each piece that was held
by readers becomes a proxy with one reference more. -/

namespace EchoFs.RangeLock
open Checked Slots

abbrev weightAt (l : List Node) (x : Int) : Int :=
  Intervals.weightAt (fun n : Node => n.data.mStart) (fun n => n.data.mEnd)
    (fun n => n.data.mRefs) l x

/-- A proxy descriptor with `refs` references and nobody waiting. -/
def proxy (start stop refs : Int) : Range :=
  { Range.new start stop .proxyReader with mRefs := refs }

@[simp] theorem proxy_mStart (a b r : Int) : (proxy a b r).mStart = a := rfl
@[simp] theorem proxy_mEnd (a b r : Int) : (proxy a b r).mEnd = b := rfl
@[simp] theorem proxy_mRefs (a b r : Int) : (proxy a b r).mRefs = r := rfl

/-- An entry a new reader may share: readers only, and nobody waiting on it. -/
structure Shareable (r : Range) : Prop where
  reader : r.mType = .reader
  noReader : r.mReadWanted = false
  noWriter : r.mWriteWanted = false
  refs : 0 < r.mRefs
  single : r.mIsProxy = false → r.mRefs = 1

theorem Shareable.eq_proxy {r : Range} (h : Shareable r) (hp : r.mIsProxy = true) :
    r = proxy r.mStart r.mEnd r.mRefs := by
  have h₁ := h.reader
  have h₂ := h.noReader
  have h₃ := h.noWriter
  cases r
  simp_all [proxy, Range.new]

theorem shareable_proxy {a b r : Int} (h : 0 < r) : Shareable (proxy a b r) :=
  ⟨rfl, rfl, rfl, h, fun hp => absurd hp (by simp [proxy, Range.new])⟩

/-- The descriptor `n` after `range_proxify` has taken it out of the tree. -/
def detach (n : Node) : Node := ⟨n.addr, { n.data with mRefs := 0 }⟩

/-- The original descriptors among `l` have left the tree for good. -/
def Detaches (t t' : Table) (l : List Node) : Prop :=
  ∀ m, m ∈ t'.removed ↔ m ∈ t.removed ∨ ∃ n ∈ l, n.data.mIsProxy = false ∧ m = detach n

theorem Detaches.trans {t t' t'' : Table} {l l' : List Node} (h : Detaches t t' l)
    (h' : Detaches t' t'' l') : Detaches t t'' (l ++ l') := by
  intro m
  rw [h' m, h m]
  simp only [List.mem_append, or_and_right, exists_or, or_assoc]

theorem detaches_of_removed_eq {t t' : Table} (h : t'.removed = t.removed) : Detaches t t' [] := by
  intro m
  simp [h]

theorem Detaches.congr_right {t t' t'' : Table} {l : List Node} (h : Detaches t t' l)
    (he : t''.removed = t'.removed) : Detaches t t'' l := fun m => by rw [he]; exact h m

section Helpers
variable {t : Table} {L R : List Node} {n : Node}

theorem starts_lt_of_ordered (hO : Ordered (L ++ n :: R)) :
    (∀ m ∈ L, m.data.mStart < n.data.mStart) ∧ ∀ m ∈ R, n.data.mStart < m.data.mStart :=
  ⟨fun m hm => (hO.spread.around.1 m hm).2, fun m hm => (hO.spread.around.2 m hm).2⟩

theorem rangeProxify_spec (hA : t.AddrOk) (hO : Keyed t.nodes) (hn : t.nodes = L ++ n :: R)
    (hs : Shareable n.data) (hc : n.data.mIsProxy = false → t.nodes.length % 2 ^ 32 ≠ 0) :
    ∃ t' a, rangeProxify t n.addr = .ok (t', a) ∧ t'.AddrOk ∧ Detaches t t' [n] ∧
      t'.nodes = L ++ ⟨a, proxy n.data.mStart n.data.mEnd n.data.mRefs⟩ :: R := by
  have hget : t.get n.addr = .ok n.data := Table.get_node hA (by simp [hn])
  by_cases hp : n.data.mIsProxy = true
  · refine ⟨t, n.addr, by simp [rangeProxify, hget, hp], hA, ?_, ?_⟩
    · intro m
      simp [hp]
    · rw [hn, ← hs.eq_proxy hp]
  · have hp' : n.data.mIsProxy = false := by simpa using hp
    obtain ⟨hL, hR⟩ := (hn ▸ hO : Keyed (L ++ n :: R)).around
    -- the descriptor leaves the tree and loses its reference there
    have hA₁ := hA.removeNode hn
    have hmod := Table.modify_removed hA₁ (D := []) (m := n) (E := t.removed) rfl
      (fun r => { r with mRefs := 0 })
    have hA₂ := hA₁.modify n.addr fun r => { r with mRefs := 0 }
    rw [hmod] at hA₂
    obtain ⟨t₃, a, hadd, hA₃, hrem, hn₃⟩ := Table.add_spec hA₂ (L := L) (R := R) rfl
      (r := Range.new n.data.mStart n.data.mEnd .proxyReader) hL hR
    refine ⟨t₃, a, ?_, hA₃, ?_, ?_⟩
    · simp only [rangeProxify, hget, ok_bind, if_neg hp, check_ok (hs.single hp'),
        check_ok hs.noReader, check_ok hs.noWriter, Table.removeNode_node hA hn (hc hp'), hmod]
      exact hadd
    · intro m
      rw [hrem, List.nil_append, List.mem_cons, or_comm]
      simp [hp', detach]
    · rw [hn₃]
      simp [proxy, Range.new, hs.single hp']

/-- An original entry cannot be replaced while the counter is zero. -/
theorem rangeProxify_wrapped (hA : t.AddrOk) (hn : t.nodes = L ++ n :: R) (hs : Shareable n.data)
    (hc : ¬(n.data.mIsProxy = false → t.nodes.length % 2 ^ 32 ≠ 0)) :
    rangeProxify t n.addr = .error .assertion := by
  have hget : t.get n.addr = .ok n.data := Table.get_node hA (by simp [hn])
  obtain ⟨hp, hzero⟩ := Classical.not_imp.mp hc
  have hnp : ¬n.data.mIsProxy = true := by simp [hp]
  simp only [rangeProxify, hget, ok_bind, if_neg hnp, check_ok (hs.single hp),
    check_ok hs.noReader, check_ok hs.noWriter, Table.removeNode_wrapped (not_not.mp hzero),
    error_bind]

theorem rangeSplit_wrapped (hA : t.AddrOk) (hn : t.nodes = L ++ n :: R) (hs : Shareable n.data)
    {offset : Int} (h₁ : n.data.mStart < offset) (h₂ : offset < n.data.mEnd)
    (hc : ¬(n.data.mIsProxy = false → t.nodes.length % 2 ^ 32 ≠ 0)) :
    rangeSplit t n.addr offset = .error .assertion := by
  have hget : t.get n.addr = .ok n.data := Table.get_node hA (by simp [hn])
  simp only [rangeSplit, hget, ok_bind, check_ok (show n.data.mEnd - n.data.mStart > 1 by omega),
    check_ok (show offset > n.data.mStart from h₁), check_ok h₂, check_ok hs.noReader,
    check_ok hs.noWriter, rangeProxify_wrapped hA hn hs hc, error_bind]

theorem rangeSplit_spec (hA : t.AddrOk) (hO : Keyed t.nodes) (hn : t.nodes = L ++ n :: R)
    (hs : Shareable n.data) {offset : Int} (h₁ : n.data.mStart < offset)
    (h₂ : offset < n.data.mEnd) (hc : n.data.mIsProxy = false → t.nodes.length % 2 ^ 32 ≠ 0) :
    ∃ t' a b, rangeSplit t n.addr offset = .ok (t', a, b) ∧ t'.AddrOk ∧ Detaches t t' [n] ∧
      t'.nodes = L ++ ⟨a, proxy n.data.mStart offset n.data.mRefs⟩ ::
        ⟨b, proxy offset n.data.mEnd n.data.mRefs⟩ :: R := by
  have hget : t.get n.addr = .ok n.data := Table.get_node hA (by simp [hn])
  obtain ⟨t₁, a, hprox, hA₁, hD₁, hn₁⟩ := rangeProxify_spec hA hO hn hs hc
  -- the front piece is shortened in place, the rear piece is a new node after it
  obtain ⟨hA₂, hr₂, hn₂⟩ := Table.modify_spec hA₁ hn₁
    (fun f' => { f' with mEnd := n.data.mStart + offset - n.data.mStart })
  obtain ⟨t₃, b, hins, hA₃, hr₃, hn₃⟩ := Table.insertHere_spec hA₂ hn₂
    (Range.new offset n.data.mEnd .proxyReader)
  rw [List.append_cons] at hn₃
  obtain ⟨hA₄, hr₄, hn₄⟩ := Table.modify_spec hA₃ hn₃ (fun r' => { r' with mRefs := n.data.mRefs })
  refine ⟨_, a, b, ?_, hA₄, hD₁.congr_right (by rw [hr₄, hr₃, hr₂]), ?_⟩
  · simp only [rangeSplit, hget, ok_bind, check_ok (show n.data.mEnd - n.data.mStart > 1 by omega),
      check_ok (show offset > n.data.mStart from h₁), check_ok h₂, check_ok hs.noReader,
      check_ok hs.noWriter, hprox, Table.get_at hA₁ hn₁, proxy_mStart, hins, pure_eq_ok]
  · rw [hn₄]
    simp [proxy, Range.new]

theorem rangeNewProxy_spec (hA : t.AddrOk) (hn : t.nodes = L ++ R) {a b : Int} (hab : a < b)
    (hL : ∀ m ∈ L, m.data.mStart < a) (hR : ∀ m ∈ R, a < m.data.mStart) :
    ∃ t' c, rangeNewProxy t a (b - a) = .ok t' ∧ t'.AddrOk ∧ t'.removed = t.removed ∧
      t'.nodes = L ++ ⟨c, proxy a b 1⟩ :: R := by
  obtain ⟨t', c, hadd, hA', hrem, hn'⟩ := Table.add_spec hA hn
    (r := Range.new a (a + (b - a)) .proxyReader) hL hR
  refine ⟨t', c, ?_, hA', hrem, ?_⟩
  · simp only [rangeNewProxy, check_ok (show b - a ≠ 0 by omega), ok_bind, hadd, pure_eq_ok]
  · rw [hn', add_sub_cancel]
    rfl

theorem bumpRefs_spec (hA : t.AddrOk) {a : Nat} {s e r : Int}
    (hn : t.nodes = L ++ ⟨a, proxy s e r⟩ :: R) :
    (bumpRefs t a).AddrOk ∧ (bumpRefs t a).removed = t.removed ∧
      (bumpRefs t a).nodes = L ++ ⟨a, proxy s e (r + 1)⟩ :: R := by
  exact Table.modify_spec hA hn (fun r => { r with mRefs := r.mRefs + 1 })

end Helpers

def Overlaps (r : Range) (lo hi : Int) : Prop := r.mStart < hi ∧ lo < r.mEnd

instance (r : Range) (lo hi : Int) : Decidable (Overlaps r lo hi) :=
  inferInstanceAs (Decidable (r.mStart < hi ∧ lo < r.mEnd))

/-- The walk of `add_reader` over the entries `l`, all of them at or after `lo`,
when the new range still has to get `[lo, hi)`. -/
inductive Share (hi : Int) : Int → List Node → List Node → Prop
  | tail {lo : Int} {l : List Node} (a : Nat) (h : lo < hi) (hl : ∀ m ∈ l, hi ≤ m.data.mStart) :
      Share hi lo l (⟨a, proxy lo hi 1⟩ :: l)
  | gap {lo : Int} {n : Node} {l l' : List Node} (a : Nat) (h : lo < n.data.mStart)
      (hn : n.data.mStart < hi) (hl : Share hi n.data.mStart (n :: l) l') :
      Share hi lo (n :: l) (⟨a, proxy lo n.data.mStart 1⟩ :: l')
  | exact {n : Node} {l : List Node} (a : Nat) (hs : Shareable n.data) (h : n.data.mEnd = hi) :
      Share hi n.data.mStart (n :: l)
        (⟨a, proxy n.data.mStart n.data.mEnd (n.data.mRefs + 1)⟩ :: l)
  | split {n : Node} {l : List Node} (a b : Nat) (hs : Shareable n.data)
      (h₁ : n.data.mStart < hi) (h₂ : hi < n.data.mEnd) :
      Share hi n.data.mStart (n :: l)
        (⟨a, proxy n.data.mStart hi (n.data.mRefs + 1)⟩ ::
          ⟨b, proxy hi n.data.mEnd n.data.mRefs⟩ :: l)
  | whole {n : Node} {l l' : List Node} (a : Nat) (hs : Shareable n.data)
      (h : n.data.mEnd < hi) (hl : Share hi n.data.mEnd l l') :
      Share hi n.data.mStart (n :: l)
        (⟨a, proxy n.data.mStart n.data.mEnd (n.data.mRefs + 1)⟩ :: l')

/-- `remove_node` finds a positive counter at every entry that `add_reader` takes out of the
tree, with `k` entries there before it comes to `l`. A gap before an entry has got a proxy by
then, and an entry that starts before the new range leaves two behind. -/
def Countable (hi : Int) : Int → Nat → List Node → Prop
  | _, _, [] => True
  | lo, k, n :: l =>
    if n.data.mEnd ≤ lo then
      Countable hi lo k l
    else if hi ≤ n.data.mStart then
      True
    else
      let k := if lo < n.data.mStart then k + 1 else k
      (n.data.mIsProxy = false → k % 2 ^ 32 ≠ 0) ∧
        Countable hi n.data.mEnd (if n.data.mStart < lo then k + 1 else k) l

instance Countable.decidable (hi : Int) : ∀ lo k l, Decidable (Countable hi lo k l)
  | _, _, [] => isTrue trivial
  | lo, _, n :: l =>
    let _ := fun lo k => Countable.decidable hi lo k l
    inferInstanceAs (Decidable (if n.data.mEnd ≤ lo then _ else if hi ≤ n.data.mStart then True
      else (_ → _) ∧ _))

section Countable
variable {lo hi : Int} {k : Nat} {L l : List Node} {n : Node}

theorem countable_cons (h₁ : lo < n.data.mEnd) (h₂ : n.data.mStart < hi) :
    Countable hi lo k (n :: l) ↔
      (n.data.mIsProxy = false → (if lo < n.data.mStart then k + 1 else k) % 2 ^ 32 ≠ 0) ∧
        Countable hi n.data.mEnd (if n.data.mStart < lo then
          (if lo < n.data.mStart then k + 1 else k) + 1
          else if lo < n.data.mStart then k + 1 else k) l := by
  conv_lhs => unfold Countable
  rw [if_neg (not_le.mpr h₁), if_neg (not_le.mpr h₂)]

/-- Entries before the new range are not taken out. -/
theorem countable_append {l' : List Node} (hl : l' = L ++ l) (hL : ∀ m ∈ L, m.data.mEnd ≤ lo) :
    Countable hi lo k l' ↔ Countable hi lo k l := by
  subst hl
  induction L with
  | nil => rfl
  | cons n L ih =>
    rw [List.cons_append]
    conv_lhs => unfold Countable
    rw [if_pos (hL n List.mem_cons_self)]
    exact ih fun m hm => hL m (List.mem_cons_of_mem _ hm)

theorem countable_of_behind (hl : ∀ m ∈ l, hi ≤ m.data.mStart) : Countable hi lo k l := by
  induction l with
  | nil => exact trivial
  | cons n l ih =>
    unfold Countable
    rw [if_pos (hl n List.mem_cons_self)]
    split
    · exact ih fun m hm => hl m (List.mem_cons_of_mem _ hm)
    · exact trivial

end Countable

/-- A piece that the new range made: a shared proxy that no end of the new range
cuts, inside one of the old entries or where there was none. -/
structure Piece (lo hi : Int) (l : List Node) (r : Range) : Prop where
  shareable : Shareable r
  isProxy : r.mIsProxy = true
  uncut : (lo ≤ r.mStart ∧ r.mEnd ≤ hi) ∨ ¬Overlaps r lo hi
  origin : (∃ n ∈ l, n.data.mStart ≤ r.mStart ∧ r.mEnd ≤ n.data.mEnd) ∨
    ∀ n ∈ l, ¬Overlaps n.data r.mStart r.mEnd

/-- The entries `l'` are those of `l` with a new reader on `[lo, hi)`. -/
structure Shared (lo hi : Int) (l l' : List Node) : Prop where
  ordered : Ordered l'
  weight : ∀ x, weightAt l' x = weightAt l x + if lo ≤ x ∧ x < hi then 1 else 0
  kept : ∀ m ∈ l, ¬Overlaps m.data lo hi → m ∈ l'
  pieces : ∀ m ∈ l', (m ∈ l ∧ ¬Overlaps m.data lo hi) ∨ Piece lo hi l m.data

namespace Shared
variable {lo hi c : Int} {l l' : List Node} {n : Node}

theorem refl (hO : Ordered l) (hl : ∀ m ∈ l, hi ≤ m.data.mStart) : Shared hi hi l l := by
  have hno : ∀ m ∈ l, ¬Overlaps m.data hi hi := fun m hm ho => absurd ho.1 (not_lt.mpr (hl m hm))
  refine ⟨hO, fun x => ?_, fun m hm _ => hm, fun m hm => .inl ⟨hm, hno m hm⟩⟩
  rw [if_neg (by omega), add_zero]

/-- The new range gets a piece `[lo, c)` that was free. -/
theorem fill (h : Shared c hi l l') (a : Nat) (hlo : lo < c) (hc : c ≤ hi)
    (hl : ∀ m ∈ l, c ≤ m.data.mStart) (hl' : ∀ m ∈ l', c ≤ m.data.mStart) :
    Shared lo hi l (⟨a, proxy lo c 1⟩ :: l') := by
  refine ⟨ordered_cons.mpr ⟨hlo, hl', h.ordered⟩, fun x => ?_, fun m hm hno => ?_, fun m hm => ?_⟩
  · simp only [weightAt, Intervals.weightAt, proxy_mStart, proxy_mEnd, proxy_mRefs]
    have := h.weight x
    simp only [weightAt] at this
    rw [this]
    split_ifs <;> omega
  · exact List.mem_cons_of_mem _ (h.kept m hm fun ho => hno ⟨ho.1, by have := ho.2; omega⟩)
  · rcases List.mem_cons.mp hm with rfl | hm
    · refine .inr ⟨shareable_proxy one_pos, rfl, .inl ⟨le_rfl, hc⟩, .inr fun m hm ho => ?_⟩
      exact absurd ho.1 (not_lt.mpr (hl m hm))
    · have hlt := h.ordered.lt hm
      have hge := hl' m hm
      rcases h.pieces m hm with ⟨hml, hno⟩ | hp
      · refine .inl ⟨hml, fun ho => hno ⟨ho.1, by omega⟩⟩
      · refine .inr ⟨hp.shareable, hp.isProxy, ?_, hp.origin⟩
        rcases hp.uncut with hin | hno
        · exact .inl ⟨by omega, hin.2⟩
        · exact .inr fun ho => hno ⟨ho.1, by omega⟩

/-- The new range shares the first entry, which it covers. -/
theorem bump (h : Shared n.data.mEnd hi l l') (a : Nat) (hO : Ordered (n :: l))
    (hs : Shareable n.data) (hhi : n.data.mEnd ≤ hi)
    (hl' : ∀ m ∈ l', n.data.mEnd ≤ m.data.mStart) :
    Shared n.data.mStart hi (n :: l)
      (⟨a, proxy n.data.mStart n.data.mEnd (n.data.mRefs + 1)⟩ :: l') := by
  obtain ⟨hn, hnl, hOl⟩ := ordered_cons.mp hO
  refine ⟨ordered_cons.mpr ⟨hn, hl', h.ordered⟩, fun x => ?_, fun m hm hno => ?_, fun m hm => ?_⟩
  · simp only [weightAt, Intervals.weightAt, proxy_mStart, proxy_mEnd, proxy_mRefs]
    have := h.weight x
    simp only [weightAt] at this
    rw [this]
    split_ifs <;> omega
  · rcases List.mem_cons.mp hm with rfl | hm
    · exact absurd ⟨by omega, hn⟩ hno
    · exact List.mem_cons_of_mem _ (h.kept m hm fun ho => hno ⟨ho.1, hn.trans ho.2⟩)
  · rcases List.mem_cons.mp hm with rfl | hm
    · exact .inr ⟨shareable_proxy (by have := hs.refs; omega), rfl, .inl ⟨le_rfl, hhi⟩,
        .inl ⟨n, List.mem_cons_self, le_rfl, le_rfl⟩⟩
    · have hlt := h.ordered.lt hm
      have hge := hl' m hm
      rcases h.pieces m hm with ⟨hml, hno⟩ | hp
      · exact .inl ⟨List.mem_cons_of_mem _ hml, fun ho => hno ⟨ho.1, by omega⟩⟩
      · refine .inr ⟨hp.shareable, hp.isProxy, ?_, ?_⟩
        · rcases hp.uncut with hin | hno
          · exact .inl ⟨by omega, hin.2⟩
          · exact .inr fun ho => hno ⟨ho.1, by omega⟩
        · rcases hp.origin with ⟨k, hk, hkm⟩ | hfree
          · exact .inl ⟨k, List.mem_cons_of_mem _ hk, hkm⟩
          · refine .inr fun k hk ho => ?_
            rcases List.mem_cons.mp hk with rfl | hk
            · exact absurd ho.2 (not_lt.mpr hge)
            · exact hfree k hk ho

/-- Sharing part of an entry is sharing one of the halves it is split into. -/
theorem unsplit {P R : List Node} {a b : Nat} (hs : Shareable n.data) (ho : Overlaps n.data lo hi)
    (h₁ : n.data.mStart < c) (h₂ : c < n.data.mEnd)
    (h : Shared lo hi (P ++ ⟨a, proxy n.data.mStart c n.data.mRefs⟩ ::
      ⟨b, proxy c n.data.mEnd n.data.mRefs⟩ :: R) l') :
    Shared lo hi (P ++ n :: R) l' := by
  refine ⟨h.ordered, fun x => ?_, fun m hm hno => ?_, fun m hm => ?_⟩
  · rw [h.weight]
    simp only [weightAt, Intervals.weightAt_append, Intervals.weightAt, proxy_mStart, proxy_mEnd,
      proxy_mRefs]
    split_ifs <;> omega
  · refine h.kept m ?_ hno
    simp only [List.mem_append, List.mem_cons] at hm ⊢
    rcases hm with hm | rfl | hm
    · exact .inl hm
    · exact absurd ho hno
    · exact .inr (.inr (.inr hm))
  · have hin : ∀ k ∈ P ++ ⟨a, proxy n.data.mStart c n.data.mRefs⟩ ::
        ⟨b, proxy c n.data.mEnd n.data.mRefs⟩ :: R, k ∈ P ++ n :: R ∨
          (k.data = proxy n.data.mStart c n.data.mRefs ∨
            k.data = proxy c n.data.mEnd n.data.mRefs) := by
      intro k hk
      simp only [List.mem_append, List.mem_cons] at hk ⊢
      rcases hk with hk | rfl | rfl | hk
      · exact .inl (.inl hk)
      · exact .inr (.inl rfl)
      · exact .inr (.inr rfl)
      · exact .inl (.inr (.inr hk))
    have hmem : n ∈ P ++ n :: R := by simp
    rcases h.pieces m hm with ⟨hml, hno⟩ | hp
    · rcases hin m hml with hold | he | he
      · exact .inl ⟨hold, hno⟩
      all_goals
        refine .inr ⟨he ▸ shareable_proxy hs.refs, by rw [he]; rfl, .inr hno,
          .inl ⟨n, hmem, ?_⟩⟩
        rw [he]
        simp only [proxy_mStart, proxy_mEnd]
        omega
    · refine .inr ⟨hp.shareable, hp.isProxy, hp.uncut, ?_⟩
      rcases hp.origin with ⟨k, hk, hkm⟩ | hfree
      · rcases hin k hk with hold | he | he
        · exact .inl ⟨k, hold, hkm⟩
        all_goals
          rw [he] at hkm
          simp only [proxy_mStart, proxy_mEnd] at hkm
          exact .inl ⟨n, hmem, by omega, by omega⟩
      · refine .inr fun k hk hov => ?_
        simp only [List.mem_append, List.mem_cons] at hk
        rcases hk with hk | rfl | hk
        · exact hfree k (by simp [hk]) hov
        · have f₁ := hfree ⟨a, proxy k.data.mStart c k.data.mRefs⟩ (by simp)
          have f₂ := hfree ⟨b, proxy c k.data.mEnd k.data.mRefs⟩ (by simp)
          simp only [Overlaps, proxy_mStart, proxy_mEnd] at f₁ f₂ hov
          have := h.ordered.lt hm
          omega
        · exact hfree k (by simp [hk]) hov

/-- Entries before the new range play no part. -/
theorem append_left {P : List Node} (h : Shared lo hi l l') (hO : Ordered (P ++ l))
    (hP : ∀ m ∈ P, m.data.mEnd ≤ lo) (hl' : ∀ m ∈ l', lo ≤ m.data.mStart) :
    Shared lo hi (P ++ l) (P ++ l') := by
  obtain ⟨hOP, hOl, hcross⟩ := ordered_append.mp hO
  refine ⟨ordered_append.mpr ⟨hOP, h.ordered, fun p hp m hm => (hP p hp).trans (hl' m hm)⟩,
    fun x => ?_, fun m hm hno => ?_, fun m hm => ?_⟩
  · have := h.weight x
    simp only [weightAt, Intervals.weightAt_append] at this ⊢
    omega
  · rcases List.mem_append.mp hm with hm | hm
    · exact List.mem_append_left _ hm
    · exact List.mem_append_right _ (h.kept m hm hno)
  · rcases List.mem_append.mp hm with hm | hm
    · exact .inl ⟨List.mem_append_left _ hm, fun ho => absurd ho.2 (not_lt.mpr (hP m hm))⟩
    · rcases h.pieces m hm with ⟨hml, hno⟩ | hp
      · exact .inl ⟨List.mem_append_right _ hml, hno⟩
      · refine .inr ⟨hp.shareable, hp.isProxy, hp.uncut, ?_⟩
        rcases hp.origin with ⟨k, hk, hkm⟩ | hfree
        · exact .inl ⟨k, List.mem_append_right _ hk, hkm⟩
        · refine .inr fun k hk ho => ?_
          rcases List.mem_append.mp hk with hk | hk
          · have := hP k hk
            have := hl' m hm
            have := ho.2
            omega
          · exact hfree k hk ho

end Shared

/-- The walk does what it is for, and stays at or after its starting point. -/
theorem Share.shared {hi lo : Int} {l l' : List Node} (h : Share hi lo l l') (hO : Ordered l)
    (hl : ∀ m ∈ l, lo ≤ m.data.mStart) :
    Shared lo hi l l' ∧ ∀ m ∈ l', lo ≤ m.data.mStart := by
  induction h with
  | tail a hlt hge =>
    refine ⟨(Shared.refl hO hge).fill a hlt le_rfl hge hge, fun m hm => ?_⟩
    rcases List.mem_cons.mp hm with rfl | hm
    · exact le_rfl
    · exact hl m hm
  | @gap lo n l l' a hlt hn hsh ih =>
    obtain ⟨_, hnl, _⟩ := ordered_cons.mp hO
    have hge : ∀ m ∈ n :: l, n.data.mStart ≤ m.data.mStart := by
      intro m hm
      rcases List.mem_cons.mp hm with rfl | hm
      · exact le_rfl
      · have := hO.lt List.mem_cons_self
        have := hnl m hm
        omega
    obtain ⟨ih, hge'⟩ := ih hO hge
    refine ⟨ih.fill a hlt hn.le hge hge', fun m hm => ?_⟩
    rcases List.mem_cons.mp hm with rfl | hm
    · exact le_rfl
    · exact hlt.le.trans (hge' m hm)
  | @exact n l a hs he =>
    obtain ⟨_, hnl, hOl⟩ := ordered_cons.mp hO
    subst he
    exact ⟨(Shared.refl hOl hnl).bump a hO hs le_rfl hnl, fun m hm => by
      rcases List.mem_cons.mp hm with rfl | hm
      · exact le_rfl
      · exact hl m (List.mem_cons_of_mem _ hm)⟩
  | @split n l a b hs h₁ h₂ =>
    obtain ⟨_, hnl, hOl⟩ := ordered_cons.mp hO
    have hOb : Ordered (⟨b, proxy hi n.data.mEnd n.data.mRefs⟩ :: l) :=
      ordered_cons.mpr ⟨h₂, hnl, hOl⟩
    have hgeb : ∀ m ∈ (⟨b, proxy hi n.data.mEnd n.data.mRefs⟩ : Node) :: l, hi ≤ m.data.mStart := by
      intro m hm
      rcases List.mem_cons.mp hm with rfl | hm
      · exact le_rfl
      · exact h₂.le.trans (hnl m hm)
    have hfront := (Shared.refl hOb hgeb).bump (n := ⟨a, proxy n.data.mStart hi n.data.mRefs⟩) a
      (ordered_cons.mpr ⟨h₁, hgeb, hOb⟩) (shareable_proxy hs.refs) le_rfl hgeb
    refine ⟨hfront.unsplit (P := []) hs ⟨h₁, hO.lt List.mem_cons_self⟩ h₁ h₂, ?_⟩
    intro m hm
    rcases List.mem_cons.mp hm with rfl | hm
    · exact le_rfl
    · exact h₁.le.trans (hgeb m hm)
  | @whole n l l' a hs he hsh ih =>
    obtain ⟨hn, hnl, hOl⟩ := ordered_cons.mp hO
    obtain ⟨ih, hge'⟩ := ih hOl hnl
    refine ⟨ih.bump a hO hs he.le hge', fun m hm => ?_⟩
    rcases List.mem_cons.mp hm with rfl | hm
    · exact le_rfl
    · exact hn.le.trans (hge' m hm)

section Walk
variable {t : Table} {L R P S : List Node} {n : Node} {lo hi : Int}

theorem Ordered.replace (hO : Ordered (L ++ n :: R)) {m : Node} (hs : m.data.mStart = n.data.mStart)
    (he : m.data.mEnd = n.data.mEnd) : Ordered (L ++ m :: R) := by
  obtain ⟨hL, hnR, hcross⟩ := ordered_append.mp hO
  obtain ⟨hn, hR, hOR⟩ := ordered_cons.mp hnR
  refine ordered_append.mpr ⟨hL, ordered_cons.mpr ⟨by omega, he ▸ hR, hOR⟩, fun a ha b hb => ?_⟩
  rcases List.mem_cons.mp hb with rfl | hb
  · exact hs ▸ hcross a ha n List.mem_cons_self
  · exact hcross a ha b (List.mem_cons_of_mem _ hb)

theorem Ordered.between {m : Node} (hO : Ordered (L ++ R)) (hm : m.data.mStart < m.data.mEnd)
    (hL : ∀ p ∈ L, p.data.mEnd ≤ m.data.mStart) (hR : ∀ p ∈ R, m.data.mEnd ≤ p.data.mStart) :
    Ordered (L ++ m :: R) := by
  obtain ⟨hOL, hOR, hcross⟩ := ordered_append.mp hO
  refine ordered_append.mpr ⟨hOL, ordered_cons.mpr ⟨hm, hR, hOR⟩, fun a ha b hb => ?_⟩
  rcases List.mem_cons.mp hb with rfl | hb
  · exact hL a ha
  · exact hcross a ha b hb

/-- Where the walk stands: `[lo, hi)` is left, and `lo` is the end of the last
entry handled or, before the first one, the start of the entry to handle. -/
def WalkAt (prev : Ptr) (P S : List Node) (lo : Int) : Prop :=
  (∃ P' p, P = P' ++ [p] ∧ prev = some p.addr ∧ p.data.mEnd = lo) ∨
    (prev = none ∧ ∃ n S', S = n :: S' ∧ n.data.mStart = lo)

theorem WalkAt.ends_le {prev : Ptr} (h : WalkAt prev P S lo) (hO : Spread (P ++ S)) :
    ∀ m ∈ P, m.data.mEnd ≤ lo := by
  intro m hm
  rcases h with ⟨P', p, rfl, _, rfl⟩ | ⟨_, n, S', rfl, rfl⟩
  · rcases List.mem_append.mp hm with hm' | hm'
    · have h₁ := ((spread_append.mp (spread_append.mp hO).1).2.2 m hm' p (by simp)).1
      have h₂ := hO.le (show p ∈ (P' ++ [p]) ++ S by simp)
      omega
    · rw [List.mem_singleton.mp hm']
  · exact ((spread_append.mp hO).2.2 m hm n List.mem_cons_self).1

/-- The entries from `lo` on, when `lo` is left to do. -/
theorem WalkAt.le_starts {prev : Ptr} (h : WalkAt prev P S lo) (hO : Spread (P ++ S)) :
    ∀ m ∈ S, lo ≤ m.data.mStart := by
  intro m hm
  rcases h with ⟨P', p, rfl, _, rfl⟩ | ⟨_, n, S', rfl, rfl⟩
  · exact ((spread_append.mp hO).2.2 p (by simp) m hm).1
  · exact hO.le_starts m hm

theorem addRemainingEnd_spec {prev : Ptr} (hA : t.AddrOk) (hn : t.nodes = P ++ S)
    (hw : WalkAt prev P S lo) (hP : ∀ m ∈ P, m.data.mStart < lo) (hprev : prev ≠ none)
    (hlt : lo < hi) (hS : ∀ m ∈ S, hi ≤ m.data.mStart) :
    ∃ t' c, addRemainingEnd t hi prev = .ok t' ∧ t'.AddrOk ∧ t'.removed = t.removed ∧
      t'.nodes = P ++ ⟨c, proxy lo hi 1⟩ :: S := by
  rcases hw with ⟨P', p, rfl, rfl, rfl⟩ | ⟨rfl, _⟩
  · obtain ⟨t', c, he, hA', hr, hn'⟩ := rangeNewProxy_spec hA hn hlt hP
      (fun m hm => hlt.trans_le (hS m hm))
    have hget : t.get p.addr = .ok p.data := Table.get_node hA (by simp [hn])
    exact ⟨t', c, by simp only [addRemainingEnd, hget, ok_bind, he], hA', hr, hn'⟩
  · exact absurd rfl hprev

/-- After `fill_gap` the walk stands at the start of the entry it visits. -/
theorem fillGap_spec {prev : Ptr} (hA : t.AddrOk) (hO : Spread t.nodes)
    (hn : t.nodes = P ++ n :: S) (hw : WalkAt prev P (n :: S) lo)
    (hP : ∀ m ∈ P, m.data.mStart < lo) :
    ∃ t' G, fillGap t prev n.data.mStart = .ok t' ∧ t'.AddrOk ∧ t'.removed = t.removed ∧
      Spread t'.nodes ∧ t'.nodes = (P ++ G) ++ n :: S ∧
      (G = [] ∧ lo = n.data.mStart ∨
        ∃ c, lo < n.data.mStart ∧ G = [⟨c, proxy lo n.data.mStart 1⟩]) := by
  have hends := hw.ends_le (hn ▸ hO)
  have hge := hw.le_starts (hn ▸ hO)
  have hstarts := (hn ▸ hO : Spread (P ++ n :: S)).le_starts
  rcases hw with ⟨P', p, rfl, rfl, rfl⟩ | ⟨rfl, m, S', he, rfl⟩
  · have hget : t.get p.addr = .ok p.data := Table.get_node hA (by simp [hn])
    by_cases hgap : p.data.mEnd < n.data.mStart
    · obtain ⟨t', c, he, hA', hr, hn'⟩ := rangeNewProxy_spec hA hn hgap hP
        (fun m hm => hgap.trans_le (hstarts m hm))
      refine ⟨t', [⟨c, proxy p.data.mEnd n.data.mStart 1⟩], ?_, hA', hr, ?_, ?_, .inr ⟨c, hgap, rfl⟩⟩
      · simp only [fillGap, hget, ok_bind, if_pos hgap,
          check_ok (show n.data.mStart > p.data.mEnd from hgap), he]
      · rw [hn']
        exact Spread.between (hn ▸ hO) hgap.le (fun m hm => ⟨hends m hm, hP m hm⟩)
          fun m hm => ⟨hstarts m hm, hgap.trans_le (hstarts m hm)⟩
      · rw [hn']
        simp
    · refine ⟨t, [], ?_, hA, rfl, hO, by simp [hn], .inl ⟨rfl, ?_⟩⟩
      · simp only [fillGap, hget, ok_bind, if_neg hgap, pure_eq_ok]
      · have := hge n List.mem_cons_self
        omega
  · obtain ⟨rfl, rfl⟩ := List.cons.inj he
    exact ⟨t, [], rfl, hA, rfl, hO, by simp [hn], .inl ⟨rfl, rfl⟩⟩

/-- An entry the walk may share: readers only, and not empty. -/
def Walkable (r : Range) : Prop := Shareable r ∧ r.mStart < r.mEnd

/-- The walk over the entries `S`: it is a `Share`, unless `remove_node` finds the counter at
zero on the way. -/
theorem addReaderLoop_spec (hi : Int) : ∀ (S : List Node) (fuel : Nat) {t : Table} {P : List Node}
    {lo : Int} {prev : Ptr}, t.AddrOk → Spread t.nodes → t.nodes = P ++ S → S.length < fuel →
    lo < hi → WalkAt prev P S lo → (∀ m ∈ P, m.data.mStart < lo) →
    (prev = none → ∀ n ∈ S.head?, n.data.mStart < hi) →
    (∀ m ∈ S, m.data.mStart < hi → Walkable m.data) →
    (Countable hi lo t.nodes.length S →
      ∃ t' S', addReaderLoop hi fuel t prev (S.head?.map Slot.addr) = .ok t' ∧ t'.AddrOk ∧
        t'.nodes = P ++ S' ∧ Share hi lo S S' ∧
        Detaches t t' (S.filter fun m => m.data.mStart < hi)) ∧
    (¬Countable hi lo t.nodes.length S →
      addReaderLoop hi fuel t prev (S.head?.map Slot.addr) = .error .assertion) := by
  intro S
  induction S with
  | nil =>
    intro fuel t P lo prev hA hO hn hf hlt hw hP _ _
    obtain ⟨f, rfl⟩ : ∃ f, fuel = f + 1 := ⟨fuel - 1, by simp at hf; omega⟩
    have hprev : prev ≠ none := by
      rintro rfl
      rcases hw with ⟨_, _, _, h, _⟩ | ⟨_, _, _, h, _⟩ <;> simp at h
    obtain ⟨t', c, he, hA', hr, hn'⟩ := addRemainingEnd_spec hA hn hw hP hprev hlt (by simp)
    exact ⟨fun _ => ⟨t', _, he, hA', hn', .tail c hlt (by simp), detaches_of_removed_eq hr⟩,
      fun hc => absurd trivial hc⟩
  | cons n S ih =>
    intro fuel t P lo prev hA hO hn hf hlt hw hP hfirst hs
    obtain ⟨f, rfl⟩ : ∃ f, fuel = f + 1 := ⟨fuel - 1, by simp at hf; omega⟩
    have hget : t.get n.addr = .ok n.data := Table.get_node hA (by simp [hn])
    have hO' : Spread (P ++ n :: S) := hn ▸ hO
    by_cases hstop : hi ≤ n.data.mStart
    · -- past the end of the new range
      have hprev : prev ≠ none := fun h => absurd (hfirst h n rfl) (not_lt.mpr hstop)
      have hge : ∀ m ∈ n :: S, hi ≤ m.data.mStart := fun m hm => hstop.trans (hO'.le_starts m hm)
      obtain ⟨t', c, he, hA', hr, hn'⟩ := addRemainingEnd_spec hA hn hw hP hprev hlt hge
      refine ⟨fun _ => ⟨t', _, ?_, hA', hn', .tail c hlt hge, ?_⟩,
        fun hc => absurd (countable_of_behind hge) hc⟩
      · simp only [List.head?_cons, Option.map_some, addReaderLoop, hget, ok_bind, if_pos hstop, he]
      · rw [List.filter_eq_nil_iff.mpr fun m hm => by simpa using hge m hm]
        exact detaches_of_removed_eq hr
    · have hin : n.data.mStart < hi := not_le.mp hstop
      obtain ⟨hsn, hlen⟩ := hs n List.mem_cons_self hin
      obtain ⟨t₁, G, hfill, hA₁, hr₁, hO₁, hn₁, hG⟩ := fillGap_spec hA hO hn hw hP
      have hO₁' : Spread ((P ++ G) ++ n :: S) := hn₁ ▸ hO₁
      have hge : lo ≤ n.data.mStart := hw.le_starts hO' n List.mem_cons_self
      have hcount : Countable hi lo t.nodes.length (n :: S) ↔
          (n.data.mIsProxy = false → t₁.nodes.length % 2 ^ 32 ≠ 0) ∧
            Countable hi n.data.mEnd t₁.nodes.length S := by
        have hlen₁ : t₁.nodes.length = if lo < n.data.mStart then t.nodes.length + 1
            else t.nodes.length := by
          rw [hn₁, hn]
          rcases hG with ⟨rfl, rfl⟩ | ⟨c, hgap, rfl⟩
          · simp
          · simp only [if_pos hgap, List.length_append, List.length_cons, List.length_nil]
            omega
        rw [countable_cons (hge.trans_lt hlen) hin, if_neg (not_lt.mpr hge), hlen₁]
      rw [hcount]
      -- it is enough to share from the start of the entry on
      suffices hgoal : ((n.data.mIsProxy = false → t₁.nodes.length % 2 ^ 32 ≠ 0) ∧
          Countable hi n.data.mEnd t₁.nodes.length S →
          ∃ t' S', addReaderLoop hi (f + 1) t prev (some n.addr) = .ok t' ∧
            t'.AddrOk ∧ t'.nodes = (P ++ G) ++ S' ∧ Share hi n.data.mStart (n :: S) S' ∧
            Detaches t₁ t' (n :: S.filter fun m => m.data.mStart < hi)) ∧
          (¬((n.data.mIsProxy = false → t₁.nodes.length % 2 ^ 32 ≠ 0) ∧
            Countable hi n.data.mEnd t₁.nodes.length S) →
            addReaderLoop hi (f + 1) t prev (some n.addr) = .error .assertion) by
        refine ⟨fun hc => ?_, hgoal.2⟩
        obtain ⟨t', S', he, hA', hn', hsh, hD⟩ := hgoal.1 hc
        have hfilter : (n :: S).filter (fun m => m.data.mStart < hi) =
            n :: S.filter fun m => m.data.mStart < hi := by simp [hin]
        have hD' : Detaches t t' (n :: S.filter fun m => m.data.mStart < hi) := by
          simpa using (detaches_of_removed_eq hr₁).trans hD
        rcases hG with ⟨rfl, rfl⟩ | ⟨c, hgap, rfl⟩
        · exact ⟨t', S', he, hA', by simpa using hn', hsh, hfilter ▸ hD'⟩
        · exact ⟨t', _, he, hA', by simpa using hn', .gap c hgap hin hsh, hfilter ▸ hD'⟩
      simp only [addReaderLoop, hget, ok_bind, if_neg hstop, hfill]
      have hnS : ∀ m ∈ S, n.data.mEnd ≤ m.data.mStart := fun m hm => (hO'.around.2 m hm).1
      have hlast : hi ≤ n.data.mEnd → S.filter (fun m => m.data.mStart < hi) = [] := fun h =>
        List.filter_eq_nil_iff.mpr fun m hm => by simpa using h.trans (hnS m hm)
      by_cases hcn : n.data.mIsProxy = false → t₁.nodes.length % 2 ^ 32 ≠ 0
      case neg =>
        refine ⟨fun hc => absurd hc.1 hcn, fun _ => ?_⟩
        rcases lt_trichotomy hi n.data.mEnd with hcmp | hcmp | hcmp
        · simp only [if_neg hcmp.ne, if_pos hcmp, rangeSplit_wrapped hA₁ hn₁ hsn hin hcmp hcn,
            error_bind]
        · simp only [if_pos hcmp, rangeProxify_wrapped hA₁ hn₁ hsn hcn, error_bind]
        · simp only [if_neg hcmp.ne', if_neg hcmp.not_gt,
            check_ok (show hi > n.data.mEnd from hcmp), rangeProxify_wrapped hA₁ hn₁ hsn hcn,
            ok_bind, error_bind]
      obtain ⟨t₂, a, hprox, hA₂, hD₂, hn₂⟩ := rangeProxify_spec hA₁ hO₁.keyed hn₁ hsn hcn
      obtain ⟨hA₃, hr₃, hn₃⟩ := bumpRefs_spec hA₂ hn₂
      rcases lt_trichotomy hi n.data.mEnd with hcmp | hcmp | hcmp
      · obtain ⟨t₄, b, c, hsplit, hA₄, hD₄, hn₄⟩ := rangeSplit_spec hA₁ hO₁.keyed hn₁ hsn hin hcmp hcn
        obtain ⟨hA₅, hr₅, hn₅⟩ := bumpRefs_spec hA₄ hn₄
        refine ⟨fun _ => ⟨_, _, ?_, hA₅, hn₅, .split b c hsn hin hcmp, ?_⟩, fun hc =>
          absurd ⟨hcn, countable_of_behind fun m hm => hcmp.le.trans (hnS m hm)⟩ hc⟩
        · simp only [if_neg hcmp.ne, if_pos hcmp, hsplit, ok_bind, pure_eq_ok]
        · rw [hlast hcmp.le]
          exact hD₄.congr_right hr₅
      · refine ⟨fun _ => ⟨_, _, ?_, hA₃, hn₃, .exact a hsn hcmp.symm, ?_⟩, fun hc =>
          absurd ⟨hcn, countable_of_behind fun m hm => hcmp.le.trans (hnS m hm)⟩ hc⟩
        · simp only [if_pos hcmp, hprox, ok_bind, pure_eq_ok]
        · rw [hlast hcmp.le]
          exact hD₂.congr_right hr₃
      · have hlen₃ : (bumpRefs t₂ a).nodes.length = t₁.nodes.length := by
          rw [hn₃, hn₁]
          simp
        have hO₃ : Spread (bumpRefs t₂ a).nodes := by
          rw [hn₃]
          exact hO₁'.replace rfl rfl
        rw [List.append_cons] at hn₃
        have hnext := Table.next_node hA₃ (L := P ++ G) (n := ⟨a, proxy n.data.mStart n.data.mEnd
          (n.data.mRefs + 1)⟩) (R := S) (by simpa using hn₃)
        have hP₃ : ∀ m ∈ P ++ G ++ [⟨a, proxy n.data.mStart n.data.mEnd (n.data.mRefs + 1)⟩],
            m.data.mStart < n.data.mEnd := by
          intro m hm
          rcases List.mem_append.mp hm with hm | hm
          · exact (hO₁'.around.1 m hm).2.trans hlen
          · rw [List.mem_singleton.mp hm]
            exact hlen
        have hrest := ih f hA₃ hO₃ hn₃ (by simp at hf; omega)
          hcmp (.inl ⟨P ++ G, _, rfl, rfl, rfl⟩) hP₃ (by simp)
          (fun m hm => hs m (List.mem_cons_of_mem _ hm))
        rw [hlen₃] at hrest
        simp only [if_neg hcmp.ne', if_neg hcmp.not_gt,
          check_ok (show hi > n.data.mEnd from hcmp), hprox, ok_bind, hnext]
        refine ⟨fun hc => ?_, fun hc => hrest.2 fun hcS => hc ⟨hcn, hcS⟩⟩
        obtain ⟨t', S', he, hA', hn', hsh, hD⟩ := hrest.1 hc.2
        exact ⟨t', _, he, hA', by rw [hn', ← List.append_cons], .whole a hsn hcmp hsh,
          (hD₂.congr_right hr₃).trans hD⟩

end Walk

end EchoFs.RangeLock
