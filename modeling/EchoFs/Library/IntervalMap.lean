import Mathlib.Data.List.Chain
import Mathlib.Tactic.Linarith

/-! Interval maps over the integers as lists of leaves with increasing keys: a
leaf gives the value from its key up to the key of the next leaf. Assigning a
value to a range joins neighbouring leaves of equal value. -/

namespace IntervalMap

structure Leaf (β : Type*) where
  key : Int
  val : β
deriving DecidableEq, Repr

variable {β : Type*}

/-- The leaf that holds the value at `x`. -/
def search (t : List (Leaf β)) (x : Int) : Option (Leaf β) :=
  (t.filter fun l => l.key ≤ x).getLast?

/-- The leaf an iterator on the leaf at `key` moves to. -/
def next (t : List (Leaf β)) (key : Int) : Option (Leaf β) := t.find? fun l => key < l.key

/-- Assign `v` to `[lo, hi)`. -/
def insert [DecidableEq β] (t : List (Leaf β)) (lo hi : Int) (v : β) : List (Leaf β) :=
  if hi ≤ lo then t else
    let before := t.filter fun l => l.key < lo
    let old := (search t hi).map Leaf.val
    (if before.getLast?.map Leaf.val = some v then before else before ++ [⟨lo, v⟩]) ++
      (if old = some v then [] else (old.map fun w => ⟨hi, w⟩).toList) ++
      t.filter fun l => hi < l.key

theorem filter_le_append {L R : List (Leaf β)} {x : Int} (hL : ∀ l ∈ L, l.key ≤ x)
    (hR : ∀ l ∈ R, x < l.key) : (L ++ R).filter (fun l => l.key ≤ x) = L := by
  rw [List.filter_append, List.filter_eq_self.mpr fun l hl => by simpa using hL l hl,
    List.filter_eq_nil_iff.mpr fun l hl => by simpa using hR l hl, List.append_nil]

theorem filter_lt_append {L R : List (Leaf β)} {x : Int} (hL : ∀ l ∈ L, l.key < x)
    (hR : ∀ l ∈ R, x ≤ l.key) : (L ++ R).filter (fun l => l.key < x) = L := by
  rw [List.filter_append, List.filter_eq_self.mpr fun l hl => by simpa using hL l hl,
    List.filter_eq_nil_iff.mpr fun l hl => by simpa using hR l hl, List.append_nil]

theorem filter_gt_append {L R : List (Leaf β)} {x : Int} (hL : ∀ l ∈ L, l.key ≤ x)
    (hR : ∀ l ∈ R, x < l.key) : (L ++ R).filter (fun l => x < l.key) = R := by
  rw [List.filter_append, List.filter_eq_nil_iff.mpr fun l hl => by simpa using hL l hl,
    List.filter_eq_self.mpr fun l hl => by simpa using hR l hl, List.nil_append]

theorem search_mid {L R : List (Leaf β)} {l : Leaf β} {x : Int} (hL : ∀ m ∈ L, m.key ≤ x)
    (hl : l.key ≤ x) (hR : ∀ m ∈ R, x < m.key) : search (L ++ l :: R) x = some l := by
  have hLl : ∀ m ∈ L ++ [l], m.key ≤ x := by
    intro m hm
    rcases List.mem_append.mp hm with hm | hm
    · exact hL m hm
    · rw [List.mem_singleton.mp hm]
      exact hl
  unfold search
  rw [List.append_cons, filter_le_append hLl hR]
  simp

theorem search_append {L R : List (Leaf β)} {x : Int} (hR : ∀ m ∈ R, x < m.key) :
    search (L ++ R) x = search L x := by
  have hnil : R.filter (fun m => m.key ≤ x) = [] :=
    List.filter_eq_nil_iff.mpr fun m hm => by simpa using hR m hm
  unfold search
  rw [List.filter_append, hnil, List.append_nil]

theorem mem_of_search {t : List (Leaf β)} {l : Leaf β} {x : Int} (h : search t x = some l) :
    l ∈ t ∧ l.key ≤ x := by
  have hm := List.mem_filter.mp (List.mem_of_getLast? h)
  exact ⟨hm.1, by simpa using hm.2⟩

theorem next_mid {L R : List (Leaf β)} {l : Leaf β} (hL : ∀ m ∈ L, m.key < l.key)
    (hR : ∀ m ∈ R, l.key < m.key) : next (L ++ l :: R) l.key = R.head? := by
  have hLl : (L ++ [l]).find? (fun m => l.key < m.key) = none := by
    rw [List.find?_eq_none]
    intro m hm
    simp only [decide_eq_true_eq, not_lt]
    rcases List.mem_append.mp hm with hm | hm
    · exact (hL m hm).le
    · rw [List.mem_singleton.mp hm]
  unfold next
  rw [List.append_cons, List.find?_append, hLl, Option.none_or]
  rcases R with _ | ⟨r, R⟩
  · rfl
  · simp [hR r List.mem_cons_self]

/-- Assign a new value to a range that starts after the leaves `L`, ends before
the leaves `R` and lies at its end in a leaf of value `w`. -/
theorem insert_fresh [DecidableEq β] {L M R : List (Leaf β)} {lo hi : Int} {v w : β} (hlt : lo < hi)
    (hL : ∀ l ∈ L, l.key < lo) (hM : ∀ l ∈ M, lo ≤ l.key ∧ l.key ≤ hi) (hR : ∀ l ∈ R, hi < l.key)
    (hw : (search (L ++ M ++ R) hi).map Leaf.val = some w) (hwv : w ≠ v)
    (hLv : ∀ l ∈ L, l.val ≠ v) :
    insert (L ++ M ++ R) lo hi v = L ++ ⟨lo, v⟩ :: ⟨hi, w⟩ :: R := by
  have hbefore : (L ++ M ++ R).filter (fun l => l.key < lo) = L := by
    rw [List.append_assoc]
    refine filter_lt_append hL fun l hl => ?_
    rcases List.mem_append.mp hl with hl | hl
    · exact (hM l hl).1
    · exact hlt.le.trans (hR l hl).le
  have hafter : (L ++ M ++ R).filter (fun l => hi < l.key) = R := by
    refine filter_gt_append (fun l hl => ?_) hR
    rcases List.mem_append.mp hl with hl | hl
    · exact ((hL l hl).trans hlt).le
    · exact (hM l hl).2
  have hlast : L.getLast?.map Leaf.val ≠ some v := by
    intro he
    obtain ⟨l, hl, hlv⟩ := Option.map_eq_some_iff.mp he
    exact hLv l (List.mem_of_getLast? hl) hlv
  unfold insert
  rw [if_neg (not_le.mpr hlt), hbefore, hafter, hw]
  simp only [if_neg hlast, Option.some.injEq, if_neg hwv]
  simp

/-- The leaves below the range, inside it and from its end on. -/
theorem insert_split [DecidableEq β] {L M R : List (Leaf β)} {lo hi : Int} {v w : β} (hlt : lo < hi)
    (hL : ∀ l ∈ L, l.key < lo) (hM : ∀ l ∈ M, lo ≤ l.key ∧ l.key ≤ hi) (hR : ∀ l ∈ R, hi < l.key)
    (hw : (L ++ M).getLast?.map Leaf.val = some w) :
    insert (L ++ M ++ R) lo hi v =
      (if L.getLast?.map Leaf.val = some v then L else L ++ [⟨lo, v⟩]) ++
        (if w = v then [] else [⟨hi, w⟩]) ++ R := by
  have hbefore : (L ++ M ++ R).filter (fun l => l.key < lo) = L := by
    rw [List.append_assoc]
    refine filter_lt_append hL fun l hl => ?_
    rcases List.mem_append.mp hl with hl | hl
    · exact (hM l hl).1
    · exact hlt.le.trans (hR l hl).le
  have hLM : ∀ l ∈ L ++ M, l.key ≤ hi := by
    intro l hl
    rcases List.mem_append.mp hl with hl | hl
    · exact ((hL l hl).trans hlt).le
    · exact (hM l hl).2
  have hold : (search (L ++ M ++ R) hi).map Leaf.val = some w := by
    rw [search_append hR]
    unfold search
    rw [List.filter_eq_self.mpr fun l hl => by simpa using hLM l hl]
    exact hw
  unfold insert
  rw [if_neg (not_le.mpr hlt), hbefore, filter_gt_append hLM hR, hold]
  simp [Option.some.injEq]

/-- The value at `x`. -/
def value (t : List (Leaf β)) (x : Int) : Option β := (search t x).map Leaf.val

theorem value_snoc {L : List (Leaf β)} {l : Leaf β} {x : Int} (h : l.key ≤ x) :
    value (L ++ [l]) x = some l.val := by
  unfold value search
  rw [List.filter_append, List.filter_cons_of_pos (by simpa using h), List.filter_nil]
  simp

theorem value_append {L R : List (Leaf β)} {x : Int} (hR : ∀ m ∈ R, x < m.key) :
    value (L ++ R) x = value L x := by
  unfold value
  rw [search_append hR]

/-- The leaves up to `x` give the value. -/
theorem value_of_le {L : List (Leaf β)} {x : Int} (h : ∀ l ∈ L, l.key ≤ x) :
    value L x = L.getLast?.map Leaf.val := by
  unfold value search
  rw [List.filter_eq_self.mpr fun l hl => by simpa using h l hl]

theorem value_append_left {L R : List (Leaf β)} {x : Int} {w : β} (h : value R x = some w) :
    value (L ++ R) x = some w := by
  unfold value search at *
  rw [List.filter_append, List.getLast?_append]
  obtain ⟨l, hl, rfl⟩ := Option.map_eq_some_iff.mp h
  rw [hl]
  rfl

theorem value_append_right {L R : List (Leaf β)} {x : Int} (h : value R x = none) :
    value (L ++ R) x = value L x := by
  unfold value search at *
  rw [List.filter_append, List.getLast?_append, Option.map_eq_none_iff.mp h]
  rfl

def Sorted (t : List (Leaf β)) : Prop := t.Pairwise fun l m => l.key < m.key

/-- Neighbouring leaves have different values. -/
def Minimal (t : List (Leaf β)) : Prop := t.IsChain fun l m => l.val ≠ m.val

theorem Sorted.split {t : List (Leaf β)} (h : Sorted t) (x : Int) :
    ∃ L R, t = L ++ R ∧ (∀ l ∈ L, l.key < x) ∧ ∀ l ∈ R, x ≤ l.key := by
  induction t with
  | nil => exact ⟨[], [], rfl, by simp, by simp⟩
  | cons a t ih =>
    obtain ⟨ha, ht⟩ := List.pairwise_cons.mp h
    by_cases hx : a.key < x
    · obtain ⟨L, R, rfl, hL, hR⟩ := ih ht
      exact ⟨a :: L, R, rfl, List.forall_mem_cons.mpr ⟨hx, hL⟩, hR⟩
    · have hxa : x ≤ a.key := not_lt.mp hx
      exact ⟨[], a :: t, rfl, by simp,
        List.forall_mem_cons.mpr ⟨hxa, fun l hl => hxa.trans (ha l hl).le⟩⟩

/-- The leaves below a range, those from its start to its end, and those beyond. -/
theorem Sorted.split_range {t : List (Leaf β)} (h : Sorted t) (lo hi : Int) :
    ∃ L M R, t = L ++ M ++ R ∧ (∀ l ∈ L, l.key < lo) ∧ (∀ l ∈ M, lo ≤ l.key ∧ l.key ≤ hi) ∧
      ∀ l ∈ R, hi < l.key := by
  obtain ⟨L, T, rfl, hL, hT⟩ := h.split lo
  obtain ⟨M, R, rfl, hM, hR⟩ := Sorted.split (List.pairwise_append.mp h).2.1 (hi + 1)
  refine ⟨L, M, R, (List.append_assoc ..).symm, hL, fun l hl => ⟨?_, ?_⟩, fun l hl => ?_⟩
  · exact hT l (List.mem_append_left R hl)
  · have := hM l hl
    omega
  · have := hR l hl
    omega

/-- A range that starts at a leaf or after one: the leaves around it, with the value
at its end. -/
structure Splits (t : List (Leaf β)) (lo hi : Int) (L M R : List (Leaf β)) (w : β) : Prop where
  eq : t = L ++ M ++ R
  below : ∀ l ∈ L, l.key < lo
  inside : ∀ l ∈ M, lo ≤ l.key ∧ l.key ≤ hi
  beyond : ∀ l ∈ R, hi < l.key
  value : (L ++ M).getLast?.map Leaf.val = some w

theorem Sorted.splits {t : List (Leaf β)} (h : Sorted t) {lo hi : Int} (hlt : lo < hi)
    (hlo : ∃ l ∈ t, l.key ≤ lo) : ∃ L M R w, Splits t lo hi L M R w := by
  obtain ⟨L, M, R, rfl, hL, hM, hR⟩ := h.split_range lo hi
  have hne : L ++ M ≠ [] := by
    rintro hnil
    obtain ⟨l, hl, hle⟩ := hlo
    rw [hnil, List.nil_append] at hl
    exact absurd (hlt.trans (hR l hl)) (not_lt.mpr hle)
  refine ⟨L, M, R, ((L ++ M).getLast hne).val, rfl, hL, hM, hR, ?_⟩
  rw [List.getLast?_eq_getLast_of_ne_nil hne]
  rfl

/-- The last value of a list is followed by another one. -/
theorem ne_of_minimal {L R : List (Leaf β)} {u : β} (hm : Minimal (L ++ R))
    (hu : L.getLast?.map Leaf.val = some u) : ∀ r ∈ R.head?, u ≠ r.val := by
  intro r hr
  obtain ⟨l, hl, rfl⟩ := Option.map_eq_some_iff.mp hu
  exact (List.isChain_append.mp hm).2.2 l hl r hr

theorem minimal_append {L R : List (Leaf β)} {u : β} (hL : Minimal L) (hR : Minimal R)
    (hu : L.getLast?.map Leaf.val = some u) (hne : ∀ r ∈ R.head?, u ≠ r.val) :
    Minimal (L ++ R) := by
  refine List.isChain_append.mpr ⟨hL, hR, fun l hl r hr => ?_⟩
  obtain rfl : l.val = u := by simpa [Option.mem_def.mp hl] using hu
  exact hne r hr

theorem value_mid {L R : List (Leaf β)} {l : Leaf β} {x : Int} (h : Sorted (L ++ l :: R))
    (hl : l.key ≤ x) (hR : ∀ r ∈ R.head?, x < r.key) : value (L ++ l :: R) x = some l.val := by
  obtain ⟨-, hcons, hL⟩ := List.pairwise_append.mp h
  obtain ⟨-, hsorted⟩ := List.pairwise_cons.mp hcons
  have hR' : ∀ r ∈ R, x < r.key := by
    cases R with
    | nil => simp
    | cons r R =>
      have hr := hR r rfl
      exact List.forall_mem_cons.mpr
        ⟨hr, fun m hm => hr.trans ((List.pairwise_cons.mp hsorted).1 m hm)⟩
  unfold value
  rw [search_mid (fun m hm => (hL m hm l List.mem_cons_self).le.trans hl) hl hR']
  rfl

theorem value_cons {R : List (Leaf β)} {l : Leaf β} {x : Int} (h : Sorted (l :: R))
    (hl : l.key ≤ x) (hR : ∀ r ∈ R.head?, x < r.key) : value (l :: R) x = some l.val :=
  value_mid (L := []) h hl hR

theorem Sorted.value_key {t : List (Leaf β)} (h : Sorted t) {l : Leaf β} (hl : l ∈ t) :
    value t l.key = some l.val := by
  obtain ⟨L, R, rfl⟩ := List.append_of_mem hl
  have hnext := (List.pairwise_cons.mp (List.pairwise_append.mp h).2.1).1
  exact value_mid h le_rfl fun r hr => hnext r (List.mem_of_mem_head? hr)

/-- A leaf gives the value up to the next one. -/
theorem Sorted.value_before_next {t : List (Leaf β)} (h : Sorted t) {l m : Leaf β} (hl : l ∈ t)
    (hn : next t l.key = some m) : m ∈ t ∧ value t (m.key - 1) = some l.val := by
  obtain ⟨L, R, rfl⟩ := List.append_of_mem hl
  obtain ⟨-, hcons, hL⟩ := List.pairwise_append.mp h
  have hnext := (List.pairwise_cons.mp hcons).1
  rw [next_mid (fun a ha => hL a ha l List.mem_cons_self) hnext] at hn
  obtain ⟨R, rfl⟩ := List.head?_eq_some_iff.mp hn
  have hlt := hnext m List.mem_cons_self
  refine ⟨by simp, value_mid h (by omega) fun r hr => ?_⟩
  obtain rfl := Option.some.inj hr
  omega

theorem value_drop {L R : List (Leaf β)} {r : Leaf β} {x : Int} (hr : r ∈ R) (hx : r.key ≤ x) :
    value (L ++ R) x = value R x := by
  have hmem : r ∈ R.filter fun l => l.key ≤ x := List.mem_filter.mpr ⟨hr, by simpa using hx⟩
  cases hv : value R x with
  | some w => exact value_append_left hv
  | none =>
    have hlast := List.getLast?_eq_none_iff.mp (Option.map_eq_none_iff.mp hv)
    rw [hlast] at hmem
    cases hmem

theorem Sorted.head_le {t : List (Leaf β)} {k : Int} (h : Sorted t)
    (hk : t.head?.map Leaf.key = some k) : ∀ l ∈ t, k ≤ l.key := by
  cases t with
  | nil => simp
  | cons a t =>
    obtain rfl : a.key = k := Option.some.inj hk
    exact List.forall_mem_cons.mpr ⟨le_rfl, fun l hl => ((List.pairwise_cons.mp h).1 l hl).le⟩

/-- Before a leaf that is not the first one there is another value. -/
theorem Minimal.ne_before {L R : List (Leaf β)} {l : Leaf β} {k : Int} (hm : Minimal (L ++ l :: R))
    (hs : Sorted (L ++ l :: R)) (hk : (L ++ l :: R).head?.map Leaf.key = some k) :
    l.key = k ∨ k < l.key ∧ value (L ++ l :: R) (l.key - 1) ≠ some l.val := by
  rcases List.eq_nil_or_concat' L with rfl | ⟨L, m, rfl⟩
  · exact .inl (Option.some.inj hk)
  · have hlt : m.key < l.key := (List.pairwise_append.mp hs).2.2 m (by simp) l List.mem_cons_self
    have hle := hs.head_le hk m (by simp)
    rw [List.append_assoc, List.singleton_append] at hs hm ⊢
    have hne := (List.isChain_cons_cons.mp (List.isChain_append.mp hm).2.1).1
    have hval : value (L ++ m :: l :: R) (l.key - 1) = some m.val := by
      refine value_mid hs (by omega) fun r hr => ?_
      obtain rfl := Option.some.inj hr
      omega
    rw [hval]
    exact .inr ⟨by omega, fun heq => hne (Option.some.inj heq)⟩

/-- At the next leaf there is another value. -/
theorem Minimal.ne_after {L R : List (Leaf β)} {l m : Leaf β} (hm : Minimal (L ++ l :: m :: R))
    (hs : Sorted (L ++ l :: m :: R)) : value (L ++ l :: m :: R) m.key ≠ some l.val := by
  have hne := (List.isChain_cons_cons.mp (List.isChain_append.mp hm).2.1).1
  rw [List.append_cons] at hs ⊢
  have hnext := (List.pairwise_cons.mp (List.pairwise_append.mp hs).2.1).1
  rw [value_mid hs le_rfl fun r hr => hnext r (List.mem_of_mem_head? hr)]
  exact fun heq => hne (Option.some.inj heq).symm

/-- The second leaf of a list starts where the value changes first, so that no other list
with the same values starts its second leaf later. -/
theorem Minimal.second_le {a b c : Leaf β} {L R : List (Leaf β)} {hi : Int}
    (hs : Sorted (a :: b :: L)) (hm : Minimal (a :: b :: L)) (hs' : Sorted (c :: R))
    (hac : a = c) (hb : b.key < hi)
    (hval : ∀ x, a.key ≤ x → x < hi → value (a :: b :: L) x = value (c :: R) x) :
    ∃ r ∈ R.head?, r.key ≤ b.key := by
  subst hac
  have hab : a.key < b.key := (List.pairwise_cons.mp hs).1 b List.mem_cons_self
  have hne : a.val ≠ b.val := (List.isChain_cons_cons.mp hm).1
  by_contra hnone
  have hR : ∀ r ∈ R.head?, b.key < r.key := fun r hr =>
    not_le.mp fun hle => hnone ⟨r, hr, hle⟩
  have hb₁ : value (a :: b :: L) b.key = some b.val := by
    refine value_mid (L := [a]) hs le_rfl fun r hr => ?_
    exact (List.pairwise_cons.mp (List.pairwise_cons.mp hs).2).1 r (List.mem_of_mem_head? hr)
  have hb₂ : value (a :: R) b.key = some a.val := value_cons hs' hab.le hR
  exact hne (Option.some.inj (hb₂.symm.trans ((hval b.key hab.le hb).symm.trans hb₁)))

/-- A list is determined by the values it gives, if neighbouring leaves have different
values. -/
theorem Minimal.eq_of_value {t t' : List (Leaf β)} {lo hi : Int} (hs : Sorted t) (hm : Minimal t)
    (hs' : Sorted t') (hm' : Minimal t') (hlo : t.head?.map Leaf.key = some lo)
    (hlo' : t'.head?.map Leaf.key = some lo) (hhi : ∀ l ∈ t, l.key < hi)
    (hhi' : ∀ l ∈ t', l.key < hi) (hval : ∀ x, lo ≤ x → x < hi → value t x = value t' x) :
    t = t' := by
  induction t generalizing t' lo with
  | nil => cases hlo
  | cons a t ih =>
    cases t' with
    | nil => cases hlo'
    | cons c t' =>
      obtain rfl : a.key = lo := Option.some.inj hlo
      have hkey : c.key = a.key := Option.some.inj hlo'
      have hfirst := hval a.key le_rfl (hhi a List.mem_cons_self)
      rw [value_cons hs le_rfl fun r hr =>
          (List.pairwise_cons.mp hs).1 r (List.mem_of_mem_head? hr),
        value_cons hs' hkey.le fun r hr =>
          hkey ▸ (List.pairwise_cons.mp hs').1 r (List.mem_of_mem_head? hr)] at hfirst
      have hac : a = c := by
        cases a
        cases c
        simp_all
      subst hac
      cases t with
      | nil =>
        cases t' with
        | nil => rfl
        | cons d t' =>
          obtain ⟨r, hr, -⟩ := hm'.second_le hs' hs rfl (hhi' d (by simp))
            fun x hx hxhi => (hval x hx hxhi).symm
          cases hr
      | cons b t =>
        obtain ⟨r, hr, hrb⟩ := hm.second_le hs hs' rfl (hhi b (by simp)) hval
        obtain ⟨t', rfl⟩ := List.head?_eq_some_iff.mp hr
        obtain ⟨r', hr', hbr⟩ := hm'.second_le hs' hs rfl (hhi' r (by simp))
          fun x hx hxhi => (hval x hx hxhi).symm
        obtain rfl := Option.some.inj hr'
        obtain ⟨hab, hst⟩ := List.pairwise_cons.mp hs
        obtain ⟨har, hst'⟩ := List.pairwise_cons.mp hs'
        have hle : a.key ≤ b.key := (hab b List.mem_cons_self).le
        have hrest : ∀ x, b.key ≤ x → x < hi → value (b :: t) x = value (r :: t') x := by
          intro x hx hxhi
          have hx' : value ([a] ++ b :: t) x = value ([a] ++ r :: t') x :=
            hval x (hle.trans hx) hxhi
          rwa [value_drop List.mem_cons_self hx,
            value_drop List.mem_cons_self (hrb.trans hx)] at hx'
        rw [ih hst (List.isChain_cons_cons.mp hm).2 hst' (List.isChain_cons_cons.mp hm').2 rfl
          (by rw [List.head?_cons, Option.map_some, le_antisymm hrb hbr])
          (fun l hl => hhi l (List.mem_cons_of_mem _ hl))
          (fun l hl => hhi' l (List.mem_cons_of_mem _ hl)) hrest]

section Insert
variable [DecidableEq β] {t L M R : List (Leaf β)} {lo hi : Int} {v w : β}

/-- The leaves up to the start of the assigned range. -/
def upTo (L : List (Leaf β)) (lo : Int) (v : β) : List (Leaf β) :=
  if L.getLast?.map Leaf.val = some v then L else L ++ [⟨lo, v⟩]

/-- The leaf that starts at the end of the assigned range, unless it joins it. -/
def endLeaf (hi : Int) (v w : β) : List (Leaf β) := if w = v then [] else [⟨hi, w⟩]

theorem Splits.insert (h : Splits t lo hi L M R w) (hlt : lo < hi) :
    insert t lo hi v = upTo L lo v ++ endLeaf hi v w ++ R := by
  rw [h.eq]
  exact insert_split hlt h.below h.inside h.beyond h.value

theorem getLast_upTo : (upTo L lo v).getLast?.map Leaf.val = some v := by
  unfold upTo
  split_ifs with h
  · exact h
  · simp

theorem upTo_le (hL : ∀ l ∈ L, l.key < lo) : ∀ l ∈ upTo L lo v, l.key ≤ lo := by
  intro l hl
  unfold upTo at hl
  split_ifs at hl
  · exact (hL l hl).le
  · rcases List.mem_append.mp hl with hl | hl
    · exact (hL l hl).le
    · rw [List.mem_singleton.mp hl]

theorem endLeaf_key : ∀ l ∈ endLeaf hi v w, l.key = hi := by
  intro l hl
  unfold endLeaf at hl
  split_ifs at hl
  · cases hl
  · rw [List.mem_singleton.mp hl]

theorem sorted_upTo (hs : Sorted L) (hL : ∀ l ∈ L, l.key < lo) : Sorted (upTo L lo v) := by
  unfold upTo
  split_ifs
  · exact hs
  · exact List.pairwise_append.mpr ⟨hs, List.pairwise_singleton _ _, fun l hl m hm => by
      rw [List.mem_singleton.mp hm]
      exact hL l hl⟩

theorem sorted_insert (hs : Sorted t) (hlt : lo < hi) (h : Splits t lo hi L M R w) :
    Sorted (IntervalMap.insert t lo hi v) := by
  rw [h.insert hlt]
  rw [h.eq] at hs
  obtain ⟨hLM, hsR, -⟩ := List.pairwise_append.mp hs
  have hupto := upTo_le (v := v) h.below
  refine List.pairwise_append.mpr ⟨List.pairwise_append.mpr
    ⟨sorted_upTo (List.pairwise_append.mp hLM).1 h.below, ?_, ?_⟩, hsR, ?_⟩
  · unfold endLeaf
    split_ifs
    · exact List.Pairwise.nil
    · exact List.pairwise_singleton _ _
  · intro l hl m hm
    rw [endLeaf_key m hm]
    exact (hupto l hl).trans_lt hlt
  · intro l hl m hm
    rcases List.mem_append.mp hl with hl | hl
    · exact ((hupto l hl).trans_lt hlt).trans (h.beyond m hm)
    · rw [endLeaf_key l hl]
      exact h.beyond m hm

/-- An assignment that does not start before the first leaf leaves its key. -/
theorem head_insert {k : Int} (hlt : lo < hi) (h : Splits t lo hi L M R w)
    (hk : t.head?.map Leaf.key = some k) (hle : k ≤ lo) :
    (IntervalMap.insert t lo hi v).head?.map Leaf.key = some k := by
  rw [h.insert hlt]
  rw [h.eq] at hk
  cases L with
  | cons a L =>
    unfold upTo
    split_ifs
    · exact hk
    · exact hk
  | nil =>
    obtain ⟨a, ha, rfl⟩ := Option.map_eq_some_iff.mp hk
    have hmem : a ∈ M ++ R := List.mem_of_mem_head? ha
    have hge : lo ≤ a.key := (List.mem_append.mp hmem).elim (fun hm => (h.inside a hm).1)
      fun hr => hlt.le.trans (h.beyond a hr).le
    rw [le_antisymm hle hge]
    rfl

theorem minimal_upTo (hm : Minimal L) : Minimal (upTo L lo v) := by
  unfold upTo
  split_ifs with h
  · exact hm
  · refine List.isChain_append.mpr ⟨hm, .singleton _, fun l hl r hr => ?_⟩
    obtain rfl := Option.mem_some_iff.mp hr
    intro he
    rw [Option.mem_def.mp hl] at h
    exact h (congrArg some he)

theorem minimal_insert (hm : Minimal t) (hlt : lo < hi) (h : Splits t lo hi L M R w) :
    Minimal (IntervalMap.insert t lo hi v) := by
  rw [h.insert hlt]
  rw [h.eq] at hm
  have hL := (List.isChain_append.mp (List.isChain_append.mp hm).1).1
  have hR := (List.isChain_append.mp hm).2.1
  have hnext := ne_of_minimal hm h.value
  unfold endLeaf
  split_ifs with hwv
  · rw [List.append_nil]
    exact minimal_append (minimal_upTo hL) hR getLast_upTo fun r hr => hwv ▸ hnext r hr
  · refine minimal_append (u := w)
      (minimal_append (minimal_upTo hL) (.singleton _) getLast_upTo ?_) hR (by simp) hnext
    intro r hr
    obtain rfl := Option.mem_some_iff.mp hr
    exact fun he => hwv he.symm

/-- An assignment changes the values in its range, and no others. -/
theorem value_insert (hlt : lo < hi) (h : Splits t lo hi L M R w) (x : Int) :
    value (IntervalMap.insert t lo hi v) x = if lo ≤ x ∧ x < hi then some v else value t x := by
  have hupto := upTo_le (v := v) h.below
  rw [h.insert hlt, h.eq]
  by_cases hxhi : x < hi
  · have hrest : ∀ l ∈ endLeaf hi v w ++ R, x < l.key := by
      intro l hl
      rcases List.mem_append.mp hl with hl | hl
      · rw [endLeaf_key l hl]
        exact hxhi
      · exact hxhi.trans (h.beyond l hl)
    rw [List.append_assoc, value_append hrest]
    by_cases hxlo : lo ≤ x
    · rw [if_pos ⟨hxlo, hxhi⟩, value_of_le fun l hl => (hupto l hl).trans hxlo, getLast_upTo]
    · rw [if_neg fun hx => hxlo hx.1, List.append_assoc, value_append]
      · unfold upTo
        split_ifs
        · rfl
        · refine value_append fun l hl => ?_
          rw [List.mem_singleton.mp hl]
          exact not_le.mp hxlo
      · intro l hl
        rcases List.mem_append.mp hl with hl | hl
        · exact (not_le.mp hxlo).trans_le (h.inside l hl).1
        · exact hxhi.trans (h.beyond l hl)
  · have hhi : hi ≤ x := not_lt.mp hxhi
    rw [if_neg fun hx => hxhi hx.2]
    cases hR : value R x with
    | some u => rw [value_append_left hR, value_append_left hR]
    | none =>
      have hLM : ∀ l ∈ L ++ M, l.key ≤ x := by
        intro l hl
        rcases List.mem_append.mp hl with hl | hl
        · exact ((h.below l hl).trans hlt).le.trans hhi
        · exact (h.inside l hl).2.trans hhi
      rw [value_append_right hR, value_append_right hR, value_of_le hLM, h.value]
      unfold endLeaf
      split_ifs with hwv
      · rw [List.append_nil, value_of_le fun l hl => (hupto l hl).trans (hlt.le.trans hhi),
          getLast_upTo, hwv]
      · rw [value_snoc hhi]

end Insert

theorem key_of_mem_insert [DecidableEq β] {t : List (Leaf β)} {lo hi : Int} {v : β} {l : Leaf β}
    (h : l ∈ insert t lo hi v) : (∃ m ∈ t, m.key = l.key) ∨ lo < hi ∧ l.key ≤ hi := by
  unfold insert at h
  split_ifs at h with hle
  · exact .inl ⟨l, h, rfl⟩
  have hlt := not_le.mp hle
  simp only [List.mem_append] at h
  rcases h with (h | h) | h
  · split_ifs at h
    · exact .inl ⟨l, (List.mem_filter.mp h).1, rfl⟩
    · rcases List.mem_append.mp h with h | h
      · exact .inl ⟨l, (List.mem_filter.mp h).1, rfl⟩
      · rw [List.mem_singleton.mp h]
        exact .inr ⟨hlt, hlt.le⟩
  · split_ifs at h
    · cases h
    · simp only [Option.mem_toList, Option.map_map, Option.map_eq_some_iff] at h
      obtain ⟨m, -, rfl⟩ := h
      exact .inr ⟨hlt, le_rfl⟩
  · exact .inl ⟨l, (List.mem_filter.mp h).1, rfl⟩

theorem val_of_mem_insert [DecidableEq β] {t : List (Leaf β)} {lo hi : Int} {v : β} {l : Leaf β}
    (h : l ∈ insert t lo hi v) : l.val = v ∨ ∃ m ∈ t, m.val = l.val := by
  unfold insert at h
  split_ifs at h with hle
  · exact .inr ⟨l, h, rfl⟩
  simp only [List.mem_append] at h
  rcases h with (h | h) | h
  · split_ifs at h
    · exact .inr ⟨l, (List.mem_filter.mp h).1, rfl⟩
    · rcases List.mem_append.mp h with h | h
      · exact .inr ⟨l, (List.mem_filter.mp h).1, rfl⟩
      · rw [List.mem_singleton.mp h]
        exact .inl rfl
  · split_ifs at h
    · cases h
    · simp only [Option.mem_toList, Option.map_map, Option.map_eq_some_iff] at h
      obtain ⟨m, hm, rfl⟩ := h
      exact .inr ⟨m, (List.mem_filter.mp (List.mem_of_getLast? hm)).1, rfl⟩
  · exact .inr ⟨l, (List.mem_filter.mp h).1, rfl⟩

end IntervalMap
