import Mathlib.Data.List.Basic
import Mathlib.Tactic.Linarith

/-! Lists of half-open integer intervals: increasing disjoint lists, the weight
a list puts on a point, and tilings of a range by consecutive members. -/

namespace Intervals
variable {α : Type*} (lo hi w : α → Int)

/-- Non-empty intervals in increasing order, no two of them overlapping. -/
def Ordered (l : List α) : Prop :=
  (∀ n ∈ l, lo n < hi n) ∧ l.Pairwise fun a b => hi a ≤ lo b

/-- Intervals in increasing order that may be empty, no two of them overlapping or
starting at one point. -/
def Spread (l : List α) : Prop :=
  (∀ n ∈ l, lo n ≤ hi n) ∧ l.Pairwise fun a b => hi a ≤ lo b ∧ lo a < lo b

/-- The total weight of the members of `l` that contain `x`. -/
def weightAt : List α → Int → Int
  | [], _ => 0
  | n :: r, x => (if lo n ≤ x ∧ x < hi n then w n else 0) + weightAt r x

/-- The members of the list are consecutive and fill `[a, b)` exactly. -/
def Tiles : Int → Int → List α → Prop
  | a, b, [] => a = b
  | a, b, n :: r => lo n = a ∧ a < hi n ∧ Tiles (hi n) b r

variable {lo hi w}

theorem ordered_nil : Ordered lo hi ([] : List α) := ⟨by simp, .nil⟩

theorem ordered_cons {n : α} {r : List α} :
    Ordered lo hi (n :: r) ↔ lo n < hi n ∧ (∀ m ∈ r, hi n ≤ lo m) ∧ Ordered lo hi r := by
  simp only [Ordered, List.mem_cons, forall_eq_or_imp, List.pairwise_cons]
  tauto

theorem ordered_append {l r : List α} :
    Ordered lo hi (l ++ r) ↔
      Ordered lo hi l ∧ Ordered lo hi r ∧ ∀ a ∈ l, ∀ b ∈ r, hi a ≤ lo b := by
  simp only [Ordered, List.mem_append, List.pairwise_append]
  constructor
  · rintro ⟨h, h₁, h₂, h₃⟩
    exact ⟨⟨fun n hn => h n (.inl hn), h₁⟩, ⟨fun n hn => h n (.inr hn), h₂⟩, h₃⟩
  · rintro ⟨⟨h₁, p₁⟩, ⟨h₂, p₂⟩, h₃⟩
    exact ⟨fun n hn => hn.elim (h₁ n) (h₂ n), p₁, p₂, h₃⟩

theorem Ordered.spread {l : List α} (h : Ordered lo hi l) : Spread lo hi l :=
  ⟨fun n hn => (h.1 n hn).le, h.2.imp_of_mem fun ha _ hab => ⟨hab, (h.1 _ ha).trans_le hab⟩⟩

theorem spread_nil : Spread lo hi ([] : List α) := ⟨by simp, .nil⟩

theorem spread_cons {n : α} {r : List α} :
    Spread lo hi (n :: r) ↔
      lo n ≤ hi n ∧ (∀ m ∈ r, hi n ≤ lo m ∧ lo n < lo m) ∧ Spread lo hi r := by
  simp only [Spread, List.mem_cons, forall_eq_or_imp, List.pairwise_cons]
  tauto

theorem spread_append {l r : List α} :
    Spread lo hi (l ++ r) ↔
      Spread lo hi l ∧ Spread lo hi r ∧ ∀ a ∈ l, ∀ b ∈ r, hi a ≤ lo b ∧ lo a < lo b := by
  simp only [Spread, List.mem_append, List.pairwise_append]
  constructor
  · rintro ⟨h, h₁, h₂, h₃⟩
    exact ⟨⟨fun n hn => h n (.inl hn), h₁⟩, ⟨fun n hn => h n (.inr hn), h₂⟩, h₃⟩
  · rintro ⟨⟨h₁, p₁⟩, ⟨h₂, p₂⟩, h₃⟩
    exact ⟨fun n hn => hn.elim (h₁ n) (h₂ n), p₁, p₂, h₃⟩

/-- Only the ends of the intervals matter, and some of them may be left out. -/
theorem Ordered.of_sublist {l l' : List α} (h : Ordered lo hi l)
    (hs : (l'.map fun n => (lo n, hi n)).Sublist (l.map fun n => (lo n, hi n))) :
    Ordered lo hi l' := by
  constructor
  · intro n hn
    obtain ⟨m, hm, he⟩ := List.mem_map.mp (hs.subset (List.mem_map_of_mem hn))
    simp only [Prod.mk.injEq] at he
    rw [← he.1, ← he.2]
    exact h.1 m hm
  · have hp : (l.map fun n => (lo n, hi n)).Pairwise fun a b => a.2 ≤ b.1 :=
      List.pairwise_map.mpr h.2
    exact List.pairwise_map.mp (hp.sublist hs)

theorem weightAt_append (l r : List α) (x : Int) :
    weightAt lo hi w (l ++ r) x = weightAt lo hi w l x + weightAt lo hi w r x := by
  induction l with
  | nil => simp [weightAt]
  | cons n l ih => simp only [List.cons_append, weightAt, ih, add_assoc]

theorem weightAt_eq_zero {l : List α} {x : Int} (h : ∀ n ∈ l, ¬(lo n ≤ x ∧ x < hi n)) :
    weightAt lo hi w l x = 0 := by
  induction l with
  | nil => rfl
  | cons n l ih =>
    rw [weightAt, if_neg (h n List.mem_cons_self), ih fun m hm => h m (List.mem_cons_of_mem _ hm)]
    rfl

/-- In an ordered list at most one member contains a point. -/
theorem weightAt_eq {l : List α} (hO : Ordered lo hi l) {n : α} (hn : n ∈ l) {x : Int}
    (hx : lo n ≤ x ∧ x < hi n) : weightAt lo hi w l x = w n := by
  obtain ⟨l₁, l₂, rfl⟩ := List.append_of_mem hn
  obtain ⟨h₁, h₂, h₁₂⟩ := ordered_append.mp hO
  have hr := (ordered_cons.mp h₂).2.1
  have z₁ : weightAt lo hi w l₁ x = 0 := weightAt_eq_zero fun m hm hmx => by
    have := h₁₂ m hm n List.mem_cons_self
    omega
  have z₂ : weightAt lo hi w l₂ x = 0 := weightAt_eq_zero fun m hm hmx => by
    have := hr m hm
    omega
  rw [weightAt_append, z₁, weightAt, if_pos hx, z₂]
  omega

theorem exists_mem_of_weightAt_ne_zero {l : List α} {x : Int} (h : weightAt lo hi w l x ≠ 0) :
    ∃ n ∈ l, lo n ≤ x ∧ x < hi n := by
  by_contra hno
  exact h (weightAt_eq_zero fun n hn hx => hno ⟨n, hn, hx⟩)

theorem Tiles.le {l : List α} {a b : Int} (h : Tiles lo hi a b l) : a ≤ b := by
  induction l generalizing a with
  | nil => exact (show a = b from h).le
  | cons n r ih =>
    obtain ⟨_, h₂, h₃⟩ := h
    exact h₂.le.trans (ih h₃)

theorem Tiles.mem_bounds {l : List α} {a b : Int} (h : Tiles lo hi a b l) :
    ∀ n ∈ l, a ≤ lo n ∧ lo n < hi n ∧ hi n ≤ b := by
  induction l generalizing a with
  | nil => simp
  | cons n r ih =>
    obtain ⟨h₁, h₂, h₃⟩ := h
    intro m hm
    rcases List.mem_cons.mp hm with rfl | hm
    · exact ⟨h₁.ge, h₁ ▸ h₂, Tiles.le h₃⟩
    · obtain ⟨g₁, g₂, g₃⟩ := ih h₃ m hm
      exact ⟨h₂.le.trans g₁, g₂, g₃⟩

/-- A tiling without its last element is the tiling of what is before that. -/
theorem Tiles.concat {l : List α} {z : α} {a b : Int} (h : Tiles lo hi a b (l ++ [z])) :
    Tiles lo hi a (lo z) l ∧ lo z < hi z ∧ hi z = b := by
  induction l generalizing a with
  | nil =>
    obtain ⟨h₁, h₂, h₃⟩ := h
    exact ⟨h₁.symm, h₁ ▸ h₂, h₃⟩
  | cons n r ih =>
    obtain ⟨h₁, h₂, h₃⟩ := h
    obtain ⟨g₁, g₂, g₃⟩ := ih h₃
    exact ⟨⟨h₁, h₂, g₁⟩, g₂, g₃⟩

theorem Tiles.exists_mem {l : List α} {a b x : Int} (h : Tiles lo hi a b l) (hx : a ≤ x)
    (hxb : x < b) : ∃ n ∈ l, lo n ≤ x ∧ x < hi n := by
  induction l generalizing a with
  | nil =>
    have hab : a = b := h
    omega
  | cons n r ih =>
    obtain ⟨h₁, h₂, h₃⟩ := h
    by_cases hn : x < hi n
    · exact ⟨n, List.mem_cons_self, by omega, hn⟩
    · obtain ⟨m, hm, hmx⟩ := ih h₃ (by omega)
      exact ⟨m, List.mem_cons_of_mem n hm, hmx⟩

/-- A range that is covered everywhere and cut by no member is tiled by a
consecutive part of the list. -/
theorem exists_tiles {l : List α} {a b : Int} (hO : Ordered lo hi l) (hab : a ≤ b)
    (hcut : ∀ n ∈ l, (a ≤ lo n ∧ hi n ≤ b) ∨ hi n ≤ a ∨ b ≤ lo n)
    (hcov : ∀ x, a ≤ x → x < b → ∃ n ∈ l, lo n ≤ x ∧ x < hi n) :
    ∃ L M R, l = L ++ M ++ R ∧ Tiles lo hi a b M ∧ (∀ n ∈ L, hi n ≤ a) ∧ ∀ n ∈ R, b ≤ lo n := by
  induction l generalizing a with
  | nil =>
    have hb : a = b := by
      by_contra hne
      obtain ⟨n, hn, _⟩ := hcov a le_rfl (by omega)
      simp at hn
    exact ⟨[], [], [], rfl, hb, by simp, by simp⟩
  | cons n r ih =>
    obtain ⟨hn, hnr, hr⟩ := ordered_cons.mp hO
    have hcut' : ∀ m ∈ r, (a ≤ lo m ∧ hi m ≤ b) ∨ hi m ≤ a ∨ b ≤ lo m :=
      fun m hm => hcut m (List.mem_cons_of_mem _ hm)
    rcases hcut n List.mem_cons_self with ⟨h₁, h₂⟩ | h | h
    · -- the point `a` is covered, and no later member reaches down to it
      have hlo : lo n = a := by
        obtain ⟨m, hm, hx⟩ := hcov a le_rfl (by omega)
        rcases List.mem_cons.mp hm with rfl | hm
        · omega
        · have := hnr m hm
          omega
      obtain ⟨L, M, R, rfl, hM, hL, hR⟩ := ih (a := hi n) hr h₂
        (fun m hm => by
          have := hnr m hm
          rcases hcut' m hm with h | h | h <;> omega)
        (fun x hx hxb => by
          obtain ⟨m, hm, hmx⟩ := hcov x (by omega) hxb
          rcases List.mem_cons.mp hm with rfl | hm
          · omega
          · exact ⟨m, hm, hmx⟩)
      have hLnil : L = [] := by
        rcases L with _ | ⟨m, L⟩
        · rfl
        · have h₁ := hL m List.mem_cons_self
          have h₂ := hnr m (by simp)
          have h₃ := hr.1 m (by simp)
          omega
      subst hLnil
      exact ⟨[], n :: M, R, rfl, ⟨hlo, by omega, hM⟩, by simp, hR⟩
    · obtain ⟨L, M, R, rfl, hM, hL, hR⟩ := ih hr hab hcut'
        (fun x hx hxb => by
          obtain ⟨m, hm, hmx⟩ := hcov x hx hxb
          rcases List.mem_cons.mp hm with rfl | hm
          · omega
          · exact ⟨m, hm, hmx⟩)
      refine ⟨n :: L, M, R, rfl, hM, ?_, hR⟩
      intro m hm
      rcases List.mem_cons.mp hm with rfl | hm
      · exact h
      · exact hL m hm
    · have hR : ∀ m ∈ n :: r, b ≤ lo m := by
        intro m hm
        rcases List.mem_cons.mp hm with rfl | hm
        · exact h
        · have := hnr m hm
          omega
      have hb : a = b := by
        by_contra hne
        obtain ⟨m, hm, hx⟩ := hcov a le_rfl (by omega)
        have := hR m hm
        omega
      exact ⟨[], [], n :: r, rfl, hb, by simp, hR⟩

end Intervals
