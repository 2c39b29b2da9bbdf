import Mathlib.Data.List.Basic
import Mathlib.Logic.Function.Basic
import Mathlib.Tactic.Linarith

/-! Memories as functions on the integers: the values of a window, and the
values of a list put in place of the ones that were there. -/

namespace Memory

variable {β : Type*}

/-- The values of `[a, b)`. -/
def window (m : Int → β) (a b : Int) : List β :=
  (List.range (b - a).toNat).map fun k : Nat => m (a + k)

def overwrite (m : Int → β) (a : Int) (bs : List β) : Int → β :=
  fun x => if a ≤ x then (bs[(x - a).toNat]?).getD (m x) else m x

variable {m : Int → β} {a x : Int} {bs cs : List β}

theorem window_append (m : Int → β) {a b c : Int} (hab : a ≤ b) (hbc : b ≤ c) :
    window m a c = window m a b ++ window m b c := by
  unfold window
  have hlen : (c - a).toNat = (b - a).toNat + (c - b).toNat := by omega
  rw [hlen, List.range_add, List.map_append, List.map_map]
  refine congrArg _ (List.map_congr_left fun k _ => ?_)
  have : a + ((b - a).toNat + k : Nat) = b + k := by
    push_cast
    omega
  simp only [Function.comp_apply, this]

theorem window_length (m : Int → β) (a b : Int) : (window m a b).length = (b - a).toNat := by
  simp [window]

theorem window_congr {m' : Int → β} {b : Int} (h : ∀ x, a ≤ x → x < b → m x = m' x) :
    window m a b = window m' a b := by
  apply List.map_congr_left
  intro k hk
  have hk := List.mem_range.mp hk
  exact h _ (by omega) (by omega)

@[simp] theorem overwrite_nil (m : Int → β) (a : Int) : overwrite m a [] = m := by
  funext x
  simp [overwrite]

theorem overwrite_before (hx : x < a) : overwrite m a bs x = m x := if_neg (not_le.mpr hx)

theorem overwrite_after (hx : a + bs.length ≤ x) : overwrite m a bs x = m x := by
  unfold overwrite
  rw [List.getElem?_eq_none (by omega)]
  split_ifs <;> rfl

/-- Values put back where they are change nothing. -/
theorem overwrite_window (m : Int → β) (a b : Int) : overwrite m a (window m a b) = m := by
  funext x
  unfold overwrite window
  split_ifs with ha
  · rw [List.getElem?_map]
    cases hx : (List.range (b - a).toNat)[(x - a).toNat]? with
    | none => rfl
    | some k =>
      obtain ⟨-, rfl⟩ := List.getElem?_eq_some_iff.mp hx
      rw [List.getElem_range]
      exact congrArg m (by omega)
  · rfl

theorem overwrite_append (m : Int → β) (a : Int) (bs cs : List β) :
    overwrite (overwrite m a bs) (a + bs.length) cs = overwrite m a (bs ++ cs) := by
  funext x
  by_cases hb : x < a + bs.length
  · rw [overwrite_before hb]
    unfold overwrite
    by_cases ha : a ≤ x
    · rw [if_pos ha, if_pos ha, List.getElem?_append_left (by omega)]
    · rw [if_neg ha, if_neg ha]
  · have hidx : (x - a).toNat - bs.length = (x - (a + bs.length)).toNat := by omega
    have hold : overwrite m a bs x = m x := overwrite_after (not_lt.mp hb)
    have ha : a ≤ x := by omega
    conv_lhs => rw [overwrite, if_pos (not_lt.mp hb), hold]
    rw [overwrite, if_pos ha, List.getElem?_append_right (by omega), hidx]

/-- The addresses of `[a, a + n)`. -/
def span (a : Int) (n : Nat) : List Int := (List.range n).map fun k : Nat => a + k

/-- The values are put at the addresses one by one, until one of the lists ends. -/
def put (m : Int → β) : List Int → List β → Int → β
  | a :: as, b :: bs => put (Function.update m a b) as bs
  | _, _ => m

variable {as as' : List Int} {n k : Nat}

@[simp] theorem span_length (a : Int) (n : Nat) : (span a n).length = n := by simp [span]

theorem mem_span : x ∈ span a n ↔ a ≤ x ∧ x < a + n := by
  simp only [span, List.mem_map, List.mem_range]
  constructor
  · rintro ⟨k, hk, rfl⟩
    omega
  · rintro ⟨ha, hx⟩
    exact ⟨(x - a).toNat, by omega, by omega⟩

theorem span_add (a : Int) (n k : Nat) : span a (n + k) = span a n ++ span (a + n) k := by
  unfold span
  rw [List.range_add, List.map_append, List.map_map]
  refine congrArg _ (List.map_congr_left fun i _ => ?_)
  simp only [Function.comp_apply, Nat.cast_add, Int.add_assoc]

theorem span_cons (a : Int) (n : Nat) : span a (n + 1) = a :: span (a + 1) n := by
  rw [Nat.add_comm, span_add]
  simp [span]

theorem span_take (a : Int) (h : k ≤ n) : (span a n).take k = span a k := by
  obtain ⟨n, rfl⟩ := Nat.exists_eq_add_of_le h
  rw [span_add]
  exact List.take_left' (span_length a k)

theorem window_eq_map (m : Int → β) (a : Int) (n : Nat) :
    window m a (a + n) = (span a n).map m := by
  simp [window, span]

@[simp] theorem put_nil_left (m : Int → β) (bs : List β) : put m [] bs = m := rfl

@[simp] theorem put_nil_right (m : Int → β) (as : List Int) : put m as [] = m := by
  cases as <;> rfl

theorem put_append (h : as.length = bs.length) :
    put m (as ++ as') (bs ++ cs) = put (put m as bs) as' cs := by
  induction as generalizing m bs with
  | nil =>
    obtain rfl := List.length_eq_zero_iff.mp h.symm
    rfl
  | cons a as ih =>
    cases bs with
    | nil => cases h
    | cons b bs => exact ih (Nat.succ.inj h)

theorem put_of_notMem (h : x ∉ as) : put m as bs x = m x := by
  induction as generalizing m bs with
  | nil => rfl
  | cons a as ih =>
    obtain ⟨hxa, hx⟩ := not_or.mp (List.mem_cons.not.mp h)
    cases bs with
    | nil => rfl
    | cons b bs => exact (ih hx).trans (Function.update_of_ne hxa _ _)

/-- Only as many addresses as there are values count. -/
theorem put_take_left (m : Int → β) (as : List Int) (h : bs.length ≤ n) :
    put m (as.take n) bs = put m as bs := by
  induction as generalizing m bs n with
  | nil => simp
  | cons a as ih =>
    cases bs with
    | nil => simp
    | cons b bs =>
      cases n with
      | zero => simp at h
      | succ n => exact ih _ (Nat.le_of_succ_le_succ h)

theorem put_take_right (m : Int → β) (bs : List β) (h : as.length ≤ n) :
    put m as (bs.take n) = put m as bs := by
  induction as generalizing m bs n with
  | nil => rfl
  | cons a as ih =>
    cases n with
    | zero => simp at h
    | succ n =>
      cases bs with
      | nil => simp
      | cons b bs => exact ih _ _ (Nat.le_of_succ_le_succ h)

theorem put_span (m : Int → β) (a : Int) (bs : List β) :
    put m (span a bs.length) bs = overwrite m a bs := by
  induction bs generalizing m a with
  | nil => simp
  | cons b bs ih =>
    rw [List.length_cons, span_cons, put, ih, ← List.singleton_append, ← overwrite_append]
    have hone : Function.update m a b = overwrite m a [b] := by
      funext x
      unfold overwrite
      by_cases hx : x = a
      · subst hx
        simp
      · rw [Function.update_of_ne hx]
        split_ifs with ha
        · rw [List.getElem?_eq_none (by simp; omega)]
          rfl
        · rfl
    rw [hone, List.length_singleton]
    rfl

end Memory
