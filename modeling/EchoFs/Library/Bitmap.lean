import Mathlib.Data.List.Basic

/-! Bitmaps that record which positions are taken: a list of ranges covers a
bitmap when every set bit lies in exactly one range and no clear bit in any. -/

namespace Bitmap

structure Range where
  start : Nat
  count : Nat
deriving DecidableEq, Repr

def Range.contains (r : Range) (pos : Nat) : Bool := r.start ≤ pos && pos < r.start + r.count

/-- Give every bit of a range the same value. -/
def assign (bits : Nat → Bool) (r : Range) (v : Bool) : Nat → Bool :=
  fun pos => if r.contains pos then v else bits pos

def Covers (bits : Nat → Bool) (rs : List Range) : Prop :=
  ∀ pos, rs.countP (fun r => r.contains pos) = (bits pos).toNat

variable {bits : Nat → Bool} {r : Range} {rs rs' : List Range}

theorem Range.contains_iff {pos : Nat} :
    r.contains pos = true ↔ r.start ≤ pos ∧ pos < r.start + r.count := by
  simp [contains]

theorem covers_nil : Covers (fun _ => false) [] := fun _ => rfl

theorem Covers.perm (h : Covers bits rs) (hp : rs.Perm rs') : Covers bits rs' := by
  intro pos
  rw [← hp.countP_eq]
  exact h pos

theorem Covers.take (h : Covers bits rs) (hr : ∀ pos, r.contains pos = true → bits pos = false) :
    Covers (assign bits r true) (r :: rs) := by
  intro pos
  have hpos := h pos
  unfold assign
  by_cases hc : r.contains pos = true
  · rw [hr pos hc] at hpos
    rw [List.countP_cons, hpos, if_pos hc, if_pos hc]
    rfl
  · rw [List.countP_cons, hpos, if_neg hc, if_neg hc, Nat.add_zero]

theorem Covers.release (h : Covers bits (r :: rs)) : Covers (assign bits r false) rs := by
  intro pos
  have hpos := h pos
  unfold assign
  by_cases hc : r.contains pos = true
  · rw [List.countP_cons, if_pos hc] at hpos
    have hle := Bool.toNat_le (bits pos)
    rw [if_pos hc, Bool.toNat_false]
    omega
  · rw [List.countP_cons, if_neg hc, Nat.add_zero] at hpos
    rw [if_neg hc, hpos]

theorem Covers.bit_iff (h : Covers bits rs) (pos : Nat) :
    bits pos = true ↔ ∃ r ∈ rs, r.contains pos = true := by
  have hpos := h pos
  rw [← List.countP_pos_iff (p := fun r : Range => r.contains pos), hpos]
  cases bits pos <;> simp

theorem Covers.pairwise (h : Covers bits rs) :
    rs.Pairwise fun r s => ∀ pos, r.contains pos = true → s.contains pos = false := by
  have hle : ∀ pos, rs.countP (fun r => r.contains pos) ≤ 1 := fun pos => by
    rw [h pos]
    exact Bool.toNat_le _
  clear h
  induction rs with
  | nil => exact .nil
  | cons r rs ih =>
    refine List.pairwise_cons.mpr ⟨fun s hs pos hr => ?_, ih fun pos => ?_⟩
    · have hpos := hle pos
      rw [List.countP_cons, if_pos hr] at hpos
      have hzero : rs.countP (fun r => r.contains pos) = 0 := by omega
      have hnone := List.countP_eq_zero.mp hzero s hs
      simpa using hnone
    · have hpos := hle pos
      rw [List.countP_cons] at hpos
      omega

end Bitmap
