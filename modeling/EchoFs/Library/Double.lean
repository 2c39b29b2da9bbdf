import Mathlib.Data.Int.Log
import Mathlib.Data.Rat.Floor
import Mathlib.Algebra.Order.Archimedean.Basic
import Mathlib.Tactic.Linarith
import Mathlib.Tactic.NormNum
import Mathlib.Tactic.Positivity
import Mathlib.Tactic.FieldSimp
import Mathlib.Tactic.Ring

/-! Numbers of type `double` by their values: a rational, an infinity, or no number.
The two zeros are one value. -/

inductive Double where
  | nan
  | inf (negative : Bool)
  | finite (q : ℚ)
deriving DecidableEq

namespace Double

/-- The whole number nearest to `x`, the even one of two. -/
def nearest (x : ℚ) : ℤ :=
  if x - ⌊x⌋ < 1 / 2 then ⌊x⌋
  else if 1 / 2 < x - ⌊x⌋ then ⌊x⌋ + 1
  else if 2 ∣ ⌊x⌋ then ⌊x⌋ else ⌊x⌋ + 1

/-- The distance between neighbours around `x`. -/
def ulp (x : ℚ) : ℚ := 2 ^ (max (Int.log 2 |x|) (-1022) - 52)

/-- The nearest multiple of the distance, as if the exponent had no upper bound. -/
def rounded (x : ℚ) : ℚ := nearest (x / ulp x) * ulp x

def ofRat (x : ℚ) : Double :=
  if 2 ^ 1024 ≤ |rounded x| then .inf (decide (x < 0)) else .finite (rounded x)

/-- A product with a number that is exact as a double. -/
def scale (d : Double) (f : ℕ) : Double :=
  match d with
  | .nan => .nan
  | .inf s => if f = 0 then .nan else .inf s
  | .finite q => ofRat (q * f)

/-- `std::round`: halves away from zero. -/
def round : Double → Double
  | .finite q => .finite (if 0 ≤ q then ⌊q + 1 / 2⌋ else -⌊-q + 1 / 2⌋ : ℤ)
  | d => d

/-- The whole part, which is what a conversion to an integer type keeps. -/
def whole : Double → Option ℤ
  | .finite q => some (if 0 ≤ q then ⌊q⌋ else -⌊-q⌋)
  | _ => none

variable {x : ℚ} {k : ℤ} {n : ℕ}

@[simp] theorem nearest_intCast (k : ℤ) : nearest k = k := by
  simp [nearest]

theorem floor_le_nearest (x : ℚ) : ⌊x⌋ ≤ nearest x := by
  unfold nearest
  split_ifs <;> omega

theorem nearest_le_floor_succ (x : ℚ) : nearest x ≤ ⌊x⌋ + 1 := by
  unfold nearest
  split_ifs <;> omega

theorem le_nearest (h : (k : ℚ) ≤ x) : k ≤ nearest x :=
  (Int.le_floor.mpr h).trans (floor_le_nearest x)

theorem nearest_le (h : x ≤ k) : nearest x ≤ k := by
  rcases h.eq_or_lt with rfl | hlt
  · rw [nearest_intCast]
  · have hfloor : ⌊x⌋ < k := Int.floor_lt.mpr hlt
    exact (nearest_le_floor_succ x).trans hfloor

/-- Below an even number it takes half a step to reach it. -/
theorem le_nearest_iff (hk : 2 ∣ k) : k ≤ nearest x ↔ (k : ℚ) - 1 / 2 ≤ x := by
  constructor
  · intro h
    by_contra! hx
    have hlt : ⌊x⌋ < k := Int.floor_lt.mpr (by linarith)
    have hle := nearest_le_floor_succ x
    have hfloor : ⌊x⌋ = k - 1 := by omega
    have hlow : x - ⌊x⌋ < 1 / 2 := by
      rw [hfloor]
      push_cast
      linarith
    unfold nearest at h
    rw [if_pos hlow] at h
    omega
  · intro h
    by_cases hx : (k : ℚ) ≤ x
    · exact le_nearest hx
    · have hfloor : ⌊x⌋ = k - 1 := by
        apply Int.floor_eq_iff.mpr
        push_cast
        constructor <;> linarith
      unfold nearest
      have hhigh : ¬ x - ⌊x⌋ < 1 / 2 := by
        rw [hfloor]
        push_cast
        linarith
      rw [if_neg hhigh]
      -- the number below is odd
      split_ifs <;> omega

theorem ulp_pos (x : ℚ) : 0 < ulp x := zpow_pos (by norm_num) _

theorem rounded_nonneg (h : 0 ≤ x) : 0 ≤ rounded x := by
  have hdiv : ((0 : ℤ) : ℚ) ≤ x / ulp x := by
    rw [Int.cast_zero]
    exact div_nonneg h (ulp_pos x).le
  have hnear : (0 : ℚ) ≤ nearest (x / ulp x) := by exact_mod_cast le_nearest hdiv
  exact mul_nonneg hnear (ulp_pos x).le

/-- Multiples of the distance stay what they are. -/
theorem rounded_exact (h : x = k * ulp x) : rounded x = x := by
  have hdiv : x / ulp x = k := (div_eq_iff (ulp_pos x).ne').mpr h
  unfold rounded
  rw [hdiv, nearest_intCast, ← h]

theorem le_rounded (h : k * ulp x ≤ x) : k * ulp x ≤ rounded x := by
  have hdiv : (k : ℚ) ≤ x / ulp x := (le_div_iff₀ (ulp_pos x)).mpr h
  exact mul_le_mul_of_nonneg_right (by exact_mod_cast le_nearest hdiv) (ulp_pos x).le

theorem rounded_le (h : x ≤ k * ulp x) : rounded x ≤ k * ulp x := by
  have hdiv : x / ulp x ≤ k := (div_le_iff₀ (ulp_pos x)).mpr h
  exact mul_le_mul_of_nonneg_right (by exact_mod_cast nearest_le hdiv) (ulp_pos x).le

theorem ulp_of_one_le (h : 1 ≤ x) : ulp x = 2 ^ (Int.log 2 x - 52) := by
  have hlog : 0 ≤ Int.log 2 x := by
    apply (Int.zpow_le_iff_le_log (by decide) (by linarith)).mp
    simpa using h
  unfold ulp
  rw [abs_of_nonneg (by linarith), max_eq_left (by omega)]

/-- A whole multiple of the distance: powers of two that are not below it. -/
theorem zpow_eq_mul_ulp (h : 1 ≤ x) {j : ℤ} (hj : Int.log 2 x - 52 ≤ j) :
    (2 : ℚ) ^ j = ((2 ^ (j - (Int.log 2 x - 52)).toNat : ℤ) : ℚ) * ulp x := by
  rw [ulp_of_one_le h]
  push_cast
  rw [← zpow_natCast, ← zpow_add₀ (by norm_num)]
  congr 1
  omega

theorem pow_log_le_rounded (h : 1 ≤ x) : (2 : ℚ) ^ Int.log 2 x ≤ rounded x := by
  rw [zpow_eq_mul_ulp h (j := Int.log 2 x) (by omega)]
  apply le_rounded
  rw [← zpow_eq_mul_ulp h (by omega)]
  exact Int.zpow_log_le_self (by decide) (by linarith)

theorem rounded_le_pow (h : 1 ≤ x) : rounded x ≤ (2 : ℚ) ^ (Int.log 2 x + 1) := by
  rw [zpow_eq_mul_ulp h (j := Int.log 2 x + 1) (by omega)]
  apply rounded_le
  rw [← zpow_eq_mul_ulp h (by omega)]
  exact (Int.lt_zpow_succ_log_self (by decide) x).le

/-- A power of two is not passed on the way down. -/
theorem pow_le_rounded (h : (2 : ℚ) ^ n ≤ x) : (2 : ℚ) ^ n ≤ rounded x := by
  have hone : 1 ≤ x := (one_le_pow₀ (by norm_num)).trans h
  have hlog : (n : ℤ) ≤ Int.log 2 x := by
    apply (Int.zpow_le_iff_le_log (by decide) (by linarith)).mp
    simpa using h
  calc (2 : ℚ) ^ n = 2 ^ (n : ℤ) := (zpow_natCast _ _).symm
    _ ≤ 2 ^ Int.log 2 x := zpow_le_zpow_right₀ (by norm_num) hlog
    _ ≤ rounded x := pow_log_le_rounded hone

theorem rounded_natCast (h : n < 2 ^ 53) : rounded n = n := by
  rcases Nat.eq_zero_or_pos n with rfl | hpos
  · simp [rounded, nearest]
  have hone : (1 : ℚ) ≤ n := by exact_mod_cast hpos
  have hlog : Int.log 2 (n : ℚ) ≤ 52 := by
    rw [Int.log_natCast]
    exact_mod_cast Nat.le_of_lt_succ (Nat.log_lt_of_lt_pow hpos.ne' h)
  have hunit := zpow_eq_mul_ulp hone (j := 0) (by omega)
  rw [zpow_zero] at hunit
  apply rounded_exact (k := n * 2 ^ (0 - (Int.log 2 (n : ℚ) - 52)).toNat)
  rw [Int.cast_mul, mul_assoc, ← hunit]
  simp

theorem ofRat_of_nonneg (h : 0 ≤ x) :
    ofRat x = if 2 ^ 1024 ≤ rounded x then .inf false else .finite (rounded x) := by
  unfold ofRat
  rw [abs_of_nonneg (rounded_nonneg h), decide_eq_false (not_lt.mpr h)]

theorem ofRat_natCast (h : n < 2 ^ 53) : ofRat n = .finite n := by
  rw [ofRat_of_nonneg (by positivity), rounded_natCast h, if_neg]
  rw [not_le]
  exact_mod_cast h.trans (Nat.pow_lt_pow_right (by decide) (by decide))

@[simp] theorem round_natCast (n : ℕ) : round (.finite n) = .finite n := by
  have hfloor : ⌊(n : ℚ) + 1 / 2⌋ = n := by
    apply Int.floor_eq_iff.mpr
    push_cast
    constructor <;> linarith
  simp only [round, Nat.cast_nonneg, if_true, hfloor, Int.cast_natCast]

@[simp] theorem whole_natCast (n : ℕ) : whole (.finite n) = some (n : ℤ) := by
  simp [whole]

/-- Products of natural numbers are exact while they are small. -/
theorem scale_natCast {f : ℕ} (hf : 0 < f) (h : n * f < 2 ^ 53) :
    (Double.finite (rounded n)).scale f = .finite ((n * f : ℕ) : ℚ) := by
  have hn : n < 2 ^ 53 := (Nat.le_mul_of_pos_right n hf).trans_lt h
  unfold scale
  rw [rounded_natCast hn, ← ofRat_natCast h, Nat.cast_mul]

/-- Half a step below the first power of two that is too large, numbers become infinite. -/
theorem overflow_iff (h : 1 ≤ x) : 2 ^ 1024 ≤ rounded x ↔ (2 : ℚ) ^ 1024 - 2 ^ 970 ≤ x := by
  have hx : 0 < x := by linarith
  have hunit : (0 : ℚ) < 2 ^ 970 := by positivity
  have htop : (2 : ℚ) ^ 1024 = 2 ^ 54 * 2 ^ 970 := by rw [← pow_add]
  have hhalf : (2 : ℚ) ^ 1023 = 2 ^ 53 * 2 ^ 970 := by rw [← pow_add]
  have hulp : Int.log 2 x = 1023 → ulp x = 2 * 2 ^ 970 := by
    intro hlog
    rw [ulp_of_one_le h, hlog, ← pow_succ']
    exact zpow_natCast 2 971
  rcases lt_trichotomy (Int.log 2 x) 1023 with hlog | hlog | hlog
  · have hlt : x < 2 ^ 1023 :=
      (Int.lt_zpow_iff_log_lt (b := 2) (by decide) hx).mpr hlog
    have hle : rounded x ≤ 2 ^ 1023 :=
      (rounded_le_pow h).trans (zpow_le_zpow_right₀ (n := 1023) (by norm_num) (by omega))
    rw [hhalf] at hlt hle
    rw [htop]
    clear htop hhalf hulp
    generalize (2 : ℚ) ^ 970 = c at *
    constructor <;> intro hover <;> linarith
  · unfold rounded
    rw [hulp hlog, htop]
    clear htop hhalf hulp
    generalize (2 : ℚ) ^ 970 = c at *
    have hstep : 2 ^ 54 * c = ((2 ^ 53 : ℤ) : ℚ) * (2 * c) := by
      push_cast
      ring
    rw [hstep, mul_le_mul_iff_left₀ (by positivity), Int.cast_le,
      le_nearest_iff (by decide), le_div_iff₀ (by positivity), sub_mul]
    constructor <;> intro hover <;> linarith
  · have hge : (2 : ℚ) ^ 1024 ≤ x :=
      (Int.zpow_le_iff_le_log (b := 2) (x := 1024) (by decide) hx).mpr hlog
    exact ⟨fun _ => (sub_le_self _ hunit.le).trans hge, fun _ => pow_le_rounded hge⟩

end Double
