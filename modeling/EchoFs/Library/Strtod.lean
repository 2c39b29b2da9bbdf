import Mathlib.Data.Nat.Digits.Defs
import EchoFs.Library.Double

/-! Numbers in texts, as `strtod` and `std::stod` read them: the longest beginning that is
a number counts, and what follows it is not looked at. -/

namespace Strtod

/-- What `isspace` accepts in the classic locale. -/
def isspace (c : Char) : Bool := [' ', '\t', '\n', '\x0b', '\x0c', '\r'].contains c

def decimalDigit (c : Char) : Option ℕ := if c.isDigit then some (c.toNat - '0'.toNat) else none

def hexDigit (c : Char) : Option ℕ :=
  if 'a' ≤ c ∧ c ≤ 'f' then some (c.toNat - 'a'.toNat + 10) else decimalDigit c

/-- The value of a row of digits. -/
def value (radix : ℕ) (digit : Char → Option ℕ) (ds : List Char) : ℕ :=
  Nat.ofDigits radix (ds.filterMap digit).reverse

def number (ds : List Char) : ℕ := value 10 decimalDigit ds

/-- An exponent after its mark; without a digit none is read. -/
def exponent (mark : Char) : List Char → ℤ
  | c :: '-' :: t => if c = mark then -number (t.takeWhile Char.isDigit) else 0
  | c :: '+' :: t => if c = mark then number (t.takeWhile Char.isDigit) else 0
  | c :: t => if c = mark then number (t.takeWhile Char.isDigit) else 0
  | [] => 0

/-- Digits, of which some may follow a point, and an exponent. -/
def magnitude (radix power : ℕ) (digit : Char → Option ℕ) (mark : Char) (t : List Char) :
    Option ℚ :=
  let isDigit := fun c => (digit c).isSome
  let whole := t.takeWhile isDigit
  let rest := t.dropWhile isDigit
  let pointed := if rest.head? = some '.' then rest.tail else []
  let fraction := pointed.takeWhile isDigit
  let tail := if rest.head? = some '.' then pointed.dropWhile isDigit else rest
  if whole = [] ∧ fraction = [] then none
  else some (value radix digit (whole ++ fraction) / radix ^ fraction.length *
    power ^ exponent mark tail)

/-- What a text without a sign stands for. -/
inductive Reading where
  | nan
  | inf
  | number (q : ℚ)

def unsigned (t : List Char) : Option Reading :=
  if ['i', 'n', 'f'].isPrefixOf t then some .inf
  else if ['n', 'a', 'n'].isPrefixOf t then some .nan
  else
    let hex := if ['0', 'x'].isPrefixOf t then magnitude 16 2 hexDigit 'p' (t.drop 2) else none
    (hex.or (magnitude 10 10 decimalDigit 'e' t)).map .number

inductive Exception where
  | invalid_argument (what : List Char)
  | out_of_range (what : List Char)
deriving DecidableEq

/-- The double, or the error for what is too large, or too small to be kept exactly. -/
def convert (negative : Bool) : Reading → Except Exception Double
  | .nan => .ok .nan
  | .inf => .ok (.inf negative)
  | .number m =>
    let q := if negative then -m else m
    match Double.ofRat q with
    | .finite r =>
      if r ≠ q ∧ |r| < 2 ^ (-1022 : ℤ) then .error (.out_of_range "stod".toList)
      else .ok (.finite r)
    | _ => .error (.out_of_range "stod".toList)

def stod (s : List Char) : Except Exception Double :=
  let t := (s.dropWhile isspace).map Char.toLower
  let negative := decide (t.head? = some '-')
  let body := if t.head? = some '-' ∨ t.head? = some '+' then t.tail else t
  match unsigned body with
  | none => .error (.invalid_argument "stod".toList)
  | some r => convert negative r

/-- `std::stoi`; `none` for either of its exceptions. -/
def stoi (s : List Char) : Option ℤ :=
  let t := s.dropWhile isspace
  let body := if t.head? = some '-' ∨ t.head? = some '+' then t.tail else t
  let ds := body.takeWhile Char.isDigit
  let z : ℤ := if t.head? = some '-' then -number ds else number ds
  if ds ≠ [] ∧ -2 ^ 31 ≤ z ∧ z < 2 ^ 31 then some z else none

variable {ds : List Char} {c : Char} {n : ℕ}

/-- A row of digits. -/
def Digits (ds : List Char) : Prop := ∀ c ∈ ds, c.isDigit = true

instance : Decidable (Digits ds) := decidable_of_iff (ds.all Char.isDigit = true) List.all_eq_true

theorem ne_of_isDigit {d : Char} (h : c.isDigit = true) (hd : d.isDigit = false) : c ≠ d := by
  rintro rfl
  rw [h] at hd
  cases hd

theorem toLower_digit (h : c.isDigit = true) : c.toLower = c := by
  simp only [Char.isDigit, Bool.and_eq_true, decide_eq_true_eq] at h
  have hnine : c.val.toNat ≤ 57 := h.2
  unfold Char.toLower
  rw [dif_neg]
  rintro ⟨hA, -⟩
  have hA : 65 ≤ c.val.toNat := hA
  omega

theorem decimalDigit_isSome : (fun c => (decimalDigit c).isSome) = Char.isDigit := by
  funext c
  unfold decimalDigit
  split_ifs with h <;> simp [h]

/-- Digits only: the whole text is the number. -/
theorem magnitude_digits (h : Digits ds) (hne : ds ≠ []) :
    magnitude 10 10 decimalDigit 'e' ds = some (number ds : ℚ) := by
  have htake : ds.takeWhile Char.isDigit = ds := by
    have happend : (ds ++ []).takeWhile Char.isDigit = _ := List.takeWhile_append_of_pos h
    simpa using happend
  have hdrop : ds.dropWhile Char.isDigit = [] := by
    have happend : (ds ++ []).dropWhile Char.isDigit = _ := List.dropWhile_append_of_pos h
    simpa using happend
  unfold magnitude
  simp only [decimalDigit_isSome, htake, hdrop]
  simp [hne, exponent, number]

theorem unsigned_digits (h : Digits ds) (hne : ds ≠ []) :
    unsigned ds = some (.number (number ds)) := by
  obtain ⟨c, es, rfl⟩ := List.exists_cons_of_ne_nil hne
  have hc : c.isDigit = true := h c List.mem_cons_self
  have hhex : ['0', 'x'].isPrefixOf (c :: es) = false := by
    cases es with
    | nil => simp [List.isPrefixOf]
    | cons e es =>
      have he : e.isDigit = true := h e (by simp)
      have hx : 'x' ≠ e := (ne_of_isDigit he rfl).symm
      simp [List.isPrefixOf, hx]
  have hi : 'i' ≠ c := (ne_of_isDigit hc rfl).symm
  have hn : 'n' ≠ c := (ne_of_isDigit hc rfl).symm
  unfold unsigned
  rw [if_neg (by simp [List.isPrefixOf, hi]), if_neg (by simp [List.isPrefixOf, hn]), hhex]
  simp [magnitude_digits h hne]

/-- A natural number is zero or large enough. -/
theorem not_underflow (n : ℕ) :
    ¬ (Double.rounded n ≠ n ∧ |Double.rounded n| < 2 ^ (-1022 : ℤ)) := by
  rintro ⟨hne, hlt⟩
  rcases Nat.eq_zero_or_pos n with rfl | hpos
  · exact hne (by simp [Double.rounded, Double.nearest])
  · have hone : (2 : ℚ) ^ 0 ≤ Double.rounded n :=
      Double.pow_le_rounded (by rw [pow_zero]; exact_mod_cast hpos)
    have hsmall : (2 : ℚ) ^ (-1022 : ℤ) ≤ 1 := zpow_le_one_of_nonpos₀ (by norm_num) (by norm_num)
    have habs := le_abs_self (Double.rounded n)
    linarith

/-- The first number that digits cannot give as a double. -/
def tooLarge : ℕ := 2 ^ 1024 - 2 ^ 970

/-- What is done to a text before a number is read in it leaves digits alone. -/
theorem stod_eq_convert (h : Digits ds) (hne : ds ≠ []) :
    stod ds = convert false (.number (number ds)) := by
  have hlower : ds.map Char.toLower = ds := by
    rw [List.map_congr_left fun c hc => toLower_digit (h c hc), List.map_id']
  have hread := unsigned_digits h hne
  obtain ⟨c, es, rfl⟩ := List.exists_cons_of_ne_nil hne
  have hc : c.isDigit = true := h c List.mem_cons_self
  have hspace : isspace c = false := by
    have hblank : ∀ d ∈ [' ', '\t', '\n', '\x0b', '\x0c', '\r'], d.isDigit = false := by simp
    unfold isspace
    rw [List.contains_eq_mem, decide_eq_false_iff_not]
    intro hmem
    rw [hblank c hmem] at hc
    cases hc
  have hdrop : (c :: es).dropWhile isspace = c :: es := List.dropWhile_cons_of_neg (by simp [hspace])
  have hminus : c ≠ '-' := ne_of_isDigit hc rfl
  have hplus : c ≠ '+' := ne_of_isDigit hc rfl
  unfold stod
  simp only [hdrop, hlower, List.head?_cons, Option.some.injEq, hminus, hplus, or_self, if_false,
    decide_false, hread]

theorem lt_tooLarge (h : n < 2 ^ 53) : n < tooLarge := by
  have hunit : (2 : ℕ) ^ 53 ≤ 2 ^ 970 := pow_le_pow_right₀ (by decide) (by decide)
  have htop : (2 : ℕ) ^ 1024 = 2 ^ 54 * 2 ^ 970 := by rw [← pow_add]
  unfold tooLarge
  rw [htop]
  generalize (2 : ℕ) ^ 970 = c at *
  omega

theorem stod_digits (h : Digits ds) (hne : ds ≠ []) : stod ds =
    if tooLarge ≤ number ds then .error (.out_of_range "stod".toList)
    else .ok (.finite (Double.rounded (number ds))) := by
  rw [stod_eq_convert h hne]
  generalize number ds = n
  have hlarge : tooLarge ≤ n ↔ 2 ^ 1024 ≤ Double.rounded n := by
    rcases Nat.eq_zero_or_pos n with rfl | hpos
    · have hzero : Double.rounded (0 : ℕ) = 0 := by simp [Double.rounded, Double.nearest]
      have hpow : (2 : ℕ) ^ 970 < 2 ^ 1024 := pow_lt_pow_right₀ (by decide) (by decide)
      have hlarge : 0 < tooLarge := by
        unfold tooLarge
        exact Nat.sub_pos_of_lt hpow
      rw [hzero]
      exact iff_of_false hlarge.not_ge (not_le.mpr (by positivity))
    · rw [Double.overflow_iff (by exact_mod_cast hpos), sub_le_iff_le_add, tooLarge,
        Nat.sub_le_iff_le_add]
      exact_mod_cast Iff.rfl
  have hsmall := not_underflow n
  unfold convert
  simp only [Bool.false_eq_true, if_false]
  rw [Double.ofRat_of_nonneg (by positivity)]
  by_cases hn : tooLarge ≤ n
  · rw [if_pos (hlarge.mp hn), if_pos hn]
  · rw [if_neg (mt hlarge.mpr hn), if_neg hn]
    dsimp only
    rw [if_neg hsmall]

end Strtod
