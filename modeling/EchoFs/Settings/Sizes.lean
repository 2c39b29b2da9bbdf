import EchoFs.Library.PathString
import EchoFs.Library.Strtod

/-! Sizes with units: `size_parser` reads `capacity` and `transfer-size`,
`backend::parse_size` reads `segment-size`. The value of a `double` converted to an integer
type that cannot hold it is undefined; it is a parameter. -/

namespace EchoFs.Settings
open Strtod PathString

abbrev Text := List Char

/-- Without the white space. -/
def strip (value : Text) : Text := value.filter fun ch => !isspace ch

/-- `std::string::substr(0, pos)`, the whole text at `npos` -/
def upTo (text : Text) : Option ℕ → Text
  | none => text
  | some pos => text.take pos

section Parsers
variable (undef32 : Double → UInt32) (undef64 : Double → Int64)

def toUInt32 (d : Double) : UInt32 :=
  match d.whole with
  | some z => if 0 ≤ z ∧ z < 2 ^ 32 then .ofNat z.toNat else undef32 d
  | none => undef32 d

def toInt64 (d : Double) : Int64 :=
  match d.whole with
  | some z => if -2 ^ 63 ≤ z ∧ z < 2 ^ 63 then .ofInt z else undef64 d
  | none => undef64 d

def conversions : List (Text × ℕ) :=
  [("GiB".toList, 2 ^ 30), ("GB".toList, 10 ^ 9), ("G".toList, 10 ^ 9),
    ("MiB".toList, 2 ^ 20), ("MB".toList, 10 ^ 6), ("M".toList, 10 ^ 6),
    ("KiB".toList, 2 ^ 10), ("KB".toList, 10 ^ 3), ("K".toList, 10 ^ 3), ("B".toList, 1)]

/-- The loop over the conversions; `B_FACTOR` when none of them is taken. -/
def unitOf (scopy : Text) : List (Text × ℕ) → Option ℕ × ℕ
  | [] => (none, 1)
  | (suffix, factor) :: rest =>
    match find suffix scopy with
    | none => unitOf scopy rest
    | some pos =>
      -- the suffix has to be all of the rest of the text
      if suffix = scopy.drop pos then (some pos, factor) else unitOf scopy rest

def sizeParser (name value : Text) : Except Exception UInt32 :=
  let scopy := strip value
  let unit := unitOf scopy conversions
  let numberStr := upTo scopy unit.1
  if numberStr = [] ∨ ¬ Digits numberStr then
    .error (.invalid_argument ("Value '".toList ++ value ++ "' provided in setting '".toList ++
      name ++ "' is not a number".toList))
  else do
    let parsedValue ← stod numberStr
    return toUInt32 undef32 (parsedValue.scale unit.2).round

def numberParser (name value : Text) : Except Exception UInt32 :=
  match stoi value with
  | none => .error (.invalid_argument ("Value provided for setting '".toList ++ name ++
      "' is not a number".toList))
  | some optval =>
    if optval ≤ 0 then
      .error (.invalid_argument ("Value provided for setting '".toList ++ name ++
        "' must be greater than zero".toList))
    else .ok (.ofNat optval.toNat)

/-- The units of `parse_size` in the order of its tests. -/
def tests : List (Text × ℕ) :=
  [("KB".toList, 10 ^ 3), ("KiB".toList, 2 ^ 10), ("MB".toList, 10 ^ 6),
    ("MiB".toList, 2 ^ 20), ("GB".toList, 10 ^ 9), ("GiB".toList, 2 ^ 30)]

def firstUnit (scopy : Text) : List (Text × ℕ) → Option (ℕ × ℕ)
  | [] => none
  | (unit, factor) :: rest =>
    match find unit scopy with
    | some found => some (found, factor)
    | none => firstUnit scopy rest

/-- -1 stands for the default size. -/
def parseSize (str : Text) : Except Exception Int64 :=
  let scopy := strip str
  match firstUnit scopy tests with
  | some (found, factor) => do
    let value ← stod (scopy.take found)
    return toInt64 undef64 (value.scale factor).round
  | none =>
    if ¬ Digits scopy then .ok (-1)
    else do
      let value ← stod scopy
      return toInt64 undef64 (value.scale 1).round

end Parsers

/-- The grammar: digits and one of the units, or none. -/
def units : List (Text × ℕ) :=
  [([], 1), ("B".toList, 1), ("K".toList, 10 ^ 3), ("KB".toList, 10 ^ 3),
    ("KiB".toList, 2 ^ 10), ("M".toList, 10 ^ 6), ("MB".toList, 10 ^ 6),
    ("MiB".toList, 2 ^ 20), ("G".toList, 10 ^ 9), ("GB".toList, 10 ^ 9),
    ("GiB".toList, 2 ^ 30)]

/-- `text` spells `n` times a unit of `factor` bytes. -/
structure Spells (text : Text) (n factor : ℕ) (ds unit : Text) : Prop where
  text_eq : text = ds ++ unit
  ne : ds ≠ []
  digits : Digits ds
  number_eq : number ds = n
  unit_mem : (unit, factor) ∈ units

def Written (text : Text) (n factor : ℕ) : Prop := ∃ ds unit, Spells text n factor ds unit

section
variable {undef32 : Double → UInt32} {undef64 : Double → Int64} {name value text ds unit : Text}
  {n f : ℕ}

/-- Every unit starts with something that is no digit. -/
def Lettered (l : List (Text × ℕ)) : Prop := ∀ p ∈ l, p.1.head?.any (fun a => !a.isDigit) = true

instance : DecidablePred Lettered := fun l =>
  inferInstanceAs (Decidable (∀ p ∈ l, p.1.head?.any (fun a => !a.isDigit) = true))

theorem find_unit {a : Char} {s : Text} (h : Digits ds) (ha : (!a.isDigit) = true) (unit : Text) :
    find (a :: s) (ds ++ unit) = (find (a :: s) unit).map (· + ds.length) := by
  refine find_append fun hmem => ?_
  rw [h a hmem] at ha
  cases ha

/-- Digits before the unit shift where it is found. -/
theorem unitOf_append (h : Digits ds) (unit : Text) : ∀ {l : List (Text × ℕ)}, Lettered l →
    unitOf (ds ++ unit) l = ((unitOf unit l).1.map (· + ds.length), (unitOf unit l).2) := by
  intro l hl
  induction l with
  | nil => rfl
  | cons p rest ih =>
    have ih := ih fun q hq => hl q (List.mem_cons_of_mem _ hq)
    have hp := hl p List.mem_cons_self
    obtain ⟨suffix, factor⟩ := p
    cases suffix with
    | nil => cases hp
    | cons a s =>
      unfold unitOf
      rw [find_unit h hp]
      cases hfind : find (a :: s) unit with
      | none => exact ih
      | some pos =>
        have hdrop : (ds ++ unit).drop (pos + ds.length) = unit.drop pos := by
          rw [Nat.add_comm, ← List.drop_drop, List.drop_left]
        dsimp only [Option.map_some]
        rw [hdrop]
        split_ifs with hs
        · rfl
        · exact ih

theorem firstUnit_append (h : Digits ds) (unit : Text) : ∀ {l : List (Text × ℕ)}, Lettered l →
    firstUnit (ds ++ unit) l = (firstUnit unit l).map fun p => (p.1 + ds.length, p.2) := by
  intro l hl
  induction l with
  | nil => rfl
  | cons p rest ih =>
    have ih := ih fun q hq => hl q (List.mem_cons_of_mem _ hq)
    have hp := hl p List.mem_cons_self
    obtain ⟨suffix, factor⟩ := p
    cases suffix with
    | nil => cases hp
    | cons a s =>
      unfold firstUnit
      rw [find_unit h hp]
      cases hfind : find (a :: s) unit with
      | none => exact ih
      | some pos => rfl

/-- The suffix the loop takes is the end of the text. -/
theorem unitOf_spec (scopy : Text) : ∀ l : List (Text × ℕ),
    ∃ unit, scopy = upTo scopy (unitOf scopy l).1 ++ unit ∧
      (unit, (unitOf scopy l).2) ∈ ([], 1) :: l := by
  intro l
  induction l with
  | nil => exact ⟨[], by simp [unitOf, upTo], by simp [unitOf]⟩
  | cons p rest ih =>
    obtain ⟨suffix, factor⟩ := p
    obtain ⟨unit, htext, hmem⟩ := ih
    have hrest : (unit, (unitOf scopy rest).2) ∈ ([], 1) :: (suffix, factor) :: rest := by
      rcases List.mem_cons.mp hmem with h | h
      · exact h ▸ List.mem_cons_self
      · exact List.mem_cons_of_mem _ (List.mem_cons_of_mem _ h)
    unfold unitOf
    cases hfind : find suffix scopy with
    | none => exact ⟨unit, htext, hrest⟩
    | some pos =>
      dsimp only
      split_ifs with hs
      · refine ⟨suffix, ?_, by simp⟩
        simp only [upTo]
        conv_rhs => rw [hs]
        exact (List.take_append_drop pos scopy).symm
      · exact ⟨unit, htext, hrest⟩

theorem units_of_conversions : ∀ p ∈ ([], 1) :: conversions, p ∈ units := by decide

theorem unitOf_units : ∀ p ∈ units,
    unitOf p.1 conversions = (if p.1 = [] then none else some 0, p.2) := by decide

theorem units_factor : ∀ p ∈ units, 0 < p.2 := by decide

/-- The loop splits a text of the grammar where the digits end. -/
theorem unitOf_spells (h : Spells text n f ds unit) :
    upTo text (unitOf text conversions).1 = ds ∧ (unitOf text conversions).2 = f := by
  have hunit := unitOf_units _ h.unit_mem
  dsimp only at hunit
  rw [h.text_eq, unitOf_append h.digits unit (by decide), hunit]
  refine ⟨?_, rfl⟩
  split_ifs with hempty
  · simp [upTo, hempty]
  · simp [upTo]

/-- A text outside the grammar is rejected. -/
theorem sizeParser_rejects (h : ∀ n f, ¬ Written (strip value) n f) :
    ∃ e, sizeParser undef32 name value = .error e := by
  obtain ⟨unit, htext, hmem⟩ := unitOf_spec (strip value) conversions
  unfold sizeParser
  dsimp only
  split_ifs with hbad
  · exact ⟨_, rfl⟩
  · obtain ⟨hne, hdigits⟩ := not_or.mp hbad
    exact absurd ⟨_, unit, htext, hne, not_not.mp hdigits, rfl, units_of_conversions _ hmem⟩
      (h _ _)

theorem sizeParser_spells (h : Spells (strip value) n f ds unit) :
    sizeParser undef32 name value =
      if tooLarge ≤ n then .error (.out_of_range "stod".toList)
      else .ok (toUInt32 undef32 ((Double.finite (Double.rounded n)).scale f).round) := by
  obtain ⟨hnumber, hfactor⟩ := unitOf_spells h
  have hvalid : ¬ (ds = [] ∨ ¬ Digits ds) := by
    rw [not_or, not_not]
    exact ⟨h.ne, h.digits⟩
  unfold sizeParser
  dsimp only
  rw [hnumber, hfactor, if_neg hvalid, stod_digits h.digits h.ne, h.number_eq]
  split_ifs with hlarge <;> rfl

/-- A product that fits is what the conversion gives. -/
theorem whole_product (hf : 0 < f) (h : n * f < 2 ^ 32) :
    ((Double.finite (Double.rounded n)).scale f).round.whole = some ((n * f : ℕ) : ℤ) := by
  rw [Double.scale_natCast hf (h.trans (by decide)), Double.round_natCast, Double.whole_natCast]

theorem toUInt32_product (hf : 0 < f) (h : n * f < 2 ^ 32) :
    (toUInt32 undef32 ((Double.finite (Double.rounded n)).scale f).round).toNat = n * f := by
  unfold toUInt32
  rw [whole_product hf h]
  dsimp only
  rw [if_pos (by omega), Int.toNat_natCast, UInt32.toNat_ofNat_of_lt' h]

theorem toInt64_product (hf : 0 < f) (h : n * f < 2 ^ 32) :
    (toInt64 undef64 ((Double.finite (Double.rounded n)).scale f).round).toInt = (n * f : ℕ) := by
  unfold toInt64
  rw [whole_product hf h]
  dsimp only
  rw [if_pos (by omega), Int64.toInt_ofInt_of_le (by omega) (by omega)]

theorem not_tooLarge (hf : 0 < f) (h : n * f < 2 ^ 32) : ¬ tooLarge ≤ n := by
  have hn : n < 2 ^ 53 := ((Nat.le_mul_of_pos_right n hf).trans_lt h).trans (by decide)
  exact (lt_tooLarge hn).not_ge

theorem Spells.factor_pos (h : Spells text n f ds unit) : 0 < f := units_factor _ h.unit_mem

theorem sizeParser_product (h : Spells (strip value) n f ds unit) (hfit : n * f < 2 ^ 32) :
    ∃ v, sizeParser undef32 name value = .ok v ∧ v.toNat = n * f := by
  rw [sizeParser_spells h, if_neg (not_tooLarge h.factor_pos hfit)]
  exact ⟨_, rfl, toUInt32_product h.factor_pos hfit⟩

theorem sizeParser_large (h : Spells (strip value) n f ds unit) :
    (∃ e, sizeParser undef32 name value = .error e) ↔ tooLarge ≤ n := by
  rw [sizeParser_spells h]
  split_ifs with hlarge
  · exact iff_of_true ⟨_, rfl⟩ hlarge
  · exact iff_of_false (fun ⟨e, he⟩ => by cases he) hlarge

/-- Texts of the grammar give their size or, when 32 bits are too few for it, an error;
all others give an error. -/
structure Parses (undef32 : Double → UInt32) (name value : Text) : Prop where
  outside : (∀ n f, ¬ Written (strip value) n f) → ∃ e, sizeParser undef32 name value = .error e
  fits : ∀ n f, Written (strip value) n f → n * f < 2 ^ 32 →
    ∃ v, sizeParser undef32 name value = .ok v ∧ v.toNat = n * f
  large : ∀ n f, Written (strip value) n f → 2 ^ 32 ≤ n * f →
    ∃ e, sizeParser undef32 name value = .error e

/-- A size of 2^32 bytes or more is cut, unless its digits alone are too large for a double. -/
theorem sizeParser_parses_iff (undef32 : Double → UInt32) (name value : Text) :
    Parses undef32 name value ↔
      ∀ n f, Written (strip value) n f → n * f < 2 ^ 32 ∨ tooLarge ≤ n := by
  constructor
  · intro h n f hw
    by_cases hfit : n * f < 2 ^ 32
    · exact .inl hfit
    · have hfails := h.large n f hw (not_lt.mp hfit)
      obtain ⟨ds, unit, hs⟩ := hw
      exact .inr ((sizeParser_large hs).mp hfails)
  · intro h
    refine ⟨sizeParser_rejects, ?_, ?_⟩
    · rintro n f ⟨ds, unit, hs⟩ hfit
      exact sizeParser_product hs hfit
    · rintro n f ⟨ds, unit, hs⟩ hlarge
      have hn := (h n f ⟨ds, unit, hs⟩).resolve_left hlarge.not_gt
      exact (sizeParser_large hs).mpr hn

/-- Eight GiB are accepted as a size of 32 bits. -/
theorem eight_GiB_cut : ¬ ∃ (undef32 : Double → UInt32) (name : Text),
    Parses undef32 name "8GiB".toList := by
  rintro ⟨undef32, name, h⟩
  have hs : Spells (strip "8GiB".toList) 8 (2 ^ 30) ['8'] "GiB".toList := by
    constructor <;> decide
  have hfails := h.large _ _ ⟨_, _, hs⟩ (by decide)
  exact (lt_tooLarge (n := 8) (by decide)).not_ge ((sizeParser_large hs).mp hfails)

/-- `a` stands before the unit that the tests find in `text`. -/
structure Before (text a : Text) : Prop where
  found : ∃ earlier unit factor later rest,
    tests = earlier ++ (unit, factor) :: later ∧ (∀ p ∈ earlier, ¬ p.1 <:+: text) ∧
      text = a ++ unit ++ rest ∧ ∀ b rest', text = b ++ unit ++ rest' → a.length ≤ b.length

theorem firstUnit_cases (text : Text) : ∀ l : List (Text × ℕ),
    (firstUnit text l = none ∧ ∀ p ∈ l, ¬ p.1 <:+: text) ∨
      ∃ earlier unit factor later i, l = earlier ++ (unit, factor) :: later ∧
        (∀ p ∈ earlier, ¬ p.1 <:+: text) ∧ find unit text = some i ∧
          firstUnit text l = some (i, factor) := by
  intro l
  induction l with
  | nil => exact .inl ⟨rfl, fun p hp => absurd hp List.not_mem_nil⟩
  | cons p rest ih =>
    obtain ⟨unit, factor⟩ := p
    cases hfind : find unit text with
    | some i =>
      refine .inr ⟨[], unit, factor, rest, i, rfl, fun p hp => absurd hp List.not_mem_nil, hfind, ?_⟩
      rw [firstUnit, hfind]
    | none =>
      have hunit := find_eq_none_iff.mp hfind
      have hstep : firstUnit text ((unit, factor) :: rest) = firstUnit text rest := by
        rw [firstUnit, hfind]
      rw [hstep]
      rcases ih with ⟨hnone, hrest⟩ | ⟨earlier, u, f, later, i, rfl, hearlier, hu, hsome⟩
      · exact .inl ⟨hnone, List.forall_mem_cons.mpr ⟨hunit, hrest⟩⟩
      · exact .inr ⟨(unit, factor) :: earlier, u, f, later, i, rfl,
          List.forall_mem_cons.mpr ⟨hunit, hearlier⟩, hu, hsome⟩

theorem before_of_firstUnit {i : ℕ} (h : firstUnit text tests = some (i, f)) :
    Before text (text.take i) := by
  rcases firstUnit_cases text tests with ⟨hnone, -⟩ | ⟨earlier, u, g, later, j, hl, he, hu, hsome⟩
  · rw [hnone] at h
    cases h
  · obtain ⟨rfl, rfl⟩ := Prod.mk.inj (Option.some.inj (hsome.symm.trans h))
    obtain ⟨a, rest, htext, rfl⟩ := find_spec hu
    have htake : text.take a.length = a := by
      rw [htext, List.append_assoc, List.take_left]
    rw [htake]
    refine ⟨earlier, u, g, later, rest, hl, he, htext, fun b rest' hb => ?_⟩
    obtain ⟨k, hk, hfind⟩ := find_le u b rest'
    rw [hb, hfind] at hu
    exact Option.some.inj hu ▸ hk

theorem firstUnit_of_before {a : Text} (h : Before text a) :
    ∃ f, firstUnit text tests = some (a.length, f) ∧ text.take a.length = a := by
  obtain ⟨earlier, unit, f, later, rest, hl, he, htext, hleast⟩ := h.found
  obtain ⟨i, hi, hfind⟩ := find_le unit a rest
  rw [← htext] at hfind
  obtain ⟨b, rest', hb, rfl⟩ := find_spec hfind
  have hlen : b.length = a.length := le_antisymm hi (hleast b rest' hb)
  refine ⟨f, ?_, by rw [htext, List.append_assoc, List.take_left]⟩
  rw [hl]
  clear hl
  induction earlier with
  | nil => simp only [List.nil_append, firstUnit, hfind, hlen]
  | cons p earlier ih =>
    rw [List.cons_append, firstUnit, find_eq_none_iff.mpr (he p List.mem_cons_self)]
    exact ih fun q hq => he q (List.mem_cons_of_mem _ hq)

theorem firstUnit_units : ∀ p ∈ ([], 1) :: tests,
    firstUnit p.1 tests = if p.1 = [] then none else some (0, p.2) := by decide

theorem tests_of_firstUnit : ∀ p ∈ units, (firstUnit p.1 tests).isSome = true → p ∈ tests := by
  decide

theorem units_of_tests : ∀ p ∈ ([], 1) :: tests, p ∈ units := by decide

/-- With no unit, or with one of the tests, digits are read as `size_parser` reads them. -/
theorem parseSize_spells (h : Spells (strip value) n f ds unit) (hunit : (unit, f) ∈ ([], 1) :: tests) :
    parseSize undef64 value =
      if tooLarge ≤ n then .error (.out_of_range "stod".toList)
      else .ok (toInt64 undef64 ((Double.finite (Double.rounded n)).scale f).round) := by
  have hfirst := firstUnit_units _ hunit
  dsimp only at hfirst
  have hstod := stod_digits h.digits h.ne
  rw [h.number_eq] at hstod
  unfold parseSize
  dsimp only
  rw [h.text_eq, firstUnit_append h.digits unit (by decide), hfirst]
  by_cases hempty : unit = []
  · subst hempty
    obtain rfl : f = 1 := by
      rcases List.mem_cons.mp hunit with h1 | htest
      · exact (Prod.mk.inj h1).2
      · have hno : ∀ g, ([], g) ∈ tests → False := by
          intro g hg
          have hne : ∀ p ∈ tests, p.1 ≠ [] := by decide
          exact hne _ hg rfl
        exact (hno _ htest).elim
    rw [if_pos rfl, List.append_nil]
    dsimp only [Option.map_none]
    rw [if_neg (not_not.mpr h.digits), hstod]
    split_ifs <;> rfl
  · rw [if_neg hempty]
    dsimp only [Option.map_some]
    rw [Nat.zero_add, List.take_left, hstod]
    split_ifs <;> rfl

theorem Spells.unique {m g : ℕ} {es unit' : Text} (h : Spells text n f ds unit)
    (h' : Spells text m g es unit') : n = m ∧ f = g ∧ ds = es := by
  obtain ⟨hds, hf⟩ := unitOf_spells h
  obtain ⟨hes, hg⟩ := unitOf_spells h'
  have hdigits : ds = es := hds.symm.trans hes
  exact ⟨by rw [← h.number_eq, ← h'.number_eq, hdigits], hf.symm.trans hg, hdigits⟩

/-- A unit of the grammar that the tests find stands behind the digits. -/
theorem Spells.found {a : Text} (h : Spells text n f ds unit) (ha : Before text a) :
    (unit, f) ∈ tests ∧ a = ds := by
  obtain ⟨g, hfirst, htake⟩ := firstUnit_of_before ha
  rw [h.text_eq, firstUnit_append h.digits unit (by decide)] at hfirst
  obtain ⟨q, hq, heq⟩ := Option.map_eq_some_iff.mp hfirst
  have htest : (unit, f) ∈ tests := tests_of_firstUnit _ h.unit_mem (by rw [hq]; rfl)
  have hzero := firstUnit_units _ (List.mem_cons_of_mem _ htest)
  dsimp only at hzero
  rw [hq] at hzero
  split_ifs at hzero
  obtain rfl : q = (0, f) := Option.some.inj hzero
  have hlen : ds.length = a.length := by simpa using congrArg Prod.fst heq
  refine ⟨htest, ?_⟩
  rw [← htake, ← hlen, h.text_eq, List.take_left]

/-- Both accept a text or both reject it, with one size where it fits; what is no unit for
`parse_size` is not taken for the default. -/
structure Agree (undef32 : Double → UInt32) (undef64 : Double → Int64) (name s : Text) : Prop where
  accepts : (∃ v, parseSize undef64 s = .ok v) ↔ ∃ v, sizeParser undef32 name s = .ok v
  value : ∀ n f v w, Written (strip s) n f → n * f < 2 ^ 32 →
    parseSize undef64 s = .ok v → sizeParser undef32 name s = .ok w → v.toInt = w.toNat
  unit : (∀ p ∈ tests, ¬ p.1 <:+: strip s) → ¬ Digits (strip s) → parseSize undef64 s ≠ .ok (-1)

theorem agree_of_errors {e e' : Exception} (hparse : parseSize undef64 value = .error e)
    (hsize : sizeParser undef32 name value = .error e') : Agree undef32 undef64 name value := by
  refine ⟨by simp [hparse, hsize], ?_, ?_⟩
  · intro n f v w _ _ hv
    rw [hparse] at hv
    cases hv
  · intro _ _ hv
    rw [hparse] at hv
    cases hv

theorem agree_empty (h : strip value = []) : Agree undef32 undef64 name value := by
  have hparse : parseSize undef64 value = .error (.invalid_argument "stod".toList) := by
    unfold parseSize
    dsimp only
    rw [h]
    rfl
  have hsize : ∃ e, sizeParser undef32 name value = .error e := by
    apply sizeParser_rejects
    rintro n f ⟨ds, unit, hs⟩
    exact hs.ne (List.append_eq_nil_iff.mp (hs.text_eq.symm.trans h)).1
  obtain ⟨e, hsize⟩ := hsize
  exact agree_of_errors hparse hsize

theorem agree_spells (hs : Spells (strip value) n f ds unit) (hunit : (unit, f) ∈ ([], 1) :: tests) :
    Agree undef32 undef64 name value := by
  have hparse : parseSize undef64 value = _ := parseSize_spells hs hunit
  have hsize : sizeParser undef32 name value = _ := sizeParser_spells hs
  refine ⟨?_, ?_, ?_⟩
  · rw [hparse, hsize]
    split_ifs <;> simp
  · rintro m g v w ⟨es, unit', hs'⟩ hfit hv hw
    obtain ⟨rfl, rfl, rfl⟩ := hs.unique hs'
    rw [if_neg (not_tooLarge hs.factor_pos hfit)] at hparse hsize
    obtain rfl := Except.ok.inj (hparse.symm.trans hv)
    obtain rfl := Except.ok.inj (hsize.symm.trans hw)
    rw [toInt64_product hs.factor_pos hfit, toUInt32_product hs.factor_pos hfit]
  · intro hnone hno
    rcases List.mem_cons.mp hunit with h1 | htest
    · obtain ⟨rfl, rfl⟩ := Prod.mk.inj h1
      rw [hs.text_eq, List.append_nil] at hno
      exact absurd hs.digits hno
    · exact absurd (hs.text_eq ▸ (List.suffix_append ds unit).isInfix) (hnone _ htest)

/-- Where nothing can be read before the unit, `size_parser` rejects the text too. -/
theorem agree_unreadable {a : Text} {e : Exception} (ha : Before (strip value) a)
    (hstod : stod a = .error e) : Agree undef32 undef64 name value := by
  obtain ⟨f, hfirst, htake⟩ := firstUnit_of_before ha
  have hparse : parseSize undef64 value = .error e := by
    unfold parseSize
    dsimp only
    rw [hfirst]
    dsimp only
    rw [htake, hstod]
    rfl
  have hsize : ∃ e, sizeParser undef32 name value = .error e := by
    by_cases hw : ∃ n f, Written (strip value) n f
    · obtain ⟨n, g, ds, unit, hs⟩ := hw
      obtain ⟨-, rfl⟩ := hs.found ha
      rw [stod_digits hs.digits hs.ne, hs.number_eq] at hstod
      split_ifs at hstod with hlarge
      exact (sizeParser_large hs).mpr hlarge
    · exact sizeParser_rejects fun n g hno => hw ⟨n, g, hno⟩
  obtain ⟨e', hsize⟩ := hsize
  exact agree_of_errors hparse hsize

/-- Without a unit of the tests, only digits are not taken for the default. -/
theorem Agree.digits (h : Agree undef32 undef64 name value)
    (hfirst : firstUnit (strip value) tests = none) : Digits (strip value) := by
  by_contra hno
  rcases firstUnit_cases (strip value) tests with ⟨-, hunits⟩ | ⟨_, _, _, _, _, -, -, -, hsome⟩
  · refine h.unit hunits hno ?_
    unfold parseSize
    dsimp only
    rw [hfirst]
    exact if_pos hno
  · rw [hfirst] at hsome
    cases hsome

/-- With a unit of the tests, what is accepted is of the grammar. -/
theorem Agree.written {i : ℕ} {d : Double} (h : Agree undef32 undef64 name value)
    (hfirst : firstUnit (strip value) tests = some (i, f))
    (hstod : stod ((strip value).take i) = .ok d) : ∃ n g, Written (strip value) n g := by
  have hparse : ∃ v, parseSize undef64 value = .ok v := by
    unfold parseSize
    dsimp only
    rw [hfirst]
    dsimp only
    rw [hstod]
    exact ⟨_, rfl⟩
  obtain ⟨w, hw⟩ := h.accepts.mp hparse
  by_contra! hno
  have hrejects : ∃ e, sizeParser undef32 name value = .error e := sizeParser_rejects hno
  obtain ⟨e, he⟩ := hrejects
  rw [he] at hw
  cases hw

theorem parseSize_agrees_iff (undef32 : Double → UInt32) (undef64 : Double → Int64)
    (name s : Text) : Agree undef32 undef64 name s ↔
      strip s = [] ∨
      (∃ ds p, strip s = ds ++ p.1 ∧ ds ≠ [] ∧ Digits ds ∧ p ∈ ([], 1) :: tests) ∨
      ∃ a, Before (strip s) a ∧ ∃ e, stod a = .error e := by
  constructor
  · intro h
    cases hfirst : firstUnit (strip s) tests with
    | none =>
      by_cases hne : strip s = []
      · exact .inl hne
      · exact .inr (.inl ⟨strip s, ([], 1), (List.append_nil _).symm, hne, h.digits hfirst,
          List.mem_cons_self⟩)
    | some p =>
      have hbefore := before_of_firstUnit hfirst
      cases hstod : stod ((strip s).take p.1) with
      | error e => exact .inr (.inr ⟨_, hbefore, e, hstod⟩)
      | ok d =>
        obtain ⟨n, g, ds, unit, hs⟩ := h.written hfirst hstod
        exact .inr (.inl ⟨ds, (unit, g), hs.text_eq, hs.ne, hs.digits,
          List.mem_cons_of_mem _ (hs.found hbefore).1⟩)
  · rintro (hempty | ⟨ds, ⟨unit, f⟩, htext, hne, hdigits, hunit⟩ | ⟨a, hbefore, e, hstod⟩)
    · exact agree_empty hempty
    · exact agree_spells ⟨htext, hne, hdigits, rfl, units_of_tests _ hunit⟩ hunit
    · exact agree_unreadable hbefore hstod

/-- What follows the unit is ignored, and the unit `K` gives the default. -/
theorem trailing_garbage_accepted :
    ¬ ∃ (undef32 : Double → UInt32) (undef64 : Double → Int64) (name : Text),
      Agree undef32 undef64 name "64KBs".toList ∨ Agree undef32 undef64 name "64K".toList := by
  rintro ⟨undef32, undef64, name, h | h⟩
  · have hstod : ∃ d, stod ['6', '4'] = .ok d := by
      rw [stod_digits (by decide) (by decide), if_neg (lt_tooLarge (by decide)).not_ge]
      exact ⟨_, rfl⟩
    obtain ⟨d, hstod⟩ := hstod
    obtain ⟨n, g, ds, unit, hs⟩ := h.written (i := 2) (f := 10 ^ 3) (by decide) hstod
    have hend := (unitOf_spells hs).1
    -- no suffix is the end of this text
    have hnone : upTo (strip "64KBs".toList) (unitOf (strip "64KBs".toList) conversions).1 =
        "64KBs".toList := by decide
    exact absurd (hend ▸ hs.digits) (hnone ▸ by decide)
  · exact h.unit (by decide) (by decide) rfl

end
end EchoFs.Settings
