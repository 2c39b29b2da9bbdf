import EchoFs.Nvml.Bounds
import EchoFs.Settings.Sizes
import Mathlib.Data.Nat.Prime.Basic
import Mathlib.Order.Bounds.Defs

/-! The block sizes that files work with, and when `align` and `xalign` round to them. The
mask of the two is right for powers of two only, and the segment size comes from an option
that takes any number of bytes. -/

namespace EchoFs.Nvml
open Checked Settings

/-- `align` rounds down to a multiple of `b`, `xalign` up to the next one. -/
structure Aligns (b : Nat) : Prop where
  floor : ∀ n : Int, 0 ≤ n → n + b < 2 ^ 63 → IsGreatest {m | (b : Int) ∣ m ∧ m ≤ n} (align n b)
  ceil : ∀ n : Int, 0 ≤ n → n + b < 2 ^ 63 → IsLeast {m | (b : Int) ∣ m ∧ n < m} (xalign n b)

variable {b s : Nat} {n m : Int}

theorem toSize_pred (hpos : 0 < b) (hlt : b < 2 ^ 63) : toSize ((b : Int) - 1) = b - 1 := by
  unfold toSize
  omega

theorem toSize_mod (hb : b.isPowerOfTwo) (hlt : b < 2 ^ 63) (n : Int) :
    ((toSize n % b : Nat) : Int) = n % b := by
  obtain ⟨k, rfl⟩ := hb
  have hk : k ≤ 64 := by
    by_contra hgt
    have := Nat.pow_le_pow_right (n := 2) (by omega) (Nat.le_of_lt (Nat.lt_of_not_le hgt))
    omega
  have hdvd : ((2 ^ k : Nat) : Int) ∣ 2 ^ 64 := by
    exact_mod_cast Nat.pow_dvd_pow 2 hk
  have hsize : ((toSize n : Nat) : Int) = n % 2 ^ 64 := by
    unfold toSize
    omega
  rw [Int.natCast_mod, hsize, Int.emod_emod_of_dvd n hdvd]

theorem align_eq_mod (hb : b.isPowerOfTwo) (hlt : b < 2 ^ 63) (n : Int) :
    align n b = n - n % b := by
  have hpos := Nat.pos_of_isPowerOfTwo hb
  have hmod := toSize_mod hb hlt n
  unfold align
  rw [toSize_pred hpos hlt, ← hmod]
  obtain ⟨k, rfl⟩ := hb
  rw [Nat.and_two_pow_sub_one_eq_mod]

theorem dvd_align (hb : b.isPowerOfTwo) (hlt : b < 2 ^ 63) (n : Int) : (b : Int) ∣ align n b := by
  rw [align_eq_mod hb hlt]
  exact Int.dvd_self_sub_emod

theorem dvd_xalign (hb : b.isPowerOfTwo) (hlt : b < 2 ^ 63) (n : Int) :
    (b : Int) ∣ xalign n b := dvd_align hb hlt _

theorem le_of_dvd_lt (hm : (b : Int) ∣ m) (hn : (b : Int) ∣ n) (h : m < n + b) : m ≤ n := by
  obtain ⟨k, rfl⟩ := hm
  obtain ⟨l, rfl⟩ := hn
  refine Int.mul_le_mul_of_nonneg_left ?_ (Int.natCast_nonneg b)
  have hlt : (b : Int) * k < b * (l + 1) := by
    rw [Int.mul_add, Int.mul_one]
    exact h
  have := lt_of_mul_lt_mul_left hlt (Int.natCast_nonneg b)
  omega

theorem aligns_of_isPowerOfTwo (hb : b.isPowerOfTwo) (hlt : b < 2 ^ 63) : Aligns b := by
  have hpos := Nat.pos_of_isPowerOfTwo hb
  constructor
  · intro n _ _
    refine ⟨⟨dvd_align hb hlt n, align_le n b⟩, fun m ⟨hdvd, hle⟩ => ?_⟩
    have := lt_align_add (n := n) hpos
    exact le_of_dvd_lt hdvd (dvd_align hb hlt n) (by omega)
  · intro n _ _
    refine ⟨⟨dvd_xalign hb hlt n, lt_xalign hpos⟩, fun m ⟨hdvd, hlt'⟩ => ?_⟩
    have := xalign_le n b
    exact le_of_dvd_lt (dvd_xalign hb hlt n) hdvd (by omega)

/-- `xalign(0, b)` is the lowest bit of `b`. -/
theorem Aligns.isPowerOfTwo (h : Aligns b) (hpos : 0 < b) (hlt : b < 2 ^ 63) :
    b.isPowerOfTwo := by
  have hceil := h.ceil 0 le_rfl (by omega)
  have hle : (b : Int) ≤ xalign 0 b := Int.le_of_dvd hceil.1.2 hceil.1.1
  have hsize : toSize (0 + (b : Int)) = b := by
    unfold toSize
    omega
  unfold xalign align at hle
  rw [toSize_pred hpos hlt, hsize] at hle
  exact (Nat.and_sub_one_eq_zero_iff_isPowerOfTwo (by omega)).mp (by omega)

theorem aligns_iff_isPowerOfTwo (hpos : 0 < b) (hlt : b < 2 ^ 63) :
    Aligns b ↔ b.isPowerOfTwo :=
  ⟨fun h => h.isPowerOfTwo hpos hlt, fun h => aligns_of_isPowerOfTwo h hlt⟩

/-- `segment::s_segment_size` after the constructor of `nvml_backend`. -/
def sSegmentSize (segmentSize : Int64) : Nat :=
  if segmentSize ≠ -1 then toSize segmentSize.toInt else Config.default.segmentSize

/-- The block sizes that the files of a backend align to: the size of a preloaded file,
then the `m_segment_size` of each extension, and the segment size for a gap. -/
inductive BlockSize (s : Nat) : Nat → Prop
  | first : BlockSize s File.create.mSegmentSize
  | double {b : Nat} : BlockSize s b → BlockSize s (min (b * 2 % 2 ^ 64) s)
  | segment : BlockSize s s

/-- An extension goes on to the next block size. -/
theorem extendAlloc_blockSize {cfg : Config} {f f' : File} {offset size : Int}
    {regions regions' : List Region} (hb : BlockSize cfg.segmentSize f.mSegmentSize)
    (h : f.extendAlloc cfg offset size regions = .ok (f', regions')) :
    BlockSize cfg.segmentSize f'.mSegmentSize := by
  unfold File.extendAlloc at h
  obtain ⟨-, -, h⟩ := bind_eq_ok.mp h
  dsimp only at h
  obtain ⟨-, -, h⟩ := bind_eq_ok.mp h
  obtain ⟨g, hlink, h⟩ := bind_eq_ok.mp h
  obtain ⟨rfl, -⟩ := Prod.mk.inj (Except.ok.inj h)
  have hsame : g.mSegmentSize = min (f.mSegmentSize * 2 % 2 ^ 64) cfg.segmentSize := by
    rw [(File.linkSegments_same hlink).segmentSize]
    simp only [File.createSegment]
    split_ifs <;> rfl
  show BlockSize _ g.mSegmentSize
  rw [hsame]
  exact hb.double

theorem BlockSize.isPowerOfTwo (hs : s.isPowerOfTwo) (hlt : s < 2 ^ 63) (h : BlockSize s b) :
    b.isPowerOfTwo ∧ b < 2 ^ 63 := by
  induction h with
  | first => exact ⟨⟨12, rfl⟩, by decide⟩
  | @double b _ ih =>
    obtain ⟨⟨k, rfl⟩, hb⟩ := ih
    rw [Nat.mod_eq_of_lt (by omega)]
    refine ⟨?_, by omega⟩
    rcases Nat.le_total (2 ^ k * 2) s with hle | hle
    · rw [Nat.min_eq_left hle]
      exact ⟨k + 1, by rw [Nat.pow_succ]⟩
    · rwa [Nat.min_eq_right hle]
  | segment => exact ⟨hs, hlt⟩

theorem sSegmentSize_of_pos {v : Int64} (hpos : 0 < v.toInt) :
    (sSegmentSize v : Int) = v.toInt := by
  have hlt := v.toInt_lt
  have hne : v ≠ -1 := by
    rintro rfl
    revert hpos
    decide
  rw [sSegmentSize, if_pos hne]
  unfold toSize
  omega

/-- With a positive segment size from the option, the files of the backend align to their
block sizes exactly if it is a power of two. -/
theorem blockSizes_align_iff (segmentSize : Int64) (hpos : 0 < segmentSize.toInt) :
    (∀ b, BlockSize (sSegmentSize segmentSize) b → Aligns b) ↔
      (sSegmentSize segmentSize).isPowerOfTwo := by
  have hlt := segmentSize.toInt_lt
  have hsize := sSegmentSize_of_pos hpos
  constructor
  · exact fun h => (h _ .segment).isPowerOfTwo (by omega) (by omega)
  · intro hs b hb
    obtain ⟨hpow, hb⟩ := hb.isPowerOfTwo hs (by omega)
    exact aligns_of_isPowerOfTwo hpow hb

theorem blockSizes_align_default : 0 < (134217728 : Int64).toInt ∧
    ∀ b, BlockSize (sSegmentSize 134217728) b → Aligns b :=
  ⟨by decide, (blockSizes_align_iff 134217728 (by decide)).mpr ⟨27, by decide⟩⟩

section Option
variable {undef64 : Double → Int64} {value ds unit : Text} {f : Nat} {k : Nat}

theorem parseSize_product (h : Spells (strip value) k f ds unit)
    (hunit : (unit, f) ∈ ([], 1) :: tests) (hfit : k * f < 2 ^ 32) :
    ∃ v, parseSize undef64 value = .ok v ∧ v.toInt = (k * f : Nat) := by
  rw [parseSize_spells h hunit, if_neg (not_tooLarge h.factor_pos hfit)]
  exact ⟨_, rfl, toInt64_product h.factor_pos hfit⟩

theorem not_isPowerOfTwo_of_dvd (h : 5 ∣ s) : ¬ s.isPowerOfTwo := by
  rintro ⟨k, rfl⟩
  have hdvd := Nat.Prime.dvd_of_dvd_pow Nat.prime_five h
  revert hdvd
  decide

/-- A size in one of the decimal units is a multiple of five. -/
theorem decimal_misaligns (h : Spells (strip value) k f ds unit)
    (hunit : (unit, f) ∈ ([], 1) :: tests) (hfit : k * f < 2 ^ 32) (hk : 0 < k) (hf : 5 ∣ f) :
    ∃ v, parseSize undef64 value = .ok v ∧ 0 < v.toInt ∧ ¬ Aligns (sSegmentSize v) := by
  obtain ⟨v, hv, hint⟩ := parseSize_product h hunit hfit
  have hprod : 0 < k * f := Nat.mul_pos hk h.factor_pos
  have hpos : 0 < v.toInt := by omega
  have hsize := sSegmentSize_of_pos hpos
  have heq : sSegmentSize v = k * f := by omega
  refine ⟨v, hv, hpos, fun haligns => ?_⟩
  have hpow := haligns.isPowerOfTwo (by omega) (by omega)
  rw [heq] at hpow
  exact not_isPowerOfTwo_of_dvd (Dvd.dvd.mul_left hf k) hpow

/-- `xalign(0, 1000000)` is 64. -/
theorem one_MB_misaligns :
    ¬ ∃ undef64 : Double → Int64, ∀ v, parseSize undef64 "1MB".toList = .ok v → 0 < v.toInt →
      ∀ b, BlockSize (sSegmentSize v) b → Aligns b := by
  rintro ⟨undef64, h⟩
  have hspells : Spells (strip "1MB".toList) 1 (10 ^ 6) "1".toList "MB".toList :=
    ⟨by decide, by decide, by decide, by decide, by decide⟩
  obtain ⟨v, hv, hpos, hno⟩ := decimal_misaligns hspells (by decide) (by decide) (by decide)
    (by decide)
  exact hno (h v hv hpos _ .segment)

end Option
end EchoFs.Nvml
