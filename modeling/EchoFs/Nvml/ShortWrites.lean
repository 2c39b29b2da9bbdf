import Mathlib.Algebra.Order.BigOperators.Group.List
import EchoFs.Nvml.Appends

/-! `put_data` when the copies into its regions return less than they were asked for, or
an error: what it returns and which size the file gets. -/

namespace EchoFs.Nvml
open Checked IntervalMap Memory Transition

namespace File
variable {f f' f₁ : File} {start : Int} {buffer : List UInt8} {outcome : Nat → Int}

/-- The most a copy into a region can return when `left` bytes are left in the source. -/
def room (r : Region) (left : Nat) : Nat := min (toSize r.size) left

/-- The copy loop of `put_data`: copy `i` stops at `outcome i`, a count or a negative
errno, and the results are added up in `n`. The source is advanced by what was copied. -/
def copyInWith (outcome : Nat → Int) : File → List Region → List UInt8 → Nat → Int →
    Result (File × Int)
  | f, [], _, _, n => return (f, n)
  | f, r :: regions, buffer, i, n => do
    let res := min (outcome i) (room r buffer.length)
    let f ← f.store r.addr (buffer.take res.toNat)
    copyInWith outcome f regions (buffer.drop res.toNat) (i + 1) (n + res)

/-- `put_data` and the value it returns. -/
def putDataWith (cfg : Config) (outcome : Nat → Int) (f : File) (start : Int)
    (buffer : List UInt8) : Result (File × Int) := do
  let (f, regions) ← f.fetchStorage cfg start buffer.length
  let (f, n) ← copyInWith outcome f regions buffer 0 0
  return (f.updateSize (start + buffer.length), n)

/-- The copies all get to the end: this is `put_data` as it is elsewhere. -/
theorem copyInWith_full (houtcome : ∀ i, (buffer.length : Int) ≤ outcome i) (rs : List Region) :
    ∀ (f : File) (rest : List UInt8) (i : Nat) (n : Int), rest.length ≤ buffer.length →
    (copyInWith outcome f rs rest i n).map Prod.fst = f.copyIn rs rest := by
  induction rs with
  | nil => exact fun _ _ _ _ _ => rfl
  | cons r rs ih =>
    intro f rest i n hlen
    have hres : (min (outcome i) (room r rest.length : Int)).toNat =
        min (toSize r.size) rest.length := by
      have := houtcome i
      unfold room
      omega
    have htake : rest.take (min (toSize r.size) rest.length) = rest.take (toSize r.size) := by
      rw [List.take_eq_take_iff]
      omega
    have hdrop : rest.drop (min (toSize r.size) rest.length) = rest.drop (toSize r.size) := by
      rcases le_total (toSize r.size) rest.length with hle | hle
      · rw [min_eq_left hle]
      · rw [min_eq_right hle, List.drop_length, List.drop_of_length_le hle]
    unfold copyInWith copyIn
    dsimp only
    rw [hres, htake, hdrop]
    cases f.store r.addr (rest.take (toSize r.size)) with
    | error e => rfl
    | ok f₁ => exact ih f₁ _ _ _ (by rw [List.length_drop]; omega)

/-- The bytes that are copied contiguously from the start: those of the copies that get
to the end, and of the first one that does not. -/
def contiguous (outcome : Nat → Int) : List Region → Nat → Nat → Int
  | [], _, _ => 0
  | r :: regions, left, i =>
    if (room r left : Int) ≤ outcome i then
      room r left + contiguous outcome regions (left - room r left) (i + 1)
    else max (outcome i) 0

/-- The results of all copies. -/
def total (outcome : Nat → Int) : List Region → Nat → Nat → Int
  | [], _, _ => 0
  | r :: regions, left, i =>
    let res := min (outcome i) (room r left)
    res + total outcome regions (left - res.toNat) (i + 1)

/-- What the first short copy (its errno) and the copies after it add to the result. -/
def behind (outcome : Nat → Int) : List Region → Nat → Nat → Int
  | [], _, _ => 0
  | r :: regions, left, i =>
    if (room r left : Int) ≤ outcome i then
      behind outcome regions (left - room r left) (i + 1)
    else min (outcome i) 0 + total outcome regions (left - (outcome i).toNat) (i + 1)

theorem total_eq (outcome : Nat → Int) (rs : List Region) : ∀ left i,
    total outcome rs left i = contiguous outcome rs left i + behind outcome rs left i := by
  induction rs with
  | nil => exact fun _ _ => rfl
  | cons r rs ih =>
    intro left i
    unfold total contiguous behind
    dsimp only
    by_cases hfull : (room r left : Int) ≤ outcome i
    · rw [if_pos hfull, if_pos hfull, min_eq_right hfull, Int.toNat_natCast, ih]
      omega
    · rw [if_neg hfull, if_neg hfull, min_eq_left (not_le.mp hfull).le]
      omega

theorem contiguous_le (outcome : Nat → Int) (rs : List Region) : ∀ left i,
    contiguous outcome rs left i ≤ left := by
  induction rs with
  | nil => exact fun left _ => Int.natCast_nonneg left
  | cons r rs ih =>
    intro left i
    have hroom : room r left ≤ left := min_le_right _ _
    have hrest := ih (left - room r left) (i + 1)
    unfold contiguous
    split_ifs <;> omega

theorem store_stSize {addr : Option (Nat × Int)} {bytes : List UInt8}
    (he : f.store addr bytes = .ok f') : f'.stSize = f.stSize := by
  unfold store at he
  split at he
  · cases he
    rfl
  · cases he
  · obtain ⟨s, -, he⟩ := bind_eq_ok.mp he
    split at he
    · cases he
    · split_ifs at he
      cases he
      rfl

theorem copyInWith_spec (rs : List Region) : ∀ {f : File} {buffer : List UInt8} {i : Nat} {n m : Int},
    copyInWith outcome f rs buffer i n = .ok (f', m) →
    m = n + total outcome rs buffer.length i ∧ f'.stSize = f.stSize := by
  induction rs with
  | nil =>
    intro f buffer i n m he
    cases he
    exact ⟨(add_zero n).symm, rfl⟩
  | cons r rs ih =>
    intro f buffer i n m he
    unfold copyInWith at he
    obtain ⟨f₁, hstore, he⟩ := bind_eq_ok.mp he
    obtain ⟨hm, hz⟩ := ih he
    have hsize : f₁.stSize = f.stSize := store_stSize hstore
    rw [List.length_drop] at hm
    unfold total
    exact ⟨by rw [hm]; dsimp only; omega, hz.trans hsize⟩

theorem Sound.copyInWith (outcome : Nat → Int) {rs : List Region} : ∀ {f : File}
    {buffer : List UInt8} {i : Nat} {n m : Int}, f.Sound →
    copyInWith outcome f rs buffer i n = .ok (f', m) → f'.Sound := by
  induction rs with
  | nil =>
    intro f buffer i n m h he
    cases he
    exact h
  | cons r rs ih =>
    intro f buffer i n m h he
    unfold File.copyInWith at he
    obtain ⟨f₁, hstore, he⟩ := bind_eq_ok.mp he
    exact ih (h.store hstore).1 he

/-- The regions are those of a request of `size` bytes: they add up to it, or there is one
that is large enough. -/
def Covers (rs : List Region) (size : Int) : Prop :=
  ((∀ r ∈ rs, 0 < r.size ∧ r.size < 2 ^ 63) ∧ (rs.map Region.size).sum = size) ∨
    ∃ r, rs = [r] ∧ size ≤ r.size ∧ r.size < 2 ^ 63

theorem Maps.sizes {a b : Int} {rs : List Region} (h : Maps f a b rs) (hlt : b - a < 2 ^ 63) :
    ∀ r ∈ rs, 0 < r.size ∧ r.size < 2 ^ 63 := by
  induction h with
  | nil => simp
  | cons hm hs hlo hhi hpos haddr hrest ih =>
    have hle := hrest.le
    intro q hq
    rcases List.mem_cons.mp hq with rfl | hq
    · exact ⟨hpos, by omega⟩
    · exact ih (by omega) q hq

theorem Sound.fetch_covers (h : f.Sound) (cfg : Config) {size : Int} {rs : List Region}
    (hstart : 0 ≤ start) (hsize : 0 ≤ size) (hlt : start + size < 2 ^ 63)
    (hfits : Fits cfg f start size) (he : f.fetchStorage cfg start size = .ok (f₁, rs)) :
    Covers rs size := by
  by_cases hle : start ≤ f.mAllocOffset
  · obtain ⟨-, -, -, -, -, hmaps, -⟩ := h.fetch_within cfg hstart hsize hlt hfits hle he
    refine .inl ⟨hmaps.sizes (by omega), ?_⟩
    rw [hmaps.sum]
    omega
  · obtain ⟨f₂, o, n, id, he₂, -, -, -, -, hao, ho, -⟩ :=
      h.layout.fetch_beyond cfg h.sizeOk hsize (not_le.mp hle) (hfits.append (not_le.mp hle))
    obtain ⟨-, rfl⟩ := Prod.mk.inj (Except.ok.inj (he₂.symm.trans he))
    have ha := h.layout.chain.le
    refine .inr ⟨_, rfl, ?_, ?_⟩
    · simp only
      omega
    · simp only
      omega

theorem behind_of_contiguous_eq (outcome : Nat → Int) (rs : List Region) : ∀ left i,
    (∀ r ∈ rs, 0 < r.size ∧ r.size < 2 ^ 63) → (rs.map Region.size).sum = (left : Nat) →
    contiguous outcome rs left i = left → behind outcome rs left i = 0 := by
  induction rs with
  | nil => exact fun _ _ _ _ _ => rfl
  | cons r rs ih =>
    intro left i hsizes hsum hc
    obtain ⟨hpos, hlt⟩ := hsizes r List.mem_cons_self
    have hrest : 0 ≤ (rs.map Region.size).sum := by
      refine List.sum_nonneg fun x hx => ?_
      obtain ⟨q, hq, rfl⟩ := List.mem_map.mp hx
      exact (hsizes q (List.mem_cons_of_mem _ hq)).1.le
    rw [List.map_cons, List.sum_cons] at hsum
    have hroom : (room r left : Int) = r.size := by
      unfold room
      rw [toSize_of_nonneg hpos.le hlt]
      omega
    unfold contiguous at hc
    unfold behind
    by_cases hfull : (room r left : Int) ≤ outcome i
    · rw [if_pos hfull] at hc ⊢
      exact ih _ _ (fun q hq => hsizes q (List.mem_cons_of_mem _ hq)) (by omega) (by omega)
    · rw [if_neg hfull] at hc
      omega

/-- If the whole request is copied, the result is right. -/
theorem Covers.whole {rs : List Region} {left : Nat} (h : Covers rs left) (outcome : Nat → Int)
    (hc : contiguous outcome rs left 0 = left) :
    behind outcome rs left 0 = 0 ∨ total outcome rs left 0 < 0 := by
  rcases h with ⟨hsizes, hsum⟩ | ⟨r, rfl, hle, hlt⟩
  · exact .inl (behind_of_contiguous_eq outcome rs left 0 hsizes hsum hc)
  · have hroom : room r left = left := by
      unfold room
      rw [toSize_of_nonneg (by omega) hlt]
      omega
    have htotal := total_eq outcome [r] left 0
    rw [htotal, hc]
    unfold contiguous at hc
    unfold behind
    rw [hroom] at hc ⊢
    by_cases hfull : (left : Int) ≤ outcome 0
    · rw [if_pos hfull]
      exact .inl rfl
    · rw [if_neg hfull] at hc ⊢
      unfold total
      omega

/-- A call in which the copies of `put_data` end as they like. -/
def runWith (cfg : Config) (f : File) (outcome : Nat → Int) : Call → Result File
  | .write (.putData start buffer) => do
    let (f, _) ← f.putDataWith cfg outcome start buffer
    return f
  | c => c.run cfg f

def StepWith (cfg : Config) (f : File) (e : Call × (Nat → Int)) (f' : File) : Prop :=
  e.1.Valid ∧ f.runWith cfg e.2 e.1 = .ok f'

theorem Sound.callWith (h : f.Sound) (cfg : Config) {c : Call} (hv : c.Valid)
    (hfits : c.Fits cfg f) (he : f.runWith cfg outcome c = .ok f') : f'.Sound := by
  rcases c with (⟨start, buffer⟩ | ⟨start, size⟩) | endOffset
  · have hst := h.fetchStorage cfg hv.1 hv.2.1 hv.2.2 hfits
    obtain ⟨⟨f₂, n⟩, he₂, he⟩ := bind_eq_ok.mp he
    obtain rfl := Except.ok.inj he
    obtain ⟨⟨f₁, rs⟩, hfetch, he₂⟩ := bind_eq_ok.mp he₂
    obtain ⟨⟨f₃, m⟩, hcopy, he₂⟩ := bind_eq_ok.mp he₂
    obtain ⟨rfl, -⟩ := Prod.mk.inj (Except.ok.inj he₂)
    simp only [Op.start, Op.size] at hst
    rw [hfetch] at hst
    exact (hst.1.copyInWith outcome hcopy).updateSize hv.2.2
  · exact h.call cfg hv hfits he
  · exact h.call cfg hv hfits he

/-- What `put_data` reports: it returns the number of bytes copied contiguously from the
start or an error, and the file extends as far as these bytes do. -/
def Reported (f : File) (start n c : Int) (f' : File) : Prop :=
  (n = c ∨ n < 0) ∧ f'.stSize = max f.stSize (start + c)

/-- After a run whose storage fits and whose copies end as they like, `put_data` reports
what it has copied if and only if it copies the whole request, or the request ends inside
the file and the copies behind the contiguous part cancel out or leave an error. -/
theorem short_write_iff {cfg : Config} {f f' f₁ : File} {start n : Int} {buffer : List UInt8}
    {outcome : Nat → Int} {rs : List Region}
    (h : Reach Initial (Guarded (StepWith cfg) fun f e => e.1.Fits cfg f) f)
    (hv : (Call.write (.putData start buffer)).Valid) (hfits : Fits cfg f start buffer.length)
    (hfetch : f.fetchStorage cfg start buffer.length = .ok (f₁, rs))
    (he : f.putDataWith cfg outcome start buffer = .ok (f', n)) :
    Reported f start n (contiguous outcome rs buffer.length 0) f' ↔
      contiguous outcome rs buffer.length 0 = buffer.length ∨
        start + buffer.length ≤ f.stSize ∧
          (behind outcome rs buffer.length 0 = 0 ∨ total outcome rs buffer.length 0 < 0) := by
  have hsound : f.Sound := h.invariant (fun _ hf => sound_of_initial hf)
    fun _ _ _ hf hstep => hf.callWith cfg hstep.2.1 hstep.1 hstep.2.2
  have hsize : f₁.stSize = f.stSize := by
    have hst := hsound.fetchStorage cfg hv.1 hv.2.1 hv.2.2 hfits
    simp only [Op.start, Op.size] at hst
    rw [hfetch] at hst
    exact hst.2
  -- where the whole request is copied, nothing is left that could spoil the result
  have hwhole := (hsound.fetch_covers cfg hv.1 hv.2.1 hv.2.2 hfits hfetch).whole outcome
  have hle := contiguous_le outcome rs buffer.length 0
  have htotal := total_eq outcome rs buffer.length 0
  simp only [putDataWith, hfetch, ok_bind] at he
  obtain ⟨⟨f₂, m⟩, hcopy, he⟩ := bind_eq_ok.mp he
  obtain ⟨rfl, rfl⟩ := Prod.mk.inj (Except.ok.inj he)
  obtain ⟨hm, hz⟩ := copyInWith_spec rs hcopy
  unfold Reported
  rw [updateSize_stSize, hz, hsize]
  constructor
  · rintro ⟨hn, hmax⟩
    by_cases hc : contiguous outcome rs buffer.length 0 = buffer.length
    · exact .inl hc
    · -- `update_size` takes the end of the request, so the file must reach it already
      refine .inr ⟨?_, ?_⟩ <;> omega
  · rintro (hc | ⟨hend, hn⟩)
    · have := hwhole hc
      exact ⟨by omega, by rw [hc]⟩
    · exact ⟨by omega, by omega⟩

/-- A short write inside a file of three bytes. -/
theorem short_write_inside : ∃ f f' n, f.stSize = 3 ∧
    f.putDataWith .default (fun _ => 2) 0 [7, 8, 9] = .ok (f', n) ∧ Reported f 0 n 2 f' := by
  have h₀ : Reach Initial (Guarded (StepWith .default) fun f e => e.1.Fits .default f) create :=
    .start ⟨.created, by decide, rfl⟩
  have h₁ : Reach Initial (Guarded (StepWith .default) fun f e => e.1.Fits .default f)
      (_ : File) :=
    .next (e := (.write (.putData 0 [1, 2, 3]), fun _ => 3)) h₀ ⟨by decide, by decide, rfl⟩
  have hiff := @short_write_iff .default _ _ _ 0 _ [7, 8, 9] (fun _ => 2) _ h₁ (by decide)
    (by decide) rfl rfl
  exact ⟨_, _, _, rfl, rfl, hiff.mpr (.inr ⟨by decide, .inl (by decide)⟩)⟩

/-- Two of three bytes are copied into an empty file: its size is three. -/
theorem short_write_extends : ¬∀ (cfg : Config) (f f' f₁ : File) (start n : Int)
    (buffer : List UInt8) (outcome : Nat → Int) (rs : List Region),
    Reach Initial (StepWith cfg) f → (Call.write (.putData start buffer)).Valid →
    f.fetchStorage cfg start buffer.length = .ok (f₁, rs) →
    f.putDataWith cfg outcome start buffer = .ok (f', n) →
    Reported f start n (contiguous outcome rs buffer.length 0) f' := by
  intro hclaim
  have h₀ : Reach Initial (StepWith .default) create := .start ⟨.created, by decide, rfl⟩
  have hr := hclaim _ _ _ _ 0 _ [7, 8, 9] (fun _ => 2) _ h₀ (by decide) rfl rfl
  exact absurd hr.2 (by decide)

end File
end EchoFs.Nvml
