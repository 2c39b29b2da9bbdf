import EchoFs.Nvml.ReadWrite

/-! Loading a file from the mount point into its first segment, for any results of the
`read` calls on the way. -/

namespace EchoFs.Nvml
open Checked Memory

/-- What `read` returns: some bytes, none at the end of the file, or an error. -/
inductive ReadCall where
  | data (bytes : List UInt8)
  | interrupted
  | failed
deriving DecidableEq, Repr

/-- The memory around a pool, with offsets from `m_data`, and the ranges that were stored
to, each an offset and a number of bytes. -/
structure Mapping where
  mem : Int → UInt8
  touched : List (Int × Int)

namespace Mapping

def memcpy (p : Mapping) (addr : Int) (bytes : List UInt8) : Mapping where
  mem := overwrite p.mem addr bytes
  touched := p.touched ++ [(addr, (bytes.length : Int))]

def memset (p : Mapping) (addr size : Int) : Mapping where
  mem := fun x => if addr ≤ x ∧ x < addr + size then 0 else p.mem x
  touched := p.touched ++ [(addr, size)]

end Mapping

/-- The loop of `copy_data_to_pmem`: the bytes go to `addr` on, `total` counts them. -/
def copyData : List ReadCall → Mapping → Int → Int → Mapping × Int
  | [], p, _, total => (p, total)
  | .data [] :: _, p, _, total => (p, total)
  | .data bytes :: reads, p, addr, total =>
    copyData reads (p.memcpy addr bytes) (addr + bytes.length) (total + bytes.length)
  | .interrupted :: reads, p, addr, total => copyData reads p addr total
  | .failed :: _, p, _, _ => (p, -1)

def copyDataToPmem (reads : List ReadCall) (p : Mapping) : Mapping × Int := copyData reads p 0 0

/-- The same loop, with `memcpy` and without the flush at the end. -/
def copyDataToNonPmem (reads : List ReadCall) (p : Mapping) : Mapping × Int := copyData reads p 0 0

/-- The value of a `size_t` in an `off_t`. -/
def toOff (n : Nat) : Int := if n < 2 ^ 63 then n else n - 2 ^ 64

def zeroFill (mSize : Int) (p : Mapping) (offset : Int) (size : Nat) : Result Mapping := do
  check ((toSize (offset + size) : Int) ≤ mSize)
  return p.memset offset size

/-- `fill_from` of a segment that is no gap; the result is `m_bytes`. -/
def fillFrom (isPmem : Bool) (mSize : Int) (reads : List ReadCall) (p : Mapping) :
    Result (Mapping × Nat) := do
  let (p, n) := if isPmem then copyDataToPmem reads p else copyDataToNonPmem reads p
  let mBytes := toSize n
  let p ← zeroFill mSize p (toOff mBytes) (toSize (mSize - mBytes))
  return (p, mBytes)

/-- A file that was populated: its segment of `mSize` bytes and its offsets. -/
structure Populated where
  pool : Mapping
  mSize : Int
  mAllocOffset : Int
  mUsedOffset : Int

/-- The constructor of a file that is populated from one of `stSize` bytes. It throws, and
the result is `none`, if the pool is not `mapped`. -/
def populate (mapped isPmem : Bool) (stSize : Int) (reads : List ReadCall) (mem : Int → UInt8) :
    Result (Option Populated) :=
  let mSize := xalign stSize File.create.mSegmentSize
  if mapped = false then return none else do
    let (pool, mBytes) ← fillFrom isPmem mSize reads ⟨mem, []⟩
    return some ⟨pool, mSize, mSize, toOff mBytes⟩

/-- The bytes that come before the end of the file or an error. -/
def received : List ReadCall → List UInt8
  | [] => []
  | .data [] :: _ => []
  | .data bytes :: reads => bytes ++ received reads
  | .interrupted :: reads => received reads
  | .failed :: _ => []

/-- An error other than `EINTR` comes before the end of the file. -/
def readFails : List ReadCall → Bool
  | [] => false
  | .data [] :: _ => false
  | .data _ :: reads => readFails reads
  | .interrupted :: reads => readFails reads
  | .failed :: _ => true

/-- The stores of the loop: they lie in the range of the bytes received, and reach its end. -/
theorem copyData_touched (reads : List ReadCall) : ∀ (p : Mapping) (a t : Int),
    (∀ q ∈ (copyData reads p a t).1.touched, q ∈ p.touched ∨
      a ≤ q.1 ∧ q.1 + q.2 ≤ a + (received reads).length) ∧
    (∀ q ∈ p.touched, q ∈ (copyData reads p a t).1.touched) ∧
    (received reads ≠ [] → ∃ q ∈ (copyData reads p a t).1.touched,
      q.1 + q.2 = a + (received reads).length) := by
  induction reads with
  | nil => exact fun p a t => ⟨fun q hq => .inl hq, fun q hq => hq, fun h => absurd rfl h⟩
  | cons c reads ih =>
    intro p a t
    rcases c with (_ | ⟨b, bytes⟩) | _ | _
    · exact ⟨fun q hq => .inl hq, fun q hq => hq, fun h => absurd rfl h⟩
    · obtain ⟨hin, hold, hend⟩ := ih (p.memcpy a (b :: bytes)) (a + (b :: bytes).length)
        (t + (b :: bytes).length)
      have hlen : ((received (.data (b :: bytes) :: reads)).length : Int) =
          (b :: bytes).length + (received reads).length := by
        simp only [received, List.length_append]
        push_cast
        rfl
      rw [hlen]
      refine ⟨fun q hq => ?_, fun q hq => ?_, fun _ => ?_⟩
      · rcases hin q hq with hq | ⟨h₁, h₂⟩
        · rcases List.mem_append.mp hq with hq | hq
          · exact .inl hq
          · rw [List.mem_singleton.mp hq]
            exact .inr ⟨le_rfl, by simp only; omega⟩
        · exact .inr ⟨by omega, by omega⟩
      · exact hold q (List.mem_append_left _ hq)
      · by_cases hr : received reads = []
        · -- nothing comes behind these bytes: this store is the last one
          refine ⟨(a, ((b :: bytes).length : Int)),
            hold _ (List.mem_append_right _ List.mem_cons_self), ?_⟩
          rw [hr]
          simp
        · obtain ⟨q, hq, he⟩ := hend hr
          exact ⟨q, hq, by omega⟩
    · exact ih p a t
    · exact ⟨fun q hq => .inl hq, fun q hq => hq, fun h => absurd rfl h⟩

theorem copyData_result (reads : List ReadCall) : ∀ (p : Mapping) (a t : Int),
    (copyData reads p a t).2 = if readFails reads then -1 else t + (received reads).length := by
  induction reads with
  | nil => exact fun _ _ t => (add_zero t).symm
  | cons c reads ih =>
    intro p a t
    rcases c with (_ | ⟨b, bytes⟩) | _ | _
    · exact (add_zero t).symm
    · have hlen : ((received (.data (b :: bytes) :: reads)).length : Int) =
          (b :: bytes).length + (received reads).length := by
        simp only [received, List.length_append]
        push_cast
        rfl
      rw [hlen, ← add_assoc]
      exact ih _ _ _
    · exact ih p a t
    · rfl

theorem copyData_mem (reads : List ReadCall) : ∀ (p : Mapping) (a t : Int),
    (copyData reads p a t).1.mem = overwrite p.mem a (received reads) := by
  induction reads with
  | nil => exact fun p a _ => (overwrite_nil p.mem a).symm
  | cons c reads ih =>
    intro p a t
    rcases c with (_ | ⟨b, bytes⟩) | _ | _
    · exact (overwrite_nil p.mem a).symm
    · have h := ih (p.memcpy a (b :: bytes)) (a + (b :: bytes).length) (t + (b :: bytes).length)
      exact h.trans (overwrite_append p.mem a (b :: bytes) (received reads))
    · exact ih p a t
    · exact (overwrite_nil p.mem a).symm

/-- The size of the segment of a populated file. -/
def populateSize (stSize : Int) : Int := xalign stSize File.create.mSegmentSize

/-- What populating a file is for: all stores are inside the segment, and the used part is
what was received, with zeros behind it. -/
structure PopulatedOk (reads : List ReadCall) (p : Populated) : Prop where
  inside : ∀ q ∈ p.pool.touched, 0 ≤ q.1 ∧ q.1 + q.2 ≤ p.mSize
  used : p.mUsedOffset = (received reads).length
  used_nonneg : 0 ≤ p.mUsedOffset
  used_le : p.mUsedOffset ≤ p.mAllocOffset
  zero : ∀ x, p.mUsedOffset ≤ x → x < p.mSize → p.pool.mem x = 0

section
variable {isPmem : Bool} {stSize : Int} {reads : List ReadCall} {mem : Int → UInt8}

/-- What the constructor makes when the loop has returned `n`. -/
def populated (stSize : Int) (reads : List ReadCall) (mem : Int → UInt8) (n : Int) : Populated where
  pool := (copyData reads ⟨mem, []⟩ 0 0).1.memset (toOff (toSize n))
    (toSize (populateSize stSize - toSize n))
  mSize := populateSize stSize
  mAllocOffset := populateSize stSize
  mUsedOffset := toOff (toSize n)

/-- The assertion of `zero_fill` is about the sum of the two sizes: it is the size of the
segment, also when one of them wraps. -/
theorem populate_mapped (h0 : 0 ≤ populateSize stSize) (hlt : populateSize stSize < 2 ^ 63) :
    populate true isPmem stSize reads mem =
      .ok (some (populated stSize reads mem (copyData reads ⟨mem, []⟩ 0 0).2)) := by
  have hcopy : (if isPmem then copyDataToPmem reads ⟨mem, []⟩ else
      copyDataToNonPmem reads ⟨mem, []⟩) = copyData reads ⟨mem, []⟩ 0 0 := by
    cases isPmem <;> rfl
  have hsum : ∀ n : Int, (toSize (toOff (toSize n) +
      toSize (populateSize stSize - toSize n)) : Int) ≤ populateSize stSize := by
    intro n
    unfold toOff toSize
    split_ifs <;> omega
  unfold populate fillFrom
  dsimp only
  rw [hcopy, if_neg (by decide)]
  unfold zeroFill
  rw [← populateSize.eq_def, check_ok (hsum _)]
  rfl

theorem populated_ok (hfail : readFails reads = false)
    (hle : ((received reads).length : Int) ≤ populateSize stSize)
    (hlt : populateSize stSize < 2 ^ 63) :
    PopulatedOk reads (populated stSize reads mem (copyData reads ⟨mem, []⟩ 0 0).2) := by
  have hn := copyData_result reads ⟨mem, []⟩ 0 0
  rw [hfail, if_neg (by decide), zero_add] at hn
  obtain ⟨hin, -, -⟩ := copyData_touched reads ⟨mem, []⟩ 0 0
  have hsize : toSize ((received reads).length : Int) = (received reads).length :=
    File.toSize_of_nonneg (by omega) (by omega)
  have hoff : toOff (received reads).length = (received reads).length := if_pos (by omega)
  have hrest : (toSize (populateSize stSize - (received reads).length) : Int) =
      populateSize stSize - (received reads).length := by
    rw [File.toSize_of_nonneg (by omega) (by omega)]
    omega
  rw [hn]
  unfold populated
  rw [hsize, hoff, hrest]
  refine ⟨fun q hq => ?_, rfl, Int.natCast_nonneg _, hle, fun x hx hxs => ?_⟩
  · rcases List.mem_append.mp hq with hq | hq
    · rcases hin q hq with hq | ⟨h₁, h₂⟩
      · cases hq
      · simp only
        omega
    · rw [List.mem_singleton.mp hq]
      simp only
      omega
  · exact if_pos ⟨hx, by simp only at hxs; omega⟩

theorem ok_of_populated (h0 : 0 ≤ populateSize stSize)
    (h : PopulatedOk reads (populated stSize reads mem (copyData reads ⟨mem, []⟩ 0 0).2)) :
    readFails reads = false ∧ ((received reads).length : Int) ≤ populateSize stSize := by
  have hn := copyData_result reads ⟨mem, []⟩ 0 0
  obtain ⟨-, -, hend⟩ := copyData_touched reads ⟨mem, []⟩ 0 0
  constructor
  · -- the result -1 of the loop is the offset at which `zero_fill` starts
    by_contra hfail
    rw [Bool.not_eq_false] at hfail
    rw [hfail, if_pos rfl] at hn
    have hstart := (h.inside _ (List.mem_append_right _ List.mem_cons_self)).1
    rw [hn] at hstart
    have hwrap : toOff (toSize (-1)) = -1 := by decide
    simp only [hwrap] at hstart
    omega
  · by_contra hgt
    obtain ⟨q, hq, he⟩ := hend fun hnil => hgt (by rw [hnil]; exact h0)
    have hle := (h.inside q (List.mem_append_left _ hq)).2
    simp only [populated] at hle
    omega

/-- Populating a file is safe if and only if the constructor throws, or the reads end
without an error and return no more bytes than the segment has. A pool of 2^63 bytes cannot
be mapped. -/
theorem populate_ok_iff {mapped : Bool} (h0 : 0 ≤ stSize)
    (hmap : 2 ^ 63 ≤ populateSize stSize → mapped = false) :
    (∃ r, populate mapped isPmem stSize reads mem = .ok r ∧ ∀ p ∈ r, PopulatedOk reads p) ↔
      mapped = false ∨
        readFails reads = false ∧ ((received reads).length : Int) ≤ populateSize stSize := by
  cases mapped with
  | false =>
    refine ⟨fun _ => .inl rfl, fun _ => ⟨none, rfl, ?_⟩⟩
    rintro p ⟨⟩
  | true =>
    have hlt : populateSize stSize < 2 ^ 63 := by
      by_contra hge
      exact absurd (hmap (not_lt.mp hge)) (by decide)
    have hpos : stSize < populateSize stSize := lt_xalign (by decide)
    rw [populate_mapped (by omega) hlt]
    constructor
    · rintro ⟨r, he, hr⟩
      obtain rfl := Except.ok.inj he
      exact .inr (ok_of_populated (by omega) (hr _ rfl))
    · rintro (hm | ⟨hfail, hle⟩)
      · cases hm
      · refine ⟨_, rfl, ?_⟩
        rintro p ⟨⟩
        exact populated_ok hfail hle hlt

end

/-- Reads of a file that does not change while it is loaded give the file of `preload`. -/
theorem populate_preload {reads : List ReadCall} {content : List UInt8} (isPmem : Bool)
    (hfail : readFails reads = false) (hcontent : received reads = content)
    (hlt : populateSize content.length < 2 ^ 63) : ∃ f p, File.preload content = .ok f ∧
    populate true isPmem content.length reads (fun _ => 0) = .ok (some p) ∧
      f.mUsedOffset = p.mUsedOffset ∧ ∀ x, x < p.mSize → f.cell x = p.pool.mem x := by
  have hpos : (content.length : Int) < populateSize content.length := lt_xalign (by decide)
  obtain ⟨f, hf, hready, hcell, hsize, -⟩ :=
    File.preload_spec (show (content.length : Int) < 2 ^ 63 by omega)
  have hok : PopulatedOk reads (populated content.length reads (fun _ => 0)
      (copyData reads ⟨fun _ => 0, []⟩ 0 0).2) :=
    populated_ok hfail (by rw [hcontent]; omega) hlt
  refine ⟨f, _, hf, populate_mapped (by omega) hlt, ?_, fun x hx => ?_⟩
  · rw [hok.used, hready.used, hsize, hcontent]
  · rw [hcell]
    by_cases hx' : (content.length : Int) ≤ x
    · rw [hok.zero x (by rw [hok.used, hcontent]; exact hx') hx, overwrite_after (by omega)]
    · have hused := hok.used
      have hmem := congrFun (copyData_mem reads ⟨fun _ => 0, []⟩ 0 0) x
      rw [hcontent] at hmem hused
      rw [← hmem]
      refine (if_neg ?_).symm
      rintro ⟨hle, -⟩
      exact hx' (hused ▸ hle)

/-- A short read and an interrupted one. -/
theorem populate_ok_short : ∃ r, populate true false 5
    [.data [1, 2], .interrupted, .data [3, 4, 5]] (fun _ => 7) = .ok r ∧
    ∀ p ∈ r, PopulatedOk [.data [1, 2], .interrupted, .data [3, 4, 5]] p :=
  (populate_ok_iff (by decide) (by decide)).mpr (.inr ⟨rfl, by decide⟩)

/-- An error: `zero_fill` starts one byte before the segment. -/
theorem populate_fails : ¬∀ (mapped isPmem : Bool) (stSize : Int) (reads : List ReadCall)
    (mem : Int → UInt8), 0 ≤ stSize → (2 ^ 63 ≤ populateSize stSize → mapped = false) →
    ∃ r, populate mapped isPmem stSize reads mem = .ok r ∧ ∀ p ∈ r, PopulatedOk reads p := by
  intro hclaim
  obtain ⟨r, he, hr⟩ := hclaim true true 5 [.failed] (fun _ => 0) (by decide) (by decide)
  cases he
  have hin := (hr _ rfl).inside (-1, 4097) (by decide)
  exact absurd hin.1 (by decide)

end EchoFs.Nvml
