import Mathlib.Tactic.Linarith
import EchoFs.Library.Bitmap
import EchoFs.Library.Checked
import EchoFs.Library.Transition

/-! The allocator of the device-DAX backend: `big_pool` hands out slots of one
mapping, with a bit for each slot and the position after the last grant. The
mapping lies in the address space, so no address wraps. -/

namespace EchoFs.DevDax
open Checked Bitmap Transition

/-- The size of `m_bitset`; its members throw beyond it, and nothing catches that. -/
def nvmlMappings : Nat := 0x1000000

structure BigPool where
  mBitset : Nat → Bool
  mOffset : Nat
  mAddress : Nat
  mLength : Nat
  mSizeOfSegment : Nat
  mNvmlMappings : Nat

namespace BigPool

/-- `address` is what `mmap` returned for `length` bytes of the device. -/
def init (address length segmentSize : Nat) : Result BigPool := do
  check (segmentSize ≠ 0)
  return ⟨fun _ => false, 0, address, length, segmentSize, length / segmentSize⟩

def test (p : BigPool) (pos : Nat) : Result Bool := do
  check (pos < nvmlMappings)
  return p.mBitset pos

def put (p : BigPool) (pos : Nat) (v : Bool) : Result BigPool := do
  check (pos < nvmlMappings)
  return { p with mBitset := fun q => if q = pos then v else p.mBitset q }

/-- The loop over `i`: the first of the next `n` slots from `i + start` on that is taken. -/
def firstSet (p : BigPool) (start : Nat) : Nat → Nat → Result (Option Nat)
  | 0, _ => return none
  | n + 1, i => do
    if ← p.test (i + start) then return some i else p.firstSet start n (i + 1)

/-- The loop over `j`, which searches from the first slot on; `found` is the
start of the slots when the loop is left at its head. -/
def search (p : BigPool) (n : Nat) : Nat → Nat → Option Nat → Result (Option Nat)
  | 0, _, _ => .error .unfinished
  | fuel + 1, j, found =>
    if j < p.mNvmlMappings then
      if n + j < p.mNvmlMappings then do
        match ← p.firstSet j n 0 with
        | some i => p.search n fuel (j + i + 1 + 1) none
        | none => return some j
      else
        return none
    else
      return found

/-- The slots behind the last grant, if they are free. -/
def nextFit (p : BigPool) (n : Nat) : Result (Option Nat) :=
  if n + p.mOffset < p.mNvmlMappings then do
    match ← p.firstSet p.mOffset n 0 with
    | some _ => return none
    | none => return some p.mOffset
  else
    return none

/-- Where the `n` slots of a request start, `none` when the device is full. -/
def place (p : BigPool) (n : Nat) : Result (Option Nat) := do
  match ← p.nextFit n with
  | some start => return some start
  | none => p.search n (p.mNvmlMappings + 1) 0 (some 0)

/-- `n_segments`, an `unsigned int`. -/
def nSegments (p : BigPool) (size : Nat) : Nat := size / p.mSizeOfSegment % 2 ^ 32

/-- With `m_offset` 0 the comparison of the source wraps, and `m_offset` stays 0. -/
def startOver (p : BigPool) : BigPool :=
  if (p.mOffset - 1) * p.mSizeOfSegment ≥ p.mLength then { p with mOffset := 0 } else p

def allocate (p : BigPool) (size : Nat) : Result (BigPool × Option Nat) := do
  let n := p.nSegments size
  match ← p.place n with
  | none => return (p.startOver, none)
  | some start =>
    let p ← (List.range n).foldlM (fun p i => p.put (i + start) true) p
    let p := { p with mOffset := n + start + 1 }
    return (p.startOver, some (p.mAddress + start * p.mSizeOfSegment))

def deallocate (p : BigPool) (address length : Nat) : Result BigPool :=
  (List.range (length / p.mSizeOfSegment)).foldlM (fun q i =>
    q.put ((address - p.mAddress + i * p.mSizeOfSegment) / p.mSizeOfSegment) false) p

variable {p p' : BigPool} {n start size : Nat} {v : Bool}

theorem firstSet_none : ∀ {n i : Nat}, p.firstSet start n i = .ok none →
    ∀ k < n, p.mBitset (i + k + start) = false := by
  intro n
  induction n with
  | zero =>
    intro i _ k hk
    omega
  | succ n ih =>
    intro i h k hk
    unfold firstSet at h
    obtain ⟨b, hb, h⟩ := bind_eq_ok.mp h
    obtain ⟨_, _, hb⟩ := bind_eq_ok.mp hb
    obtain rfl := Except.ok.inj hb
    by_cases hbit : p.mBitset (i + start) = true
    · rw [if_pos hbit] at h
      cases h
    · rw [if_neg hbit] at h
      rcases k with _ | k
      · simpa using hbit
      · have hnext := ih h k (by omega)
        rwa [Nat.add_right_comm i 1 k, Nat.add_assoc i k 1] at hnext

theorem firstSet_finishes : ∀ (n i : Nat), Finishes (p.firstSet start n i) := by
  intro n
  induction n with
  | zero => exact fun _ => finishes_ok _
  | succ n ih =>
    intro i
    unfold firstSet test check
    split_ifs with hpos
    · simp only [ok_bind, pure_eq_ok]
      split_ifs
      · exact finishes_ok _
      · exact ih _
    · simp [Finishes]

theorem search_some : ∀ {fuel j : Nat} {found : Option Nat},
    p.search n fuel j found = .ok (some start) → (j < p.mNvmlMappings ∨ found = none) →
    n + start < p.mNvmlMappings ∧ ∀ k < n, p.mBitset (k + start) = false := by
  intro fuel
  induction fuel with
  | zero =>
    intro j found h
    cases h
  | succ fuel ih =>
    intro j found h hfound
    unfold search at h
    by_cases hj : j < p.mNvmlMappings
    · rw [if_pos hj] at h
      by_cases hn : n + j < p.mNvmlMappings
      · rw [if_pos hn] at h
        obtain ⟨r, hr, h⟩ := bind_eq_ok.mp h
        cases r with
        | some i => exact ih h (.inr rfl)
        | none =>
          obtain rfl := Option.some.inj (Except.ok.inj h)
          refine ⟨hn, fun k hk => ?_⟩
          have hclear := firstSet_none hr k hk
          rwa [Nat.zero_add] at hclear
      · rw [if_neg hn] at h
        cases h
    · rw [if_neg hj] at h
      rw [hfound.resolve_left hj] at h
      cases h

/-- Each round of the search goes on from a later slot. -/
theorem search_finishes : ∀ {fuel j : Nat} (found : Option Nat), 0 < fuel →
    p.mNvmlMappings < fuel + j → Finishes (p.search n fuel j found) := by
  intro fuel
  induction fuel with
  | zero =>
    intro j found hfuel
    omega
  | succ fuel ih =>
    intro j found _ hlt
    unfold search
    split_ifs with hj hn
    · refine (firstSet_finishes n 0).bind fun r _ => ?_
      cases r with
      | some i => exact ih none (by omega) (by omega)
      | none => exact finishes_ok _
    · exact finishes_ok _
    · exact finishes_ok _

theorem nextFit_some (h : p.nextFit n = .ok (some start)) :
    n + start < p.mNvmlMappings ∧ ∀ k < n, p.mBitset (k + start) = false := by
  unfold nextFit at h
  split_ifs at h with hn
  · obtain ⟨r, hr, h⟩ := bind_eq_ok.mp h
    cases r with
    | some i => cases h
    | none =>
      obtain rfl := Option.some.inj (Except.ok.inj h)
      refine ⟨hn, fun k hk => ?_⟩
      have hclear := firstSet_none hr k hk
      rwa [Nat.zero_add] at hclear
  · cases h

theorem place_some (hM : 0 < p.mNvmlMappings) (h : p.place n = .ok (some start)) :
    n + start < p.mNvmlMappings ∧
      ∀ pos, Range.contains ⟨start, n⟩ pos = true → p.mBitset pos = false := by
  have hfree : n + start < p.mNvmlMappings ∧ ∀ k < n, p.mBitset (k + start) = false := by
    unfold place at h
    obtain ⟨r, hr, h⟩ := bind_eq_ok.mp h
    cases r with
    | some k =>
      obtain rfl := Option.some.inj (Except.ok.inj h)
      exact nextFit_some hr
    | none => exact search_some h (.inl hM)
  refine ⟨hfree.1, fun pos hpos => ?_⟩
  obtain ⟨hlo, hhi⟩ := Range.contains_iff.mp hpos
  have hclear := hfree.2 (pos - start) (by simp only at hlo hhi; omega)
  rwa [Nat.sub_add_cancel hlo] at hclear

/-- The bound on the scan is never reached. -/
theorem place_finishes (p : BigPool) (n : Nat) : Finishes (p.place n) := by
  unfold place nextFit
  refine Finishes.bind ?_ fun r _ => ?_
  · split_ifs
    · refine (firstSet_finishes n 0).bind fun r _ => ?_
      cases r <;> exact finishes_ok _
    · exact finishes_ok _
  · cases r with
    | some start => exact finishes_ok _
    | none => exact search_finishes _ (by omega) (by omega)

theorem foldlM_put {f : Nat → Nat} : ∀ {n : Nat} {p' : BigPool}, (∀ i < n, f i = i + start) →
    (List.range n).foldlM (fun q i => q.put (f i) v) p = .ok p' →
    p' = { p with mBitset := assign p.mBitset ⟨start, n⟩ v } ∧
      (0 < n → start + n ≤ nvmlMappings) := by
  intro n
  induction n with
  | zero =>
    intro p' _ h
    obtain rfl := Except.ok.inj h
    refine ⟨?_, by omega⟩
    have hsame : assign p.mBitset ⟨start, 0⟩ v = p.mBitset := by
      funext pos
      refine if_neg fun hc => ?_
      have := Range.contains_iff.mp hc
      simp only at this
      omega
    rw [hsame]
  | succ n ih =>
    intro p' hf h
    rw [List.range_succ, List.foldlM_append] at h
    obtain ⟨q, hq, h⟩ := bind_eq_ok.mp h
    obtain ⟨rfl, _⟩ := ih (fun i hi => hf i (by omega)) hq
    simp only [List.foldlM_cons, List.foldlM_nil, put, hf n (by omega)] at h
    obtain ⟨q, hq, h⟩ := bind_eq_ok.mp h
    obtain ⟨u, hu, hq⟩ := bind_eq_ok.mp hq
    obtain rfl := Except.ok.inj hq
    obtain rfl := Except.ok.inj h
    have hlt := of_check hu
    refine ⟨?_, fun _ => by omega⟩
    congr 1
    funext pos
    by_cases hpos : pos = n + start
    · have hc : Range.contains ⟨start, n + 1⟩ pos = true :=
        Range.contains_iff.mpr ⟨by simp only; omega, by simp only; omega⟩
      simp only [assign, if_pos hpos, if_pos hc]
    · have hc : Range.contains ⟨start, n + 1⟩ pos = Range.contains ⟨start, n⟩ pos := by
        rw [Bool.eq_iff_iff, Range.contains_iff, Range.contains_iff]
        simp only
        omega
      simp only [assign, if_neg hpos, hc]

theorem startOver_eq (p : BigPool) : ∃ k, p.startOver = { p with mOffset := k } := by
  unfold startOver
  split_ifs
  · exact ⟨0, rfl⟩
  · exact ⟨p.mOffset, rfl⟩

theorem allocate_cases {r : Option Nat} (h : p.allocate size = .ok (p', r)) :
    (∃ k, r = none ∧ p' = { p with mOffset := k }) ∨
    ∃ start k, p.place (p.nSegments size) = .ok (some start) ∧
      r = some (p.mAddress + start * p.mSizeOfSegment) ∧
      p' = { p with mBitset := assign p.mBitset ⟨start, p.nSegments size⟩ true, mOffset := k } := by
  unfold allocate at h
  obtain ⟨found, hfound, h⟩ := bind_eq_ok.mp h
  cases found with
  | none =>
    obtain ⟨rfl, rfl⟩ := Prod.mk.inj (Except.ok.inj h)
    obtain ⟨k, hk⟩ := p.startOver_eq
    exact .inl ⟨k, rfl, hk⟩
  | some start =>
    obtain ⟨q, hq, h⟩ := bind_eq_ok.mp h
    obtain ⟨rfl, _⟩ := foldlM_put (f := fun i => i + start) (fun _ _ => rfl) hq
    obtain ⟨rfl, rfl⟩ := Prod.mk.inj (Except.ok.inj h)
    obtain ⟨k, hk⟩ := startOver_eq { p with
      mBitset := assign p.mBitset ⟨start, p.nSegments size⟩ true
      mOffset := p.nSegments size + start + 1 }
    exact .inr ⟨start, k, hfound, rfl, hk⟩

theorem allocate_eq {r : Option Nat} (h : p.allocate size = .ok (p', r)) :
    ∃ bits k, p' = { p with mBitset := bits, mOffset := k } := by
  rcases allocate_cases h with ⟨k, _, hp⟩ | ⟨_, k, _, _, hp⟩
  · exact ⟨_, k, hp⟩
  · exact ⟨_, k, hp⟩

theorem foldlM_put_eq {f : Nat → Nat} : ∀ {l : List Nat} {p : BigPool},
    l.foldlM (fun q i => q.put (f i) v) p = .ok p' → ∃ bits, p' = { p with mBitset := bits } := by
  intro l
  induction l with
  | nil => exact fun {p} h => ⟨p.mBitset, (Except.ok.inj h).symm⟩
  | cons i l ih =>
    intro p h
    rw [List.foldlM_cons] at h
    obtain ⟨q, hq, h⟩ := bind_eq_ok.mp h
    obtain ⟨_, _, hq⟩ := bind_eq_ok.mp hq
    obtain rfl := Except.ok.inj hq
    obtain ⟨bits, hp⟩ := ih h
    exact ⟨bits, hp⟩

theorem deallocate_eq {address length : Nat} (h : p.deallocate address length = .ok p') :
    ∃ bits, p' = { p with mBitset := bits } := foldlM_put_eq h

/-- The slots granted for `g.2` bytes at the address `g.1`. -/
def slots (p : BigPool) (g : Nat × Nat) : Range :=
  ⟨(g.1 - p.mAddress) / p.mSizeOfSegment, p.nSegments g.2⟩

/-- The bits account for the grants `live`. -/
structure Accounts (p : BigPool) (live : List (Nat × Nat)) : Prop where
  pos : 0 < p.mSizeOfSegment
  mappings : p.mNvmlMappings = p.mLength / p.mSizeOfSegment
  covers : Covers p.mBitset (live.map p.slots)
  placed : ∀ g ∈ live, ∃ start, g.1 = p.mAddress + start * p.mSizeOfSegment ∧
    p.nSegments g.2 + start < p.mNvmlMappings

theorem slots_placed (hpos : 0 < p.mSizeOfSegment) (start size : Nat) :
    p.slots (p.mAddress + start * p.mSizeOfSegment, size) = ⟨start, p.nSegments size⟩ := by
  unfold slots
  rw [Nat.add_sub_cancel_left, Nat.mul_div_cancel _ hpos]

theorem accounts_init {address length segmentSize : Nat}
    (h : init address length segmentSize = .ok p) : Accounts p [] := by
  obtain ⟨_, hseg, h⟩ := bind_eq_ok.mp h
  obtain rfl := Except.ok.inj h
  exact ⟨Nat.pos_of_ne_zero (of_check hseg), rfl, covers_nil, by simp⟩

theorem Accounts.perm {live live' : List (Nat × Nat)} (h : Accounts p live)
    (hp : live.Perm live') : Accounts p live' :=
  ⟨h.pos, h.mappings, h.covers.perm (hp.map _), fun g hg => h.placed g (hp.mem_iff.mpr hg)⟩

theorem Accounts.full {live : List (Nat × Nat)} (h : Accounts p live)
    (ha : p.allocate size = .ok (p', none)) : Accounts p' live := by
  rcases allocate_cases ha with ⟨k, _, rfl⟩ | ⟨_, _, _, hr, _⟩
  · exact ⟨h.pos, h.mappings, h.covers, h.placed⟩
  · cases hr

theorem Accounts.allocate {live : List (Nat × Nat)} {address : Nat} (h : Accounts p live)
    (hM : 0 < p.mNvmlMappings) (ha : p.allocate size = .ok (p', some address)) :
    Accounts p' ((address, size) :: live) := by
  rcases allocate_cases ha with ⟨_, hr, _⟩ | ⟨start, k, hplace, hr, rfl⟩
  · cases hr
  obtain rfl := Option.some.inj hr
  obtain ⟨hlt, hfree⟩ := place_some hM hplace
  refine ⟨h.pos, h.mappings, ?_, fun g hg => ?_⟩
  · have hslots : p.slots (p.mAddress + start * p.mSizeOfSegment, size) =
        ⟨start, p.nSegments size⟩ := slots_placed h.pos start size
    have htake := h.covers.take hfree
    rw [← hslots] at htake ⊢
    exact htake
  · rcases List.mem_cons.mp hg with rfl | hg
    · exact ⟨start, rfl, hlt⟩
    · exact h.placed g hg

theorem Accounts.deallocate {live : List (Nat × Nat)} {g : Nat × Nat} (h : Accounts p (g :: live))
    (hd : p.deallocate g.1 g.2 = .ok p') : Accounts p' live := by
  obtain ⟨start, hg, _⟩ := h.placed g List.mem_cons_self
  have hslots : p.slots g = ⟨start, p.nSegments g.2⟩ := by
    have := slots_placed h.pos start g.2
    rwa [← hg] at this
  have hidx : ∀ i < g.2 / p.mSizeOfSegment,
      (g.1 - p.mAddress + i * p.mSizeOfSegment) / p.mSizeOfSegment = i + start := by
    intro i _
    rw [hg, Nat.add_sub_cancel_left, ← Nat.add_mul, Nat.mul_div_cancel _ h.pos, Nat.add_comm]
  obtain ⟨rfl, hle⟩ := foldlM_put hidx hd
  -- a count that was cut to 32 bits would have thrown
  have hn : p.nSegments g.2 = g.2 / p.mSizeOfSegment := by
    unfold nvmlMappings at hle
    unfold nSegments
    generalize g.2 / p.mSizeOfSegment = m at hle ⊢
    omega
  refine ⟨h.pos, h.mappings, ?_, fun g hg => h.placed g (List.mem_cons_of_mem _ hg)⟩
  have hcovers : Covers p.mBitset (p.slots g :: live.map p.slots) := h.covers
  have hrel := hcovers.release
  rw [hslots, hn] at hrel
  exact hrel

end BigPool

/-! Sequences of calls. -/

structure PoolState where
  pool : BigPool
  live : List (Nat × Nat)

inductive PoolCall where
  | allocate (size : Nat)
  | deallocate (address length : Nat)
deriving DecidableEq, Repr

/-- A call that returns. `live` holds the address and the size of each allocation
that was not given back; only these are given back. -/
inductive PoolStep : PoolState → PoolCall → PoolState → Prop
  | grant {s : PoolState} {p : BigPool} {address size : Nat} : 0 < size → 4096 ∣ size →
      s.pool.allocate size = .ok (p, some address) →
      PoolStep s (.allocate size) ⟨p, (address, size) :: s.live⟩
  | full {s : PoolState} {p : BigPool} {size : Nat} : 0 < size → 4096 ∣ size →
      s.pool.allocate size = .ok (p, none) → PoolStep s (.allocate size) ⟨p, s.live⟩
  | deallocate {s : PoolState} {p : BigPool} {address length : Nat} :
      (address, length) ∈ s.live → s.pool.deallocate address length = .ok p →
      PoolStep s (.deallocate address length) ⟨p, s.live.erase (address, length)⟩

def PoolInit (s : PoolState) : Prop :=
  s.live = [] ∧ ∃ address length segmentSize,
    BigPool.init address length segmentSize = .ok s.pool

/-- Live allocations occupy disjoint byte ranges of the mapping. -/
def DisjointGrants (s : PoolState) : Prop :=
  s.live.Pairwise (fun g h => g.1 + g.2 ≤ h.1 ∨ h.1 + h.2 ≤ g.1) ∧
    ∀ g ∈ s.live, s.pool.mAddress ≤ g.1 ∧ g.1 + g.2 ≤ s.pool.mAddress + s.pool.mLength

/-- A request for whole slots, as many as an `unsigned int` counts, from a mapping
that has a slot. -/
def WholeSlots (s : PoolState) : PoolCall → Prop
  | .allocate size => s.pool.mSizeOfSegment ∣ size ∧ size / s.pool.mSizeOfSegment < 2 ^ 32 ∧
      s.pool.mSizeOfSegment ≤ s.pool.mLength
  | .deallocate _ _ => True

/-- The bits account for the grants, and each grant is of whole slots. -/
structure PoolInv (s : PoolState) : Prop where
  accounts : s.pool.Accounts s.live
  whole : ∀ g ∈ s.live, 0 < g.2 ∧ s.pool.nSegments g.2 * s.pool.mSizeOfSegment = g.2

theorem PoolInv.init {s : PoolState} (h : PoolInit s) : PoolInv s := by
  obtain ⟨hlive, _, _, _, hinit⟩ := h
  constructor
  · rw [hlive]
    exact BigPool.accounts_init hinit
  · simp [hlive]

theorem nSegments_mul {p : BigPool} {size : Nat} (hdvd : p.mSizeOfSegment ∣ size)
    (hlt : size / p.mSizeOfSegment < 2 ^ 32) : p.nSegments size * p.mSizeOfSegment = size := by
  unfold BigPool.nSegments
  rw [Nat.mod_eq_of_lt hlt, Nat.div_mul_cancel hdvd]

theorem PoolInv.step {s s' : PoolState} {c : PoolCall} (h : PoolInv s)
    (hs : Guarded PoolStep WholeSlots s c s') : PoolInv s' := by
  obtain ⟨hok, hs⟩ := hs
  cases hs with
  | @grant p address size hpos _ ha =>
    obtain ⟨hdvd, hlt, hle⟩ := hok
    have hM : 0 < s.pool.mNvmlMappings := by
      rw [h.accounts.mappings]
      exact Nat.div_pos hle h.accounts.pos
    have hacc := h.accounts.allocate hM ha
    obtain ⟨bits, k, rfl⟩ := BigPool.allocate_eq ha
    refine ⟨hacc, fun g hg => ?_⟩
    rcases List.mem_cons.mp hg with rfl | hg
    · exact ⟨hpos, nSegments_mul hdvd hlt⟩
    · exact h.whole g hg
  | full _ _ ha =>
    have hacc := h.accounts.full ha
    obtain ⟨bits, k, rfl⟩ := BigPool.allocate_eq ha
    exact ⟨hacc, h.whole⟩
  | deallocate hmem hd =>
    have hacc := (h.accounts.perm (List.perm_cons_erase hmem)).deallocate hd
    obtain ⟨bits, rfl⟩ := BigPool.deallocate_eq hd
    exact ⟨hacc, fun g hg => h.whole g (List.mem_of_mem_erase hg)⟩

theorem PoolInv.bytes {s : PoolState} (h : PoolInv s) {g : Nat × Nat} (hg : g ∈ s.live) :
    g.1 = s.pool.mAddress + (s.pool.slots g).start * s.pool.mSizeOfSegment ∧
      g.2 = (s.pool.slots g).count * s.pool.mSizeOfSegment ∧ 0 < (s.pool.slots g).count ∧
      (s.pool.slots g).start + (s.pool.slots g).count ≤ s.pool.mNvmlMappings := by
  obtain ⟨start, haddr, hlt⟩ := h.accounts.placed g hg
  obtain ⟨hpos, hwhole⟩ := h.whole g hg
  have hslots : s.pool.slots g = ⟨start, s.pool.nSegments g.2⟩ := by
    have := BigPool.slots_placed h.accounts.pos start g.2
    rwa [← haddr] at this
  rw [hslots]
  have hcount : 0 < s.pool.nSegments g.2 := by
    rw [← hwhole] at hpos
    exact Nat.pos_of_mul_pos_right hpos
  exact ⟨haddr, hwhole.symm, hcount, by simp only; omega⟩

theorem disjoint_of_contains {r q : Range} (hr : 0 < r.count) (hq : 0 < q.count)
    (h : ∀ pos, r.contains pos = true → q.contains pos = false) :
    r.start + r.count ≤ q.start ∨ q.start + q.count ≤ r.start := by
  by_contra hboth
  have hr' : r.contains (max r.start q.start) = true := Range.contains_iff.mpr (by omega)
  have hq' : q.contains (max r.start q.start) = true := Range.contains_iff.mpr (by omega)
  rw [h _ hr'] at hq'
  cases hq'

theorem PoolInv.disjointGrants {s : PoolState} (h : PoolInv s) : DisjointGrants s := by
  constructor
  · have hslots := List.pairwise_map.mp h.accounts.covers.pairwise
    refine hslots.imp_of_mem fun {g g'} hg hg' hdis => ?_
    obtain ⟨haddr, hsize, hpos, _⟩ := h.bytes hg
    obtain ⟨haddr', hsize', hpos', _⟩ := h.bytes hg'
    rw [haddr, haddr', hsize, hsize', Nat.add_assoc, Nat.add_assoc, ← Nat.add_mul, ← Nat.add_mul]
    rcases disjoint_of_contains hpos hpos' hdis with hle | hle
    · exact .inl (Nat.add_le_add_left (Nat.mul_le_mul_right _ hle) _)
    · exact .inr (Nat.add_le_add_left (Nat.mul_le_mul_right _ hle) _)
  · intro g hg
    obtain ⟨haddr, hsize, _, hle⟩ := h.bytes hg
    rw [haddr, hsize, Nat.add_assoc, ← Nat.add_mul]
    refine ⟨Nat.le_add_right _ _, Nat.add_le_add_left ?_ _⟩
    rw [h.accounts.mappings] at hle
    exact Nat.le_trans (Nat.mul_le_mul_right _ hle) (Nat.div_mul_le_self _ _)

/-- In a run whose requests are all for whole slots, live allocations are disjoint. -/
theorem grants_disjoint {s : PoolState} (h : Reach PoolInit (Guarded PoolStep WholeSlots) s) :
    DisjointGrants s :=
  (h.invariant (fun _ hs => PoolInv.init hs) fun _ _ _ hs hstep => hs.step hstep).disjointGrants

theorem grants_disjoint_default : ∃ p : BigPool, p.mOffset = 4 ∧
    DisjointGrants ⟨p, [(2 ^ 40 + 2 ^ 28, 2 ^ 27), (2 ^ 40, 2 ^ 27)]⟩ := by
  have hinit : PoolInit ⟨⟨fun _ => false, 0, 2 ^ 40, 600 * 2 ^ 30, 2 ^ 27, 4800⟩, []⟩ :=
    ⟨rfl, 2 ^ 40, 600 * 2 ^ 30, 2 ^ 27, rfl⟩
  refine ⟨_, ?_, grants_disjoint
    (.next (e := .allocate (2 ^ 27)) (.next (e := .allocate (2 ^ 27)) (.start hinit)
      ⟨⟨by decide, by decide, by decide⟩, .grant (by decide) (by decide) rfl⟩)
      ⟨⟨by decide, by decide, by decide⟩, .grant (by decide) (by decide) rfl⟩)⟩
  rfl

/-- With one slot of 512 GiB in the mapping, two requests for 8 KiB get the same
address: neither takes a slot. -/
def oneSlotPool (offset : Nat) : BigPool :=
  ⟨fun _ => false, offset, 2 ^ 40, 600 * 2 ^ 30, 2 ^ 39, 1⟩

theorem small_grants_overlap :
    Reach PoolInit PoolStep ⟨oneSlotPool 1, [(2 ^ 40, 8192), (2 ^ 40, 8192)]⟩ ∧
      ¬ DisjointGrants ⟨oneSlotPool 1, [(2 ^ 40, 8192), (2 ^ 40, 8192)]⟩ := by
  have hinit : PoolInit ⟨oneSlotPool 0, []⟩ := ⟨rfl, 2 ^ 40, 600 * 2 ^ 30, 2 ^ 39, rfl⟩
  have hfst : PoolStep ⟨oneSlotPool 0, []⟩ (.allocate 8192)
      ⟨oneSlotPool 1, [(2 ^ 40, 8192)]⟩ := .grant (by decide) (by decide) rfl
  have hsnd : PoolStep ⟨oneSlotPool 1, [(2 ^ 40, 8192)]⟩ (.allocate 8192)
      ⟨oneSlotPool 1, [(2 ^ 40, 8192), (2 ^ 40, 8192)]⟩ := .grant (by decide) (by decide) rfl
  refine ⟨.next (.next (.start hinit) hfst) hsnd, fun h => ?_⟩
  have hpair := (List.pairwise_cons.mp h.1).1 _ List.mem_cons_self
  revert hpair
  decide

end EchoFs.DevDax
