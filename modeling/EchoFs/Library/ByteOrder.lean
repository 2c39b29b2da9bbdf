import Mathlib.Data.Nat.Digits.Defs
import Mathlib.Tactic.Ring

/-! Integers in memory and on the wire. The network has the most significant byte first;
the host has either order. -/

namespace ByteOrder

inductive Order where
  | little
  | big
deriving DecidableEq, Repr

/-- The number that bytes stand for on the wire. -/
def number (bs : List UInt8) : ℕ := Nat.ofDigits 256 (bs.reverse.map UInt8.toNat)

/-- The value of an integer variable with these bytes. -/
def load : Order → List UInt8 → ℕ
  | .little, bs => number bs.reverse
  | .big, bs => number bs

def lowFirst (x : ℕ) : List UInt8 := (List.range 8).map fun i => .ofNat (x / 256 ^ i)

/-- The bytes of a `uint64_t` variable. -/
def store : Order → ℕ → List UInt8
  | .little, x => lowFirst x
  | .big, x => (lowFirst x).reverse

def swap32 (x : ℕ) : ℕ :=
  x % 256 * 2 ^ 24 + x / 256 % 256 * 2 ^ 16 + x / 2 ^ 16 % 256 * 256 + x / 2 ^ 24 % 256

/-- `htonl` and `ntohl` -/
def htonl : Order → ℕ → ℕ
  | .little, x => swap32 x
  | .big, x => x

/-- The inline functions `htonll` and `ntohll`, with the two halves of the word as numbers. -/
def htonll (host : Order) (x : ℕ) : ℕ :=
  if htonl host 1 = 1 then x
  else htonl host (x % 2 ^ 32) * 2 ^ 32 + htonl host (x / 2 ^ 32)

variable {host : Order} {x a b c d : ℕ} {bs : List UInt8}

theorem swap32_lt (x : ℕ) : swap32 x < 2 ^ 32 := by
  unfold swap32
  omega

theorem swap32_bytes (ha : a < 256) (hb : b < 256) (hc : c < 256) (hd : d < 256) :
    swap32 (a + 256 * b + 2 ^ 16 * c + 2 ^ 24 * d) =
      a * 2 ^ 24 + b * 2 ^ 16 + c * 256 + d := by
  have h₀ : (a + 256 * b + 2 ^ 16 * c + 2 ^ 24 * d) % 256 = a := by omega
  have h₁ : (a + 256 * b + 2 ^ 16 * c + 2 ^ 24 * d) / 256 % 256 = b := by omega
  have h₂ : (a + 256 * b + 2 ^ 16 * c + 2 ^ 24 * d) / 2 ^ 16 % 256 = c := by omega
  have h₃ : (a + 256 * b + 2 ^ 16 * c + 2 ^ 24 * d) / 2 ^ 24 % 256 = d := by omega
  rw [swap32, h₀, h₁, h₂, h₃]

theorem exists_bytes (h : x < 2 ^ 32) : ∃ a b c d, a < 256 ∧ b < 256 ∧ c < 256 ∧ d < 256 ∧
    x = a + 256 * b + 2 ^ 16 * c + 2 ^ 24 * d := by
  refine ⟨x % 256, x / 256 % 256, x / 256 / 256 % 256, x / 256 / 256 / 256, ?_, ?_, ?_, ?_, ?_⟩
  all_goals omega

theorem swap32_swap32 (h : x < 2 ^ 32) : swap32 (swap32 x) = x := by
  obtain ⟨a, b, c, d, ha, hb, hc, hd, rfl⟩ := exists_bytes h
  have hback : a * 2 ^ 24 + b * 2 ^ 16 + c * 256 + d =
      d + 256 * c + 2 ^ 16 * b + 2 ^ 24 * a := by ring
  rw [swap32_bytes ha hb hc hd, hback, swap32_bytes hd hc hb ha]
  ring

@[simp] theorem htonll_big (x : ℕ) : htonll .big x = x := if_pos rfl

theorem htonll_little (x : ℕ) :
    htonll .little x = swap32 (x % 2 ^ 32) * 2 ^ 32 + swap32 (x / 2 ^ 32) := if_neg (by decide)

theorem htonll_lt (h : x < 2 ^ 64) : htonll host x < 2 ^ 64 := by
  cases host with
  | big => rwa [htonll_big]
  | little =>
    have hlow := swap32_lt (x % 2 ^ 32)
    have hhigh := swap32_lt (x / 2 ^ 32)
    rw [htonll_little]
    omega

theorem htonll_htonll (h : x < 2 ^ 64) : htonll host (htonll host x) = x := by
  cases host with
  | big => simp
  | little =>
    have hhigh := swap32_lt (x / 2 ^ 32)
    have hmod : htonll .little x % 2 ^ 32 = swap32 (x / 2 ^ 32) := by
      rw [htonll_little]
      omega
    have hdiv : htonll .little x / 2 ^ 32 = swap32 (x % 2 ^ 32) := by
      rw [htonll_little]
      omega
    rw [htonll_little (htonll .little x), hmod, hdiv, swap32_swap32 (by omega),
      swap32_swap32 (by omega)]
    omega

theorem number_cons (v : UInt8) (bs : List UInt8) :
    number (v :: bs) = v.toNat * 256 ^ bs.length + number bs := by
  simp [number, Nat.ofDigits_append, Nat.add_comm, Nat.mul_comm]

@[simp] theorem number_nil : number [] = 0 := rfl

/-- The low bytes of a number, the lowest one first. -/
theorem number_lowBytes (x n : ℕ) :
    number ((List.range n).map fun i => UInt8.ofNat (x / 256 ^ i)).reverse = x % 256 ^ n := by
  induction n with
  | zero => simp [Nat.mod_one]
  | succ n ih =>
    have hbyte : (UInt8.ofNat (x / 256 ^ n)).toNat = x / 256 ^ n % 256 := UInt8.toNat_ofNat'
    rw [List.range_succ, List.map_append, List.reverse_append, List.map_singleton,
      List.reverse_singleton, List.singleton_append, number_cons, ih, hbyte, List.length_reverse,
      List.length_map, List.length_range, Nat.mod_pow_succ, Nat.mul_comm, Nat.add_comm]

theorem load_store (h : x < 2 ^ 64) : load host (store host x) = x := by
  have hlow : number (lowFirst x).reverse = x := by
    rw [lowFirst, number_lowBytes]
    exact Nat.mod_eq_of_lt h
  cases host with
  | little => exact hlow
  | big => exact hlow

@[simp] theorem length_store (host : Order) (x : ℕ) : (store host x).length = 8 := by
  cases host <;> simp [store, lowFirst]

/-- What the program makes of eight bytes from the wire. -/
theorem ntohll_load (h : bs.length = 8) : htonll host (load host bs) = number bs := by
  cases host with
  | big => exact htonll_big _
  | little =>
    match bs, h with
    | [s, t, u, v, w, p, q, r], _ =>
      have hs := s.toNat_lt
      have ht := t.toNat_lt
      have hu := u.toNat_lt
      have hv := v.toNat_lt
      have hw := w.toNat_lt
      have hp := p.toNat_lt
      have hq := q.toNat_lt
      have hr := r.toNat_lt
      have hmod : load .little [s, t, u, v, w, p, q, r] % 2 ^ 32 =
          s.toNat + 256 * t.toNat + 2 ^ 16 * u.toNat + 2 ^ 24 * v.toNat := by
        simp [load, number_cons]
        omega
      have hdiv : load .little [s, t, u, v, w, p, q, r] / 2 ^ 32 =
          w.toNat + 256 * p.toNat + 2 ^ 16 * q.toNat + 2 ^ 24 * r.toNat := by
        simp [load, number_cons]
        omega
      rw [htonll_little, hmod, hdiv, swap32_bytes hs ht hu hv, swap32_bytes hw hp hq hr]
      simp [number_cons]
      omega

/-- A number sent in network order is the number received. -/
theorem number_store (h : x < 2 ^ 64) : number (store host (htonll host x)) = x := by
  have hload : htonll host (load host (store host (htonll host x))) =
      number (store host (htonll host x)) :=
    ntohll_load (length_store _ _)
  rw [← hload, load_store (htonll_lt h), htonll_htonll h]

theorem number_eq_zero : number bs = 0 ↔ ∀ v ∈ bs, v = 0 := by
  induction bs with
  | nil => simp
  | cons v bs ih =>
    have hpow : 256 ^ bs.length ≠ 0 := by simp
    rw [number_cons, Nat.add_eq_zero_iff, mul_eq_zero, or_iff_left hpow, ih, List.forall_mem_cons,
      ← UInt8.toNat_inj]
    rfl

end ByteOrder
