import Mathlib.Order.Defs.Unbundled
import EchoFs.Library.Checked

/-! Computations on a state that an exception can leave. Nothing is undone then: the state
is what the computation had made of it up to the exception. -/

namespace Throws
open Checked

/-- The value is `none` when an exception leaves the computation. -/
def Comp (σ α : Type) : Type := σ → Result (Option α × σ)

variable {σ α β : Type}

namespace Comp

def andThen (x : Comp σ α) (f : α → Comp σ β) : Comp σ β := fun s =>
  match x s with
  | .error e => .error e
  | .ok (none, s') => .ok (none, s')
  | .ok (some a, s') => f a s'

instance : Monad (Comp σ) where
  pure a := fun s => .ok (some a, s)
  bind := andThen

/-- The part of the state a computation reads. -/
def read (f : σ → α) : Comp σ α := fun s => .ok (some (f s), s)

def modify (f : σ → σ) : Comp σ Unit := fun s => .ok (some (), f s)

/-- A computation that does not throw and does not look at the state. -/
def lift (x : Result α) : Comp σ α := fun s => x.map fun a => (some a, s)

def throw : Comp σ α := fun s => .ok (none, s)

/-- Every result, normal or not, leaves a state that `R` relates to the first one. -/
def Keeps (R : σ → σ → Prop) (x : Comp σ α) : Prop := ∀ s v s', x s = .ok (v, s') → R s s'

/-- No exception leaves the computation. -/
def Nothrow (x : Comp σ α) : Prop := ∀ s v s', x s = .ok (v, s') → v.isSome = true

variable {R : σ → σ → Prop} {x : Comp σ α} {f : α → Comp σ β} {s s' : σ}

theorem bind_apply (x : Comp σ α) (f : α → Comp σ β) (s : σ) : (x >>= f) s =
    match x s with
    | .error e => .error e
    | .ok (none, s') => .ok (none, s')
    | .ok (some a, s') => f a s' := rfl

theorem bind_some {a : α} (h : x s = .ok (some a, s')) : (x >>= f) s = f a s' := by
  rw [bind_apply, h]

theorem bind_error {e : Fault} (h : x s = .error e) : (x >>= f) s = .error e := by
  rw [bind_apply, h]

/-- An exception comes from the first part, or from the second after the first returned. -/
theorem bind_cases {v : Option β} (h : (x >>= f) s = .ok (v, s')) :
    v = none ∧ x s = .ok (none, s') ∨
      ∃ a s₁, x s = .ok (some a, s₁) ∧ f a s₁ = .ok (v, s') := by
  rw [bind_apply] at h
  split at h
  · cases h
  · cases h
    exact .inl ⟨rfl, ‹_›⟩
  · exact .inr ⟨_, _, ‹_›, h⟩

theorem lift_returns {y : Result α} {v : Option α} (h : (lift y : Comp σ α) s = .ok (v, s')) :
    s' = s ∧ ∃ a, v = some a ∧ y = .ok a := by
  cases y with
  | error e => cases h
  | ok a =>
    cases h
    exact ⟨rfl, a, rfl, rfl⟩

theorem bind_throws (hx : Nothrow x) (h : (x >>= f) s = .ok (none, s')) :
    ∃ a s₁, x s = .ok (some a, s₁) ∧ f a s₁ = .ok (none, s') := by
  rcases bind_cases h with ⟨-, h⟩ | h
  · cases hx _ _ _ h
  · exact h

theorem nothrow_read (g : σ → α) : Nothrow (read g) := by
  intro s v s' h
  cases h
  rfl

theorem nothrow_lift (y : Result α) : Nothrow (lift y : Comp σ α) := by
  intro s v s' h
  obtain ⟨-, a, rfl, -⟩ := lift_returns h
  rfl

theorem Keeps.bind [IsTrans σ R] (hx : Keeps R x) (hf : ∀ a, Keeps R (f a)) :
    Keeps R (x >>= f) := by
  intro s v s' h
  rcases bind_cases h with ⟨-, h⟩ | ⟨a, s₁, hx', h⟩
  · exact hx s none s' h
  · exact trans_of R (hx s _ _ hx') (hf a _ _ _ h)

section
variable [Std.Refl R]

theorem Keeps.ret (a : α) : Keeps R (pure a : Comp σ α) := by
  intro s v s' h
  cases h
  exact refl_of R s

theorem Keeps.lift (y : Result α) : Keeps R (lift y : Comp σ α) := by
  intro s v s' h
  rw [(lift_returns h).1]
  exact refl_of R s

theorem Keeps.read (f : σ → α) : Keeps R (read f) := by
  intro s v s' h
  cases h
  exact refl_of R s

end

end Comp
end Throws
