import EchoFs.Library.Checked

/-! Loops of a program: a body that goes on with a new state or returns, run with a bound
on its rounds. -/

namespace Checked
variable {σ τ : Type} {body : σ → Result (σ ⊕ τ)} {x y : σ} {I : Nat → σ → Prop} {Q : τ → Prop}

/-- Run `body` until it returns. -/
def loop (body : σ → Result (σ ⊕ τ)) : Nat → σ → Result τ
  | 0, _ => .error .unfinished
  | fuel + 1, x => body x >>= Sum.elim (loop body fuel) .ok

/-- The states at the head of the loop, from `x` on. -/
inductive Passes (body : σ → Result (σ ⊕ τ)) (x : σ) : σ → Prop
  | start : Passes body x x
  | next {y z : σ} : Passes body x y → body y = .ok (.inl z) → Passes body x z

theorem loop_next (h : body x = .ok (.inl y)) (fuel : Nat) :
    loop body (fuel + 1) x = loop body fuel y := by
  rw [loop, h]
  rfl

theorem loop_return {r : τ} (h : body x = .ok (.inr r)) (fuel : Nat) :
    loop body (fuel + 1) x = .ok r := by
  rw [loop, h]
  rfl

theorem loop_error {e : Fault} (h : body x = .error e) (fuel : Nat) :
    loop body (fuel + 1) x = .error e := by
  rw [loop, h]
  rfl

/-- From a state with `I n`, the body goes on to one with `I m` for a smaller `m`, or it
returns a result that meets `Q`. -/
def Descends (body : σ → Result (σ ⊕ τ)) (I : Nat → σ → Prop) (Q : τ → Prop) : Prop :=
  ∀ n x, I n x → (∃ m < n, ∃ y, body x = .ok (.inl y) ∧ I m y) ∨
    ∃ r, body x = .ok (.inr r) ∧ Q r

theorem Descends.passes (h : Descends body I Q) {n : Nat} (hx : I n x) (hy : Passes body x y) :
    ∃ m, I m y := by
  induction hy with
  | start => exact ⟨n, hx⟩
  | next _ hbody ih =>
    obtain ⟨m, hm⟩ := ih
    rcases h m _ hm with ⟨m', -, y', hy', hI⟩ | ⟨r, hr, -⟩
    · rw [hy'] at hbody
      obtain rfl := Sum.inl.inj (Except.ok.inj hbody)
      exact ⟨m', hI⟩
    · rw [hr] at hbody
      cases hbody

theorem Descends.loop (h : Descends body I Q) (fuel : Nat) :
    ∀ {n : Nat} {x : σ}, I n x → n < fuel → ∃ r, loop body fuel x = .ok r ∧ Q r := by
  induction fuel with
  | zero =>
    intro n x _ hn
    exact absurd hn (Nat.not_lt_zero n)
  | succ fuel ih =>
    intro n x hx hn
    rcases h n x hx with ⟨m, hm, y, hy, hI⟩ | ⟨r, hr, hQ⟩
    · rw [loop_next hy]
      exact ih hI (by omega)
    · exact ⟨r, loop_return hr fuel, hQ⟩

end Checked
