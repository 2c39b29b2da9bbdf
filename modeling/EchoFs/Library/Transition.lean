import Mathlib.Data.List.Basic
import Mathlib.Logic.Relation

/-! Reachable states of a labelled transition system, its runs with the labels
they go through, and the invariant rules every safety result goes through. -/

namespace Transition
variable {σ ε : Type*}

/-- States reachable from `init` by steps of `step`. -/
inductive Reach (init : σ → Prop) (step : σ → ε → σ → Prop) : σ → Prop
  | start {s : σ} : init s → Reach init step s
  | next {s s' : σ} {e : ε} : Reach init step s → step s e s' → Reach init step s'

theorem Reach.invariant {init : σ → Prop} {step : σ → ε → σ → Prop} {I : σ → Prop}
    (h₀ : ∀ s, init s → I s) (hs : ∀ s e s', I s → step s e s' → I s')
    {s : σ} (h : Reach init step s) : I s := by
  induction h with
  | start hi => exact h₀ _ hi
  | next _ hstep ih => exact hs _ _ _ ih hstep

/-- The steps of `step` that meet a condition on the state before the step. -/
def Guarded (step : σ → ε → σ → Prop) (ok : σ → ε → Prop) : σ → ε → σ → Prop :=
  fun s e s' => ok s e ∧ step s e s'

/-- A run from `s` with its labels, the last one at the end of the list. -/
inductive Run (step : σ → ε → σ → Prop) (s : σ) : List ε → σ → Prop
  | nil : Run step s [] s
  | snoc {l : List ε} {s' s'' : σ} {e : ε} :
      Run step s l s' → step s' e s'' → Run step s (l ++ [e]) s''

theorem Run.invariant {step : σ → ε → σ → Prop} {I : List ε → σ → Prop} {s : σ} (h₀ : I [] s)
    (hs : ∀ l s' e s'', I l s' → step s' e s'' → I (l ++ [e]) s'')
    {l : List ε} {s' : σ} (h : Run step s l s') : I l s' := by
  induction h with
  | nil => exact h₀
  | snoc _ hstep ih => exact hs _ _ _ _ ih hstep

theorem Run.trans {step : σ → ε → σ → Prop} {s s' s'' : σ} {l l' : List ε} (h : Run step s l s')
    (h' : Run step s' l' s'') : Run step s (l ++ l') s'' := by
  induction h' with
  | nil => rwa [List.append_nil]
  | snoc _ hstep ih =>
    rw [← List.append_assoc]
    exact ih.snoc hstep

theorem Run.reach {init : σ → Prop} {step : σ → ε → σ → Prop} {s : σ} (hs : init s) {l : List ε}
    {s' : σ} (h : Run step s l s') : Reach init step s' :=
  h.invariant (I := fun _ s' => Reach init step s') (.start hs) fun _ _ _ _ hr hstep =>
    .next hr hstep

/-- Where each step that counts uses up some of `μ`, and no step adds to it, a run has at most
`μ` such steps. -/
theorem Run.countP_add_le {step : σ → ε → σ → Prop} {I : σ → Prop} {μ : σ → ℕ} {p : ε → Bool}
    (hs : ∀ s e s', I s → step s e s' → I s' ∧ μ s' + (if p e then 1 else 0) ≤ μ s)
    {s : σ} (h₀ : I s) {l : List ε} {s' : σ} (h : Run step s l s') :
    I s' ∧ l.countP p + μ s' ≤ μ s := by
  refine h.invariant (I := fun l s' => I s' ∧ l.countP p + μ s' ≤ μ s)
    ⟨h₀, Nat.le_of_eq (Nat.zero_add _)⟩ ?_
  rintro l s' e s'' ⟨hI, hle⟩ hstep
  obtain ⟨hI', hle'⟩ := hs s' e s'' hI hstep
  refine ⟨hI', ?_⟩
  have hcount : (l ++ [e]).countP p = l.countP p + if p e then 1 else 0 := by
    rw [List.countP_append, List.countP_singleton]
  omega

end Transition
