import Mathlib.Logic.Basic

/-! Computations of a program that can end in a fault: a failed assertion, an
access through an invalid pointer, or a loop that does not end in its bound. -/

namespace Checked

inductive Fault where
  | assertion
  | badPointer
  | unfinished
deriving DecidableEq, Repr

abbrev Result (α : Type) := Except Fault α

def check (p : Prop) [Decidable p] : Result Unit := if p then .ok () else .error .assertion

@[simp] theorem ok_bind {α β : Type} (a : α) (f : α → Result β) :
    ((Except.ok a : Result α) >>= f) = f a := rfl

@[simp] theorem error_bind {α β : Type} (e : Fault) (f : α → Result β) :
    ((Except.error e : Result α) >>= f) = .error e := rfl

@[simp] theorem pure_eq_ok {α : Type} (a : α) : (pure a : Result α) = .ok a := rfl

theorem check_ok {p : Prop} [Decidable p] (h : p) : check p = .ok () := if_pos h

theorem bind_eq_ok {α β : Type} {x : Result α} {f : α → Result β} {b : β} :
    (x >>= f) = .ok b ↔ ∃ a, x = .ok a ∧ f a = .ok b := by
  cases x with
  | ok a => simp
  | error e => simp

theorem of_check {p : Prop} [Decidable p] {u : Unit} (h : check p = .ok u) : p := by
  unfold check at h
  split at h
  · assumption
  · cases h

/-- A result of the computation meets `Q`; whether it may end in a fault is `fault`. -/
def Ensures {α : Type} (fault : Prop) (Q : α → Prop) : Result α → Prop
  | .ok a => Q a
  | .error _ => fault

theorem Ensures.bind {α β : Type} {fault : Prop} {Q : α → Prop} {R : β → Prop} {x : Result α}
    {f : α → Result β} (hx : Ensures fault Q x)
    (hf : ∀ a, x = .ok a → Q a → Ensures fault R (f a)) : Ensures fault R (x >>= f) := by
  cases x with
  | ok a => exact hf a rfl hx
  | error e => exact hx

theorem ensures_false {α : Type} {Q : α → Prop} {x : Result α} :
    Ensures False Q x ↔ ∃ a, x = .ok a ∧ Q a := by
  cases x with
  | ok a => simp [Ensures]
  | error e => simp [Ensures]

theorem ensures_true {α : Type} {Q : α → Prop} {x : Result α} :
    Ensures True Q x ↔ ∀ a, x = .ok a → Q a := by
  cases x with
  | ok a => simp [Ensures]
  | error e => simp [Ensures]

/-- The computation does not run out of its bound. -/
def Finishes {α : Type} (x : Result α) : Prop := x ≠ .error .unfinished

theorem finishes_ok {α : Type} (a : α) : Finishes (.ok a : Result α) := by
  intro h
  cases h

theorem Finishes.bind {α β : Type} {x : Result α} {f : α → Result β} (hx : Finishes x)
    (hf : ∀ a, x = .ok a → Finishes (f a)) : Finishes (x >>= f) := by
  cases x with
  | ok a => exact hf a rfl
  | error e =>
    intro h
    exact hx (by rw [Except.error.inj h])

theorem Finishes.foldlM {α β : Type} {f : β → α → Result β} (hf : ∀ b a, Finishes (f b a)) :
    ∀ (l : List α) (b : β), Finishes (l.foldlM f b) := by
  intro l
  induction l with
  | nil => exact fun b => finishes_ok b
  | cons a l ih =>
    intro b
    rw [List.foldlM_cons]
    exact (hf b a).bind fun b' _ => ih b'

/-- Two computations end in the same fault, or in results that `R` relates. -/
inductive Related {α β : Type} (R : α → β → Prop) : Result α → Result β → Prop
  | ok {a : α} {b : β} : R a b → Related R (.ok a) (.ok b)
  | error (e : Fault) : Related R (.error e) (.error e)

theorem Related.bind {α β γ δ : Type} {R : α → β → Prop} {S : γ → δ → Prop} {x : Result α}
    {y : Result β} {f : α → Result γ} {g : β → Result δ} (h : Related R x y)
    (hf : ∀ a b, R a b → Related S (f a) (g b)) : Related S (x >>= f) (y >>= g) := by
  cases h with
  | ok hab => exact hf _ _ hab
  | error e => exact .error e

theorem Related.imp {α β : Type} {R S : α → β → Prop} {x : Result α} {y : Result β}
    (h : Related R x y) (hRS : ∀ a b, R a b → S a b) : Related S x y := by
  cases h with
  | ok hab => exact .ok (hRS _ _ hab)
  | error e => exact .error e

/-- Two loops over the same list, each round of which keeps the relation. -/
theorem Related.foldlM {α β γ : Type} {R : α → β → Prop} {f : α → γ → Result α}
    {g : β → γ → Result β} {l : List γ}
    (hf : ∀ c ∈ l, ∀ a b, R a b → Related R (f a c) (g b c)) {a : α} {b : β} (h : R a b) :
    Related R (l.foldlM f a) (l.foldlM g b) := by
  induction l generalizing a b with
  | nil => exact .ok h
  | cons c l ih =>
    rw [List.foldlM_cons, List.foldlM_cons]
    exact (hf c List.mem_cons_self a b h).bind fun a' b' hab =>
      ih (fun d hd => hf d (List.mem_cons_of_mem _ hd)) hab

theorem related_bind_same {α γ δ : Type} {S : γ → δ → Prop} (x : Result α) {f : α → Result γ}
    {g : α → Result δ} (hf : ∀ a, x = .ok a → Related S (f a) (g a)) :
    Related S (x >>= f) (x >>= g) := by
  cases x with
  | ok a => exact hf a rfl
  | error e => exact .error e

end Checked
