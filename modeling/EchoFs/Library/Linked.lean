import Mathlib.Data.List.Perm.Subperm
import Mathlib.Logic.Function.Basic

/-! Doubly linked lists in memory: cells with data and pointers to both neighbours,
and what the stores of a program do to a list of them. -/

namespace Linked

structure Cell (δ : Type*) where
  data : δ
  prev : Option Nat
  next : Option Nat

variable {δ : Type*}

/-- The address a pointer to the front of the list holds, `q` if the list is empty. -/
def first (l : List (Nat × δ)) (q : Option Nat) : Option Nat :=
  match l with
  | [] => q
  | e :: _ => some e.1

def last (p : Option Nat) : List (Nat × δ) → Option Nat
  | [] => p
  | e :: l => last (some e.1) l

abbrev addrs (l : List (Nat × δ)) : List Nat := l.map Prod.fst

/-- The cells of the list are linked both ways, between `p` and `q`. -/
def Links (mem : Nat → Option (Cell δ)) : Option Nat → List (Nat × δ) → Option Nat → Prop
  | _, [], _ => True
  | p, e :: l, q => mem e.1 = some ⟨e.2, p, first l q⟩ ∧ Links mem (some e.1) l q

variable {mem mem' : Nat → Option (Cell δ)} {p p' q q' : Option Nat} {l m : List (Nat × δ)}
  {e : Nat × δ} {d : δ}

@[simp] theorem first_nil : first ([] : List (Nat × δ)) q = q := rfl

@[simp] theorem first_cons : first (e :: l) q = some e.1 := rfl

@[simp] theorem last_nil : last p ([] : List (Nat × δ)) = p := rfl

@[simp] theorem last_cons : last p (e :: l) = last (some e.1) l := rfl

theorem first_append : first (l ++ m) q = first l (first m q) := by
  cases l <;> rfl

theorem last_append : last p (l ++ m) = last (last p l) m := by
  induction l generalizing p with
  | nil => rfl
  | cons e l ih => exact ih

@[simp] theorem last_snoc : last p (l ++ [e]) = some e.1 := by
  rw [last_append]
  rfl

theorem links_append : Links mem p (l ++ m) q ↔
    Links mem p l (first m q) ∧ Links mem (last p l) m q := by
  induction l generalizing p with
  | nil => simp [Links]
  | cons e l ih => simp only [List.cons_append, Links, first_append, ih, last_cons, and_assoc]

theorem links_snoc : Links mem p (l ++ [e]) q ↔
    Links mem p l (some e.1) ∧ mem e.1 = some ⟨e.2, last p l, q⟩ := by
  rw [links_append]
  simp [Links]

theorem Links.cell (h : Links mem p (l ++ e :: m) q) :
    mem e.1 = some ⟨e.2, last p l, first m q⟩ := (links_append.mp h).2.1

theorem Links.frame (h : Links mem p l q) (heq : ∀ a ∈ addrs l, mem' a = mem a) :
    Links mem' p l q := by
  induction l generalizing p with
  | nil => trivial
  | cons e l ih =>
    refine ⟨?_, ih h.2 fun a ha => heq a (List.mem_cons_of_mem _ ha)⟩
    rw [heq e.1 List.mem_cons_self]
    exact h.1

theorem Links.update_of_notMem (h : Links mem p l q) {a : Nat} (ha : a ∉ addrs l)
    (c : Option (Cell δ)) : Links (Function.update mem a c) p l q :=
  h.frame fun _ hb => Function.update_of_ne (ne_of_mem_of_not_mem hb ha) _ _

/-- The last cell gets another successor. -/
theorem Links.setNext (h : Links mem p (l ++ [e]) q)
    (hmem : mem' e.1 = some ⟨e.2, last p l, q'⟩) (heq : ∀ a ∈ addrs l, mem' a = mem a) :
    Links mem' p (l ++ [e]) q' :=
  links_snoc.mpr ⟨(links_snoc.mp h).1.frame heq, hmem⟩

/-- The first cell gets another predecessor. -/
theorem Links.setPrev (h : Links mem p (e :: l) q)
    (hmem : mem' e.1 = some ⟨e.2, p', first l q⟩) (heq : ∀ a ∈ addrs l, mem' a = mem a) :
    Links mem' p' (e :: l) q :=
  ⟨hmem, h.2.frame heq⟩

/-- The cells of a list without repetition are no more than the addresses in use. -/
theorem length_le_of_nodup {n : Nat} (h : (addrs l).Nodup) (hlt : ∀ a ∈ addrs l, a < n) :
    l.length ≤ n := by
  have hsub : addrs l ⊆ List.range n := fun a ha => List.mem_range.mpr (hlt a ha)
  have hle := (h.subperm hsub).length_le
  simpa using hle

end Linked
