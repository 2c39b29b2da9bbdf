import Mathlib.Data.List.Basic
import Mathlib.Logic.Function.Basic
import Mathlib.Logic.Relation
import EchoFs.Library.Transition

/-! Threads that take mutexes, as trees of lock, unlock and test instructions, and the
rule of a global order: if every thread takes a mutex only above those it holds, no
threads wait for each other in a cycle. -/

namespace LockOrder
open Transition Relation

/-- What a thread still has to do. A test looks at the shared data. -/
inductive Code (μ β : Type*) where
  | stop
  | lock (m : μ) (next : Code μ β)
  | unlock (m : μ) (next : Code μ β)
  | test (b : β) (yes no : Code μ β)

structure State (ι μ β σ : Type*) where
  holder : μ → Option ι
  code : ι → Code μ β
  data : σ

variable {ι μ β σ : Type*} [DecidableEq ι] [DecidableEq μ]

def State.goto (s : State ι μ β σ) (i : ι) (c : Code μ β) : State ι μ β σ :=
  { s with code := Function.update s.code i c }

def State.setHolder (s : State ι μ β σ) (m : μ) (h : Option ι) : State ι μ β σ :=
  { s with holder := Function.update s.holder m h }

inductive Event (ι μ β : Type*) where
  | start (i : ι)
  | acquire (i : ι) (m : μ)
  | release (i : ι) (m : μ)
  | test (i : ι) (b : β)
  | edit (i : ι)

/-- A thread starts one of the programs, runs its instructions, and may change the data
while it holds a mutex. -/
inductive Step (programs : Code μ β → Prop) (eval : β → σ → Bool) :
    State ι μ β σ → Event ι μ β → State ι μ β σ → Prop
  | start {s : State ι μ β σ} {i : ι} {c : Code μ β} (h : s.code i = .stop) (hc : programs c) :
      Step programs eval s (.start i) (s.goto i c)
  | acquire {s : State ι μ β σ} {i : ι} {m : μ} {c : Code μ β} (h : s.code i = .lock m c)
      (hfree : s.holder m = none) :
      Step programs eval s (.acquire i m) ((s.setHolder m (some i)).goto i c)
  | release {s : State ι μ β σ} {i : ι} {m : μ} {c : Code μ β} (h : s.code i = .unlock m c) :
      Step programs eval s (.release i m) ((s.setHolder m none).goto i c)
  | test {s : State ι μ β σ} {i : ι} {b : β} {yes no : Code μ β} (h : s.code i = .test b yes no) :
      Step programs eval s (.test i b) (s.goto i (if eval b s.data then yes else no))
  | edit {s : State ι μ β σ} {i : ι} {m : μ} (h : s.holder m = some i) (d : σ) :
      Step programs eval s (.edit i) { s with data := d }

/-- With the mutexes `held`, the code takes mutexes in the order of their rank and gives
back what it holds, on every branch that `ok` admits. -/
def Ordered (rank : μ → Nat) (ok : β → Bool → Prop) : List μ → Code μ β → Prop
  | held, .stop => held = []
  | held, .lock m next => (∀ h ∈ held, rank h < rank m) ∧ Ordered rank ok (m :: held) next
  | held, .unlock m next => m ∈ held ∧ Ordered rank ok (held.erase m) next
  | held, .test b yes no => (ok b true → Ordered rank ok held yes) ∧
      (ok b false → Ordered rank ok held no)

/-- The thread `i` waits for a mutex that `j` holds. -/
def WaitsFor (s : State ι μ β σ) (i j : ι) : Prop :=
  ∃ m c, s.code i = .lock m c ∧ s.holder m = some j

/-- Every thread holds exactly the mutexes its code accounts for. -/
def Inv (rank : μ → Nat) (ok : β → Bool → Prop) (s : State ι μ β σ) : Prop :=
  ∀ i, ∃ held : List μ, held.Nodup ∧ (∀ m, m ∈ held ↔ s.holder m = some i) ∧
    Ordered rank ok held (s.code i)

variable {rank : μ → Nat} {ok : β → Bool → Prop} {programs : Code μ β → Prop}
  {eval : β → σ → Bool} {s s' : State ι μ β σ} {e : Event ι μ β}

/-- The tests go as `ok` admits. -/
def Admits (ok : β → Bool → Prop) (eval : β → σ → Bool) (s : State ι μ β σ) :
    Event ι μ β → Prop
  | .test _ b => ok b (eval b s.data)
  | _ => True

section Fields
variable {i j : ι} {m m' : μ} {c : Code μ β} {h : Option ι}

omit [DecidableEq μ] in
@[simp] theorem goto_self : (s.goto i c).code i = c := Function.update_self ..

omit [DecidableEq μ] in
theorem goto_ne (hj : j ≠ i) : (s.goto i c).code j = s.code j := Function.update_of_ne hj ..

omit [DecidableEq μ] in
@[simp] theorem goto_holder : (s.goto i c).holder = s.holder := rfl

omit [DecidableEq ι] in
@[simp] theorem setHolder_self : (s.setHolder m h).holder m = h := Function.update_self ..

omit [DecidableEq ι] in
theorem setHolder_ne (hm : m' ≠ m) : (s.setHolder m h).holder m' = s.holder m' :=
  Function.update_of_ne hm ..

omit [DecidableEq ι] in
@[simp] theorem setHolder_code : (s.setHolder m h).code = s.code := rfl

end Fields

theorem Inv.goto (h : Inv rank ok s) {i : ι} {c : Code μ β}
    (hc : ∀ held, Ordered rank ok held (s.code i) → Ordered rank ok held c) :
    Inv rank ok (s.goto i c) := by
  intro j
  obtain ⟨held, hnd, hmem, hord⟩ := h j
  refine ⟨held, hnd, hmem, ?_⟩
  by_cases hj : j = i
  · subst hj
    rw [goto_self]
    exact hc held hord
  · rw [goto_ne hj]
    exact hord

theorem Inv.acquire (h : Inv rank ok s) {i : ι} {m : μ} {c : Code μ β}
    (hcode : s.code i = .lock m c) (hfree : s.holder m = none) :
    Inv rank ok ((s.setHolder m (some i)).goto i c) := by
  intro j
  obtain ⟨held, hnd, hmem, hord⟩ := h j
  have hm : m ∉ held := by
    rw [hmem, hfree]
    simp
  by_cases hj : j = i
  · subst hj
    rw [hcode] at hord
    refine ⟨m :: held, List.nodup_cons.mpr ⟨hm, hnd⟩, fun m' => ?_, ?_⟩
    · rw [goto_holder]
      by_cases hm' : m' = m
      · subst hm'
        simp
      · rw [setHolder_ne hm', ← hmem, List.mem_cons, or_iff_right hm']
    · rw [goto_self]
      exact hord.2
  · refine ⟨held, hnd, fun m' => ?_, ?_⟩
    · rw [goto_holder]
      by_cases hm' : m' = m
      · subst hm'
        simp only [setHolder_self, hm, false_iff, Option.some.injEq]
        exact fun hij => hj hij.symm
      · rw [setHolder_ne hm', hmem]
    · rw [goto_ne hj]
      exact hord

theorem Inv.release (h : Inv rank ok s) {i : ι} {m : μ} {c : Code μ β}
    (hcode : s.code i = .unlock m c) : Inv rank ok ((s.setHolder m none).goto i c) := by
  obtain ⟨heldᵢ, -, hmemᵢ, hordᵢ⟩ := h i
  rw [hcode] at hordᵢ
  have hholder : s.holder m = some i := (hmemᵢ m).mp hordᵢ.1
  intro j
  obtain ⟨held, hnd, hmem, hord⟩ := h j
  by_cases hj : j = i
  · subst hj
    rw [hcode] at hord
    refine ⟨held.erase m, hnd.erase m, fun m' => ?_, ?_⟩
    · rw [hnd.mem_erase_iff, goto_holder]
      by_cases hm' : m' = m
      · subst hm'
        simp
      · rw [setHolder_ne hm', ← hmem, and_iff_right hm']
    · rw [goto_self]
      exact hord.2
  · refine ⟨held, hnd, fun m' => ?_, ?_⟩
    · rw [hmem, goto_holder]
      by_cases hm' : m' = m
      · subst hm'
        simp only [hholder, setHolder_self, Option.some.injEq, reduceCtorEq, iff_false]
        exact fun hij => hj hij.symm
      · rw [setHolder_ne hm']
    · rw [goto_ne hj]
      exact hord

theorem Inv.step (hprog : ∀ c, programs c → Ordered rank ok [] c) (h : Inv rank ok s)
    (hok : Admits ok eval s e) (hstep : Step programs eval s e s') : Inv rank ok s' := by
  cases hstep with
  | start hcode hc =>
    apply h.goto
    intro held hord
    rw [hcode] at hord
    obtain rfl : held = [] := hord
    exact hprog _ hc
  | acquire hcode hfree => exact h.acquire hcode hfree
  | release hcode => exact h.release hcode
  | @test i b yes no hcode =>
    apply h.goto
    intro held hord
    rw [hcode] at hord
    have hok : ok b (eval b s.data) := hok
    cases hb : eval b s.data with
    | true => exact hord.1 (hb ▸ hok)
    | false => exact hord.2 (hb ▸ hok)
  | edit => exact h

omit [DecidableEq ι] in
/-- Along a chain of waiting threads the rank of the awaited mutex grows. -/
theorem Inv.rank_lt (h : Inv rank ok s) {i j : ι} (hij : TransGen (WaitsFor s) i j) {m m' : μ}
    {c c' : Code μ β} (hi : s.code i = .lock m c) (hj : s.code j = .lock m' c') :
    rank m < rank m' := by
  have hone : ∀ {k l : ι} {n n' : μ} {d d' : Code μ β}, WaitsFor s k l → s.code k = .lock n d →
      s.code l = .lock n' d' → rank n < rank n' := by
    intro k l n n' d d' hkl hk hl
    obtain ⟨x, y, hx, hholder⟩ := hkl
    obtain ⟨rfl, rfl⟩ : n = x ∧ d = y := by
      rw [hk] at hx
      exact ⟨(Code.lock.inj hx).1, (Code.lock.inj hx).2⟩
    obtain ⟨held, -, hmem, hord⟩ := h l
    rw [hl] at hord
    exact hord.1 n ((hmem n).mpr hholder)
  induction hij generalizing m' c' with
  | single hij => exact hone hij hi hj
  | tail hik hkj ih =>
    obtain ⟨x, y, hx, hholder⟩ := hkj
    exact Nat.lt_trans (ih hx) (hone ⟨x, y, hx, hholder⟩ hx hj)

omit [DecidableEq ι] in
theorem Inv.no_cycle (h : Inv rank ok s) (i : ι) : ¬TransGen (WaitsFor s) i i := by
  intro hi
  obtain ⟨j, ⟨m, c, hm, -⟩, -⟩ := TransGen.head'_iff.mp hi
  exact absurd (h.rank_lt hi hm hm) (Nat.lt_irrefl _)

end LockOrder
