import Mathlib.Algebra.BigOperators.Group.Finset.Piecewise
import Mathlib.Algebra.Order.BigOperators.Group.Finset
import EchoFs.Api.ThreadPool

/-! The order in which the workers take the tasks, and how the call of `stop` comes to its
end. -/

namespace EchoFs.Api.ThreadPool
open Finset Transition
variable {ι τ : Type} [DecidableEq ι] {s s' : Pool ι τ} {i : ι} {t u : τ} {w : Worker τ}

/-! ### Tasks start in the order in which they are submitted -/

/-- The workers have taken the tasks that came first. -/
structure Pool.InOrder (s : Pool ι τ) : Prop where
  distinct : s.submitted.Nodup
  taken : ∃ taken, s.submitted = taken ++ s.mQueue

theorem Pool.InOrder.step (h : s.InOrder) (hstep : Step s () s') : s'.InOrder := by
  obtain ⟨hdistinct, taken, htaken⟩ := h
  cases hstep with
  | push t hnew =>
    refine ⟨?_, taken, ?_⟩
    · rw [List.nodup_append]
      exact ⟨hdistinct, List.nodup_singleton t, fun a ha b hb =>
        List.mem_singleton.mp hb ▸ ne_of_mem_of_not_mem ha hnew⟩
    · rw [htaken, List.append_assoc]
  | @pop _ t q _ _ hq =>
    refine ⟨hdistinct, taken ++ [t], ?_⟩
    calc s.submitted = taken ++ s.mQueue := htaken
      _ = taken ++ t :: q := by rw [hq]
      _ = taken ++ [t] ++ q := List.append_cons ..
  | test => exact ⟨hdistinct, taken, htaken⟩
  | popNone => exact ⟨hdistinct, taken, htaken⟩
  | execute => exact ⟨hdistinct, taken, htaken⟩
  | callStop => exact ⟨hdistinct, taken, htaken⟩
  | setDone => exact ⟨hdistinct, taken, htaken⟩
  | invalidate => exact ⟨hdistinct, taken, htaken⟩
  | join => exact ⟨hdistinct, taken, htaken⟩

theorem inOrder_of_reachable (h : Reachable s) : s.InOrder := by
  refine h.invariant ?_ fun _ _ _ hs hstep => hs.step hstep
  rintro _ rfl
  exact ⟨List.nodup_nil, [], rfl⟩

/-- Once a task has been taken, every task that was submitted before it has been taken too:
it runs or is finished. -/
theorem tasks_start_in_order (h : Reachable s) {before after : List τ}
    (hsub : s.submitted = before ++ u :: after) (hu : u ∉ s.mQueue) (ht : t ∈ before) :
    t ∉ s.mQueue ∧ (t ∈ s.finished ∨ ∃ i, s.Runs i t) := by
  obtain ⟨hdistinct, taken, htaken⟩ := inOrder_of_reachable h
  have hmem : t ∈ s.submitted := hsub ▸ List.mem_append_left _ ht
  -- the queue is an end of the tasks, and `u` is before it
  have hqueue : t ∉ s.mQueue := by
    intro hq
    rw [hsub, List.append_eq_append_iff] at htaken
    rcases htaken with ⟨l, rfl, hl⟩ | ⟨l, rfl, hl⟩
    · cases l with
      | nil =>
        have hmem : u ∈ [] ++ s.mQueue := hl ▸ List.mem_cons_self
        exact hu hmem
      | cons a l =>
        have hafter : t ∈ u :: after := hl ▸ List.mem_append_right _ hq
        rw [hsub, List.nodup_append] at hdistinct
        exact hdistinct.2.2 t ht t hafter rfl
    · exact hu (hl ▸ List.mem_append_right _ List.mem_cons_self)
  exact ⟨hqueue, ((inv_of_reachable h).1.placed t hmem).resolve_left hqueue⟩

/-- One worker has run the task 7 and is in the task 8. -/
theorem exists_twoTasks : ∃ s : Pool Unit ℕ, Reachable s ∧ s.submitted = [7] ++ 8 :: [] ∧
    s.mQueue = [] ∧ s.finished = [7] ∧ s.workers () = .running 8 := by
  have h₁ : Reachable (_ : Pool Unit ℕ) := .next (.start rfl) (.push 7 (by simp [Pool.init]))
  have h₂ : Reachable (_ : Pool Unit ℕ) := .next h₁ (.push 8 (by simp [Pool.init]))
  have h₃ : Reachable (_ : Pool Unit ℕ) := .next h₂ (.test (i := ()) rfl)
  have h₄ : Reachable (_ : Pool Unit ℕ) := .next h₃ (.pop (i := ()) rfl rfl rfl)
  have h₅ : Reachable (_ : Pool Unit ℕ) := .next h₄ (.execute (i := ()) rfl)
  have h₆ : Reachable (_ : Pool Unit ℕ) := .next h₅ (.test (i := ()) rfl)
  have h₇ : Reachable (_ : Pool Unit ℕ) := .next h₆ (.pop (i := ()) rfl rfl rfl)
  exact ⟨_, h₇, rfl, rfl, rfl, rfl⟩

theorem tasks_start_in_order_twoTasks : ∃ s : Pool Unit ℕ, Reachable s ∧
    s.workers () = .running 8 ∧ 7 ∉ s.mQueue ∧ (7 ∈ s.finished ∨ ∃ i, s.Runs i 7) := by
  obtain ⟨s, h, hsub, hq, -, hrun⟩ := exists_twoTasks
  have hu : 8 ∉ s.mQueue := hq ▸ List.not_mem_nil
  exact ⟨s, h, hrun, tasks_start_in_order h hsub hu (List.mem_singleton_self 7)⟩

/-! ### A single worker -/

/-- The task a worker is in. -/
def Worker.task : Worker τ → List τ
  | running t => [t]
  | _ => []

/-- The tasks are those that are finished, then the one of the worker, then the queue. -/
def Pool.Serial (s : Pool ι τ) (i : ι) : Prop :=
  s.submitted = s.finished ++ (s.workers i).task ++ s.mQueue

theorem Pool.Serial.step [Subsingleton ι] (h : s.Serial i) (hstep : Step s () s') :
    s'.Serial i := by
  unfold Pool.Serial at h
  cases hstep with
  | push t => exact (congrArg (· ++ [t]) h).trans (List.append_assoc ..)
  | @test j hj =>
    obtain rfl := Subsingleton.elim i j
    rw [hj] at h
    unfold Pool.Serial Pool.setWorker
    split_ifs <;> simpa [Worker.task] using h
  | @popNone j hj =>
    obtain rfl := Subsingleton.elim i j
    rw [hj] at h
    simpa [Pool.Serial, Pool.setWorker, Worker.task] using h
  | @pop j t q hj _ hq =>
    obtain rfl := Subsingleton.elim i j
    rw [hj, hq] at h
    simpa [Pool.Serial, Pool.setWorker, Worker.task] using h
  | @execute j t hj =>
    obtain rfl := Subsingleton.elim i j
    rw [hj] at h
    simpa [Pool.Serial, Pool.setWorker, Worker.task] using h
  | callStop => exact h
  | setDone => exact h
  | invalidate => exact h
  | join => exact h

/-- A single worker runs the tasks one after the other, in the order of their submission. -/
theorem single_worker_serial [Subsingleton ι] (h : Reachable s) (i : ι) :
    s.submitted = s.finished ++ (s.workers i).task ++ s.mQueue := by
  refine h.invariant (I := fun s => s.Serial i) ?_ fun _ _ _ hs hstep => hs.step hstep
  rintro _ rfl
  rfl

theorem single_worker_serial_twoTasks : ∃ s : Pool Unit ℕ, Reachable s ∧ s.finished = [7] ∧
    s.submitted = s.finished ++ (s.workers ()).task ++ s.mQueue := by
  obtain ⟨s, h, -, -, hfin, -⟩ := exists_twoTasks
  exact ⟨s, h, hfin, single_worker_serial h ()⟩

/-! ### The end of `stop` -/

/-- How many steps a worker has left when the queue is invalid. -/
def Worker.rank : Worker τ → ℕ
  | testing => 1
  | waiting => 2
  | running _ => 2
  | exited => 0

theorem Worker.rank_le (w : Worker τ) : w.rank ≤ 2 := by
  cases w <;> simp [Worker.rank]

/-- The queue has been invalidated. -/
structure Pool.Closing (s : Pool ι τ) : Prop where
  done : s.mDone = true
  invalid : s.mValid = false
  stop : s.stop = .invalidated ∨ s.stop = .returned

theorem mDone_of_reachable (h : Reachable s)
    (hstop : s.stop = .doneSet ∨ s.stop = .invalidated ∨ s.stop = .returned) : s.mDone = true := by
  refine h.invariant (I := fun s => s.stop = .doneSet ∨ s.stop = .invalidated ∨
    s.stop = .returned → s.mDone = true) ?_ ?_ hstop
  · rintro _ rfl hstop
    simp [Pool.init] at hstop
  · intro s e s' hs hstep
    cases hstep with
    | push => exact hs
    | test => exact hs
    | popNone => exact hs
    | pop => exact hs
    | execute => exact hs
    | callStop => simp
    | setDone => exact fun _ => rfl
    | invalidate hphase => exact fun _ => hs (.inl hphase)
    | join hphase => exact fun _ => hs (.inr (.inl hphase))

section Workers
variable [Fintype ι]

/-- The steps left to the workers, and to `stop` one. -/
def Pool.todo (s : Pool ι τ) : ℕ :=
  (if s.stop = .invalidated then 1 else 0) + ∑ i, (s.workers i).rank

theorem sum_rank_update (workers : ι → Worker τ) (i : ι) (w : Worker τ) :
    ∑ j, (Function.update workers i w j).rank + (workers i).rank =
      ∑ j, (workers j).rank + w.rank := by
  have hrank : ∀ j, (Function.update workers i w j).rank =
      Function.update (fun j => (workers j).rank) i w.rank j := by
    intro j
    by_cases hj : j = i
    · subst hj
      simp
    · simp [hj]
  simp only [hrank]
  rw [sum_update_of_mem (mem_univ i), sdiff_singleton_eq_erase,
    ← add_sum_erase univ (fun j => (workers j).rank) (mem_univ i)]
  omega

theorem Pool.todo_setWorker (s : Pool ι τ) (i : ι) (w : Worker τ) :
    (s.setWorker i w).todo + (s.workers i).rank = s.todo + w.rank := by
  have hsum := sum_rank_update s.workers i w
  calc (s.setWorker i w).todo + (s.workers i).rank
      = (if s.stop = .invalidated then 1 else 0) +
        (∑ j, (Function.update s.workers i w j).rank + (s.workers i).rank) := Nat.add_assoc ..
    _ = (if s.stop = .invalidated then 1 else 0) + (∑ j, (s.workers j).rank + w.rank) := by
        rw [hsum]
    _ = s.todo + w.rank := (Nat.add_assoc ..).symm

omit [DecidableEq ι] in
theorem Pool.todo_le (s : Pool ι τ) : s.todo ≤ 2 * Fintype.card ι + 1 := by
  have hsum : ∑ i, (s.workers i).rank ≤ Fintype.card ι * 2 :=
    sum_le_card_nsmul univ _ 2 fun i _ => (s.workers i).rank_le
  unfold Pool.todo
  split_ifs <;> omega

/-- A worker that moves on has a step less to go. -/
theorem Pool.todo_moved (hw : w.rank + 1 = (s.workers i).rank) :
    (s.setWorker i w).todo + 1 = s.todo := by
  have htodo := s.todo_setWorker i w
  omega

/-- A step that is no push uses up some of what is left. -/
theorem Pool.Closing.step (h : s.Closing) (hstep : Step s () s') : s'.Closing ∧
    s.submitted.length + s'.todo + 1 ≤ s'.submitted.length + s.todo := by
  obtain ⟨hdone, hinvalid, hstop⟩ := h
  cases hstep with
  | push t =>
    refine ⟨⟨hdone, hinvalid, hstop⟩, ?_⟩
    change s.submitted.length + s.todo + 1 ≤ (s.submitted ++ [t]).length + s.todo
    rw [List.length_append, List.length_singleton]
    omega
  | @test i hi =>
    refine ⟨⟨hdone, hinvalid, hstop⟩, ?_⟩
    have hmoved : (Worker.exited : Worker τ).rank + 1 = (s.workers i).rank := by
      rw [hi]
      rfl
    rw [hdone]
    exact Nat.add_le_add_left (Pool.todo_moved hmoved).le s.submitted.length
  | @popNone i hi =>
    refine ⟨⟨hdone, hinvalid, hstop⟩, ?_⟩
    have hmoved : (Worker.testing : Worker τ).rank + 1 = (s.workers i).rank := by
      rw [hi]
      rfl
    exact Nat.add_le_add_left (Pool.todo_moved hmoved).le s.submitted.length
  | pop _ hvalid => cases hinvalid.symm.trans hvalid
  | @execute i t hi =>
    refine ⟨⟨hdone, hinvalid, hstop⟩, ?_⟩
    have hmoved : (Worker.testing : Worker τ).rank + 1 = (s.workers i).rank := by
      rw [hi]
      rfl
    exact Nat.add_le_add_left (Pool.todo_moved hmoved).le s.submitted.length
  | callStop hphase => simp [hphase] at hstop
  | setDone hphase => simp [hphase] at hstop
  | invalidate hphase => simp [hphase] at hstop
  | join hphase =>
    refine ⟨⟨hdone, hinvalid, .inr rfl⟩, ?_⟩
    have htodo : s.todo = 1 + ∑ i, (s.workers i).rank := by
      unfold Pool.todo
      rw [hphase, if_pos rfl]
    have hleft : Pool.todo { s with stop := .returned } = 0 + ∑ i, (s.workers i).rank := rfl
    change s.submitted.length + Pool.todo { s with stop := .returned } + 1 ≤
      s.submitted.length + s.todo
    omega

omit [Fintype ι] in
/-- Until `stop` is back, it can be joined or a worker has a step to go. -/
theorem Pool.Closing.next (h : s.Closing) (hstop : s.stop = .invalidated) :
    ∃ s', Step s () s' ∧ s'.submitted = s.submitted := by
  by_cases hexit : ∀ i, s.workers i = .exited
  · exact ⟨_, .join hstop hexit, rfl⟩
  · obtain ⟨i, hi⟩ := not_forall.mp hexit
    cases hw : s.workers i with
    | testing => exact ⟨_, .test hw, rfl⟩
    | waiting => exact ⟨_, .popNone hw h.invalid, rfl⟩
    | running t => exact ⟨_, .execute hw, rfl⟩
    | exited => exact absurd hw hi

/-- From the moment the queue is invalid there are at most two steps for each worker and one
of `stop`, besides calls that submit tasks, and until `stop` is back there is one to go. -/
theorem stop_returns (h : Reachable s) (hstop : s.stop = .invalidated) {l : List Unit}
    (hrun : Run Step s l s') :
    l.length + s.submitted.length ≤ s'.submitted.length + (2 * Fintype.card ι + 1) ∧
      (s'.stop = .returned ∨ ∃ s'', Step s' () s'' ∧ s''.submitted = s'.submitted) := by
  have hclosing : s.Closing :=
    ⟨mDone_of_reachable h (.inr (.inl hstop)), ((inv_of_reachable h).2.left (.inl hstop)).1,
      .inl hstop⟩
  obtain ⟨hclosing', hle⟩ := hrun.invariant
    (I := fun l s' => s'.Closing ∧
      l.length + s.submitted.length + s'.todo ≤ s'.submitted.length + s.todo)
    ⟨hclosing, by simp⟩ (by
      rintro l s' e s'' ⟨hs', hle⟩ hstep
      obtain ⟨hs'', hle'⟩ := hs'.step hstep
      refine ⟨hs'', ?_⟩
      rw [List.length_append, List.length_singleton]
      omega)
  have hbound := s.todo_le
  refine ⟨by omega, ?_⟩
  rcases hclosing'.stop with hinvalidated | hreturned
  · exact .inr (hclosing'.next hinvalidated)
  · exact .inl hreturned

end Workers

/-- The queue of the pool is invalid before its worker has started. -/
def closedEarly : Pool Unit ℕ := ⟨true, false, [], fun _ => .testing, .invalidated, [], [], [], []⟩

theorem closedEarly_reachable : Reachable closedEarly := by
  have h₁ : Reachable (_ : Pool Unit ℕ) := .next (.start rfl) (.callStop rfl)
  have h₂ : Reachable (_ : Pool Unit ℕ) := .next h₁ (.setDone rfl)
  exact .next h₂ (.invalidate rfl)

/-- A task comes while `stop` waits for the worker. -/
theorem stop_returns_lateTask : ∃ s : Pool Unit ℕ, Run Step closedEarly [(), ()] s ∧
    2 + closedEarly.submitted.length ≤ s.submitted.length + (2 * 1 + 1) ∧
      (s.stop = .returned ∨ ∃ s', Step s () s' ∧ s'.submitted = s.submitted) := by
  have hpush : Run Step closedEarly ([] ++ [()]) _ := .snoc .nil (.push 7 List.not_mem_nil)
  have hexit : Run Step closedEarly ([()] ++ [()]) _ := hpush.snoc (.test (i := ()) rfl)
  exact ⟨_, hexit, stop_returns closedEarly_reachable rfl hexit⟩

end EchoFs.Api.ThreadPool
