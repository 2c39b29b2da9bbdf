import Mathlib.Data.List.Nodup
import Mathlib.Logic.Function.Basic
import EchoFs.Library.Transition

/-! The thread pool: workers that take tasks from a shared queue, and `stop`, which
sets the flag of the workers, invalidates the queue and joins the workers. Each call
that holds the mutex of the queue is one step. -/

namespace EchoFs.Api.ThreadPool
open Transition

/-- Where a worker is: at the test of `m_done`, in `wait_pop`, in a task, or at its end. -/
inductive Worker (τ : Type) where
  | testing
  | waiting
  | running (t : τ)
  | exited
deriving DecidableEq

/-- How far the call of `stop` is. -/
inductive Stop where
  | notCalled
  | called
  | doneSet
  | invalidated
  | returned
deriving DecidableEq, Repr

/-- The pool. `submitted`, `accepted` (pushed before `stop` was called), `finished` and
`left` (queued when the queue was invalidated) record what has happened. -/
structure Pool (ι τ : Type) where
  mDone : Bool
  mValid : Bool
  mQueue : List τ
  workers : ι → Worker τ
  stop : Stop
  submitted : List τ
  accepted : List τ
  finished : List τ
  left : List τ

variable {ι τ : Type} [DecidableEq ι]

def Pool.init : Pool ι τ := ⟨false, true, [], fun _ => .testing, .notCalled, [], [], [], []⟩

def Pool.setWorker (s : Pool ι τ) (i : ι) (w : Worker τ) : Pool ι τ :=
  { s with workers := Function.update s.workers i w }

inductive Step : Pool ι τ → Unit → Pool ι τ → Prop
  /-- `push` of a new task -/
  | push {s : Pool ι τ} (t : τ) (hnew : t ∉ s.submitted) : Step s () { s with
      mQueue := s.mQueue ++ [t]
      submitted := s.submitted ++ [t]
      accepted := if s.stop = .notCalled then s.accepted ++ [t] else s.accepted }
  | test {s : Pool ι τ} {i : ι} (h : s.workers i = .testing) :
      Step s () (s.setWorker i (if s.mDone then .exited else .waiting))
  /-- `wait_pop` of a queue that is not valid -/
  | popNone {s : Pool ι τ} {i : ι} (h : s.workers i = .waiting) (hvalid : s.mValid = false) :
      Step s () (s.setWorker i .testing)
  | pop {s : Pool ι τ} {i : ι} {t : τ} {q : List τ} (h : s.workers i = .waiting)
      (hvalid : s.mValid = true) (hq : s.mQueue = t :: q) :
      Step s () { s.setWorker i (.running t) with mQueue := q }
  | execute {s : Pool ι τ} {i : ι} {t : τ} (h : s.workers i = .running t) :
      Step s () { s.setWorker i .testing with finished := s.finished ++ [t] }
  | callStop {s : Pool ι τ} (h : s.stop = .notCalled) : Step s () { s with stop := .called }
  | setDone {s : Pool ι τ} (h : s.stop = .called) :
      Step s () { s with stop := .doneSet, mDone := true }
  | invalidate {s : Pool ι τ} (h : s.stop = .doneSet) :
      Step s () { s with stop := .invalidated, mValid := false, left := s.mQueue }
  | join {s : Pool ι τ} (h : s.stop = .invalidated) (hexit : ∀ i, s.workers i = .exited) :
      Step s () { s with stop := .returned }

def Reachable : Pool ι τ → Prop := Reach (· = Pool.init) Step

def Pool.Runs (s : Pool ι τ) (i : ι) (t : τ) : Prop := s.workers i = .running t

/-- Every task is in one place: in the queue, with one worker, or done. -/
structure Pool.Placed (s : Pool ι τ) : Prop where
  queue : s.mQueue.Nodup
  finished : s.finished.Nodup
  apart : ∀ t ∈ s.mQueue, t ∉ s.finished
  running : ∀ i t, s.Runs i t → t ∈ s.submitted ∧ t ∉ s.mQueue ∧ t ∉ s.finished
  once : ∀ i j t, s.Runs i t → s.Runs j t → i = j
  known : ∀ t, t ∈ s.mQueue ∨ t ∈ s.finished → t ∈ s.submitted
  placed : ∀ t ∈ s.submitted, t ∈ s.mQueue ∨ t ∈ s.finished ∨ ∃ i, s.Runs i t

/-- What is known once the queue is invalid, and once `stop` is back. -/
structure Pool.Stopped (s : Pool ι τ) : Prop where
  accepted : ∀ t ∈ s.accepted, t ∈ s.submitted
  left : s.stop = .invalidated ∨ s.stop = .returned →
    s.mValid = false ∧ ∀ t ∈ s.accepted, t ∈ s.mQueue ↔ t ∈ s.left
  joined : s.stop = .returned → ∀ i, s.workers i = .exited

section
variable {s s' : Pool ι τ} {i j : ι} {t u : τ} {w : Worker τ}

theorem runs_setWorker : (s.setWorker i w).Runs j u ↔
    (j = i ∧ w = .running u) ∨ (j ≠ i ∧ s.Runs j u) := by
  unfold Pool.Runs Pool.setWorker
  by_cases hj : j = i
  · subst hj
    simp
  · simp [hj]

theorem Pool.Placed.idle (h : s.Placed) (hi : ∀ u, ¬s.Runs i u) (hw : ∀ u, w ≠ .running u) :
    (s.setWorker i w).Placed := by
  have hruns : ∀ j u, (s.setWorker i w).Runs j u ↔ s.Runs j u := by
    intro j u
    rw [runs_setWorker]
    constructor
    · rintro (⟨-, hw'⟩ | ⟨-, hj⟩)
      · exact absurd hw' (hw u)
      · exact hj
    · intro hj
      refine .inr ⟨?_, hj⟩
      rintro rfl
      exact hi u hj
  exact ⟨h.queue, h.finished, h.apart, fun j u hj => h.running j u ((hruns j u).mp hj),
    fun j k u hj hk => h.once j k u ((hruns j u).mp hj) ((hruns k u).mp hk), h.known,
    fun u hu => (h.placed u hu).imp_right (Or.imp_right fun ⟨j, hj⟩ => ⟨j, (hruns j u).mpr hj⟩)⟩

omit [DecidableEq ι] in
theorem Pool.Placed.push (h : s.Placed) (hnew : t ∉ s.submitted) (s' : Pool ι τ)
    (hq : s'.mQueue = s.mQueue ++ [t]) (hsub : s'.submitted = s.submitted ++ [t])
    (hfin : s'.finished = s.finished) (hw : s'.workers = s.workers) : s'.Placed := by
  have hruns : ∀ j u, s'.Runs j u ↔ s.Runs j u := by
    intro j u
    unfold Pool.Runs
    rw [hw]
  have htq : t ∉ s.mQueue := fun hm => hnew (h.known t (.inl hm))
  have htf : t ∉ s.finished := fun hm => hnew (h.known t (.inr hm))
  constructor
  · rw [hq]
    exact List.nodup_append.mpr ⟨h.queue, List.nodup_singleton t, by
      rintro a ha b hb rfl
      exact htq (List.mem_singleton.mp hb ▸ ha)⟩
  · rw [hfin]
    exact h.finished
  · intro u hu
    rw [hq, List.mem_append, List.mem_singleton] at hu
    rw [hfin]
    rcases hu with hu | rfl
    · exact h.apart u hu
    · exact htf
  · intro j u hj
    obtain ⟨hs, hnq, hnf⟩ := h.running j u ((hruns j u).mp hj)
    rw [hsub, hq, hfin]
    refine ⟨List.mem_append_left _ hs, ?_, hnf⟩
    rw [List.mem_append, List.mem_singleton, not_or]
    refine ⟨hnq, ?_⟩
    rintro rfl
    exact hnew hs
  · intro j k u hj hk
    exact h.once j k u ((hruns j u).mp hj) ((hruns k u).mp hk)
  · intro u hu
    rw [hq, hfin, List.mem_append, List.mem_singleton] at hu
    rw [hsub, List.mem_append, List.mem_singleton]
    rcases hu with (hu | hu) | hu
    · exact .inl (h.known u (.inl hu))
    · exact .inr hu
    · exact .inl (h.known u (.inr hu))
  · intro u hu
    rw [hsub, List.mem_append, List.mem_singleton] at hu
    simp only [hq, hfin, List.mem_append, List.mem_singleton, hruns]
    rcases hu with hu | hu
    · rcases h.placed u hu with hm | hm | hm
      · exact .inl (.inl hm)
      · exact .inr (.inl hm)
      · exact .inr (.inr hm)
    · exact .inl (.inr hu)

theorem Pool.Placed.pop (h : s.Placed) (hi : ∀ u, ¬s.Runs i u) {q : List τ}
    (hq : s.mQueue = t :: q) : Pool.Placed { s.setWorker i (.running t) with mQueue := q } := by
  have hnd : t ∉ q ∧ q.Nodup := by
    rw [← List.nodup_cons, ← hq]
    exact h.queue
  have hmem : ∀ u, u ∈ s.mQueue ↔ u = t ∨ u ∈ q := by
    intro u
    rw [hq, List.mem_cons]
  have hruns : ∀ j u, Pool.Runs { s.setWorker i (.running t) with mQueue := q } j u ↔
      (j = i ∧ u = t) ∨ s.Runs j u := by
    intro j u
    refine (runs_setWorker (s := s) (w := .running t)).trans ?_
    constructor
    · rintro (⟨rfl, hw⟩ | ⟨-, hj⟩)
      · exact .inl ⟨rfl, (Worker.running.inj hw).symm⟩
      · exact .inr hj
    · rintro (⟨rfl, rfl⟩ | hj)
      · exact .inl ⟨rfl, rfl⟩
      · refine .inr ⟨?_, hj⟩
        rintro rfl
        exact hi u hj
  constructor
  · exact hnd.2
  · exact h.finished
  · exact fun u hu => h.apart u ((hmem u).mpr (.inr hu))
  · intro j u hj
    rcases (hruns j u).mp hj with ⟨rfl, rfl⟩ | hj
    · have hm := (hmem u).mpr (.inl rfl)
      exact ⟨h.known u (.inl hm), hnd.1, h.apart u hm⟩
    · obtain ⟨hs, hnq, hnf⟩ := h.running j u hj
      exact ⟨hs, fun hm => hnq ((hmem u).mpr (.inr hm)), hnf⟩
  · intro j k u hj hk
    have hm := (hmem t).mpr (.inl rfl)
    rcases (hruns j u).mp hj with ⟨hji, hut⟩ | hj <;>
      rcases (hruns k u).mp hk with ⟨hki, hut'⟩ | hk
    · exact hji.trans hki.symm
    · exact absurd (hut ▸ hm) (h.running k u hk).2.1
    · exact absurd (hut' ▸ hm) (h.running j u hj).2.1
    · exact h.once j k u hj hk
  · intro u hu
    rcases hu with hu | hu
    · exact h.known u (.inl ((hmem u).mpr (.inr hu)))
    · exact h.known u (.inr hu)
  · intro u hu
    rcases h.placed u hu with hm | hm | ⟨j, hj⟩
    · rcases (hmem u).mp hm with rfl | hm
      · exact .inr (.inr ⟨i, (hruns i u).mpr (.inl ⟨rfl, rfl⟩)⟩)
      · exact .inl hm
    · exact .inr (.inl hm)
    · exact .inr (.inr ⟨j, (hruns j u).mpr (.inr hj)⟩)

theorem Pool.Placed.execute (h : s.Placed) (hi : s.Runs i t) :
    Pool.Placed { s.setWorker i .testing with finished := s.finished ++ [t] } := by
  obtain ⟨hsub, hnq, hnf⟩ := h.running i t hi
  have hruns : ∀ j u, Pool.Runs { s.setWorker i .testing with finished := s.finished ++ [t] } j u ↔
      j ≠ i ∧ s.Runs j u := by
    intro j u
    refine (runs_setWorker (s := s) (w := .testing)).trans ?_
    simp
  have hne : ∀ j u, j ≠ i → s.Runs j u → u ≠ t := by
    rintro j u hji hj rfl
    exact hji (h.once j i u hj hi)
  constructor
  · exact h.queue
  · exact List.nodup_append.mpr ⟨h.finished, List.nodup_singleton t, by
      rintro a ha b hb rfl
      exact hnf (List.mem_singleton.mp hb ▸ ha)⟩
  · intro u hu
    show u ∉ s.finished ++ [t]
    rw [List.mem_append, List.mem_singleton, not_or]
    refine ⟨h.apart u hu, ?_⟩
    rintro rfl
    exact hnq hu
  · intro j u hj
    obtain ⟨hji, hj⟩ := (hruns j u).mp hj
    obtain ⟨hs, hq, hf⟩ := h.running j u hj
    refine ⟨hs, hq, ?_⟩
    show u ∉ s.finished ++ [t]
    rw [List.mem_append, List.mem_singleton, not_or]
    exact ⟨hf, hne j u hji hj⟩
  · intro j k u hj hk
    exact h.once j k u ((hruns j u).mp hj).2 ((hruns k u).mp hk).2
  · intro u hu
    have hu : u ∈ s.mQueue ∨ u ∈ s.finished ++ [t] := hu
    rw [List.mem_append, List.mem_singleton] at hu
    rcases hu with hu | hu | rfl
    · exact h.known u (.inl hu)
    · exact h.known u (.inr hu)
    · exact hsub
  · intro u hu
    show u ∈ s.mQueue ∨ u ∈ s.finished ++ [t] ∨ _
    rw [List.mem_append, List.mem_singleton]
    rcases h.placed u hu with hm | hm | ⟨j, hj⟩
    · exact .inl hm
    · exact .inr (.inl (.inl hm))
    · by_cases hji : j = i
      · subst hji
        have : s.workers j = .running u := hj
        exact .inr (.inl (.inr (Worker.running.inj (this.symm.trans hi))))
      · exact .inr (.inr ⟨j, (hruns j u).mpr ⟨hji, hj⟩⟩)

theorem Pool.Placed.step (h : s.Placed) (hstep : Step s () s') : s'.Placed := by
  cases hstep with
  | push t hnew => exact h.push hnew _ rfl rfl rfl rfl
  | @test i hi =>
    apply h.idle
    · intro u hu
      cases hi.symm.trans hu
    · intro u
      split <;> simp
  | @popNone i hi _ =>
    apply h.idle
    · intro u hu
      cases hi.symm.trans hu
    · simp
  | @pop i t q hi _ hq =>
    refine h.pop ?_ hq
    intro u hu
    cases hi.symm.trans hu
  | execute hi => exact h.execute hi
  | callStop | setDone | invalidate | join => exact ⟨h.1, h.2, h.3, h.4, h.5, h.6, h.7⟩

omit [DecidableEq ι] in
theorem Pool.Stopped.push (h : s.Stopped) (hnew : t ∉ s.submitted) : Pool.Stopped { s with
    mQueue := s.mQueue ++ [t]
    submitted := s.submitted ++ [t]
    accepted := if s.stop = .notCalled then s.accepted ++ [t] else s.accepted } := by
  constructor
  · intro u hu
    show u ∈ s.submitted ++ [t]
    have hu : u ∈ if s.stop = .notCalled then s.accepted ++ [t] else s.accepted := hu
    rw [List.mem_append]
    split_ifs at hu
    · rcases List.mem_append.mp hu with hu | hu
      · exact .inl (h.accepted u hu)
      · exact .inr hu
    · exact .inl (h.accepted u hu)
  · intro hstop
    have hcalled : s.stop ≠ .notCalled := by
      rcases hstop with hstop | hstop <;>
        · have : s.stop = _ := hstop
          simp [this]
    simp only [if_neg hcalled]
    refine ⟨(h.left hstop).1, fun u hu => ?_⟩
    rw [List.mem_append, List.mem_singleton, (h.left hstop).2 u hu, or_iff_left]
    -- the new task is none of the accepted ones
    rintro rfl
    exact hnew (h.accepted u hu)
  · exact h.joined

omit [DecidableEq ι] in
theorem Pool.Stopped.worker (h : s.Stopped) (hi : s.workers i ≠ .exited) (s' : Pool ι τ)
    (hacc : s'.accepted = s.accepted) (hsub : s'.submitted = s.submitted)
    (hstop : s'.stop = s.stop) (hleft : s.stop = .invalidated ∨ s.stop = .returned →
      s'.mValid = false ∧ ∀ u ∈ s.accepted, u ∈ s'.mQueue ↔ u ∈ s'.left) : s'.Stopped := by
  constructor
  · rw [hacc, hsub]
    exact h.accepted
  · rw [hstop, hacc]
    exact hleft
  · intro hret
    exact absurd (h.joined (hstop ▸ hret) i) hi

theorem Pool.Stopped.step (h : s.Stopped) (hstep : Step s () s') : s'.Stopped := by
  cases hstep with
  | push t hnew => exact h.push hnew
  | @test i hi => exact h.worker (i := i) (by simp [hi]) _ rfl rfl rfl h.left
  | @popNone i hi _ => exact h.worker (i := i) (by simp [hi]) _ rfl rfl rfl h.left
  | @pop i t q hi hvalid hq =>
    refine h.worker (i := i) (by simp [hi]) _ rfl rfl rfl fun hstop => ?_
    rw [(h.left hstop).1] at hvalid
    cases hvalid
  | @execute i t hi => exact h.worker (i := i) (by simp [hi]) _ rfl rfl rfl h.left
  | callStop => exact ⟨h.accepted, by simp, by simp⟩
  | setDone => exact ⟨h.accepted, by simp, by simp⟩
  | invalidate => exact ⟨h.accepted, fun _ => ⟨rfl, fun _ _ => Iff.rfl⟩, by simp⟩
  | join hstop hexit => exact ⟨h.accepted, fun _ => h.left (.inl hstop), fun _ => hexit⟩

theorem inv_of_reachable (h : Reachable s) : s.Placed ∧ s.Stopped := by
  refine Reach.invariant (I := fun s => s.Placed ∧ s.Stopped) ?_ ?_ h
  · rintro _ rfl
    refine ⟨⟨List.nodup_nil, List.nodup_nil, ?_, ?_, ?_, ?_, ?_⟩, ?_, ?_, ?_⟩ <;>
      simp [Pool.init, Pool.Runs]
  · intro s e s' hs hstep
    exact ⟨hs.1.step hstep, hs.2.step hstep⟩

end

/-- When `stop` is back, every task that was pushed before the call has run exactly once
if and only if none of them was in the queue when the queue was invalidated. -/
theorem stop_drains_iff [DecidableEq τ] {s : Pool ι τ} (h : Reachable s)
    (hret : s.stop = .returned) :
    (∀ t ∈ s.accepted, s.finished.count t = 1) ↔ ∀ t ∈ s.accepted, t ∉ s.left := by
  obtain ⟨hp, hs⟩ := inv_of_reachable h
  have hdone : ∀ t ∈ s.accepted, t ∈ s.finished ↔ t ∉ s.left := by
    intro t ht
    rw [← ((hs.left (.inr hret)).2 t ht)]
    constructor
    · exact fun hf hq => hp.apart t hq hf
    · intro hq
      rcases hp.placed t (hs.accepted t ht) with hm | hm | ⟨i, hi⟩
      · exact absurd hm hq
      · exact hm
      · cases (hs.joined hret i).symm.trans hi
  have hcount : ∀ t, s.finished.count t = 1 ↔ t ∈ s.finished := by
    intro t
    constructor
    · intro hc
      exact List.count_pos_iff.mp (by omega)
    · exact List.count_eq_one_of_mem hp.finished
  constructor
  · intro hall t ht
    exact (hdone t ht).mp ((hcount t).mp (hall t ht))
  · intro hall t ht
    exact (hcount t).mpr ((hdone t ht).mpr (hall t ht))

/-- One worker runs the task 7 before `stop` is called. -/
theorem stop_drains_iff_oneTask : ∃ s : Pool Unit Nat, Reachable s ∧ s.stop = .returned ∧
    s.accepted = [7] ∧ ∀ t ∈ s.accepted, s.finished.count t = 1 := by
  have h₁ : Reachable (_ : Pool Unit Nat) := .next (.start rfl) (.push 7 (by simp [Pool.init]))
  have h₂ : Reachable (_ : Pool Unit Nat) := .next h₁ (.test (i := ()) rfl)
  have h₃ : Reachable (_ : Pool Unit Nat) := .next h₂ (.pop (i := ()) rfl rfl rfl)
  have h₄ : Reachable (_ : Pool Unit Nat) := .next h₃ (.execute (i := ()) rfl)
  have h₅ : Reachable (_ : Pool Unit Nat) := .next h₄ (.callStop rfl)
  have h₆ : Reachable (_ : Pool Unit Nat) := .next h₅ (.setDone rfl)
  have h₇ : Reachable (_ : Pool Unit Nat) := .next h₆ (.invalidate rfl)
  have h₈ : Reachable (_ : Pool Unit Nat) := .next h₇ (.test (i := ()) rfl)
  have h₉ : Reachable (_ : Pool Unit Nat) := .next h₈ (.join rfl fun _ => rfl)
  refine ⟨_, h₉, rfl, rfl, (stop_drains_iff h₉ rfl).mpr ?_⟩
  intro t _
  exact List.not_mem_nil

/-- The worker leaves before it looks at the queue, and the task 7 never runs. -/
theorem stop_loses_task : ¬∀ s : Pool Unit Nat, Reachable s → s.stop = .returned →
    ∀ t ∈ s.accepted, s.finished.count t = 1 := by
  intro hclaim
  have h₁ : Reachable (_ : Pool Unit Nat) := .next (.start rfl) (.push 7 (by simp [Pool.init]))
  have h₂ : Reachable (_ : Pool Unit Nat) := .next h₁ (.callStop rfl)
  have h₃ : Reachable (_ : Pool Unit Nat) := .next h₂ (.setDone rfl)
  have h₄ : Reachable (_ : Pool Unit Nat) := .next h₃ (.invalidate rfl)
  have h₅ : Reachable (_ : Pool Unit Nat) := .next h₄ (.test (i := ()) rfl)
  have h₆ : Reachable (_ : Pool Unit Nat) := .next h₅ (.join rfl fun _ => rfl)
  have hcount := hclaim _ h₆ rfl 7 (.head _)
  cases hcount

end EchoFs.Api.ThreadPool
