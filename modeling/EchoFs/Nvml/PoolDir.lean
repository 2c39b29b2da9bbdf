import Mathlib.Logic.Function.Basic
import EchoFs.Library.Transition

/-! The pool subdirectory of one `nvml::file` while its first calls run. Every test of
`m_initialized`, every use of `m_alloc_mutex` and every call on the directory is a step
of a thread. What a call does after `fetch_storage` does not concern the directory. -/

namespace EchoFs.Nvml.PoolDir
open Transition

inductive Op where
  | putData
  | getData
  | allocate
deriving DecidableEq, Repr

/-- The reasons of a `runtime_error`: `mkdir` finds the directory, `pmem_map_file` does
not find it, or the system refuses a call for a reason of its own. -/
inductive Error where
  | dirExists
  | noDir
  | system
deriving DecidableEq, Repr

/-- What a call does next. -/
inductive Pc where
  | idle
  | test (op : Op)
  | lockInit
  | testExists (op : Op)
  | removeAll (op : Op)
  | mkdir (op : Op)
  | setInitialized (op : Op)
  | unlockInit
  | lockFetch
  | fetch
  | lockLookup
  | lookup
  | threw (e : Error)
deriving DecidableEq, Repr

/-- The first step of the initialisation: only `put_data` takes the mutex for it. -/
def Op.initialise : Op → Pc
  | .putData => .lockInit
  | op => .testExists op

/-- The first step behind the initialisation. -/
def Op.proceed : Op → Pc
  | .getData => .lockLookup
  | _ => .lockFetch

/-- Behind `m_initialized = true`. -/
def Op.initialised : Op → Pc
  | .putData => .unlockInit
  | op => op.proceed

inductive Mutex (ι : Type) where
  | free
  | shared (readers : Nat)
  | unique (owner : ι)
deriving DecidableEq

def Mutex.lockShared {ι : Type} : Mutex ι → Option (Mutex ι)
  | free => some (shared 1)
  | shared n => some (shared (n + 1))
  | unique _ => none

def Mutex.unlockShared {ι : Type} : Mutex ι → Mutex ι
  | shared (n + 2) => shared (n + 1)
  | _ => free

/-- The name of a pool file. -/
abbrev Uuid := BitVec 128

/-- The subdirectory with the names in it, and the pool files that were created for the
segments of the file. -/
structure State (ι : Type) where
  mInitialized : Bool
  mAllocMutex : Mutex ι
  subdir : Option (List Uuid)
  pools : List Uuid
  pc : ι → Pc

variable {ι : Type} [DecidableEq ι]

namespace State

def goto (s : State ι) (i : ι) (p : Pc) : State ι := { s with pc := Function.update s.pc i p }

def unlock (s : State ι) (i : ι) : State ι :=
  if s.mAllocMutex = .unique i then { s with mAllocMutex := .free } else s

/-- The next step of a thread, unless it waits for the mutex. -/
def advance (s : State ι) (i : ι) : Option (State ι) :=
  match s.pc i with
  | .idle => none
  | .test op => some (s.goto i (if s.mInitialized then op.proceed else op.initialise))
  | .lockInit =>
    if s.mAllocMutex = .free then
      some ({ s with mAllocMutex := .unique i }.goto i (.testExists .putData))
    else none
  | .testExists op => some (s.goto i (if s.subdir.isSome then .removeAll op else .mkdir op))
  | .removeAll op => some ({ s with subdir := none }.goto i (.mkdir op))
  | .mkdir op =>
    if s.subdir.isSome then some ((s.unlock i).goto i (.threw .dirExists))
    else some ({ s with subdir := some [] }.goto i (.setInitialized op))
  | .setInitialized op => some ({ s with mInitialized := true }.goto i op.initialised)
  | .unlockInit => some ((s.unlock i).goto i .lockFetch)
  | .lockFetch =>
    if s.mAllocMutex = .free then some ({ s with mAllocMutex := .unique i }.goto i .fetch)
    else none
  | .fetch => some ((s.unlock i).goto i .idle)
  | .lockLookup =>
    match s.mAllocMutex.lockShared with
    | some m => some ({ s with mAllocMutex := m }.goto i .lookup)
    | none => none
  | .lookup => some ({ s with mAllocMutex := s.mAllocMutex.unlockShared }.goto i .idle)
  | .threw _ => none

end State

inductive Event (ι : Type) where
  | call (i : ι) (op : Op)
  | advance (i : ι)
  | create (i : ι) (u : Uuid)
  | fail (i : ι)

/-- The steps at which the system may refuse a call. -/
def Pc.MayFail : Pc → Prop
  | .removeAll _ => True
  | .mkdir _ => True
  | .fetch => True
  | _ => False

/-- `fetch_storage` creates as many pool files as it needs, each under a new name. -/
inductive Step : State ι → Event ι → State ι → Prop
  | call {s : State ι} {i : ι} {op : Op} (h : s.pc i = .idle) :
      Step s (.call i op) (s.goto i (.test op))
  | advance {s s' : State ι} {i : ι} (h : s.advance i = some s') : Step s (.advance i) s'
  | create {s : State ι} {i : ι} {u : Uuid} {names : List Uuid} (h : s.pc i = .fetch)
      (hdir : s.subdir = some names) (hu : u ∉ names) :
      Step s (.create i u) { s with subdir := some (u :: names), pools := u :: s.pools }
  | noDir {s : State ι} {i : ι} (h : s.pc i = .fetch) (hdir : s.subdir = none) :
      Step s (.fail i) ((s.unlock i).goto i (.threw .noDir))
  | fail {s : State ι} {i : ι} (h : (s.pc i).MayFail) :
      Step s (.fail i) ((s.unlock i).goto i (.threw .system))

/-- A new file. Its directory may be there from an earlier run. -/
def Init (s : State ι) : Prop :=
  s.mInitialized = false ∧ s.mAllocMutex = .free ∧ s.pools = [] ∧ ∀ i, s.pc i = .idle

/-- The call has found `m_initialized` false and has not set it yet. -/
def Pc.Initialising : Pc → Prop
  | .lockInit => True
  | .testExists _ => True
  | .removeAll _ => True
  | .mkdir _ => True
  | .setInitialized _ => True
  | _ => False

/-- No call tests `m_initialized` while another one has found it false and not set it. -/
def Alone (s : State ι) : Event ι → Prop
  | .advance i => ∀ op, s.pc i = .test op → ∀ j, ¬(s.pc j).Initialising
  | _ => True

def PcOk (initialized : Bool) (subdir : Option (List Uuid)) : Pc → Prop
  | .idle => True
  | .test _ => True
  | .lockInit => initialized = false
  | .testExists _ => initialized = false
  | .removeAll _ => initialized = false
  | .mkdir _ => initialized = false ∧ subdir = none
  | .setInitialized _ => initialized = false
  | .unlockInit => initialized = true
  | .lockFetch => initialized = true
  | .fetch => initialized = true
  | .lockLookup => initialized = true
  | .lookup => initialized = true
  | .threw e => e ≠ .dirExists

/-- The pool files are in the directory, and there are none before `m_initialized` is set. -/
def PoolsOk (s : State ι) : Prop :=
  ∀ u ∈ s.pools, s.mInitialized = true ∧ ∃ names, s.subdir = some names ∧ u ∈ names

structure Inv (s : State ι) : Prop where
  alone : ∀ i j, (s.pc i).Initialising → (s.pc j).Initialising → i = j
  pcOk : ∀ i, PcOk s.mInitialized s.subdir (s.pc i)
  pools : PoolsOk s

section
variable {s s' : State ι} {e : Event ι} {i j : ι} {p : Pc}

@[simp] theorem unlock_mInitialized : (s.unlock i).mInitialized = s.mInitialized := by
  unfold State.unlock
  split <;> rfl

@[simp] theorem unlock_subdir : (s.unlock i).subdir = s.subdir := by
  unfold State.unlock
  split <;> rfl

@[simp] theorem unlock_pools : (s.unlock i).pools = s.pools := by
  unfold State.unlock
  split <;> rfl

@[simp] theorem unlock_pc : (s.unlock i).pc = s.pc := by
  unfold State.unlock
  split <;> rfl

theorem PcOk.unset {b : Bool} {d : Option (List Uuid)} (h : PcOk b d p) (hp : p.Initialising) :
    b = false := by
  cases p with
  | lockInit => exact h
  | testExists op => exact h
  | removeAll op => exact h
  | mkdir op => exact h.1
  | setInitialized op => exact h
  | idle => exact hp.elim
  | test op => exact hp.elim
  | unlockInit => exact hp.elim
  | lockFetch => exact hp.elim
  | fetch => exact hp.elim
  | lockLookup => exact hp.elim
  | lookup => exact hp.elim
  | threw e => exact hp.elim

theorem PcOk.frame {b b' : Bool} {d d' : Option (List Uuid)} (h : PcOk b d p)
    (hp : ¬p.Initialising) (hb : b = true → b' = true) : PcOk b' d' p := by
  cases p with
  | idle => trivial
  | test op => trivial
  | unlockInit => exact hb h
  | lockFetch => exact hb h
  | fetch => exact hb h
  | lockLookup => exact hb h
  | lookup => exact hb h
  | threw e => exact h
  | lockInit => exact absurd trivial hp
  | testExists op => exact absurd trivial hp
  | removeAll op => exact absurd trivial hp
  | mkdir op => exact absurd trivial hp
  | setInitialized op => exact absurd trivial hp

/-- The thread `i` goes to `p`. It may only start to initialise if no thread does, and
only change the flag or the directory if no other thread initialises. -/
theorem Inv.move (hs : Inv s) (hpc : s'.pc = Function.update s.pc i p)
    (hp : PcOk s'.mInitialized s'.subdir p) (hpools : PoolsOk s')
    (hinit : p.Initialising → (s.pc i).Initialising ∨ ∀ j, ¬(s.pc j).Initialising)
    (hshared : s'.mInitialized = s.mInitialized ∧ s'.subdir = s.subdir ∨
      (s.mInitialized = true → s'.mInitialized = true) ∧
        ∀ j, j ≠ i → ¬(s.pc j).Initialising) : Inv s' := by
  have hothers : p.Initialising → ∀ j, j ≠ i → ¬(s.pc j).Initialising := by
    intro hi j hj hji
    rcases hinit hi with h | h
    · exact hj (hs.alone j i hji h)
    · exact h j hji
  refine ⟨?_, ?_, hpools⟩
  · intro j k hj hk
    rw [hpc] at hj hk
    by_cases hji : j = i
    · by_cases hki : k = i
      · rw [hji, hki]
      · rw [hji, Function.update_self] at hj
        rw [Function.update_of_ne hki] at hk
        exact absurd hk (hothers hj k hki)
    · rw [Function.update_of_ne hji] at hj
      by_cases hki : k = i
      · rw [hki, Function.update_self] at hk
        exact absurd hj (hothers hk j hji)
      · rw [Function.update_of_ne hki] at hk
        exact hs.alone j k hj hk
  · intro j
    rw [hpc]
    by_cases hji : j = i
    · rw [hji, Function.update_self]
      exact hp
    · rw [Function.update_of_ne hji]
      rcases hshared with ⟨hb, hd⟩ | ⟨hb, hnone⟩
      · rw [hb, hd]
        exact hs.pcOk j
      · exact (hs.pcOk j).frame (hnone j hji) hb

theorem Inv.goto (hs : Inv s) (hpc : s'.pc = Function.update s.pc i p)
    (hflag : s'.mInitialized = s.mInitialized) (hdir : s'.subdir = s.subdir)
    (hpools : s'.pools = s.pools) (hp : PcOk s.mInitialized s.subdir p)
    (hinit : p.Initialising → (s.pc i).Initialising ∨ ∀ j, ¬(s.pc j).Initialising) :
    Inv s' := by
  refine hs.move hpc (by rw [hflag, hdir]; exact hp) ?_ hinit (.inl ⟨hflag, hdir⟩)
  unfold PoolsOk
  rw [hpools, hflag, hdir]
  exact hs.pools

omit [DecidableEq ι] in
theorem Inv.others (hs : Inv s) (hi : (s.pc i).Initialising) (j : ι) (hj : j ≠ i) :
    ¬(s.pc j).Initialising := fun h => hj (hs.alone j i h hi)

omit [DecidableEq ι] in
theorem Inv.pools_nil (hs : Inv s) (h : s.mInitialized = false) : s.pools = [] := by
  rw [List.eq_nil_iff_forall_not_mem]
  intro u hu
  have hset := (hs.pools u hu).1
  rw [h] at hset
  cases hset

omit [DecidableEq ι] in
theorem Inv.unset (hs : Inv s) (hi : (s.pc i).Initialising) : s.mInitialized = false :=
  (hs.pcOk i).unset hi

theorem Inv.test {op : Op} (hs : Inv s) (halone : ∀ j, ¬(s.pc j).Initialising) :
    Inv (s.goto i (if s.mInitialized then op.proceed else op.initialise)) := by
  refine hs.goto rfl rfl rfl rfl ?_ (fun _ => .inr halone)
  cases hflag : s.mInitialized with
  | true =>
    rw [if_pos rfl]
    cases op <;> rfl
  | false =>
    rw [if_neg Bool.false_ne_true]
    cases op <;> rfl

/-- Only the thread that initialises changes the directory, and there are no pool files
yet. -/
theorem Inv.setDir {d : Option (List Uuid)} (hs : Inv s) (hi : (s.pc i).Initialising)
    (hp : PcOk false d p) : Inv ({ s with subdir := d }.goto i p) := by
  have hflag := hs.unset hi
  refine hs.move (i := i) (p := p) rfl ?_ ?_ (fun _ => .inl hi) (.inr ⟨id, hs.others hi⟩)
  · change PcOk s.mInitialized d p
    rw [hflag]
    exact hp
  · intro u hu
    change u ∈ s.pools at hu
    rw [hs.pools_nil hflag] at hu
    cases hu

theorem Inv.setInitialized {op : Op} (hs : Inv s) (hi : (s.pc i).Initialising) :
    Inv ({ s with mInitialized := true }.goto i op.initialised) := by
  refine hs.move (i := i) (p := op.initialised) rfl ?_ ?_ ?_ (.inr ⟨fun _ => rfl, hs.others hi⟩)
  · cases op <;> rfl
  · intro u hu
    exact ⟨rfl, (hs.pools u hu).2⟩
  · intro h
    cases op <;> cases h

theorem Inv.unlock (hs : Inv s) (hp : PcOk s.mInitialized s.subdir p)
    (hinit : ¬p.Initialising) : Inv ((s.unlock i).goto i p) :=
  hs.goto (by rw [State.goto, unlock_pc]) unlock_mInitialized unlock_subdir unlock_pools hp
    (fun h => absurd h hinit)

theorem Inv.setMutex {m : Mutex ι} (hs : Inv s) (hp : PcOk s.mInitialized s.subdir p)
    (hinit : p.Initialising → (s.pc i).Initialising) :
    Inv ({ s with mAllocMutex := m }.goto i p) :=
  hs.goto rfl rfl rfl rfl hp (fun h => .inl (hinit h))

theorem Inv.advance (hs : Inv s) (halone : Alone s (.advance i))
    (h : s.advance i = some s') : Inv s' := by
  have hok := hs.pcOk i
  unfold State.advance at h
  cases hpc : s.pc i with
  | idle => simp [hpc] at h
  | threw e => simp [hpc] at h
  | test op =>
    simp only [hpc, Option.some.injEq] at h
    subst h
    exact hs.test (halone op hpc)
  | lockInit =>
    simp only [hpc, Option.ite_none_right_eq_some, Option.some.injEq] at h
    obtain ⟨-, rfl⟩ := h
    exact hs.setMutex (hs.unset (i := i) (by rw [hpc]; trivial)) (fun _ => by rw [hpc]; trivial)
  | testExists op =>
    simp only [hpc, Option.some.injEq] at h
    subst h
    rw [hpc] at hok
    refine hs.goto rfl rfl rfl rfl ?_ (fun _ => .inl (by rw [hpc]; trivial))
    cases hdir : s.subdir with
    | none => exact ⟨hok, rfl⟩
    | some names => exact hok
  | removeAll op =>
    simp only [hpc, Option.some.injEq] at h
    subst h
    exact hs.setDir (by rw [hpc]; trivial) ⟨rfl, rfl⟩
  | mkdir op =>
    rw [hpc] at hok
    simp only [hpc, hok.2, Option.isSome_none, Bool.false_eq_true, if_false,
      Option.some.injEq] at h
    subst h
    exact hs.setDir (by rw [hpc]; trivial) rfl
  | setInitialized op =>
    simp only [hpc, Option.some.injEq] at h
    subst h
    exact hs.setInitialized (by rw [hpc]; trivial)
  | unlockInit =>
    simp only [hpc, Option.some.injEq] at h
    subst h
    rw [hpc] at hok
    exact hs.unlock hok id
  | lockFetch =>
    simp only [hpc, Option.ite_none_right_eq_some, Option.some.injEq] at h
    obtain ⟨-, rfl⟩ := h
    rw [hpc] at hok
    exact hs.setMutex hok (fun hinit => hinit.elim)
  | fetch =>
    simp only [hpc, Option.some.injEq] at h
    subst h
    exact hs.unlock trivial id
  | lockLookup =>
    simp only [hpc] at h
    rw [hpc] at hok
    split at h
    · obtain rfl := Option.some.inj h
      exact hs.setMutex hok (fun hinit => hinit.elim)
    · cases h
  | lookup =>
    simp only [hpc, Option.some.injEq] at h
    subst h
    exact hs.setMutex trivial (fun hinit => hinit.elim)

omit [DecidableEq ι] in
theorem Inv.create {u : Uuid} {names : List Uuid} (hs : Inv s) (hpc : s.pc i = .fetch)
    (hdir : s.subdir = some names) :
    Inv { s with subdir := some (u :: names), pools := u :: s.pools } := by
  have hset : s.mInitialized = true := by
    have hok := hs.pcOk i
    rw [hpc] at hok
    exact hok
  have hnone : ∀ j, ¬(s.pc j).Initialising := by
    intro j hj
    rw [hs.unset hj] at hset
    cases hset
  refine ⟨hs.alone, fun j => (hs.pcOk j).frame (hnone j) id, ?_⟩
  intro v hv
  refine ⟨hset, u :: names, rfl, ?_⟩
  rcases List.mem_cons.mp hv with rfl | hv
  · exact List.mem_cons_self
  · obtain ⟨-, names', hnames', hmem⟩ := hs.pools v hv
    obtain rfl := Option.some.inj (hdir.symm.trans hnames')
    exact List.mem_cons_of_mem _ hmem

theorem Inv.step (hs : Inv s) (halone : Alone s e) (h : Step s e s') : Inv s' := by
  cases h with
  | call hidle => exact hs.goto rfl rfl rfl rfl trivial (fun hinit => hinit.elim)
  | advance hadv => exact hs.advance halone hadv
  | create hpc hdir hu => exact hs.create hpc hdir
  | noDir hpc hdir => exact hs.unlock (p := .threw _) nofun id
  | fail hmay => exact hs.unlock (p := .threw _) nofun id

end

/-- If no call tests `m_initialized` while another call initialises the directory, no
`mkdir` finds the directory there and no pool file of the file is removed. -/
theorem pool_dir_initialised_once {s : State ι} (h : Reach Init (Guarded Step Alone) s) :
    (∀ i, s.pc i ≠ .threw .dirExists) ∧
    ∀ u ∈ s.pools, ∃ names, s.subdir = some names ∧ u ∈ names := by
  have hs : Inv s := by
    refine Reach.invariant ?_ ?_ h
    · rintro s ⟨-, -, hpools, hidle⟩
      refine ⟨?_, ?_, ?_⟩
      · intro i j hi
        rw [hidle i] at hi
        exact hi.elim
      · intro i
        rw [hidle i]
        trivial
      · intro u hu
        rw [hpools] at hu
        cases hu
    · rintro s e s' hs ⟨halone, hstep⟩
      exact hs.step halone hstep
  constructor
  · intro i hi
    have hok := hs.pcOk i
    rw [hi] at hok
    exact hok rfl
  · intro u hu
    exact (hs.pools u hu).2

/-- Two threads and a new file without a directory. -/
def newFile : State Bool := ⟨false, .free, none, [], fun _ => .idle⟩

theorem newFile_init : Init newFile := ⟨rfl, rfl, rfl, fun _ => rfl⟩

/-- One thread reads and initialises the directory, the other one then writes and creates
a pool file. -/
theorem pool_dir_initialised_once_twoThreads : ∃ s : State Bool, s.pools = [7] ∧
    s.subdir = some [7] ∧ s.pc true = .fetch ∧ ∀ i, s.pc i ≠ .threw .dirExists := by
  have h₁ : Reach Init (Guarded Step Alone) (_ : State Bool) :=
    .next (e := .call false .getData) (.start newFile_init) ⟨trivial, .call rfl⟩
  have h₂ : Reach Init (Guarded Step Alone) (_ : State Bool) :=
    .next (e := .advance false) h₁ ⟨fun _ _ j => by cases j <;> exact id, .advance rfl⟩
  have h₃ : Reach Init (Guarded Step Alone) (_ : State Bool) :=
    .next (e := .advance false) h₂ ⟨nofun, .advance rfl⟩
  have h₄ : Reach Init (Guarded Step Alone) (_ : State Bool) :=
    .next (e := .advance false) h₃ ⟨nofun, .advance rfl⟩
  have h₅ : Reach Init (Guarded Step Alone) (_ : State Bool) :=
    .next (e := .advance false) h₄ ⟨nofun, .advance rfl⟩
  have h₆ : Reach Init (Guarded Step Alone) (_ : State Bool) :=
    .next (e := .call true .putData) h₅ ⟨trivial, .call rfl⟩
  have h₇ : Reach Init (Guarded Step Alone) (_ : State Bool) :=
    .next (e := .advance true) h₆ ⟨fun _ _ j => by cases j <;> exact id, .advance rfl⟩
  have h₈ : Reach Init (Guarded Step Alone) (_ : State Bool) :=
    .next (e := .advance true) h₇ ⟨nofun, .advance rfl⟩
  have h₉ : Reach Init (Guarded Step Alone) (_ : State Bool) :=
    .next (e := .create true 7) h₈ ⟨trivial, .create rfl rfl List.not_mem_nil⟩
  exact ⟨_, rfl, rfl, rfl, (pool_dir_initialised_once h₉).1⟩

/-- Two threads read at the same time, and each of them creates the directory. -/
theorem mkdir_finds_dir : ¬∀ s : State Bool, Reach Init Step s →
    (∀ i, s.pc i ≠ .threw .dirExists) ∧
    ∀ u ∈ s.pools, ∃ names, s.subdir = some names ∧ u ∈ names := by
  intro hclaim
  have h₁ : Reach Init Step (_ : State Bool) :=
    .next (e := .call false .getData) (.start newFile_init) (.call rfl)
  have h₂ : Reach Init Step (_ : State Bool) := .next (e := .call true .getData) h₁ (.call rfl)
  have h₃ : Reach Init Step (_ : State Bool) := .next (e := .advance false) h₂ (.advance rfl)
  have h₄ : Reach Init Step (_ : State Bool) := .next (e := .advance true) h₃ (.advance rfl)
  have h₅ : Reach Init Step (_ : State Bool) := .next (e := .advance false) h₄ (.advance rfl)
  have h₆ : Reach Init Step (_ : State Bool) := .next (e := .advance true) h₅ (.advance rfl)
  have h₇ : Reach Init Step (_ : State Bool) := .next (e := .advance false) h₆ (.advance rfl)
  have h₈ : Reach Init Step (_ : State Bool) := .next (e := .advance true) h₇ (.advance rfl)
  exact (hclaim _ h₈).1 true rfl

end EchoFs.Nvml.PoolDir
