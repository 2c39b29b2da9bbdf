import Mathlib.Data.Finset.Lattice.Fold
import Mathlib.Data.Fintype.Basic
import Mathlib.Tactic.Linarith
import Mathlib.Logic.Function.Basic
import Mathlib.Order.Lattice.Nat
import EchoFs.Library.Transition

/-! Interleavings of the calls that rewrite the attributes of one `nvml::file`.
Each critical section of `m_alloc_mutex` (`stat`, `save_attributes`,
`update_size` and the `st_ctime` store of `allocate`) is one step, so a metadata
call is two steps with its private `struct stat` in between. -/

namespace EchoFs.Nvml.Attributes
open Transition

/-- The fields of `struct stat` that these calls read or write. -/
structure Stat where
  stSize : Nat
  stBlocks : Nat
  stMode : Nat
  stUid : Nat
  stGid : Nat
  stAtime : Int
  stMtime : Int
  stCtime : Int
deriving DecidableEq, Repr

structure File where
  mAttributes : Stat
  mUsedOffset : Nat
deriving DecidableEq, Repr

def File.stat (f : File) : Stat := f.mAttributes

def File.saveAttributes (f : File) (stbuf : Stat) : File := { f with mAttributes := stbuf }

def File.updateSize (f : File) (size : Nat) : File :=
  if f.mAttributes.stSize < size then
    { mAttributes := { f.mAttributes with stSize := size, stBlocks := size / 512 }
      mUsedOffset := size }
  else f

/-- The calls that reach the attributes, with the arguments that do. -/
inductive Call where
  | putData (startOffset size : Nat)
  | allocate (startOffset size : Nat)
  | chmod (mode : Nat)
  | chown (owner group : Nat)
  | rename
  | utimens (atime mtime : Int)
deriving DecidableEq, Repr

/-- The argument a data call gives to `update_size`; 0 for metadata calls. -/
def Call.endOffset : Call → Nat
  | .putData start size => start + size
  | .allocate start size => start + size
  | _ => 0

/-- What a metadata call changes in its copy of the attributes before it saves
them; `now` is the value of `time(NULL)`. -/
def Call.edit (now : Int) (stbuf : Stat) : Call → Stat
  | .chmod mode => { stbuf with stMode := mode, stCtime := now }
  | .chown owner group => { stbuf with stUid := owner, stGid := group, stCtime := now }
  | .rename => { stbuf with stCtime := now, stMtime := now }
  | .utimens atime mtime => { stbuf with stAtime := atime, stMtime := mtime }
  | .putData _ _ => stbuf
  | .allocate _ _ => stbuf

/-- Where a call stands between two critical sections. -/
inductive Pc where
  | ready
  | copied (stbuf : Stat)
  | sized
  | returned
deriving DecidableEq, Repr

def Call.advance (now : Int) (f : File) (c : Call) : Pc → Option (File × Pc)
  | .ready =>
    match c with
    | .putData start size => some (f.updateSize (start + size), .returned)
    | .allocate start size => some (f.updateSize (start + size), .sized)
    | _ => some (f, .copied f.stat)
  | .copied stbuf => some (f.saveAttributes (c.edit now stbuf), .returned)
  | .sized => some ({ f with mAttributes := { f.mAttributes with stCtime := now } }, .returned)
  | .returned => none

variable {ι : Type*} [DecidableEq ι]

structure State (ι : Type*) where
  file : File
  pc : ι → Pc

def Init (f₀ : File) (s : State ι) : Prop := s.file = f₀ ∧ ∀ i, s.pc i = .ready

/-- Call `i` runs its next critical section at time `now`. -/
def Step (calls : ι → Call) (s : State ι) (e : ι × Int) (s' : State ι) : Prop :=
  ∃ f p, (calls e.1).advance e.2 s.file (s.pc e.1) = some (f, p) ∧
    s' = ⟨f, Function.update s.pc e.1 p⟩

/-- An `update_size` that raises `st_size` runs only while no metadata call is
between its `stat` and its `save_attributes`. -/
def Undisturbed (calls : ι → Call) (s : State ι) (e : ι × Int) : Prop :=
  s.pc e.1 = .ready → s.file.mAttributes.stSize < (calls e.1).endOffset →
    ∀ j stbuf, s.pc j ≠ .copied stbuf

/-- Once every call has returned, the size is the largest one asked for. -/
def SizeKept [Fintype ι] (calls : ι → Call) (f₀ : File) (s : State ι) : Prop :=
  (∀ i, s.pc i = .returned) →
    s.file.mAttributes.stSize =
      max f₀.mAttributes.stSize (Finset.univ.sup fun i => (calls i).endOffset) ∧
    s.file.mUsedOffset = s.file.mAttributes.stSize

/-- The size a call has already asked for. -/
def reached (c : Call) : Pc → Nat
  | .ready => 0
  | _ => c.endOffset

structure Inv [Fintype ι] (calls : ι → Call) (f₀ : File) (s : State ι) : Prop where
  size : s.file.mAttributes.stSize =
    max f₀.mAttributes.stSize (Finset.univ.sup fun i => reached (calls i) (s.pc i))
  used : s.file.mUsedOffset = s.file.mAttributes.stSize
  fresh : ∀ i stbuf, s.pc i = .copied stbuf →
    stbuf.stSize = s.file.mAttributes.stSize ∧ (calls i).endOffset = 0
  sized : ∀ i, s.pc i = .sized → ∃ start size, calls i = .allocate start size

theorem updateSize_stSize (f : File) (n : Nat) :
    (f.updateSize n).mAttributes.stSize = max f.mAttributes.stSize n := by
  unfold File.updateSize
  split
  · simp only
    omega
  · omega

theorem updateSize_used (f : File) (n : Nat) (h : f.mUsedOffset = f.mAttributes.stSize) :
    (f.updateSize n).mUsedOffset = (f.updateSize n).mAttributes.stSize := by
  unfold File.updateSize
  split <;> simp only [h]

theorem edit_stSize (c : Call) (now : Int) (stbuf : Stat) :
    (c.edit now stbuf).stSize = stbuf.stSize := by
  cases c <;> rfl

theorem sup_update [Fintype ι] (g : ι → Pc → Nat) (pc : ι → Pc) (i : ι) (p : Pc)
    (h : g i (pc i) ≤ g i p) :
    (Finset.univ.sup fun j => g j (Function.update pc i p j)) =
      max (Finset.univ.sup fun j => g j (pc j)) (g i p) := by
  apply le_antisymm
  · refine Finset.sup_le fun j _ => ?_
    by_cases hj : j = i
    · subst hj
      simp
    · rw [Function.update_of_ne hj]
      exact le_max_of_le_left (Finset.le_sup (f := fun j => g j (pc j)) (Finset.mem_univ j))
  · refine max_le (Finset.sup_le fun j _ => ?_) ?_
    · by_cases hj : j = i
      · subst hj
        refine h.trans ?_
        simpa using Finset.le_sup (f := fun k => g k (Function.update pc j p k))
          (Finset.mem_univ j)
      · simpa [Function.update_of_ne hj] using
          Finset.le_sup (f := fun k => g k (Function.update pc i p k)) (Finset.mem_univ j)
    · simpa using Finset.le_sup (f := fun k => g k (Function.update pc i p k))
        (Finset.mem_univ i)

theorem advance_cases {c : Call} {now : Int} {f f' : File} {p p' : Pc}
    (h : c.advance now f p = some (f', p')) :
    (p = .ready ∧ f' = f.updateSize c.endOffset ∧
      (p' = .returned ∨ p' = .sized ∧ ∃ start size, c = .allocate start size)) ∨
    (p = .ready ∧ c.endOffset = 0 ∧ f' = f ∧ p' = .copied f.stat) ∨
    (∃ stbuf, p = .copied stbuf ∧ f' = f.saveAttributes (c.edit now stbuf) ∧ p' = .returned) ∨
    (p = .sized ∧ p' = .returned ∧
      f' = { f with mAttributes := { f.mAttributes with stCtime := now } }) := by
  cases p with
  | ready =>
    cases c with
    | putData start size =>
      obtain ⟨rfl, rfl⟩ := Prod.mk.inj (Option.some.inj h)
      exact .inl ⟨rfl, rfl, .inl rfl⟩
    | allocate start size =>
      obtain ⟨rfl, rfl⟩ := Prod.mk.inj (Option.some.inj h)
      exact .inl ⟨rfl, rfl, .inr ⟨rfl, start, size, rfl⟩⟩
    | _ =>
      obtain ⟨rfl, rfl⟩ := Prod.mk.inj (Option.some.inj h)
      exact .inr (.inl ⟨rfl, rfl, rfl, rfl⟩)
  | copied stbuf =>
    obtain ⟨rfl, rfl⟩ := Prod.mk.inj (Option.some.inj h)
    exact .inr (.inr (.inl ⟨stbuf, rfl, rfl, rfl⟩))
  | sized =>
    obtain ⟨rfl, rfl⟩ := Prod.mk.inj (Option.some.inj h)
    exact .inr (.inr (.inr ⟨rfl, rfl, rfl⟩))
  | returned => exact absurd h (by simp [Call.advance])

theorem sup_reached_update [Fintype ι] (calls : ι → Call) (pc : ι → Pc) (i : ι) (p : Pc)
    (h : reached (calls i) (pc i) ≤ reached (calls i) p) :
    (Finset.univ.sup fun j => reached (calls j) (Function.update pc i p j)) =
      max (Finset.univ.sup fun j => reached (calls j) (pc j)) (reached (calls i) p) :=
  sup_update (fun j => reached (calls j)) pc i p h

omit [DecidableEq ι] in
theorem reached_le_sup [Fintype ι] (calls : ι → Call) (pc : ι → Pc) (i : ι) :
    reached (calls i) (pc i) ≤ Finset.univ.sup fun j => reached (calls j) (pc j) :=
  Finset.le_sup (f := fun j => reached (calls j) (pc j)) (Finset.mem_univ i)

section Invariant
variable [Fintype ι] {calls : ι → Call} {f₀ : File} {s : State ι} {i : ι}

/-- The step of a data call: no copy is pending when the size grows. -/
theorem Inv.update {p : Pc} (h : Inv calls f₀ s) (hready : s.pc i = .ready)
    (hcopy : s.file.mAttributes.stSize < (calls i).endOffset → ∀ j stbuf, s.pc j ≠ .copied stbuf)
    (hp : p = .returned ∨ p = .sized ∧ ∃ start size, calls i = .allocate start size) :
    Inv calls f₀ ⟨s.file.updateSize (calls i).endOffset, Function.update s.pc i p⟩ := by
  have hreach : reached (calls i) p = (calls i).endOffset := by
    rcases hp with rfl | ⟨rfl, _⟩ <;> rfl
  have hnot : ∀ stbuf, p ≠ .copied stbuf := by
    rcases hp with rfl | ⟨rfl, _⟩ <;> intro stbuf hc <;> cases hc
  refine ⟨?_, ?_, ?_, ?_⟩
  · simp only
    rw [updateSize_stSize, h.size, sup_reached_update _ _ _ _ (by simp [hready, reached]), hreach,
      max_assoc]
  · exact updateSize_used _ _ h.used
  · intro j stbuf hj
    by_cases hji : j = i
    · subst hji
      exact absurd (by simpa using hj) (hnot stbuf)
    · simp only [Function.update_of_ne hji] at hj
      have hle : ¬ s.file.mAttributes.stSize < (calls i).endOffset :=
        fun hlt => hcopy hlt j stbuf hj
      have hsame : s.file.updateSize (calls i).endOffset = s.file := if_neg hle
      simp only [hsame]
      exact h.fresh j stbuf hj
  · intro j hj
    by_cases hji : j = i
    · subst hji
      rcases hp with rfl | ⟨rfl, ha⟩
      · simp at hj
      · exact ha
    · simp only [Function.update_of_ne hji] at hj
      exact h.sized j hj

theorem Inv.copy (h : Inv calls f₀ s) (hready : s.pc i = .ready) (hend : (calls i).endOffset = 0) :
    Inv calls f₀ ⟨s.file, Function.update s.pc i (.copied s.file.stat)⟩ := by
  refine ⟨?_, h.used, ?_, ?_⟩
  · simp only
    rw [sup_reached_update _ _ _ _ (by simp [hready, reached]), h.size]
    simp [reached, hend]
  · intro j stbuf hj
    by_cases hji : j = i
    · subst hji
      simp only [Function.update_self, Pc.copied.injEq] at hj
      subst hj
      exact ⟨rfl, hend⟩
    · simp only [Function.update_of_ne hji] at hj
      exact h.fresh j stbuf hj
  · intro j hj
    by_cases hji : j = i
    · subst hji
      simp at hj
    · simp only [Function.update_of_ne hji] at hj
      exact h.sized j hj

theorem Inv.leave {f : File} (h : Inv calls f₀ s) (hready : s.pc i ≠ .ready)
    (hsize : f.mAttributes.stSize = s.file.mAttributes.stSize)
    (hused : f.mUsedOffset = s.file.mUsedOffset) :
    Inv calls f₀ ⟨f, Function.update s.pc i .returned⟩ := by
  have hreach : reached (calls i) (s.pc i) = (calls i).endOffset := by
    cases hp : s.pc i with
    | ready => exact absurd hp hready
    | _ => rfl
  refine ⟨?_, by simp only [hused, hsize, h.used], ?_, ?_⟩
  · simp only
    have hle := reached_le_sup calls s.pc i
    rw [hsize, sup_reached_update _ _ _ _ hreach.le, h.size]
    exact congrArg _ (max_eq_left (hreach.ge.trans hle)).symm
  · intro j stbuf hj
    by_cases hji : j = i
    · subst hji
      simp at hj
    · simp only [Function.update_of_ne hji] at hj
      simp only [hsize]
      exact h.fresh j stbuf hj
  · intro j hj
    by_cases hji : j = i
    · subst hji
      simp at hj
    · simp only [Function.update_of_ne hji] at hj
      exact h.sized j hj

theorem Inv.step {e : ι × Int} {s' : State ι} (h : Inv calls f₀ s)
    (hs : Guarded (Step calls) (Undisturbed calls) s e s') : Inv calls f₀ s' := by
  obtain ⟨hok, f, p, hadv, rfl⟩ := hs
  obtain ⟨hr, rfl, hp⟩ | ⟨hr, hend, rfl, rfl⟩ | ⟨stbuf, hc, rfl, rfl⟩ | ⟨hz, rfl, rfl⟩ :=
    advance_cases hadv
  · exact h.update hr (hok hr) hp
  · exact h.copy hr hend
  · refine h.leave (by simp [hc]) ?_ rfl
    simp only [File.saveAttributes, edit_stSize]
    exact (h.fresh _ _ hc).1
  · exact h.leave (by simp [hz]) rfl rfl

end Invariant

/-- In a run in which no growing `update_size` falls between the two halves of a
metadata call, no size update is lost. -/
theorem sizeKept_of_undisturbed [Fintype ι] (calls : ι → Call) (f₀ : File)
    (h₀ : f₀.mUsedOffset = f₀.mAttributes.stSize) (s : State ι)
    (h : Reach (Init f₀) (Guarded (Step calls) (Undisturbed calls)) s) :
    SizeKept calls f₀ s := by
  have hinv : Inv calls f₀ s := by
    refine h.invariant ?_ (fun _ _ _ hi hst => hi.step hst)
    rintro s ⟨rfl, hpc⟩
    exact ⟨by simp [hpc, reached], h₀, by simp [hpc], by simp [hpc]⟩
  intro hdone
  refine ⟨?_, hinv.used⟩
  rw [hinv.size]
  simp [hdone, reached]

/-- An empty file, one ten-byte write and one `chmod`. -/
def racingCalls : Bool → Call
  | false => .putData 0 10
  | true => .chmod 420

def emptyFile : File := ⟨⟨0, 0, 384, 0, 0, 0, 0, 0⟩, 0⟩

/-- The state after the write and then the whole `chmod`. -/
def writeThenChmod : State Bool :=
  ⟨(emptyFile.updateSize 10).saveAttributes
      ((Call.chmod 420).edit 0 (emptyFile.updateSize 10).stat), fun _ => .returned⟩

theorem sizeKept_writeThenChmod :
    emptyFile.mUsedOffset = emptyFile.mAttributes.stSize ∧
    writeThenChmod.file.mAttributes.stSize = 10 ∧
    SizeKept racingCalls emptyFile writeThenChmod := by
  refine ⟨rfl, rfl, sizeKept_of_undisturbed racingCalls emptyFile rfl _ ?_⟩
  let s₁ : State Bool := ⟨emptyFile.updateSize 10, Function.update (fun _ => .ready) false .returned⟩
  let s₂ : State Bool :=
    ⟨emptyFile.updateSize 10, Function.update s₁.pc true (.copied (emptyFile.updateSize 10).stat)⟩
  have r₀ : Reach (Init emptyFile) (Guarded (Step racingCalls) (Undisturbed racingCalls))
      ⟨emptyFile, fun _ => .ready⟩ := .start ⟨rfl, fun _ => rfl⟩
  have r₁ : Reach (Init emptyFile) (Guarded (Step racingCalls) (Undisturbed racingCalls)) s₁ :=
    r₀.next (e := (false, 0)) ⟨fun _ _ _ _ => Pc.noConfusion, _, _, rfl, rfl⟩
  have r₂ : Reach (Init emptyFile) (Guarded (Step racingCalls) (Undisturbed racingCalls)) s₂ :=
    r₁.next (e := (true, 0)) ⟨fun _ h => absurd h (by decide), _, _, rfl, rfl⟩
  refine r₂.next (e := (true, 0)) ⟨fun h => absurd h (by decide), _, _, rfl, ?_⟩
  have hpc : writeThenChmod.pc = Function.update s₂.pc true .returned := by decide
  exact congrArg (State.mk writeThenChmod.file) hpc

/-- `chmod` copies the attributes, the write completes, `chmod` puts the old size back. -/
theorem chmod_rolls_back_size :
    ¬ ∀ s, Reach (Init emptyFile) (Step racingCalls) s → SizeKept racingCalls emptyFile s := by
  intro hall
  let s₀ : State Bool := ⟨emptyFile, fun _ => .ready⟩
  let s₁ : State Bool := ⟨emptyFile, Function.update s₀.pc true (.copied emptyFile.stat)⟩
  let s₂ : State Bool := ⟨emptyFile.updateSize 10, Function.update s₁.pc false .returned⟩
  let s₃ : State Bool :=
    ⟨(emptyFile.updateSize 10).saveAttributes ((Call.chmod 420).edit 0 emptyFile.stat),
      Function.update s₂.pc true .returned⟩
  have r₀ : Reach (Init emptyFile) (Step racingCalls) s₀ := .start ⟨rfl, fun _ => rfl⟩
  have r₁ : Reach (Init emptyFile) (Step racingCalls) s₁ :=
    r₀.next (e := (true, 0)) ⟨_, _, rfl, rfl⟩
  have r₂ : Reach (Init emptyFile) (Step racingCalls) s₂ :=
    r₁.next (e := (false, 0)) ⟨_, _, rfl, rfl⟩
  have r₃ : Reach (Init emptyFile) (Step racingCalls) s₃ :=
    r₂.next (e := (true, 0)) ⟨_, _, rfl, rfl⟩
  have hdone : ∀ i, s₃.pc i = .returned := by decide
  exact absurd (hall s₃ r₃ hdone).2 (by decide)

end EchoFs.Nvml.Attributes
