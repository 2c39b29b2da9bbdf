import EchoFs.Library.LockOrder
import EchoFs.Nvml.Backend

/-! The two mutexes of `nvml_backend`: in which order every operation takes and
releases them. Between two steps a thread that holds a mutex may change the maps. -/

namespace EchoFs.Nvml.Locks
open LockOrder Transition Relation

inductive Mutex where
  | files
  | dirs
deriving DecidableEq, Repr

/-- What an operation looks at before it goes on: the maps, and whether a call of the
system or a constructor fails. -/
inductive Test where
  | isFile (p : Path)
  | isDir (p : Path)
  | fails
deriving DecidableEq

structure Maps where
  mFiles : Path → Bool
  mDirs : Path → Bool
  fails : Bool

def eval : Test → Maps → Bool
  | .isFile p, d => d.mFiles p
  | .isDir p, d => d.mDirs p
  | .fails, d => d.fails

abbrev Program := Code Mutex Test

inductive Op where
  | load (path : Path)
  | doStat (path : Path)
  | doCreate (path : Path)
  | doUnlink (path : Path)
  | doRename (oldpath newpath : Path)
  | doMkdir (path : Path)
  | doRmdir (path : Path)
  | doReaddir (path : Path)
  | doChmod (path : Path)
  | doChown (path : Path)

namespace Op

/-- `do_mkdir`, `do_rmdir` and `find_s` -/
def dirsOnly : Program := .lock .dirs (.unlock .dirs .stop)

/-- `do_unlink` and `do_rename` -/
def filesThenDirs : Program := .lock .files (.lock .dirs (.unlock .dirs (.unlock .files .stop)))

/-- `do_chmod` and `do_chown`: the file is looked up under both mutexes. -/
def setAttributes (path : Path) : Program :=
  .lock .dirs (.test (.isDir (withSlash path)) (.unlock .dirs .stop)
    (.lock .files (.unlock .files (.unlock .dirs .stop))))

/-- The lock guards of an operation, released in the opposite order. `load` of a
directory is one such program for each file below it. -/
def code : Op → Program
  | load path => .lock .files (.test (.isFile path) (.unlock .files .stop)
      -- the constructor of the file may throw
      (.test .fails (.unlock .files .stop)
        (.lock .dirs (.unlock .dirs (.unlock .files .stop)))))
  | doStat path => .lock .files (.test (.isFile path) (.unlock .files .stop)
      (.lock .dirs (.unlock .dirs (.unlock .files .stop))))
  | doCreate path => .lock .files (.test (.isFile path) (.unlock .files .stop)
      (.lock .dirs (.unlock .dirs (.unlock .files .stop))))
  | doUnlink _ => filesThenDirs
  | doRename _ _ => filesThenDirs
  | doMkdir _ => dirsOnly
  | doRmdir _ => dirsOnly
  | doReaddir _ => dirsOnly
  | doChmod path => setAttributes path
  | doChown path => setAttributes path

end Op

def programs (c : Program) : Prop := ∃ op : Op, c = op.code

variable {ι : Type} [DecidableEq ι]

abbrev Threads (ι : Type) := State ι Mutex Test Maps

/-- No thread is in the backend, which has the root directory only. -/
def init : Threads ι := ⟨fun _ => none, fun _ => .stop, ⟨fun _ => false, (· = ['/']), false⟩⟩

/-- A lookup of `do_chmod` or `do_chown` among the directories finds the path. -/
def FindsDir : Test → Bool → Prop
  | .isDir _, found => found = true
  | _, _ => True

def rank : Mutex → Nat
  | .files => 0
  | .dirs => 1

theorem Op.code_ordered (op : Op) : Ordered rank FindsDir [] op.code := by
  cases op <;> simp [Op.code, Op.filesThenDirs, Op.dirsOnly, Op.setAttributes, Ordered, rank,
    FindsDir]

/-- If `do_chmod` and `do_chown` are called on directories only, no threads wait for each
other's mutex. -/
theorem no_deadlock {s : Threads ι} (h : Reach (· = init)
    (Guarded (Step programs eval) (Admits FindsDir eval)) s) (i : ι) :
    ¬TransGen (WaitsFor s) i i := by
  have hinv : Inv rank FindsDir s := by
    refine Reach.invariant ?_ ?_ h
    · rintro _ rfl i
      exact ⟨[], List.nodup_nil, by simp [init], rfl⟩
    · rintro s e s' hs ⟨hok, hstep⟩
      refine hs.step ?_ hok hstep
      rintro c ⟨op, rfl⟩
      exact op.code_ordered
  exact hinv.no_cycle i

/-- One thread looks for "/a" and another one changes the mode of the root. -/
theorem no_deadlock_twoThreads : ∃ s : Threads Bool, s.holder .files = some false ∧
    s.holder .dirs = some true ∧ ∀ i, ¬TransGen (WaitsFor s) i i := by
  have h₁ : Reach (· = init) (Guarded (Step programs eval) (Admits FindsDir eval))
      (_ : Threads Bool) := .next (e := .start false) (.start rfl) ⟨trivial,
    .start (i := false) (c := (Op.doStat ['/', 'a']).code) rfl ⟨_, rfl⟩⟩
  have h₂ : Reach (· = init) (Guarded (Step programs eval) (Admits FindsDir eval))
      (_ : Threads Bool) := .next (e := .acquire false Mutex.files) h₁
    ⟨trivial, .acquire (i := false) (m := Mutex.files) rfl rfl⟩
  have h₃ : Reach (· = init) (Guarded (Step programs eval) (Admits FindsDir eval))
      (_ : Threads Bool) := .next (e := .start true) h₂ ⟨trivial,
    .start (i := true) (c := (Op.doChmod ['/']).code) rfl ⟨_, rfl⟩⟩
  have h₄ : Reach (· = init) (Guarded (Step programs eval) (Admits FindsDir eval))
      (_ : Threads Bool) := .next (e := .acquire true Mutex.dirs) h₃
    ⟨trivial, .acquire (i := true) (m := Mutex.dirs) rfl rfl⟩
  exact ⟨_, rfl, rfl, no_deadlock h₄⟩

/-- `do_chmod` of "/a", which is no directory, against `do_unlink`. -/
theorem chmod_deadlock : ¬∀ s : Threads Bool, Reach (· = init) (Step programs eval) s →
    ∀ i, ¬TransGen (WaitsFor s) i i := by
  intro hclaim
  have h₁ : Reach (· = init) (Step programs eval) (_ : Threads Bool) := .next (.start rfl)
    (.start (i := true) (c := (Op.doChmod ['/', 'a']).code) rfl ⟨_, rfl⟩)
  have h₂ : Reach (· = init) (Step programs eval) (_ : Threads Bool) :=
    .next h₁ (.acquire (i := true) (m := .dirs) rfl rfl)
  have h₃ : Reach (· = init) (Step programs eval) (_ : Threads Bool) :=
    .next h₂ (.test (i := true) rfl)
  have h₄ : Reach (· = init) (Step programs eval) (_ : Threads Bool) := .next h₃
    (.start (i := false) (c := (Op.doUnlink ['/', 'b']).code) rfl ⟨_, rfl⟩)
  have h₅ : Reach (· = init) (Step programs eval) (_ : Threads Bool) :=
    .next h₄ (.acquire (i := false) (m := .files) rfl rfl)
  refine hclaim _ h₅ true (.tail (.single (b := false) ?_) ?_)
  · exact ⟨.files, _, rfl, rfl⟩
  · exact ⟨.dirs, _, rfl, rfl⟩

end EchoFs.Nvml.Locks
