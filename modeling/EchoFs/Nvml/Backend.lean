import Mathlib.Data.List.AList
import Mathlib.Data.Finset.Card
import EchoFs.Library.Checked
import EchoFs.Library.PathString
import EchoFs.Library.Transition

/-! The names in `nvml_backend`: the maps from paths to files and to directories, and
the pool subdirectories of the file objects. A file object lives as long as a map or
an open handle points to it. -/

namespace EchoFs.Nvml

abbrev Path := List Char

/-- `if (p.size() == 0 or p.back() != '/') p.push_back('/')` -/
def withSlash (p : Path) : Path := if p.getLast? = some '/' then p else p ++ ['/']

end EchoFs.Nvml

namespace EchoFs.Nvml.Backend
open Checked PathString

/-- `std::unordered_map` with paths for keys. -/
abbrev Map (α : Type) := AList fun _ : Path => α

/-- A key that is there keeps its value. -/
def emplace {α : Type} (m : Map α) (k : Path) (a : α) : Map α := if k ∈ m then m else m.insert k a

section Map
variable {α : Type} {m : Map α} {k k' : Path} {a : α}

theorem mem_of_lookup (h : m.lookup k = some a) : k ∈ m :=
  AList.lookup_isSome.mp (by rw [h]; rfl)

theorem lookup_of_mem (h : k ∈ m) : ∃ a, m.lookup k = some a :=
  Option.isSome_iff_exists.mp (AList.lookup_isSome.mpr h)

theorem emplace_new (h : k ∉ m) : emplace m k a = m.insert k a := if_neg h

@[simp] theorem mem_emplace : k' ∈ emplace m k a ↔ k' = k ∨ k' ∈ m := by
  unfold emplace
  split
  · rename_i h
    exact ⟨.inr, fun hk => hk.elim (fun he => he ▸ h) id⟩
  · exact AList.mem_insert m

theorem lookup_emplace (h : k ∉ m) :
    (emplace m k a).lookup k' = if k' = k then some a else m.lookup k' := by
  rw [emplace_new h]
  split
  · rename_i he
    rw [he, AList.lookup_insert]
  · rename_i hne
    exact AList.lookup_insert_ne hne

theorem lookup_erase : (m.erase k).lookup k' = if k' = k then none else m.lookup k' := by
  split
  · rename_i he
    rw [he, AList.lookup_erase]
  · rename_i hne
    exact AList.lookup_erase_ne hne

theorem mem_emplace_erase {o n : Path} (hne : o ≠ n) :
    k ∈ (emplace m n a).erase o ↔ k ∈ emplace (m.erase o) n a := by
  rw [AList.mem_erase, mem_emplace, mem_emplace, AList.mem_erase]
  constructor
  · rintro ⟨hk, rfl | hmem⟩
    · exact .inl rfl
    · exact .inr ⟨hk, hmem⟩
  · rintro (rfl | ⟨hk, hmem⟩)
    · exact ⟨hne.symm, .inl rfl⟩
    · exact ⟨hk, .inr hmem⟩

end Map

structure Dir where
  mFiles : Finset Path
  stNlink : Int
deriving DecidableEq

namespace Dir

/-- The constructor, with or without the attributes of a directory on disk. -/
def new : Dir := ⟨∅, 1⟩

def addFile (file : Path) (d : Dir) : Dir := ⟨insert file d.mFiles, d.stNlink + 1⟩

def removeFile (file : Path) (d : Dir) : Dir := ⟨d.mFiles.erase file, d.stNlink - 1⟩

end Dir

/-- A file object, which `serial` identifies. -/
structure File where
  serial : Nat
  mPathname : Path
  mPoolSubdir : Path
deriving DecidableEq

/-- The backend with the handles that are open, the file objects made so far, those that
are initialised, and the objects whose pools the subdirectories hold. -/
structure State where
  mDaxfsMountPoint : Path
  mRootDir : Path
  mFiles : Map File
  mDirs : Map Dir
  handles : List File
  serials : Nat
  mInitialized : Finset Nat
  pools : Path → Option Nat

/-- What the calls find on the file system below. -/
structure FileSystem where
  present : Path → Bool
  isDirectory : Path → Bool
  entries : Path → List Path
  opens : Path → Bool

/-- How a load ends. -/
inductive Outcome where
  | success
  | noSuchPath
  | pathAlreadyImported
  | internalError
  | threw
deriving DecidableEq, Repr

def ENOENT : Int := 2
def EEXIST : Int := 17
def ENOTEMPTY : Int := 39

/-- `bfs::path::operator/` -/
def slash (p q : Path) : Path := if p = [] then q else withSlash p ++ q

/-- `ss << std::hex << n` -/
def hex (n : BitVec 64) : Path := Nat.toDigits 16 n.toNat

def generatePoolSubdir (hash : Path → BitVec 64) (poolBase pathname : Path) : Path :=
  slash poolBase (hex (hash pathname))

/-- `if (dir != m_dirs.end()) dir->second.get()->...` -/
def updateDir (m : Map Dir) (k : Path) (f : Dir → Dir) : Map Dir :=
  match m.lookup k with
  | some d => m.insert k (f d)
  | none => m

theorem lookup_updateDir (m : Map Dir) (k k' : Path) (f : Dir → Dir) :
    (updateDir m k f).lookup k' = if k' = k then (m.lookup k).map f else m.lookup k' := by
  unfold updateDir
  split
  · rename_i d hd
    split
    · rename_i he
      rw [he, AList.lookup_insert, hd]
      rfl
    · rename_i hne
      exact AList.lookup_insert_ne hne
  · rename_i hnone
    split
    · rename_i he
      rw [he, hnone]
      rfl
    · rfl

@[simp] theorem mem_updateDir {m : Map Dir} {k k' : Path} {f : Dir → Dir} :
    k' ∈ updateDir m k f ↔ k' ∈ m := by
  rw [← AList.lookup_isSome, ← AList.lookup_isSome, lookup_updateDir]
  split
  · rename_i he
    rw [he, Option.isSome_map]
  · exact Iff.rfl

def parentKey (p : Path) : Path := withSlash (upToSlash p)

def dirKey (p : Path) : Path := if 1 < p.length then p ++ ['/'] else p

/-- `bfs::path(p).filename()` -/
def filename (p : Path) : Path := (parts p).getLast?.getD []

/-- `substr` throws when the root is empty. -/
def removeRoot (root pathname : Path) : Option Path :=
  match find root pathname with
  | none => some ('/' :: filename pathname)
  | some i => if root = [] then none else some (pathname.drop (i + root.length - 1))

/-- The directories above a file that `load` imports. The constructor of a directory
throws when it cannot open the original. -/
def buildDirs (opens : Path → Bool) (root : Path) :
    List Path → Path → Map Dir → Result (Path × Map Dir × Bool)
  | [], buildPath, mDirs => .ok (buildPath, mDirs, true)
  | part :: rest, buildPath, mDirs =>
    let path := buildPath ++ part ++ ['/']
    if path ∈ mDirs then buildDirs opens root rest path mDirs
    else if opens (root ++ path) then
      let mDirs := emplace mDirs path Dir.new
      let parent := (beforeLast part path).getD path
      match mDirs.lookup parent with
      | some d => buildDirs opens root rest path (mDirs.insert parent (d.addFile part))
      | none => .error .badPointer
    else .ok (path, mDirs, false)

namespace State

variable (hash : Path → BitVec 64)

/-- The state of the constructor; it throws when it cannot open the root. -/
def construct (daxfsMount rootDir : Path) (pools : Path → Option Nat) : State where
  mDaxfsMountPoint := daxfsMount
  mRootDir := rootDir
  mFiles := ∅
  mDirs := emplace ∅ ['/'] Dir.new
  handles := []
  serials := 0
  mInitialized := ∅
  pools := pools

/-- The maps and the handles point to the object. -/
def Live (b : State) (f : File) : Prop := f ∈ b.mFiles.entries.map Sigma.snd ∨ f ∈ b.handles

instance (b : State) (f : File) : Decidable (b.Live f) := inferInstanceAs (Decidable (_ ∨ _))

/-- A pointer to an object is gone; the last one takes the object and its pools with it. -/
def drop (b : State) (f : File) : State :=
  if b.Live f then b else { b with pools := Function.update b.pools f.mPoolSubdir none }

/-- The next file object, at `pathname`. -/
def newFile (b : State) (pathname : Path) : File where
  serial := b.serials
  mPathname := pathname
  mPoolSubdir := generatePoolSubdir hash b.mDaxfsMountPoint pathname

/-- `m_files.erase(file)` and the name in the parent directory. -/
def eraseFile (b : State) (path : Path) (file : File) : State :=
  let b := { b with mFiles := b.mFiles.erase path }.drop file
  { b with mDirs := updateDir b.mDirs (parentKey path) (Dir.removeFile (afterSlash path)) }

def doCreate (b : State) (pathname : Path) : State × Int :=
  if pathname ∈ b.mFiles then (b, -1)
  else if parentKey pathname ∈ b.mDirs then
    let file := b.newFile hash pathname
    ({ b with
        mFiles := emplace b.mFiles pathname file
        mDirs := updateDir b.mDirs (parentKey pathname) (Dir.addFile (afterSlash pathname))
        handles := file :: b.handles
        serials := b.serials + 1 }, 0)
  else (b, -1)

def doUnlink (b : State) (pathname : Path) : State × Int :=
  match b.mFiles.lookup pathname with
  | some file => (b.eraseFile pathname file, 0)
  | none => (b, -ENOENT)

def doRenamedir (b : State) (opath npath : Path) : State × Int :=
  if npath ∈ b.mDirs then (b, -EEXIST)
  else
    match b.mDirs.lookup opath with
    | some dir => ({ b with mDirs := (b.mDirs.insert npath dir).erase opath }, 0)
    | none => (b, -ENOENT)

/-- The target of a rename makes way. -/
def eraseTarget (b : State) (npath : Path) : State :=
  match b.mFiles.lookup npath with
  | some file => b.eraseFile npath file
  | none => b

def doRename (b : State) (opath npath : Path) : Result (State × Int) :=
  if dirKey opath ∈ b.mDirs then .ok (b.doRenamedir (dirKey opath) (dirKey npath))
  else if opath ∈ b.mFiles then
    let b := b.eraseTarget npath
    match b.mFiles.lookup opath with
    | some file =>
      let mDirs := updateDir b.mDirs (parentKey opath) (Dir.removeFile (afterSlash opath))
      .ok ({ b with
              mFiles := (emplace b.mFiles npath file).erase opath
              mDirs := updateDir mDirs (parentKey npath) (Dir.addFile (afterSlash npath)) }, 0)
    | none => .error .badPointer
  else .ok (b, -ENOENT)

def doMkdir (b : State) (pathname : Path) : Result (State × Int) :=
  let path := withSlash pathname
  if path ∈ b.mDirs then .ok (b, -1)
  else do
    let mDirs := emplace b.mDirs path Dir.new
    let parent := upToSlash path.dropLast
    check (parent ∈ mDirs)
    let mDirs := updateDir mDirs parent (Dir.addFile (afterSlash path.dropLast))
    .ok ({ b with mDirs := mDirs }, 0)

def doRmdir (b : State) (pathname : Path) : Result (State × Int) :=
  let path := withSlash pathname
  match b.mDirs.lookup path with
  | some dir =>
    if dir.stNlink ≠ 1 then .ok (b, -ENOTEMPTY)
    else do
      let mDirs := b.mDirs.erase path
      let parent := upToSlash path.dropLast
      check (parent ∈ mDirs)
      let mDirs := updateDir mDirs parent (Dir.removeFile (afterSlash path.dropLast))
      .ok ({ b with mDirs := mDirs }, 0)
  | none => .ok (b, -ENOENT)

/-- What `do_stat` finds, a file before a directory. -/
def found (b : State) (path : Path) : Option (File ⊕ Dir) :=
  match b.mFiles.lookup path with
  | some file => some (.inl file)
  | none => (b.mDirs.lookup (dirKey path)).map .inr

def doStat (b : State) (path : Path) : Int := if (b.found path).isSome then 0 else -ENOENT

/-- The names that `find_s` lists. -/
def findS (b : State) (path : Path) : Finset Path :=
  let tmpPath := if path = [] then path else withSlash path
  match b.mDirs.lookup tmpPath with
  | some dir => dir.mFiles
  | none => ∅

/-- The constructor of a file that reads its contents, and the entry in `m_files`. -/
def importFile (b : State) (pathname path : Path) : State :=
  let file := b.newFile hash pathname
  { b with
    mFiles := emplace b.mFiles path file
    serials := b.serials + 1
    mInitialized := insert file.serial b.mInitialized
    pools := Function.update b.pools file.mPoolSubdir (some file.serial) }

/-- `load` of one file, behind `remove_root`. The constructor has removed the pool
subdirectory when it throws. -/
def loadFile (fs : FileSystem) (b : State) (pathname path : Path) : Result (State × Outcome) :=
  if path ∈ b.mFiles then .ok (b, .pathAlreadyImported)
  else if fs.opens pathname then do
    let b := b.importFile hash pathname path
    let mPath := parts path
    let (buildPath, mDirs, built) ←
      buildDirs fs.opens b.mRootDir mPath.tail.dropLast ['/'] b.mDirs
    if built then
      match mDirs.lookup buildPath with
      | some d =>
        .ok ({ b with mDirs := mDirs.insert buildPath (d.addFile (mPath.getLast?.getD [])) }, .success)
      | none => .ok ({ b with mDirs := mDirs }, .internalError)
    else .ok ({ b with mDirs := mDirs }, .threw)
  else
    let subdir := (b.newFile hash pathname).mPoolSubdir
    .ok ({ b with pools := Function.update b.pools subdir none }, .threw)

/-- The recursive call for an entry that is no directory. -/
def loadEntry (fs : FileSystem) (b : State) (pathname : Path) : Result (State × Outcome) :=
  if fs.present pathname then
    match removeRoot b.mRootDir pathname with
    | some path => b.loadFile hash fs pathname path
    | none => .ok (b, .threw)
  else .ok (b, .noSuchPath)

def loadEntries (fs : FileSystem) : List Path → State → Result (State × Outcome)
  | [], b => .ok (b, .success)
  | entry :: rest, b =>
    if fs.isDirectory entry then loadEntries fs rest b
    else do
      let (b, error) ← b.loadEntry hash fs entry
      if error = .success then loadEntries fs rest b else .ok (b, error)

def load (fs : FileSystem) (b : State) (pathname : Path) : Result (State × Outcome) :=
  if fs.present pathname ∧ fs.isDirectory pathname then
    match removeRoot b.mRootDir pathname with
    | some _ => loadEntries hash fs (fs.entries pathname) b
    | none => .ok (b, .threw)
  else b.loadEntry hash fs pathname

/-- A handle takes a pointer to the file. -/
def doOpen (b : State) (pathname : Path) : State :=
  match b.mFiles.lookup pathname with
  | some file => { b with handles := file :: b.handles }
  | none => b

def release (b : State) (file : File) : State :=
  if file ∈ b.handles then { b with handles := b.handles.erase file }.drop file else b

/-- The initialisation in `put_data`; when a system call fails the subdirectory is gone
and the next call tries again. -/
def firstWrite (b : State) (file : File) (made : Bool) : State :=
  if b.Live file ∧ file.serial ∉ b.mInitialized then
    if made then
      { b with
        mInitialized := insert file.serial b.mInitialized
        pools := Function.update b.pools file.mPoolSubdir (some file.serial) }
    else { b with pools := Function.update b.pools file.mPoolSubdir none }
  else b

end State

inductive Call where
  | create (pathname : Path)
  | unlink (pathname : Path)
  | rename (oldpath newpath : Path)
  | mkdir (pathname : Path)
  | rmdir (pathname : Path)
  | load (fs : FileSystem) (pathname : Path)
  | doOpen (pathname : Path)
  | release (file : File)
  | firstWrite (file : File) (made : Bool)

/-- The state a call leaves, without what it returns. -/
def stateOf {α : Type} (x : Result (State × α)) : Result State := x.map Prod.fst

theorem stateOf_ok {α : Type} {x : Result (State × α)} {b : State} {a : α} (h : x = .ok (b, a)) :
    stateOf x = .ok b := by
  rw [h]
  rfl

/-- The state a call leaves, unless an assertion or a pointer fails. -/
def State.call (hash : Path → BitVec 64) (b : State) : Call → Result State
  | .create p => .ok (b.doCreate hash p).1
  | .unlink p => .ok (b.doUnlink p).1
  | .rename o n => stateOf (b.doRename o n)
  | .mkdir p => stateOf (b.doMkdir p)
  | .rmdir p => stateOf (b.doRmdir p)
  | .load fs p => stateOf (State.load hash fs b p)
  | .doOpen p => .ok (b.doOpen p)
  | .release f => .ok (b.release f)
  | .firstWrite f made => .ok (b.firstWrite f made)

def Step (hash : Path → BitVec 64) (b : State) (c : Call) (b' : State) : Prop :=
  b.call hash c = .ok b'

end EchoFs.Nvml.Backend
