import EchoFs.Nvml.Loads
import EchoFs.Nvml.Subtrees

/-! Where `load` puts a file of the root directory. `remove_root` keeps the last character
of the root, which is the slash of the new path only when the root ends with one. -/

namespace EchoFs.Nvml.Backend
open Checked PathString

variable {b b' : State} {cs ds rest : List Path} {c p root pathname path file : Path}
  {dirs dirs' : Map Dir} {hash : Path → BitVec 64} {fs : FileSystem} {opens : Path → Bool}

/-- A path below the root directory by its names. -/
def relative (cs : List Path) : Path := (join cs).tail

theorem cons_relative (cs : List Path) (c : Path) :
    '/' :: relative (cs ++ [c]) = absolute (cs ++ [c]) := by
  rw [absolute_concat, relative]
  cases cs <;> rfl

/-- The load of `pathname` comes to `file`, in the iteration or at once. -/
def Covers (fs : FileSystem) (pathname file : Path) : Prop :=
  if fs.present pathname ∧ fs.isDirectory pathname then
    file ∈ fs.entries pathname ∧ fs.isDirectory file = false
  else file = pathname

/-- A file can be opened, and the directory above lists it. -/
structure InPlace (b : State) (cs : List Path) (c : Path) : Prop where
  stat : b.doStat (absolute (cs ++ [c])) = 0
  listed : c ∈ b.findS (absolute cs)

/-- A file of the root directory keeps its relative path. -/
structure KeepsPath (root : Path) (cs : List Path) (c : Path) : Prop where
  path : removeRoot root (slash root (relative (cs ++ [c]))) = some ('/' :: relative (cs ++ [c]))
  distinct : ∀ ds d, Names (ds ++ [d]) →
    removeRoot root (slash root (relative (ds ++ [d]))) =
      removeRoot root (slash root (relative (cs ++ [c]))) → ds ++ [d] = cs ++ [c]
  loads : ∀ (hash : Path → BitVec 64) (fs : FileSystem) (b b' : State) (pathname : Path),
    b.mRootDir = root → Covers fs pathname (slash root (relative (cs ++ [c]))) →
      State.load hash fs b pathname = .ok (b', .success) → InPlace b' cs c

theorem find_zero (s v : Path) : find s (s ++ v) = some 0 := by
  obtain ⟨i, hi, hfind⟩ := find_le s [] v
  rw [List.nil_append] at hfind
  rw [hfind, Nat.le_zero.mp hi]

theorem removeRoot_append (h : root ≠ []) (v : Path) :
    removeRoot root (root ++ v) = some ((root ++ v).drop (root.length - 1)) := by
  unfold removeRoot
  rw [find_zero]
  dsimp only
  rw [if_neg h, Nat.zero_add]

theorem removeRoot_slash (h : root.getLast? = some '/') (p : Path) :
    removeRoot root (slash root p) = some ('/' :: p) := by
  obtain ⟨r, rfl⟩ := List.getLast?_eq_some_iff.mp h
  have hslash : slash (r ++ ['/']) p = r ++ ['/'] ++ p := by
    rw [slash, if_neg (by simp), withSlash, if_pos h]
  rw [hslash, removeRoot_append (by simp), List.length_append, List.length_singleton,
    Nat.add_sub_cancel, List.append_assoc, List.drop_left]
  rfl

/-- Otherwise the result has one character too many. -/
theorem removeRoot_slash_iff :
    removeRoot root (slash root p) = some ('/' :: p) ↔ root.getLast? = some '/' := by
  refine ⟨fun hpath => ?_, fun h => removeRoot_slash h p⟩
  by_contra hlast
  by_cases hroot : root = []
  · subst hroot
    have hnone : removeRoot [] p = none := by
      unfold removeRoot
      rw [show find [] p = some 0 from find_zero [] p]
      rfl
    rw [slash, if_pos rfl, hnone] at hpath
    cases hpath
  · rw [slash, if_neg hroot, withSlash, if_neg hlast, List.append_assoc,
      removeRoot_append hroot] at hpath
    have hlen := congrArg List.length (Option.some.inj hpath)
    have hpos : 0 < root.length := List.length_pos_of_ne_nil hroot
    rw [List.length_drop, List.length_append, List.length_append, List.length_singleton,
      List.length_cons] at hlen
    omega

/-- No name leaves a listing. -/
def ListsMore (dirs dirs' : Map Dir) : Prop :=
  ∀ k d, dirs.lookup k = some d → ∃ d', dirs'.lookup k = some d' ∧ d.mFiles ⊆ d'.mFiles

theorem ListsMore.refl (dirs : Map Dir) : ListsMore dirs dirs :=
  fun _ d hd => ⟨d, hd, Finset.Subset.refl _⟩

theorem ListsMore.trans {dirs'' : Map Dir} (h : ListsMore dirs dirs') (h' : ListsMore dirs' dirs'') :
    ListsMore dirs dirs'' := by
  intro k d hd
  obtain ⟨d', hd', hsub⟩ := h k d hd
  obtain ⟨d'', hd'', hsub'⟩ := h' k d' hd'
  exact ⟨d'', hd'', hsub.trans hsub'⟩

theorem listsMore_emplace (k : Path) (d : Dir) : ListsMore dirs (emplace dirs k d) := by
  by_cases hk : k ∈ dirs
  · rw [emplace, if_pos hk]
    exact .refl dirs
  · intro k' d' hd'
    have hne : k' ≠ k := by
      rintro rfl
      exact hk (mem_of_lookup hd')
    exact ⟨d', by rw [lookup_emplace hk, if_neg hne, hd'], Finset.Subset.refl _⟩

theorem listsMore_addFile {d : Dir} (hd : dirs.lookup p = some d) (c : Path) :
    ListsMore dirs (dirs.insert p (d.addFile c)) := by
  intro k d' hd'
  by_cases hk : k = p
  · subst hk
    obtain rfl := Option.some.inj (hd.symm.trans hd')
    exact ⟨_, AList.lookup_insert _, Finset.subset_insert c _⟩
  · exact ⟨d', by rw [AList.lookup_insert_ne hk, hd'], Finset.Subset.refl _⟩

/-- The loop only adds; when it comes to its end, it has followed the names. -/
theorem buildDirs_result : ∀ {cs : List Path} {dirs : Map Dir} {built : Bool},
    buildDirs opens root rest (key cs) dirs = .ok (p, dirs', built) →
      ListsMore dirs dirs' ∧ (built → p = key (cs ++ rest)) := by
  induction rest with
  | nil =>
    intro cs dirs built h
    obtain ⟨rfl, hrest⟩ := Prod.mk.inj (Except.ok.inj h)
    obtain ⟨rfl, rfl⟩ := Prod.mk.inj hrest
    exact ⟨.refl dirs, fun _ => by rw [List.append_nil]⟩
  | cons c rest ih =>
    intro cs dirs built h
    unfold buildDirs at h
    dsimp only at h
    rw [← key_concat] at h
    rw [List.append_cons]
    split_ifs at h with hmem hopens
    · exact ih h
    · split at h
      · rename_i d hd
        obtain ⟨hmore, hpath⟩ := ih h
        exact ⟨((listsMore_emplace _ _).trans (listsMore_addFile hd c)).trans hmore, hpath⟩
      · cases h
    · obtain ⟨rfl, hrest⟩ := Prod.mk.inj (Except.ok.inj h)
      obtain ⟨rfl, rfl⟩ := Prod.mk.inj hrest
      exact ⟨.refl dirs, fun hfalse => by cases hfalse⟩

theorem buildDirs_top {built : Bool}
    (h : buildDirs opens root rest ['/'] dirs = .ok (p, dirs', built)) :
    ListsMore dirs dirs' ∧ (built → p = key rest) := by
  have hkey : key [] = ['/'] := rfl
  rw [← hkey] at h
  exact buildDirs_result h

/-- The same for the whole backend. -/
structure Grows (b b' : State) : Prop where
  root : b'.mRootDir = b.mRootDir
  files : ∀ p ∈ b.mFiles, p ∈ b'.mFiles
  dirs : ListsMore b.mDirs b'.mDirs

theorem Grows.refl (b : State) : Grows b b := ⟨rfl, fun _ hp => hp, .refl _⟩

theorem Grows.trans {b'' : State} (h : Grows b b') (h' : Grows b' b'') : Grows b b'' :=
  ⟨h'.root.trans h.root, fun p hp => h'.files p (h.files p hp), h.dirs.trans h'.dirs⟩

theorem grows_importFile (hash : Path → BitVec 64) (b : State) (pathname path : Path) :
    Grows b (b.importFile hash pathname path) :=
  ⟨rfl, fun _ hp => mem_emplace.mpr (.inr hp), .refl _⟩

/-- The directories of a path after those of the loop. -/
theorem grows_dirs (h : Grows b b') (hmore : ListsMore b'.mDirs dirs) :
    Grows b { b' with mDirs := dirs } :=
  ⟨h.root, h.files, h.dirs.trans hmore⟩

theorem loadFile_grows : Ensures True (fun r => Grows b r.1) (b.loadFile hash fs pathname path) := by
  unfold State.loadFile
  split_ifs
  · exact .refl b
  · refine Ensures.bind (Q := fun r => ListsMore b.mDirs r.2.1) ?_ fun r _ hmore => ?_
    · rw [ensures_true]
      exact fun r hr => (buildDirs_top hr).1
    · dsimp only
      split_ifs
      · split
        · rename_i d hd
          exact grows_dirs (grows_importFile hash b pathname path)
            (hmore.trans (listsMore_addFile hd _))
        · exact grows_dirs (grows_importFile hash b pathname path) hmore
      · exact grows_dirs (grows_importFile hash b pathname path) hmore
  · exact ⟨rfl, fun _ hp => hp, .refl _⟩

theorem loadEntry_grows : Ensures True (fun r => Grows b r.1) (b.loadEntry hash fs pathname) := by
  unfold State.loadEntry
  split
  · split
    · exact loadFile_grows
    · exact .refl b
  · exact .refl b

theorem loadEntries_grows {entries : List Path} : ∀ {b : State},
    Ensures True (fun r => Grows b r.1) (State.loadEntries hash fs entries b) := by
  induction entries with
  | nil => exact fun {b} => .refl b
  | cons entry rest ih =>
    intro b
    unfold State.loadEntries
    split_ifs
    · exact ih
    · refine loadEntry_grows.bind fun r _ hr => ?_
      dsimp only
      split_ifs
      · rw [ensures_true]
        exact fun r' hr' => hr.trans (ensures_true.mp ih r' hr')
      · exact hr

/-- The maps hold the file and its name. -/
structure Stored (b : State) (cs : List Path) (c : Path) : Prop where
  file : absolute (cs ++ [c]) ∈ b.mFiles
  name : ∃ d, b.mDirs.lookup (key cs) = some d ∧ c ∈ d.mFiles

theorem Stored.mono (h : Stored b cs c) (hgrows : Grows b b') : Stored b' cs c := by
  obtain ⟨d, hd, hc⟩ := h.name
  obtain ⟨d', hd', hsub⟩ := hgrows.dirs _ d hd
  exact ⟨hgrows.files _ h.file, d', hd', hsub hc⟩

theorem Stored.inPlace (h : Stored b cs c) (hcs : Names cs) : InPlace b cs c := by
  obtain ⟨f, hf⟩ := lookup_of_mem h.file
  obtain ⟨d, hd, hc⟩ := h.name
  constructor
  · rw [State.doStat, found_file hf]
    rfl
  · rw [findS_absolute hcs hd]
    exact hc

theorem loadFile_stored (hcs : Names cs) (hc : Name c)
    (h : b.loadFile hash fs pathname (absolute (cs ++ [c])) = .ok (b', .success)) :
    Stored b' cs c := by
  have hparts : parts (absolute (cs ++ [c])) = ['/'] :: (cs ++ [c]) := by
    rw [absolute_concat, parts_join hcs hc]
  have hdirs : (parts (absolute (cs ++ [c]))).tail.dropLast = cs := by
    rw [hparts, List.tail_cons, List.dropLast_concat]
  have hlast : (parts (absolute (cs ++ [c]))).getLast?.getD [] = c := by
    rw [hparts, ← List.cons_append, List.getLast?_concat, Option.getD_some]
  unfold State.loadFile at h
  dsimp only at h
  rw [hdirs, hlast] at h
  split_ifs at h
  · cases h
  · obtain ⟨⟨p, dirs, built⟩, hbuild, h⟩ := bind_eq_ok.mp h
    dsimp only at h
    split_ifs at h with hbuilt
    · obtain rfl := (buildDirs_top hbuild).2 hbuilt
      split at h
      · rename_i d hd
        obtain ⟨rfl, -⟩ := Prod.mk.inj (Except.ok.inj h)
        exact ⟨mem_emplace.mpr (.inl rfl), _, AList.lookup_insert _, Finset.mem_insert_self c _⟩
      · cases h
    · cases h
  · cases h

theorem loadEntry_stored (hcs : Names cs) (hc : Name c)
    (hroot : removeRoot b.mRootDir file = some (absolute (cs ++ [c])))
    (h : b.loadEntry hash fs file = .ok (b', .success)) : Stored b' cs c := by
  unfold State.loadEntry at h
  split_ifs at h
  · rw [hroot] at h
    exact loadFile_stored hcs hc h
  · cases h

theorem loadEntries_stored (hcs : Names cs) (hc : Name c)
    (hroot : removeRoot root file = some (absolute (cs ++ [c])))
    (hfile : fs.isDirectory file = false) {entries : List Path} : ∀ {b : State},
    b.mRootDir = root → file ∈ entries →
      State.loadEntries hash fs entries b = .ok (b', .success) → Stored b' cs c := by
  induction entries with
  | nil => exact fun _ hmem => absurd hmem List.not_mem_nil
  | cons entry rest ih =>
    intro b hb hmem h
    unfold State.loadEntries at h
    split_ifs at h with hentry
    · rcases List.mem_cons.mp hmem with rfl | hmem
      · simp [hfile] at hentry
      · exact ih hb hmem h
    · obtain ⟨⟨b₁, error⟩, hload, hrest⟩ := bind_eq_ok.mp h
      dsimp only at hrest
      split_ifs at hrest with herror
      · subst herror
        rcases List.mem_cons.mp hmem with rfl | hmem
        · exact (loadEntry_stored hcs hc (hb ▸ hroot) hload).mono
            (ensures_true.mp loadEntries_grows _ hrest)
        · exact ih ((ensures_true.mp loadEntry_grows _ hload).root.trans hb) hmem hrest
      · exact absurd (Prod.mk.inj (Except.ok.inj hrest)).2 herror

theorem load_stored (hcs : Names cs) (hc : Name c)
    (hroot : removeRoot b.mRootDir file = some (absolute (cs ++ [c])))
    (hcovers : Covers fs pathname file)
    (h : State.load hash fs b pathname = .ok (b', .success)) : Stored b' cs c := by
  unfold Covers at hcovers
  unfold State.load at h
  split_ifs at h hcovers
  · split at h
    · exact loadEntries_stored hcs hc hroot hcovers.2 rfl hcovers.1 h
    · cases h
  · subst hcovers
    exact loadEntry_stored hcs hc hroot h

/-- A file of the root directory keeps its path just when the root is given with a slash
at its end. -/
theorem load_keepsPath_iff (root : Path) (cs : List Path) (c : Path) (h : Names (cs ++ [c])) :
    KeepsPath root cs c ↔ root.getLast? = some '/' := by
  refine ⟨fun hkeeps => removeRoot_slash_iff.mp hkeeps.path, fun hroot => ?_⟩
  have hcs : Names cs := fun d hd => h d (List.mem_append_left _ hd)
  have hc : Name c := h c (by simp)
  refine ⟨removeRoot_slash hroot _, fun ds d hds heq => ?_, fun hash fs b b' pathname hb hcovers
    hload => ?_⟩
  · rw [removeRoot_slash hroot, removeRoot_slash hroot, cons_relative, cons_relative,
      absolute_concat, absolute_concat] at heq
    exact join_injective hds h (Option.some.inj heq)
  · have hpath : removeRoot b.mRootDir (slash root (relative (cs ++ [c]))) =
        some (absolute (cs ++ [c])) := by
      rw [hb, removeRoot_slash hroot, cons_relative]
    exact (load_stored hcs hc hpath hcovers hload).inPlace hcs

theorem names_f : Names ([] ++ [['f']]) := names_one ⟨by decide, by decide⟩

theorem load_keepsPath_slash : KeepsPath ['/', 'r', '/'] [] ['f'] :=
  (load_keepsPath_iff ['/', 'r', '/'] [] ['f'] names_f).mpr rfl

/-- Without the slash the file "a/f" is listed in "/a" but cannot be opened. -/
theorem slashless_root_loses_path : ¬ KeepsPath ['/', 'r'] [['a']] ['f'] := by
  intro hkeeps
  have hplace := hkeeps.loads (fun _ => 0) oneFile (.construct ['/', 'p'] ['/', 'r'] fun _ => none)
    _ ['/', 'r', '/', 'a', '/', 'f'] rfl (by unfold Covers; decide) rfl
  exact absurd hplace.stat (by decide)

end EchoFs.Nvml.Backend
