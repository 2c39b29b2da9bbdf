import EchoFs.Nvml.Consistent

/-! Renaming a directory: `do_renamedir` moves one key, while the files and directories
below are stored under their own paths and the parents list names. -/

namespace EchoFs.Nvml.Backend
open Checked PathString Transition

/-- The path of a file or directory by its names. -/
def absolute (cs : List Path) : Path := if cs = [] then ['/'] else join cs

variable {b b' : State} {cs ds os ns p : List Path} {c o n : Path} {hash : Path → BitVec 64}

theorem absolute_concat (cs : List Path) (c : Path) : absolute (cs ++ [c]) = join (cs ++ [c]) :=
  if_neg (by simp)

theorem dirKey_absolute (hcs : Names cs) : dirKey (absolute cs) = key cs := by
  obtain rfl | ⟨ds, c, rfl⟩ := cs.eq_nil_or_concat'
  · rfl
  · rw [absolute_concat, dirKey_join (hcs c (by simp))]

theorem withSlash_absolute (hcs : Names cs) : withSlash (absolute cs) = key cs := by
  obtain rfl | ⟨ds, c, rfl⟩ := cs.eq_nil_or_concat'
  · rfl
  · rw [absolute_concat, withSlash_join (hcs c (by simp))]

theorem absolute_ne_nil (cs : List Path) : absolute cs ≠ [] := by
  obtain rfl | ⟨ds, c, rfl⟩ := cs.eq_nil_or_concat'
  · decide
  · rw [absolute_concat, join_concat]
    simp

theorem found_file {f : File} (h : b.mFiles.lookup (absolute cs) = some f) :
    b.found (absolute cs) = some (.inl f) := by
  rw [State.found, h]

theorem found_absolute (hcs : Names cs) (h : absolute cs ∉ b.mFiles) :
    b.found (absolute cs) = (b.mDirs.lookup (key cs)).map .inr := by
  rw [State.found, AList.lookup_eq_none.mpr h, dirKey_absolute hcs]

theorem found_eq_none_iff (hcs : Names cs) :
    b.found (absolute cs) = none ↔ absolute cs ∉ b.mFiles ∧ key cs ∉ b.mDirs := by
  by_cases h : absolute cs ∈ b.mFiles
  · obtain ⟨f, hf⟩ := lookup_of_mem h
    rw [found_file hf]
    simp [h]
  · rw [found_absolute hcs h, Option.map_eq_none_iff, AList.lookup_eq_none]
    simp [h]

theorem findS_absolute (hcs : Names cs) {d : Dir} (h : b.mDirs.lookup (key cs) = some d) :
    b.findS (absolute cs) = d.mFiles := by
  unfold State.findS
  dsimp only
  rw [if_neg (absolute_ne_nil cs), withSlash_absolute hcs, h]

/-- The directory `os/o` with all below it is now `ns/n`, the listings and the link counts
of the parents follow, and nothing else changes. -/
structure Moved (b b' : State) (os : List Path) (o : Path) (ns : List Path) (n : Path) : Prop where
  subtree : ∀ p x, Names p → b.found (absolute (os ++ [o] ++ p)) = some x →
    b'.found (absolute (ns ++ [n] ++ p)) = some x
  gone : ∀ p, Names p → b'.found (absolute (os ++ [o] ++ p)) = none
  unlisted : o ∉ b'.findS (absolute os)
  listed : n ∈ b'.findS (absolute ns)
  oldLinks : ∀ d, b.mDirs.lookup (key os) = some d → ∃ d', b'.mDirs.lookup (key os) = some d' ∧
    d'.stNlink = d.stNlink - if os = ns then 0 else 1
  newLinks : ∀ d, b.mDirs.lookup (key ns) = some d → ∃ d', b'.mDirs.lookup (key ns) = some d' ∧
    d'.stNlink = d.stNlink + if os = ns then 0 else 1
  others : ∀ p, Names p → ¬ os ++ [o] <+: p → ¬ ns ++ [n] <+: p → p ≠ os → p ≠ ns →
    b'.found (absolute p) = b.found (absolute p)
  names : ∀ p c, p = os ∨ p = ns → c ≠ o → c ≠ n →
    (c ∈ b'.findS (absolute p) ↔ c ∈ b.findS (absolute p))

/-- A rename of a directory to a path that does not exist and is not inside it. -/
structure DirRename (b : State) (os : List Path) (o : Path) (ns : List Path) (n : Path) : Prop where
  oldNames : Names (os ++ [o])
  newNames : Names (ns ++ [n])
  directory : key (os ++ [o]) ∈ b.mDirs
  free : b.found (absolute (ns ++ [n])) = none
  outside : ¬ os ++ [o] <+: ns ++ [n]
  parent : key ns ∈ b.mDirs

/-- The renamed directory is empty, it stays in its parent, and the parent already lists it
under the new name and not under the old one. -/
structure Unnoticed (b : State) (os : List Path) (o : Path) (ns : List Path) (n : Path) :
    Prop where
  noFiles : ∀ p, Names p → absolute (os ++ [o] ++ p) ∉ b.mFiles
  noDirs : ∀ p, Names p → p ≠ [] → key (os ++ [o] ++ p) ∉ b.mDirs
  sameParent : os = ns
  unlisted : o ∉ b.findS (absolute ns)
  listed : n ∈ b.findS (absolute ns)

/-- The directory under `old` is stored under `new`. -/
def State.moveKey (b : State) (old new : Path) (d : Dir) : State :=
  { b with mDirs := (b.mDirs.insert new d).erase old }

namespace DirRename
variable (h : DirRename b os o ns n)
include h

theorem names_right : Names ns := fun c hc => h.newNames c (List.mem_append_left _ hc)

/-- What the call does to the directories. -/
theorem doRename_eq {d : Dir} (hd : b.mDirs.lookup (key (os ++ [o])) = some d) :
    b.doRename (absolute (os ++ [o])) (absolute (ns ++ [n])) =
      .ok (b.moveKey (key (os ++ [o])) (key (ns ++ [n])) d, 0) := by
  have hfree := ((found_eq_none_iff h.newNames).mp h.free).2
  unfold State.doRename State.doRenamedir
  rw [dirKey_absolute h.oldNames, dirKey_absolute h.newNames, if_pos h.directory, if_neg hfree, hd]
  rfl

theorem key_ne (hp : Names p) (hne : p ≠ os ++ [o]) : key p ≠ key (os ++ [o]) :=
  fun hk => hne ((key_inj hp h.oldNames).mp hk)

theorem key_ne' (hp : Names p) (hne : p ≠ ns ++ [n]) : key p ≠ key (ns ++ [n]) :=
  fun hk => hne ((key_inj hp h.newNames).mp hk)

theorem parent_ne : ns ≠ os ++ [o] := by
  rintro rfl
  exact h.outside (List.prefix_append _ _)

variable {d : Dir}

/-- Every other directory stays where it is. -/
theorem lookup_moveKey (hp : Names p) (hold : p ≠ os ++ [o]) (hnew : p ≠ ns ++ [n]) :
    (b.moveKey (key (os ++ [o])) (key (ns ++ [n])) d).mDirs.lookup (key p) =
      b.mDirs.lookup (key p) := by
  rw [State.moveKey, lookup_erase, if_neg (h.key_ne hp hold),
    AList.lookup_insert_ne (h.key_ne' hp hnew)]

theorem found_moveKey (hp : Names p) (hold : p ≠ os ++ [o]) (hnew : p ≠ ns ++ [n]) :
    (b.moveKey (key (os ++ [o])) (key (ns ++ [n])) d).found (absolute p) =
      b.found (absolute p) := by
  unfold State.found
  rw [dirKey_absolute hp, h.lookup_moveKey hp hold hnew]
  rfl

/-- The new parent is untouched. -/
theorem lookup_parent : (b.moveKey (key (os ++ [o])) (key (ns ++ [n])) d).mDirs.lookup (key ns) =
    b.mDirs.lookup (key ns) :=
  h.lookup_moveKey h.names_right h.parent_ne (by simp)

theorem findS_parent : (b.moveKey (key (os ++ [o])) (key (ns ++ [n])) d).findS (absolute ns) =
    b.findS (absolute ns) := by
  unfold State.findS
  dsimp only
  rw [if_neg (absolute_ne_nil ns), withSlash_absolute h.names_right, h.lookup_parent]

/-- A path below the old one is neither of the two. -/
theorem below_ne (hne : p ≠ []) : os ++ [o] ++ p ≠ os ++ [o] ∧ os ++ [o] ++ p ≠ ns ++ [n] := by
  refine ⟨fun he => hne (List.append_right_eq_self.mp he), fun he => h.outside ?_⟩
  exact he ▸ List.prefix_append _ _

theorem unnoticed_of_moved
    (hm : Moved b (b.moveKey (key (os ++ [o])) (key (ns ++ [n])) d) os o ns n) :
    Unnoticed b os o ns n := by
  have hsame : os = ns := by
    by_contra hne
    obtain ⟨e, he⟩ := lookup_of_mem h.parent
    obtain ⟨e', he', hlinks⟩ := hm.newLinks e he
    rw [h.lookup_parent, he] at he'
    obtain rfl := Option.some.inj he'
    rw [if_neg hne] at hlinks
    omega
  refine ⟨fun p hp => ?_, fun p hp hne => ?_, hsame, ?_, ?_⟩
  · exact ((found_eq_none_iff (h.oldNames.append hp)).mp (hm.gone p hp)).1
  · have hgone := hm.gone p hp
    rw [h.found_moveKey (h.oldNames.append hp) (h.below_ne hne).1 (h.below_ne hne).2] at hgone
    exact ((found_eq_none_iff (h.oldNames.append hp)).mp hgone).2
  · rw [← h.findS_parent (d := d)]
    exact hsame ▸ hm.unlisted
  · rw [← h.findS_parent (d := d)]
    exact hm.listed

theorem moved_of_unnoticed (hd : b.mDirs.lookup (key (os ++ [o])) = some d)
    (hu : Unnoticed b os o ns n) :
    Moved b (b.moveKey (key (os ++ [o])) (key (ns ++ [n])) d) os o ns n := by
  obtain rfl := hu.sameParent
  have hnone : ∀ p, Names p → p ≠ [] → b.found (absolute (os ++ [o] ++ p)) = none :=
    fun p hp hne =>
      (found_eq_none_iff (h.oldNames.append hp)).mpr ⟨hu.noFiles p hp, hu.noDirs p hp hne⟩
  have hlinks : ∀ e, b.mDirs.lookup (key os) = some e →
      (b.moveKey (key (os ++ [o])) (key (os ++ [n])) d).mDirs.lookup (key os) = some e :=
    fun e he => h.lookup_parent.trans he
  constructor
  · intro p x hp hx
    by_cases hne : p = []
    · subst hne
      have hfile : absolute (os ++ [o]) ∉ b.mFiles := by simpa using hu.noFiles [] hp
      have hfree := ((found_eq_none_iff h.newNames).mp h.free).1
      have hkey : key (os ++ [n]) ≠ key (os ++ [o]) := by
        refine h.key_ne h.newNames fun he => h.outside ?_
        rw [he]
      rw [List.append_nil] at hx ⊢
      rw [found_absolute h.oldNames hfile, hd] at hx
      have hlookup : (b.moveKey (key (os ++ [o])) (key (os ++ [n])) d).mDirs.lookup
          (key (os ++ [n])) = some d := by
        rw [State.moveKey, lookup_erase, if_neg hkey, AList.lookup_insert]
      have hmoved : absolute (os ++ [n]) ∉
        (b.moveKey (key (os ++ [o])) (key (os ++ [n])) d).mFiles := hfree
      rw [found_absolute h.newNames hmoved, hlookup]
      exact hx
    · rw [hnone p hp hne] at hx
      cases hx
  · intro p hp
    by_cases hne : p = []
    · subst hne
      refine (found_eq_none_iff (h.oldNames.append hp)).mpr ⟨hu.noFiles [] hp, ?_⟩
      rw [List.append_nil]
      exact fun hmem => (AList.mem_erase.mp hmem).1 rfl
    · rw [h.found_moveKey (h.oldNames.append hp) (h.below_ne hne).1 (h.below_ne hne).2]
      exact hnone p hp hne
  · rw [h.findS_parent]
    exact hu.unlisted
  · rw [h.findS_parent]
    exact hu.listed
  · exact fun e he => ⟨e, hlinks e he, by simp⟩
  · exact fun e he => ⟨e, hlinks e he, by simp⟩
  · intro p hp hold hnew _ _
    exact h.found_moveKey hp (fun he => hold (he ▸ List.prefix_refl _))
      fun he => hnew (he ▸ List.prefix_refl _)
  · rintro p c (rfl | rfl) _ _
    · rw [h.findS_parent]
    · rw [h.findS_parent]

end DirRename

/-- A directory moves with its subtree and its names only when there is nothing to move:
the rename writes one key of `m_dirs`, no file, no key below and no listing. -/
theorem doRename_moves_iff (b : State) (os ns : List Path) (o n : Path)
    (h : DirRename b os o ns n) :
    ∃ b', b.doRename (absolute (os ++ [o])) (absolute (ns ++ [n])) = .ok (b', 0) ∧
      (Moved b b' os o ns n ↔ Unnoticed b os o ns n) := by
  obtain ⟨d, hd⟩ := lookup_of_mem h.directory
  exact ⟨_, h.doRename_eq hd, h.unnoticed_of_moved, h.moved_of_unnoticed hd⟩

/-- Where the listings are right a rename always shows. -/
theorem not_unnoticed_of_represents {t : NameTree Path} (h : DirRename b os o ns n)
    (ht : Represents b.mFiles b.mDirs t) : ¬ Unnoticed b os o ns n := by
  intro hu
  obtain rfl := hu.sameParent
  obtain ⟨d, hd⟩ := lookup_of_mem h.parent
  have hold : t.Child os o := .inr ((ht.mem_dirs h.oldNames).mp h.directory)
  have hunlisted := hu.unlisted
  rw [findS_absolute h.names_right hd] at hunlisted
  exact hunlisted ((ht.lists.entries os d h.names_right hd o).mpr hold)

theorem name_a : Name ['a'] := ⟨by decide, by decide⟩

theorem name_b : Name ['b'] := ⟨by decide, by decide⟩

theorem names_one (hc : Name c) : Names ([] ++ [c]) := fun _ hd => List.mem_singleton.mp hd ▸ hc

def emptyBackend : State := .construct ['/', 'p'] ['/', 'r'] fun _ => none

/-- The directory "/a" in an empty backend. -/
def oneDir : State :=
  let mDirs := emplace emptyBackend.mDirs ['/', 'a', '/'] Dir.new
  { emptyBackend with mDirs := updateDir mDirs ['/'] (Dir.addFile ['a']) }

/-- The same directory after a rename to "/b"; the root still lists it as "a". -/
def strayDir : State := oneDir.moveKey ['/', 'a', '/'] ['/', 'b', '/'] Dir.new

theorem oneDir_reach : Reach (· = emptyBackend) (Step fun _ => 0) oneDir :=
  .next (e := .mkdir ['/', 'a']) (.start rfl) rfl

theorem oneDir_rename : DirRename oneDir [] ['a'] [] ['b'] :=
  ⟨names_one name_a, names_one name_b, by decide, by decide, by decide, by decide⟩

theorem strayDir_rename : DirRename strayDir [] ['b'] [] ['a'] :=
  ⟨names_one name_b, names_one name_a, by decide, by decide, by decide, by decide⟩

/-- Back under the name that the root lists. -/
theorem doRename_moves_strayDir : ∃ b', strayDir.doRename ['/', 'b'] ['/', 'a'] = .ok (b', 0) ∧
    Moved strayDir b' [] ['b'] [] ['a'] := by
  obtain ⟨b', hcall, hiff⟩ := doRename_moves_iff strayDir [] [] ['b'] ['a'] strayDir_rename
  refine ⟨b', hcall, hiff.mpr ⟨fun p _ => ?_, fun p hp hne hmem => ?_, rfl, by decide, by decide⟩⟩
  · exact AList.notMem_empty _
  · have hkeys : strayDir.mDirs.keys = [['/', 'b', '/'], ['/']] := rfl
    have hmem : key ([] ++ [['b']] ++ p) ∈ [key ([] ++ [['b']]), key []] := hkeys ▸ hmem
    have hlen : ∀ q ∈ [key ([] ++ [['b']]), key []], q = key ([] ++ [['b']]) ∨ q = key [] := by simp
    rcases hlen _ hmem with hk | hk
    · exact hne (List.append_right_eq_self.mp
        ((key_inj ((names_one name_b).append hp) (names_one name_b)).mp hk))
    · have hnil := (key_inj ((names_one name_b).append hp) (fun _ h => absurd h List.not_mem_nil)).mp hk
      simp at hnil

theorem renamed_dir_stays_listed : ¬ ∀ (b : State) (os ns : List Path) (o n : Path),
    Reach (· = emptyBackend) (Step fun _ => 0) b → DirRename b os o ns n →
      ∀ b', b.doRename (absolute (os ++ [o])) (absolute (ns ++ [n])) = .ok (b', 0) →
        Moved b b' os o ns n := by
  intro hclaim
  have hmoved := hclaim oneDir [] [] ['a'] ['b'] oneDir_reach oneDir_rename strayDir rfl
  exact hmoved.unlisted (by decide)

end EchoFs.Nvml.Backend
