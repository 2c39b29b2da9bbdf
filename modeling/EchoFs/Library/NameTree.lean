import Mathlib.Data.Set.Insert
import Mathlib.Data.List.Induction

/-! Trees of files and directories over names of any type. A path is the list of its
names from the root on. -/

/-- The paths of the files and of the directories; both lie in directories. -/
structure NameTree (α : Type*) where
  files : Set (List α)
  dirs : Set (List α)
  root : [] ∈ dirs
  file_parent : ∀ p ∈ files, ∃ ds ∈ dirs, ∃ c, p = ds ++ [c]
  dir_parent : ∀ ds c, ds ++ [c] ∈ dirs → ds ∈ dirs
  disjoint : ∀ p ∈ files, p ∉ dirs

namespace NameTree
variable {α : Type*} {t : NameTree α} {p cs ds : List α} {c d : α}

def bare (α : Type*) : NameTree α where
  files := ∅
  dirs := {[]}
  root := rfl
  file_parent := fun _ h => h.elim
  dir_parent := fun ds c h => absurd h (by simp)
  disjoint := fun _ h => h.elim

/-- `c` is the name of a file or of a directory in `ds`. -/
def Child (t : NameTree α) (ds : List α) (c : α) : Prop := ds ++ [c] ∈ t.files ∨ ds ++ [c] ∈ t.dirs

theorem Child.dir (h : t.Child ds c) : ds ∈ t.dirs := by
  rcases h with h | h
  · obtain ⟨es, hes, e, he⟩ := t.file_parent _ h
    obtain ⟨rfl, _⟩ := List.append_singleton_inj.mp he
    exact hes
  · exact t.dir_parent _ _ h

def link (t : NameTree α) (hdir : ds ∈ t.dirs) (hfree : ¬ t.Child ds c) : NameTree α where
  files := insert (ds ++ [c]) t.files
  dirs := t.dirs
  root := t.root
  file_parent := by
    rintro p (rfl | hp)
    · exact ⟨ds, hdir, c, rfl⟩
    · exact t.file_parent p hp
  dir_parent := t.dir_parent
  disjoint := by
    rintro p (rfl | hp)
    · exact fun h => hfree (.inr h)
    · exact t.disjoint p hp

def unlink (t : NameTree α) (p : List α) : NameTree α where
  files := t.files \ {p}
  dirs := t.dirs
  root := t.root
  file_parent := fun q hq => t.file_parent q hq.1
  dir_parent := t.dir_parent
  disjoint := fun q hq => t.disjoint q hq.1

def mkdir (t : NameTree α) (hdir : ds ∈ t.dirs) (hfree : ¬ t.Child ds c) : NameTree α where
  files := t.files
  dirs := insert (ds ++ [c]) t.dirs
  root := .inr t.root
  file_parent := fun p hp =>
    let ⟨es, hes, e, he⟩ := t.file_parent p hp
    ⟨es, .inr hes, e, he⟩
  dir_parent := by
    rintro es e (h | h)
    · exact .inr ((List.append_singleton_inj.mp h).1 ▸ hdir)
    · exact .inr (t.dir_parent es e h)
  disjoint := by
    rintro p hp (rfl | h)
    · exact hfree (.inl hp)
    · exact t.disjoint p hp h

/-- The end of an empty directory. -/
def rmdir (t : NameTree α) (hempty : ∀ d, ¬ t.Child (ds ++ [c]) d) : NameTree α where
  files := t.files
  dirs := t.dirs \ {ds ++ [c]}
  root := ⟨t.root, by simp⟩
  file_parent := by
    intro p hp
    obtain ⟨es, hes, e, rfl⟩ := t.file_parent p hp
    exact ⟨es, ⟨hes, by rintro rfl; exact hempty e (.inl hp)⟩, e, rfl⟩
  dir_parent := fun es e h => ⟨t.dir_parent es e h.1, by rintro rfl; exact hempty e (.inr h.1)⟩
  disjoint := fun p hp h => t.disjoint p hp h.1

theorem child_link (hdir : ds ∈ t.dirs) (hfree : ¬ t.Child ds c) :
    (t.link hdir hfree).Child cs d ↔ t.Child cs d ∨ cs = ds ∧ d = c := by
  simp only [Child, link, Set.mem_insert_iff, List.append_singleton_inj]
  tauto

theorem child_mkdir (hdir : ds ∈ t.dirs) (hfree : ¬ t.Child ds c) :
    (t.mkdir hdir hfree).Child cs d ↔ t.Child cs d ∨ cs = ds ∧ d = c := by
  simp only [Child, mkdir, Set.mem_insert_iff, List.append_singleton_inj]
  tauto

theorem child_unlink (h : ds ++ [c] ∈ t.files) :
    (t.unlink (ds ++ [c])).Child cs d ↔ t.Child cs d ∧ ¬(cs = ds ∧ d = c) := by
  simp only [Child, unlink, Set.mem_sdiff, Set.mem_singleton_iff, List.append_singleton_inj]
  have hdisj : cs = ds ∧ d = c → cs ++ [d] ∉ t.dirs := by
    rintro ⟨rfl, rfl⟩
    exact t.disjoint _ h
  tauto

theorem child_rmdir (hempty : ∀ d, ¬ t.Child (ds ++ [c]) d) (h : ds ++ [c] ∈ t.dirs) :
    (t.rmdir hempty).Child cs d ↔ t.Child cs d ∧ ¬(cs = ds ∧ d = c) := by
  simp only [Child, rmdir, Set.mem_sdiff, Set.mem_singleton_iff, List.append_singleton_inj]
  have hdisj : cs = ds ∧ d = c → cs ++ [d] ∉ t.files := by
    rintro ⟨rfl, rfl⟩ hf
    exact t.disjoint _ hf h
  tauto

end NameTree
