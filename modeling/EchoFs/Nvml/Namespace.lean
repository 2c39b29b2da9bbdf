import EchoFs.Library.NameTree
import EchoFs.Nvml.Backend

/-! The maps of the backend represent a tree of names, and every call keeps it so under
what the kernel promises. Paths are cut at their slashes on the way; what the cuts give at
normal paths comes first. -/

namespace EchoFs.Nvml.Backend
open Checked PathString Transition

variable {cs ds : List Path} {c : Path} {files : Map File} {dirs : Map Dir} {t : NameTree Path}

theorem key_inj (hcs : Names cs) (hds : Names ds) : key cs = key ds ↔ cs = ds :=
  ⟨fun h => join_injective hcs hds (key_injective h), fun h => h ▸ rfl⟩

@[simp] theorem withSlash_key (cs : List Path) : withSlash (key cs) = key cs :=
  if_pos List.getLast?_concat

theorem withSlash_join (hc : Name c) : withSlash (join (cs ++ [c])) = key (cs ++ [c]) :=
  if_neg (getLast_join cs hc)

theorem parentKey_join (hc : Name c) : parentKey (join (cs ++ [c])) = key cs := by
  rw [parentKey, upToSlash_join hc, withSlash_key]

theorem dirKey_join (hc : Name c) : dirKey (join (cs ++ [c])) = key (cs ++ [c]) := by
  have hlen : 0 < c.length := List.length_pos_of_ne_nil hc.ne
  refine if_pos ?_
  rw [join_concat, List.length_append, List.length_cons]
  omega

/-- The directories list what `child` holds of them, and count it. -/
structure Lists (dirs : Map Dir) (child : List Path → Path → Prop) : Prop where
  entries : ∀ cs d, Names cs → dirs.lookup (key cs) = some d → ∀ c, c ∈ d.mFiles ↔ child cs c
  links : ∀ k d, dirs.lookup k = some d → d.stNlink = 1 + d.mFiles.card

section Lists
variable {child child' : List Path → Path → Prop}

theorem Lists.addFile (h : Lists dirs child) (hcs : Names cs) (hnew : ¬ child cs c)
    (hchild : ∀ ds d, child' ds d ↔ child ds d ∨ ds = cs ∧ d = c) :
    Lists (updateDir dirs (key cs) (Dir.addFile c)) child' := by
  constructor
  · intro ds d hds hd e
    rw [lookup_updateDir] at hd
    split at hd
    · rename_i hk
      obtain rfl := (key_inj hds hcs).mp hk
      obtain ⟨d₀, hd₀, rfl⟩ := Option.map_eq_some_iff.mp hd
      rw [hchild, ← h.entries ds d₀ hds hd₀, Dir.addFile, Finset.mem_insert]
      tauto
    · rename_i hk
      rw [hchild, h.entries ds d hds hd]
      exact ⟨.inl, fun hc => hc.elim id fun ⟨he, _⟩ => absurd (he ▸ rfl) hk⟩
  · intro k d hd
    rw [lookup_updateDir] at hd
    split at hd
    · obtain ⟨d₀, hd₀, rfl⟩ := Option.map_eq_some_iff.mp hd
      have hc : c ∉ d₀.mFiles := fun hc => hnew ((h.entries cs d₀ hcs hd₀ c).mp hc)
      have hlink := h.links _ _ hd₀
      rw [Dir.addFile, Finset.card_insert_of_notMem hc]
      push_cast
      omega
    · exact h.links _ _ hd

theorem Lists.removeFile (h : Lists dirs child) (hcs : Names cs) (hold : child cs c)
    (hchild : ∀ ds d, child' ds d ↔ child ds d ∧ ¬(ds = cs ∧ d = c)) :
    Lists (updateDir dirs (key cs) (Dir.removeFile c)) child' := by
  constructor
  · intro ds d hds hd e
    rw [lookup_updateDir] at hd
    split at hd
    · rename_i hk
      obtain rfl := (key_inj hds hcs).mp hk
      obtain ⟨d₀, hd₀, rfl⟩ := Option.map_eq_some_iff.mp hd
      rw [hchild, ← h.entries ds d₀ hds hd₀, Dir.removeFile, Finset.mem_erase]
      tauto
    · rename_i hk
      rw [hchild, h.entries ds d hds hd]
      exact ⟨fun hc => ⟨hc, fun ⟨he, _⟩ => hk (he ▸ rfl)⟩, And.left⟩
  · intro k d hd
    rw [lookup_updateDir] at hd
    split at hd
    · obtain ⟨d₀, hd₀, rfl⟩ := Option.map_eq_some_iff.mp hd
      have hc : c ∈ d₀.mFiles := (h.entries cs d₀ hcs hd₀ c).mpr hold
      have hcard := Finset.card_erase_add_one hc
      have hlink := h.links _ _ hd₀
      rw [Dir.removeFile]
      dsimp only
      omega
    · exact h.links _ _ hd

/-- A new directory has no children. -/
theorem Lists.emplace (h : Lists dirs child) (hcs : Names cs) (hnew : key cs ∉ dirs)
    (hempty : ∀ c, ¬ child cs c) : Lists (emplace dirs (key cs) Dir.new) child := by
  constructor
  · intro ds d hds hd e
    rw [lookup_emplace hnew] at hd
    split at hd
    · rename_i hk
      obtain rfl := (key_inj hds hcs).mp hk
      obtain rfl := Option.some.inj hd
      exact ⟨fun he => absurd he (Finset.notMem_empty e), fun he => absurd he (hempty e)⟩
    · exact h.entries ds d hds hd e
  · intro k d hd
    rw [lookup_emplace hnew] at hd
    split at hd
    · obtain rfl := Option.some.inj hd
      rfl
    · exact h.links _ _ hd

theorem Lists.erase (h : Lists dirs child) (k : Path) : Lists (dirs.erase k) child := by
  have hold : ∀ {k' d}, (dirs.erase k).lookup k' = some d → dirs.lookup k' = some d := by
    intro k' d hd
    rw [lookup_erase] at hd
    split at hd
    · cases hd
    · exact hd
  exact ⟨fun ds d hds hd => h.entries ds d hds (hold hd), fun k' d hd => h.links k' d (hold hd)⟩

end Lists

/-- The maps hold the paths of a tree. -/
structure Represents (files : Map File) (dirs : Map Dir) (t : NameTree Path) : Prop where
  names : ∀ p, p ∈ t.files ∨ p ∈ t.dirs → Names p
  file_iff : ∀ p, p ∈ files ↔ ∃ cs ∈ t.files, p = join cs
  dir_iff : ∀ k, k ∈ dirs ↔ ∃ cs ∈ t.dirs, k = key cs
  lists : Lists dirs t.Child

namespace Represents
variable (h : Represents files dirs t)
include h

theorem mem_dirs (hcs : Names cs) : key cs ∈ dirs ↔ cs ∈ t.dirs := by
  rw [h.dir_iff]
  constructor
  · rintro ⟨ds, hds, hk⟩
    rwa [(key_inj hcs (h.names ds (.inr hds))).mp hk]
  · exact fun hmem => ⟨cs, hmem, rfl⟩

theorem mem_files (hcs : Names cs) : join cs ∈ files ↔ cs ∈ t.files := by
  rw [h.file_iff]
  constructor
  · rintro ⟨ds, hds, hj⟩
    rwa [join_injective hcs (h.names ds (.inl hds)) hj]
  · exact fun hmem => ⟨cs, hmem, rfl⟩

theorem not_child (hds : Names ds) (hc : Name c) (hfile : join (ds ++ [c]) ∉ files)
    (hdir : key (ds ++ [c]) ∉ dirs) : ¬ t.Child ds c := by
  rintro (hf | hd)
  · exact hfile ((h.mem_files (hds.concat hc)).mpr hf)
  · exact hdir ((h.mem_dirs (hds.concat hc)).mpr hd)

theorem names_insert (hds : ds ∈ t.dirs) (hc : Name c) : Names (ds ++ [c]) :=
  (h.names ds (.inr hds)).concat hc

theorem congr_files {files' : Map File} (hmem : ∀ p, p ∈ files' ↔ p ∈ files) :
    Represents files' dirs t :=
  ⟨h.names, fun p => (hmem p).trans (h.file_iff p), h.dir_iff, h.lists⟩

theorem link (hdir : ds ∈ t.dirs) (hfree : ¬ t.Child ds c) (hc : Name c) (file : File) :
    Represents (emplace files (join (ds ++ [c])) file) (updateDir dirs (key ds) (Dir.addFile c))
      (t.link hdir hfree) where
  names := by
    rintro p ((rfl | hp) | hp)
    · exact h.names_insert hdir hc
    · exact h.names p (.inl hp)
    · exact h.names p (.inr hp)
  file_iff := fun p => by
    rw [mem_emplace, h.file_iff]
    constructor
    · rintro (rfl | ⟨es, hes, rfl⟩)
      · exact ⟨_, .inl rfl, rfl⟩
      · exact ⟨es, .inr hes, rfl⟩
    · rintro ⟨es, rfl | hes, rfl⟩
      · exact .inl rfl
      · exact .inr ⟨es, hes, rfl⟩
  dir_iff := fun k => mem_updateDir.trans (h.dir_iff k)
  lists := h.lists.addFile (h.names ds (.inr hdir)) hfree
    fun _ _ => NameTree.child_link hdir hfree

theorem unlink (hmem : ds ++ [c] ∈ t.files) :
    Represents (files.erase (join (ds ++ [c]))) (updateDir dirs (key ds) (Dir.removeFile c))
      (t.unlink (ds ++ [c])) where
  names := by
    rintro p (hp | hp)
    · exact h.names p (.inl hp.1)
    · exact h.names p (.inr hp)
  file_iff := fun p => by
    rw [AList.mem_erase, h.file_iff]
    constructor
    · rintro ⟨hne, es, hes, rfl⟩
      exact ⟨es, ⟨hes, fun he => hne (he ▸ rfl)⟩, rfl⟩
    · rintro ⟨es, ⟨hes, hne⟩, rfl⟩
      refine ⟨fun hj => hne ?_, es, hes, rfl⟩
      exact join_injective (h.names es (.inl hes)) (h.names _ (.inl hmem)) hj
  dir_iff := fun k => mem_updateDir.trans (h.dir_iff k)
  lists := by
    have hchild : t.Child ds c := .inl hmem
    exact h.lists.removeFile (h.names ds (.inr hchild.dir)) hchild
      fun _ _ => NameTree.child_unlink hmem

theorem mkdir (hdir : ds ∈ t.dirs) (hfree : ¬ t.Child ds c) (hc : Name c) :
    Represents files
      (updateDir (emplace dirs (key (ds ++ [c])) Dir.new) (key ds) (Dir.addFile c))
      (t.mkdir hdir hfree) where
  names := by
    rintro p (hp | (rfl | hp))
    · exact h.names p (.inl hp)
    · exact h.names_insert hdir hc
    · exact h.names p (.inr hp)
  file_iff := h.file_iff
  dir_iff := fun k => by
    rw [mem_updateDir, mem_emplace, h.dir_iff]
    constructor
    · rintro (rfl | ⟨es, hes, rfl⟩)
      · exact ⟨_, .inl rfl, rfl⟩
      · exact ⟨es, .inr hes, rfl⟩
    · rintro ⟨es, rfl | hes, rfl⟩
      · exact .inl rfl
      · exact .inr ⟨es, hes, rfl⟩
  lists := by
    have hnames := h.names_insert hdir hc
    have hnew : ds ++ [c] ∉ t.dirs := fun hmem => hfree (.inr hmem)
    have hmade := h.lists.emplace hnames (fun hk => hnew ((h.mem_dirs hnames).mp hk))
      fun d hd => hnew hd.dir
    exact hmade.addFile (h.names ds (.inr hdir)) hfree fun _ _ => NameTree.child_mkdir hdir hfree

theorem rmdir (hmem : ds ++ [c] ∈ t.dirs) (hempty : ∀ d, ¬ t.Child (ds ++ [c]) d) :
    Represents files (updateDir (dirs.erase (key (ds ++ [c]))) (key ds) (Dir.removeFile c))
      (t.rmdir hempty) where
  names := by
    rintro p (hp | hp)
    · exact h.names p (.inl hp)
    · exact h.names p (.inr hp.1)
  file_iff := h.file_iff
  dir_iff := fun k => by
    rw [mem_updateDir, AList.mem_erase, h.dir_iff]
    constructor
    · rintro ⟨hne, es, hes, rfl⟩
      exact ⟨es, ⟨hes, fun he => hne (he ▸ rfl)⟩, rfl⟩
    · rintro ⟨es, ⟨hes, hne⟩, rfl⟩
      refine ⟨fun hk => hne ?_, es, hes, rfl⟩
      exact (key_inj (h.names es (.inr hes)) (h.names _ (.inr hmem))).mp hk
  lists := by
    have hchild : t.Child ds c := .inr hmem
    exact (h.lists.erase _).removeFile (h.names ds (.inr hchild.dir)) hchild
      fun _ _ => NameTree.child_rmdir hempty hmem

end Represents

end EchoFs.Nvml.Backend
