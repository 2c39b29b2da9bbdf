import EchoFs.Nvml.Namespace

/-! The three stores of the namespace stay in step: keys have their parents, a directory
lists the names inside it, and its link count counts them. What the kernel promises of a
call and what `load` needs besides are conditions on the state before the call. -/

namespace EchoFs.Nvml.Backend
open Checked PathString Transition

variable {b b' : State} {cs ds : List Path} {c p k path : Path} {files : Map File} {dirs : Map Dir}
  {t : NameTree Path} {hash : Path → BitVec 64} {fs : FileSystem}

/-- `c` is the last component of a file or of a directory whose parent is `k`. -/
def Inside (b : State) (k c : Path) : Prop :=
  (∃ p ∈ b.mFiles, parentKey p = k ∧ afterSlash p = c) ∨
    ∃ k' ∈ b.mDirs, k' ≠ ['/'] ∧ parentKey k'.dropLast = k ∧ afterSlash k'.dropLast = c

structure Consistent (b : State) : Prop where
  file_parent : ∀ p ∈ b.mFiles, parentKey p ∈ b.mDirs
  dir_parent : ∀ k ∈ b.mDirs, k ≠ ['/'] → parentKey k.dropLast ∈ b.mDirs
  entries : ∀ k d, b.mDirs.lookup k = some d → ∀ c, c ∈ d.mFiles ↔ Inside b k c
  links : ∀ k d, b.mDirs.lookup k = some d → d.stNlink = 1 + d.mFiles.card

/-- The kernel hands over normal paths whose parent it has found. -/
def Target (b : State) (p : Path) : Prop := Normal p ∧ parentKey p ∈ b.mDirs

def NoDir (b : State) (p : Path) : Prop := dirKey p ∉ b.mDirs

/-- A condition on every file that a `load` of a directory comes to. -/
def Along (hash : Path → BitVec 64) (fs : FileSystem) (P : State → Path → Prop) :
    List Path → State → Prop
  | [], _ => True
  | entry :: rest, b =>
    if fs.isDirectory entry then Along hash fs P rest b
    else P b entry ∧
      ∀ b', b.loadEntry hash fs entry = .ok (b', .success) → Along hash fs P rest b'

def EachFile (hash : Path → BitVec 64) (fs : FileSystem) (P : State → Path → Prop) (b : State)
    (pathname : Path) : Prop :=
  if fs.present pathname ∧ fs.isDirectory pathname then
    Along hash fs P (fs.entries pathname) b
  else P b pathname

/-- The load of `pathname` puts a file at `path`. -/
structure Adds (fs : FileSystem) (b : State) (pathname path : Path) : Prop where
  present : fs.present pathname
  root : removeRoot b.mRootDir pathname = some path
  new : path ∉ b.mFiles
  opens : fs.opens pathname

/-- The path neither passes through a file nor ends at a directory. -/
def Clear (b : State) (path : Path) : Prop :=
  (∀ u v, v ≠ [] → path = u ++ '/' :: v → u ∉ b.mFiles) ∧ NoDir b path

/-- What the callers promise. -/
def Promised (hash : Path → BitVec 64) (b : State) : Call → Prop
  | .create p => Target b p ∧ p ∉ b.mFiles ∧ NoDir b p
  | .unlink p => Target b p
  | .rename o n => Target b o ∧ Target b n ∧ o ≠ n ∧ NoDir b o ∧ NoDir b n
  | .mkdir p => Target b p ∧ p ∉ b.mFiles ∧ NoDir b p
  | .rmdir p => Target b p
  | .load fs p =>
    EachFile hash fs (fun b p => Normal p ∧ ∀ path, Adds fs b p path → Clear b path) b p
  | _ => True

/-- The root ends with the slash that `remove_root` keeps, unless it is not part of the path. -/
def RootFits (root pathname : Path) : Prop :=
  root.getLast? = some '/' ∨ find root pathname = none

/-- Every directory above the path is there, or its original can be opened. -/
def DirsOpen (fs : FileSystem) (b : State) (path : Path) : Prop :=
  ∀ u v, u ≠ [] → path = u ++ '/' :: v → u ++ ['/'] ∉ b.mDirs →
    fs.opens (b.mRootDir ++ (u ++ ['/']))

/-- What `load` needs besides. -/
def Loadable (hash : Path → BitVec 64) (b : State) : Call → Prop
  | .load fs p =>
    EachFile hash fs (fun b p => ∀ path, Adds fs b p path →
      RootFits b.mRootDir p ∧ DirsOpen fs b path) b p
  | _ => True

theorem Represents.inside (h : Represents b.mFiles b.mDirs t) (hcs : Names cs) :
    Inside b (key cs) c ↔ t.Child cs c := by
  constructor
  · rintro (⟨p, hp, hparent, rfl⟩ | ⟨k, hk, hne, hparent, rfl⟩)
    · obtain ⟨es, hes, rfl⟩ := (h.file_iff p).mp hp
      obtain ⟨ds, hds, e, rfl⟩ := t.file_parent es hes
      have hnames := h.names _ (.inl hes)
      have he : Name e := hnames e (by simp)
      rw [parentKey_join he, key_inj (h.names ds (.inr hds)) hcs] at hparent
      rw [afterSlash_join he, ← hparent]
      exact .inl hes
    · obtain ⟨es, hes, rfl⟩ := (h.dir_iff k).mp hk
      have hnames := h.names _ (.inr hes)
      obtain rfl | ⟨ds, e, rfl⟩ := es.eq_nil_or_concat'
      · exact absurd rfl hne
      · have he : Name e := hnames e (by simp)
        rw [dropLast_key, parentKey_join he,
          key_inj (h.names ds (.inr (t.dir_parent _ _ hes))) hcs] at hparent
        rw [dropLast_key, afterSlash_join he, ← hparent]
        exact .inr hes
  · rintro (hf | hd)
    · have hc : Name c := h.names _ (.inl hf) c (by simp)
      exact .inl ⟨_, (h.file_iff _).mpr ⟨_, hf, rfl⟩, parentKey_join hc, afterSlash_join hc⟩
    · have hc : Name c := h.names _ (.inr hd) c (by simp)
      refine .inr ⟨_, (h.dir_iff _).mpr ⟨_, hd, rfl⟩, ?_, ?_, ?_⟩
      · intro he
        have hlen := congrArg List.length he
        rw [key_concat] at hlen
        simp only [key, List.length_append, List.length_singleton] at hlen
        omega
      · rw [dropLast_key, parentKey_join hc]
      · rw [dropLast_key, afterSlash_join hc]

theorem Represents.consistent (h : Represents b.mFiles b.mDirs t) : Consistent b where
  file_parent := fun p hp => by
    obtain ⟨es, hes, rfl⟩ := (h.file_iff p).mp hp
    obtain ⟨ds, hds, e, rfl⟩ := t.file_parent es hes
    rw [parentKey_join (h.names _ (.inl hes) e (by simp))]
    exact (h.dir_iff _).mpr ⟨ds, hds, rfl⟩
  dir_parent := fun k hk hne => by
    obtain ⟨es, hes, rfl⟩ := (h.dir_iff k).mp hk
    obtain rfl | ⟨ds, e, rfl⟩ := es.eq_nil_or_concat'
    · exact absurd rfl hne
    · rw [dropLast_key, parentKey_join (h.names _ (.inr hes) e (by simp))]
      exact (h.dir_iff _).mpr ⟨ds, t.dir_parent _ _ hes, rfl⟩
  entries := fun k d hd c => by
    obtain ⟨es, hes, rfl⟩ := (h.dir_iff k).mp (mem_of_lookup hd)
    have hnames := h.names es (.inr hes)
    rw [h.inside hnames]
    exact h.lists.entries es d hnames hd c
  links := h.lists.links

def Sound (b : State) : Prop := ∃ t, Represents b.mFiles b.mDirs t

theorem Represents.target (h : Represents b.mFiles b.mDirs t) (hp : Target b p) :
    ∃ ds ∈ t.dirs, ∃ c, Names ds ∧ Name c ∧ p = join (ds ++ [c]) := by
  obtain ⟨⟨ds, c, hds, hc, rfl⟩, hparent⟩ := hp
  rw [parentKey_join hc] at hparent
  exact ⟨ds, (h.mem_dirs hds).mp hparent, c, hds, hc, rfl⟩

@[simp] theorem State.drop_mFiles (b : State) (f : File) : (b.drop f).mFiles = b.mFiles := by
  unfold State.drop
  split <;> rfl

@[simp] theorem State.drop_mDirs (b : State) (f : File) : (b.drop f).mDirs = b.mDirs := by
  unfold State.drop
  split <;> rfl

@[simp] theorem State.eraseFile_mFiles (b : State) (p : Path) (f : File) :
    (b.eraseFile p f).mFiles = b.mFiles.erase p :=
  State.drop_mFiles _ f

@[simp] theorem State.eraseFile_mDirs (b : State) (p : Path) (f : File) :
    (b.eraseFile p f).mDirs = updateDir b.mDirs (parentKey p) (Dir.removeFile (afterSlash p)) := by
  unfold State.eraseFile
  dsimp only
  rw [State.drop_mDirs]

theorem eraseFile_represents (h : Represents b.mFiles b.mDirs t) (hmem : ds ++ [c] ∈ t.files)
    (hc : Name c) (f : File) :
    Represents (b.eraseFile (join (ds ++ [c])) f).mFiles (b.eraseFile (join (ds ++ [c])) f).mDirs
      (t.unlink (ds ++ [c])) := by
  rw [State.eraseFile_mFiles, State.eraseFile_mDirs, parentKey_join hc, afterSlash_join hc]
  exact h.unlink hmem

theorem doCreate_sound (h : Sound b) (hp : Target b p) (hfile : p ∉ b.mFiles) (hdir : NoDir b p) :
    Sound (b.doCreate hash p).1 := by
  obtain ⟨t, h⟩ := h
  obtain ⟨ds, hds, c, hnames, hc, rfl⟩ := h.target hp
  unfold NoDir at hdir
  rw [dirKey_join hc] at hdir
  unfold State.doCreate
  rw [if_neg hfile, if_pos hp.2, parentKey_join hc, afterSlash_join hc]
  exact ⟨_, h.link hds (h.not_child hnames hc hfile hdir) hc _⟩

theorem doUnlink_sound (h : Sound b) (hp : Target b p) : Sound (b.doUnlink p).1 := by
  obtain ⟨t, h⟩ := h
  obtain ⟨ds, hds, c, hnames, hc, rfl⟩ := h.target hp
  unfold State.doUnlink
  split
  · rename_i f hf
    have hmem := (h.mem_files (hnames.concat hc)).mp (mem_of_lookup hf)
    exact ⟨_, eraseFile_represents h hmem hc f⟩
  · exact ⟨t, h⟩

theorem eraseTarget_sound (h : Represents b.mFiles b.mDirs t) (hds : Names ds) (hc : Name c) :
    ∃ t', Represents (b.eraseTarget (join (ds ++ [c]))).mFiles
      (b.eraseTarget (join (ds ++ [c]))).mDirs t' ∧ t'.dirs = t.dirs ∧
      ∀ p, p ∈ t'.files ↔ p ∈ t.files ∧ p ≠ ds ++ [c] := by
  unfold State.eraseTarget
  split
  · rename_i f hf
    have hmem := (h.mem_files (hds.concat hc)).mp (mem_of_lookup hf)
    exact ⟨_, eraseFile_represents h hmem hc f, rfl, fun p => Iff.rfl⟩
  · rename_i hnone
    refine ⟨t, h, rfl, fun p => ⟨fun hp => ⟨hp, ?_⟩, And.left⟩⟩
    rintro rfl
    exact AList.lookup_eq_none.mp hnone ((h.mem_files (hds.concat hc)).mpr hp)

theorem doRename_sound {o n : Path} (h : Sound b) (ho : Target b o) (hn : Target b n)
    (hne : o ≠ n) (hodir : NoDir b o) (hndir : NoDir b n) :
    ∃ b' e, b.doRename o n = .ok (b', e) ∧ Sound b' := by
  obtain ⟨t, h⟩ := h
  obtain ⟨os, hos, oc, honames, hoc, rfl⟩ := h.target ho
  obtain ⟨ns, hns, nc, hnnames, hnc, rfl⟩ := h.target hn
  unfold NoDir at hndir
  rw [dirKey_join hnc] at hndir
  unfold State.doRename
  rw [if_neg hodir]
  split
  · rename_i hmem
    obtain ⟨t', h', hdirs, hfiles⟩ := eraseTarget_sound h hnnames hnc
    -- the source is still there
    have hold : os ++ [oc] ∈ t'.files :=
      (hfiles _).mpr ⟨(h.mem_files (honames.concat hoc)).mp hmem, fun he => hne (he ▸ rfl)⟩
    obtain ⟨f, hf⟩ := lookup_of_mem ((h'.mem_files (honames.concat hoc)).mpr hold)
    have hfree : ¬ (t'.unlink (os ++ [oc])).Child ns nc := by
      rintro (hc | hc)
      · exact ((hfiles _).mp hc.1).2 rfl
      · have hc' : ns ++ [nc] ∈ t'.dirs := hc
        rw [hdirs] at hc'
        exact hndir ((h.mem_dirs (hnnames.concat hnc)).mpr hc')
    have hns' : ns ∈ (t'.unlink (os ++ [oc])).dirs := by
      show ns ∈ t'.dirs
      rwa [hdirs]
    have hlink := (h'.unlink hold).link hns' hfree hnc f
    dsimp only
    rw [hf, parentKey_join hoc, afterSlash_join hoc, parentKey_join hnc, afterSlash_join hnc]
    exact ⟨_, _, rfl, _, hlink.congr_files fun p => mem_emplace_erase hne⟩
  · exact ⟨b, _, rfl, t, h⟩

theorem doMkdir_sound (h : Sound b) (hp : Target b p) (hfile : p ∉ b.mFiles) (hdir : NoDir b p) :
    ∃ b' e, b.doMkdir p = .ok (b', e) ∧ Sound b' := by
  obtain ⟨t, h⟩ := h
  obtain ⟨ds, hds, c, hnames, hc, rfl⟩ := h.target hp
  unfold NoDir at hdir
  rw [dirKey_join hc] at hdir
  have hmade := h.mkdir hds (h.not_child hnames hc hfile hdir) hc
  unfold State.doMkdir
  dsimp only
  rw [withSlash_join hc, dropLast_key, upToSlash_join hc, afterSlash_join hc]
  rw [if_neg hdir, check_ok (mem_emplace.mpr (.inr ((h.mem_dirs hnames).mpr hds))), ok_bind]
  exact ⟨_, _, rfl, _, hmade⟩

/-- The link count is one exactly when nothing is inside. -/
theorem Represents.link_one (h : Represents b.mFiles b.mDirs t) (hcs : Names cs) {d : Dir}
    (hd : b.mDirs.lookup (key cs) = some d) : d.stNlink = 1 ↔ ∀ c, ¬ t.Child cs c := by
  have hlink := h.lists.links _ _ hd
  have hentries := h.lists.entries cs d hcs hd
  constructor
  · intro hone c hc
    have hcard : d.mFiles.card = 0 := by omega
    rw [Finset.card_eq_zero.mp hcard] at hentries
    exact Finset.notMem_empty c ((hentries c).mpr hc)
  · intro hempty
    have hcard : d.mFiles = ∅ := Finset.eq_empty_of_forall_notMem fun c hc =>
      hempty c ((hentries c).mp hc)
    rw [hlink, hcard]
    rfl

theorem doRmdir_spec (h : Represents b.mFiles b.mDirs t) (hds : ds ∈ t.dirs) (hc : Name c) :
    ∃ b' e, b.doRmdir (join (ds ++ [c])) = .ok (b', e) ∧ Sound b' ∧
      (e = 0 ↔ ds ++ [c] ∈ t.dirs ∧ ∀ d, ¬ t.Child (ds ++ [c]) d) := by
  have hnames := h.names_insert hds hc
  unfold State.doRmdir
  dsimp only
  rw [withSlash_join hc, dropLast_key, upToSlash_join hc, afterSlash_join hc]
  cases hd : b.mDirs.lookup (key (ds ++ [c])) with
  | none =>
    have hnot : ds ++ [c] ∉ t.dirs := fun hmem =>
      AList.lookup_eq_none.mp hd ((h.mem_dirs hnames).mpr hmem)
    exact ⟨b, _, rfl, ⟨t, h⟩, by simp [ENOENT, hnot]⟩
  | some d =>
    have hmem : ds ++ [c] ∈ t.dirs := (h.mem_dirs hnames).mp (mem_of_lookup hd)
    have hone := h.link_one hnames hd
    dsimp only
    split
    · rename_i hlink
      refine ⟨b, _, rfl, ⟨t, h⟩, ?_⟩
      exact iff_of_false (by simp [ENOTEMPTY]) fun hempty => hlink (hone.mpr hempty.2)
    · rename_i hlink
      have hempty := hone.mp (not_not.mp hlink)
      have hparent : key ds ∈ b.mDirs.erase (key (ds ++ [c])) := by
        refine AList.mem_erase.mpr ⟨fun hk => ?_, (h.dir_iff _).mpr ⟨ds, hds, rfl⟩⟩
        have he := (key_inj (h.names ds (.inr hds)) hnames).mp hk
        exact absurd (congrArg List.length he) (by simp)
      rw [check_ok hparent, ok_bind]
      exact ⟨_, _, rfl, ⟨_, h.rmdir hmem hempty⟩, iff_of_true rfl ⟨hmem, hempty⟩⟩

end EchoFs.Nvml.Backend
