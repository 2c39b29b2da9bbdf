import EchoFs.Nvml.Consistent

/-! `load` adds the directories above a file that are missing, one below the other. With
it every call keeps the namespace consistent, and so does every run of calls. -/

namespace EchoFs.Nvml.Backend
open Checked PathString Transition

variable {b b' : State} {cs ds rest : List Path} {c p pathname path root : Path} {files : Map File}
  {dirs : Map Dir} {t : NameTree Path} {hash : Path → BitVec 64} {fs : FileSystem}
  {opens : Path → Bool} {P Q : State → Path → Prop}

theorem updateDir_some {d : Dir} (h : dirs.lookup p = some d) (f : Dir → Dir) :
    updateDir dirs p f = dirs.insert p (f d) := by
  unfold updateDir
  rw [h]

theorem buildDirs_missing (h : Represents files dirs t) (hcs : cs ∈ t.dirs) (hc : Name c)
    (hnew : key (cs ++ [c]) ∉ dirs) (hopens : opens (root ++ key (cs ++ [c]))) :
    buildDirs opens root (c :: rest) (key cs) dirs = buildDirs opens root rest (key (cs ++ [c]))
      (updateDir (emplace dirs (key (cs ++ [c])) Dir.new) (key cs) (Dir.addFile c)) := by
  have hparent : key cs ∈ emplace dirs (key (cs ++ [c])) Dir.new :=
    mem_emplace.mpr (.inr ((h.dir_iff _).mpr ⟨cs, hcs, rfl⟩))
  obtain ⟨d, hd⟩ := lookup_of_mem hparent
  rw [key_concat] at hnew hopens hd ⊢
  rw [buildDirs, if_neg hnew, if_pos hopens, beforeLast_append (key cs) hc, Option.getD_some]
  dsimp only
  rw [hd, updateDir_some hd]

/-- After the loop the directories on the way are there, and no longer path is new. -/
theorem buildDirs_spec (hrest : Names rest) : ∀ {cs : List Path} {dirs : Map Dir}
    {t : NameTree Path}, Represents files dirs t → cs ∈ t.dirs →
    (∀ ds es, rest = ds ++ es → ds ≠ [] → cs ++ ds ∉ t.files) →
    (∀ ds es, rest = ds ++ es → ds ≠ [] →
      key (cs ++ ds) ∈ dirs ∨ opens (root ++ key (cs ++ ds))) →
    ∃ dirs' t', buildDirs opens root rest (key cs) dirs = .ok (key (cs ++ rest), dirs', true) ∧
      Represents files dirs' t' ∧ t'.files = t.files ∧ cs ++ rest ∈ t'.dirs ∧
      ∀ p ∈ t'.dirs, p ∈ t.dirs ∨ p.length ≤ (cs ++ rest).length := by
  induction rest with
  | nil =>
    intro cs dirs t h hcs _ _
    rw [List.append_nil]
    exact ⟨dirs, t, rfl, h, rfl, hcs, fun p hp => .inl hp⟩
  | cons c rest ih =>
    intro cs dirs t h hcs hclear hopens
    have hc : Name c := hrest c List.mem_cons_self
    have hnames := h.names_insert hcs hc
    have hsplit : cs ++ c :: rest = cs ++ [c] ++ rest := by simp
    have hclear' : ∀ ds es, rest = ds ++ es → ds ≠ [] → cs ++ [c] ++ ds ∉ t.files := by
      intro ds es he _
      have hmem := hclear (c :: ds) es (by rw [he]; rfl) (by simp)
      rwa [← List.append_cons]
    have hopens' : ∀ ds es, rest = ds ++ es → ds ≠ [] →
        key (cs ++ [c] ++ ds) ∈ dirs ∨ opens (root ++ key (cs ++ [c] ++ ds)) := by
      intro ds es he _
      have hmem := hopens (c :: ds) es (by rw [he]; rfl) (by simp)
      rwa [← List.append_cons]
    rw [hsplit]
    by_cases hmem : key (cs ++ [c]) ∈ dirs
    · have hstep : buildDirs opens root (c :: rest) (key cs) dirs =
          buildDirs opens root rest (key (cs ++ [c])) dirs := by
        rw [key_concat] at hmem ⊢
        rw [buildDirs, if_pos hmem]
      rw [hstep]
      exact ih (fun e he => hrest e (List.mem_cons_of_mem _ he)) h ((h.mem_dirs hnames).mp hmem)
        hclear' hopens'
    · have hopen := (hopens [c] rest rfl (by simp)).resolve_left hmem
      have hfree : ¬ t.Child cs c := by
        rintro (hf | hd)
        · exact hclear [c] rest rfl (by simp) hf
        · exact hmem ((h.mem_dirs hnames).mpr hd)
      have hmade := h.mkdir hcs hfree hc
      rw [buildDirs_missing h hcs hc hmem hopen]
      obtain ⟨dirs', t', hbuild, h', hfiles, hdir, hlen⟩ :=
        ih (fun e he => hrest e (List.mem_cons_of_mem _ he)) hmade (.inl rfl) hclear'
          fun ds es he hne => (hopens' ds es he hne).imp_left fun hk =>
            mem_updateDir.mpr (mem_emplace.mpr (.inr hk))
      refine ⟨dirs', t', hbuild, h', hfiles, hdir, fun p hp => ?_⟩
      rcases hlen p hp with (rfl | hp) | hp
      · exact .inr (by simp)
      · exact .inl hp
      · exact .inr hp

theorem exists_split (hcs : Names cs) (hc : Name c) {es : List Path} (he : cs = ds ++ es) :
    ∃ v, v ≠ [] ∧ join (cs ++ [c]) = join ds ++ '/' :: v := by
  obtain ⟨e, es', hes⟩ : ∃ e es', es ++ [c] = e :: es' := by
    cases es with
    | nil => exact ⟨c, [], rfl⟩
    | cons e es => exact ⟨e, es ++ [c], rfl⟩
  have hsplit : cs ++ [c] = ds ++ e :: es' := by rw [he, List.append_assoc, hes]
  have hname : Name e := hcs.concat hc e (hsplit ▸ by simp)
  exact ⟨e ++ join es', by simp [hname.ne], by rw [hsplit, join_append_cons]⟩

/-- The loop leads to the directory of the new file, which is still free. -/
theorem buildDirs_path (h : Represents b.mFiles b.mDirs t) (hcs : Names cs) (hc : Name c)
    (hnew : join (cs ++ [c]) ∉ b.mFiles) (hclear : Clear b (join (cs ++ [c])))
    (hopen : DirsOpen fs b (join (cs ++ [c]))) :
    ∃ dirs' t', buildDirs fs.opens b.mRootDir cs ['/'] b.mDirs = .ok (key cs, dirs', true) ∧
      Represents b.mFiles dirs' t' ∧ cs ∈ t'.dirs ∧ ¬ t'.Child cs c := by
  obtain ⟨hthrough, hdir⟩ := hclear
  unfold NoDir at hdir
  rw [dirKey_join hc] at hdir
  have hclear' : ∀ ds es, cs = ds ++ es → ds ≠ [] → [] ++ ds ∉ t.files := by
    intro ds es he _ hf
    obtain ⟨v, hv, hsplit⟩ := exists_split hcs hc he
    exact hthrough _ v hv hsplit ((h.file_iff _).mpr ⟨_, hf, rfl⟩)
  have hopen' : ∀ ds es, cs = ds ++ es → ds ≠ [] →
      key ([] ++ ds) ∈ b.mDirs ∨ fs.opens (b.mRootDir ++ key ([] ++ ds)) := by
    intro ds es he hne
    obtain ⟨v, _, hsplit⟩ := exists_split hcs hc he
    have hds : join ds ≠ [] := by
      obtain ⟨e, es', rfl⟩ := List.exists_cons_of_ne_nil hne
      simp [join]
    exact or_iff_not_imp_left.mpr fun hk => hopen _ v hds hsplit hk
  obtain ⟨dirs', t', hbuild, h', hfiles, hmem, hlen⟩ :=
    buildDirs_spec hcs h t.root hclear' hopen'
  rw [List.nil_append] at hbuild hmem hlen
  refine ⟨dirs', t', hbuild, h', hmem, ?_⟩
  rintro (hf | hd)
  · rw [hfiles] at hf
    exact hnew ((h.mem_files (hcs.concat hc)).mpr hf)
  · rcases hlen _ hd with hd | hd
    · exact hdir ((h.mem_dirs (hcs.concat hc)).mpr hd)
    · rw [List.length_append, List.length_singleton] at hd
      omega

theorem loadFile_sound (h : Sound b) (hpath : path ∉ b.mFiles → fs.opens pathname →
    Normal path ∧ Clear b path ∧ DirsOpen fs b path) :
    ∃ b' e, b.loadFile hash fs pathname path = .ok (b', e) ∧ Sound b' := by
  obtain ⟨t, h⟩ := h
  unfold State.loadFile
  split_ifs with hnew hopens
  · exact ⟨b, _, rfl, t, h⟩
  · obtain ⟨⟨cs, c, hcs, hc, rfl⟩, hclear, hopen⟩ := hpath hnew hopens
    -- the loop does not look at `m_files`, which already has the new key
    obtain ⟨dirs', t', hbuild, h', hmem, hfree⟩ := buildDirs_path h hcs hc hnew hclear hopen
    have hdirs : (parts (join (cs ++ [c]))).tail.dropLast = cs := by
      rw [parts_join hcs hc, List.tail_cons, List.dropLast_concat]
    have hlast : (parts (join (cs ++ [c]))).getLast?.getD [] = c := by
      rw [parts_join hcs hc, ← List.cons_append, List.getLast?_concat, Option.getD_some]
    obtain ⟨d, hd⟩ := lookup_of_mem ((h'.mem_dirs hcs).mpr hmem)
    have hlink := h'.link hmem hfree hc (b.newFile hash pathname)
    rw [updateDir_some hd] at hlink
    dsimp only [State.importFile]
    rw [hdirs, hlast, hbuild, ok_bind]
    dsimp only
    rw [if_pos rfl, hd]
    exact ⟨_, _, rfl, _, hlink⟩
  · exact ⟨_, _, rfl, t, h⟩

/-- `remove_root` keeps paths normal. -/
theorem normal_removeRoot (hp : Normal pathname) (hfits : RootFits root pathname)
    (h : removeRoot root pathname = some path) : Normal path := by
  unfold removeRoot at h
  split at h
  · obtain ⟨cs, c, hcs, hc, rfl⟩ := hp
    have hname : filename (join (cs ++ [c])) = c := by
      unfold filename
      rw [parts_join hcs hc, ← List.cons_append, List.getLast?_concat, Option.getD_some]
    rw [hname] at h
    exact Option.some.inj h ▸ normal_name hc
  · rename_i i hi
    have hslash := hfits.resolve_right (by rw [hi]; exact Option.some_ne_none i)
    obtain ⟨u, v, hsplit, rfl⟩ := find_spec hi
    obtain ⟨r, rfl⟩ : ∃ r, root = r ++ ['/'] := List.getLast?_eq_some_iff.mp hslash
    rw [if_neg (by simp)] at h
    have hrest : pathname = (u ++ r) ++ '/' :: v := by simp [hsplit]
    have hdrop : pathname.drop (u.length + (r ++ ['/']).length - 1) = '/' :: v := by
      rw [hrest, List.length_append, List.length_singleton, ← Nat.add_assoc, Nat.add_sub_cancel,
        ← List.length_append, List.drop_left]
    rw [hdrop] at h
    exact Option.some.inj h ▸ hp.suffix hrest

def FileOk (fs : FileSystem) (b : State) (pathname : Path) : Prop :=
  ∀ path, Adds fs b pathname path → Normal path ∧ Clear b path ∧ DirsOpen fs b path

theorem loadEntry_sound (h : Sound b) (hp : FileOk fs b pathname) :
    ∃ b' e, b.loadEntry hash fs pathname = .ok (b', e) ∧ Sound b' := by
  unfold State.loadEntry
  split
  · rename_i hpresent
    split
    · rename_i path hroot
      exact loadFile_sound h fun hnew hopens => hp path ⟨hpresent, hroot, hnew, hopens⟩
    · exact ⟨b, _, rfl, h⟩
  · exact ⟨b, _, rfl, h⟩

/-- What every file that is loaded keeps, a load of a directory keeps. -/
theorem loadEntries_rule {fault : Prop} {I : State → Prop} (hentry : ∀ b p, I b → P b p →
    Ensures fault (fun r => I r.1) (b.loadEntry hash fs p)) {entries : List Path} :
    ∀ {b : State}, I b → Along hash fs P entries b →
      Ensures fault (fun r => I r.1) (State.loadEntries hash fs entries b) := by
  induction entries with
  | nil => exact fun h _ => h
  | cons entry rest ih =>
    intro b h hall
    unfold Along at hall
    unfold State.loadEntries
    split_ifs at hall ⊢
    · exact ih h hall
    · refine (hentry b entry h hall.1).bind fun r hr hr' => ?_
      dsimp only
      split_ifs with he
      · exact ih hr' (hall.2 r.1 (he ▸ hr))
      · exact hr'

theorem load_rule {fault : Prop} {I : State → Prop} (hentry : ∀ b p, I b → P b p →
    Ensures fault (fun r => I r.1) (b.loadEntry hash fs p)) (h : I b)
    (hall : EachFile hash fs P b pathname) :
    Ensures fault (fun r => I r.1) (State.load hash fs b pathname) := by
  unfold EachFile at hall
  unfold State.load
  split_ifs at hall ⊢
  · split
    · exact loadEntries_rule hentry h hall
    · exact h
  · exact hentry b pathname h hall

theorem load_sound (h : Sound b) (hall : EachFile hash fs (FileOk fs) b pathname) :
    ∃ r, State.load hash fs b pathname = .ok r ∧ Sound r.1 := by
  refine ensures_false.mp (load_rule (fun b p h hp => ensures_false.mpr ?_) h hall)
  obtain ⟨b', e, hload, h'⟩ := loadEntry_sound h hp
  exact ⟨(b', e), hload, h'⟩

theorem Along.imp₂ {R : State → Path → Prop} (himp : ∀ b p, P b p → Q b p → R b p)
    {entries : List Path} : ∀ {b : State}, Along hash fs P entries b →
    Along hash fs Q entries b → Along hash fs R entries b := by
  induction entries with
  | nil => exact fun _ _ => trivial
  | cons entry rest ih =>
    intro b hP hQ
    unfold Along at hP hQ ⊢
    split_ifs at hP hQ ⊢
    · exact ih hP hQ
    · exact ⟨himp b entry hP.1 hQ.1, fun b' hb' => ih (hP.2 b' hb') (hQ.2 b' hb')⟩

theorem EachFile.imp₂ {R : State → Path → Prop} (himp : ∀ b p, P b p → Q b p → R b p)
    (hP : EachFile hash fs P b pathname) (hQ : EachFile hash fs Q b pathname) :
    EachFile hash fs R b pathname := by
  unfold EachFile at hP hQ ⊢
  split_ifs at hP hQ ⊢
  · exact hP.imp₂ himp hQ
  · exact himp b pathname hP hQ

@[simp] theorem doOpen_sound (h : Sound b) : Sound (b.doOpen p) := by
  unfold State.doOpen
  split <;> exact h

theorem release_sound (h : Sound b) (f : File) : Sound (b.release f) := by
  unfold State.release
  split
  · unfold Sound
    rw [State.drop_mFiles, State.drop_mDirs]
    exact h
  · exact h

theorem firstWrite_sound (h : Sound b) (f : File) (made : Bool) : Sound (b.firstWrite f made) := by
  unfold State.firstWrite
  split_ifs <;> exact h

/-- Under both conditions a call returns, and the maps still hold a tree. -/
theorem call_sound (h : Sound b) (c : Call) (hp : Promised hash b c) (hl : Loadable hash b c) :
    ∃ b', b.call hash c = .ok b' ∧ Sound b' := by
  cases c with
  | create p => exact ⟨_, rfl, doCreate_sound h hp.1 hp.2.1 hp.2.2⟩
  | unlink p => exact ⟨_, rfl, doUnlink_sound h hp⟩
  | rename o n =>
    obtain ⟨ho, hn, hne, hodir, hndir⟩ := hp
    obtain ⟨b', e, hcall, h'⟩ := doRename_sound h ho hn hne hodir hndir
    exact ⟨b', stateOf_ok hcall, h'⟩
  | mkdir p =>
    obtain ⟨b', e, hcall, h'⟩ := doMkdir_sound h hp.1 hp.2.1 hp.2.2
    exact ⟨b', stateOf_ok hcall, h'⟩
  | rmdir p =>
    obtain ⟨t, ht⟩ := h
    obtain ⟨ds, hds, c, _, hc, rfl⟩ := ht.target hp
    obtain ⟨b', e, hcall, h', _⟩ := doRmdir_spec ht hds hc
    exact ⟨b', stateOf_ok hcall, h'⟩
  | load fs p =>
    have hok : EachFile hash fs (FileOk fs) b p := hp.imp₂ (fun b p hP hQ path hadds =>
      ⟨normal_removeRoot hP.1 (hQ path hadds).1 hadds.root, hP.2 path hadds, (hQ path hadds).2⟩) hl
    obtain ⟨⟨b', e⟩, hcall, h'⟩ := load_sound h hok
    exact ⟨b', stateOf_ok hcall, h'⟩
  | doOpen p => exact ⟨_, rfl, doOpen_sound h⟩
  | release f => exact ⟨_, rfl, release_sound h f⟩
  | firstWrite f made => exact ⟨_, rfl, firstWrite_sound h f made⟩

theorem construct_sound (base root : Path) (pools : Path → Option Nat) :
    Sound (State.construct base root pools) := by
  have hkeys : ∀ k d, (State.construct base root pools).mDirs.lookup k = some d →
      k = ['/'] ∧ d = Dir.new := by
    intro k d hd
    have hlook : (State.construct base root pools).mDirs.lookup k =
        if k = ['/'] then some Dir.new else (∅ : Map Dir).lookup k :=
      lookup_emplace (AList.notMem_empty _)
    rw [hlook] at hd
    split at hd
    · rename_i hk
      exact ⟨hk, (Option.some.inj hd).symm⟩
    · cases hd
  refine ⟨NameTree.bare Path, ?_, fun p => ?_, fun k => ?_, ?_, ?_⟩
  · rintro p (hp | rfl) c hc
    · exact absurd hp (Set.notMem_empty p)
    · cases hc
  · exact iff_of_false (AList.notMem_empty p) fun ⟨cs, hcs, _⟩ => Set.notMem_empty cs hcs
  · constructor
    · intro hk
      obtain ⟨d, hd⟩ := lookup_of_mem hk
      exact ⟨[], rfl, (hkeys k d hd).1⟩
    · rintro ⟨cs, rfl, rfl⟩
      exact mem_emplace.mpr (.inl rfl)
  · intro cs d hcs hd c
    obtain ⟨hk, rfl⟩ := hkeys _ d hd
    exact iff_of_false (Finset.notMem_empty c) fun hc => by simp [NameTree.Child, NameTree.bare] at hc
  · intro k d hd
    rw [(hkeys k d hd).2]
    rfl

def Guard (hash : Path → BitVec 64) (b : State) (c : Call) : Prop :=
  Promised hash b c ∧ Loadable hash b c

theorem sound_of_reach {base root : Path} {pools : Path → Option Nat}
    (h : Reach (· = State.construct base root pools) (Guarded (Step hash) (Guard hash)) b) :
    Sound b := by
  refine h.invariant ?_ ?_
  · rintro s rfl
    exact construct_sound base root pools
  · rintro s c s' hs ⟨⟨hp, hl⟩, hstep⟩
    obtain ⟨b', hcall, h'⟩ := call_sound hs c hp hl
    obtain rfl := Except.ok.inj (hcall.symm.trans hstep)
    exact h'

/-- In every run the stores agree, and `do_rmdir` removes just the empty directories. -/
theorem namespace_consistent {base root : Path} {pools : Path → Option Nat}
    (h : Reach (· = State.construct base root pools) (Guarded (Step hash) (Guard hash)) b) :
    Consistent b ∧ ∀ p, Normal p → withSlash p ∈ b.mDirs →
      ((∃ b', b.doRmdir p = .ok (b', 0)) ↔ ∀ c, ¬ Inside b (withSlash p) c) := by
  obtain ⟨t, ht⟩ := sound_of_reach h
  refine ⟨ht.consistent, ?_⟩
  rintro p ⟨ds, c, hds, hc, rfl⟩ hmem
  rw [withSlash_join hc] at hmem ⊢
  have hnames := hds.concat hc
  have hdir := (ht.mem_dirs hnames).mp hmem
  obtain ⟨b', e, hcall, _, hzero⟩ := doRmdir_spec ht (t.dir_parent ds c hdir) hc
  have hinside : (∀ d, ¬ Inside b (key (ds ++ [c])) d) ↔ ∀ d, ¬ t.Child (ds ++ [c]) d :=
    forall_congr' fun d => not_congr (ht.inside hnames)
  rw [hinside, hcall]
  constructor
  · rintro ⟨b'', hb''⟩
    obtain ⟨_, rfl⟩ := Prod.mk.inj (Except.ok.inj hb'')
    exact (hzero.mp rfl).2
  · intro hempty
    rw [hzero.mpr ⟨hdir, hempty⟩]
    exact ⟨b', rfl⟩

theorem eachFile_of_not_dir (h : fs.isDirectory pathname = false) (hP : P b pathname) :
    EachFile hash fs P b pathname := by
  unfold EachFile
  rwa [if_neg fun hdir => by simp [h] at hdir]

/-- A file system below with one file. -/
def oneFile : FileSystem where
  present := fun p => p == ['/', 'r', '/', 'a', '/', 'f']
  isDirectory := fun _ => false
  entries := fun _ => []
  opens := fun _ => true

theorem normal_oneFile : Normal ['/', 'r', '/', 'a', '/', 'f'] :=
  ⟨[['r'], ['a']], ['f'], fun c hc => by
    rcases List.mem_pair.mp hc with rfl | rfl <;> exact ⟨by simp, by simp⟩,
    ⟨by simp, by simp⟩, rfl⟩

theorem namespace_consistent_oneLoad :
    ∃ b, State.call (fun _ => 0) (State.construct ['/', 'p'] ['/', 'r', '/'] fun _ => none)
      (.load oneFile ['/', 'r', '/', 'a', '/', 'f']) = .ok b ∧ Consistent b := by
  let b₀ : State := State.construct ['/', 'p'] ['/', 'r', '/'] fun _ => none
  have hroot : ∀ path, Adds oneFile b₀ ['/', 'r', '/', 'a', '/', 'f'] path →
      path = ['/', 'a', '/', 'f'] := fun path hadds => (Option.some.inj hadds.root).symm
  have hguard : Guard (fun _ => 0) b₀ (.load oneFile ['/', 'r', '/', 'a', '/', 'f']) := by
    refine ⟨eachFile_of_not_dir rfl ⟨normal_oneFile, fun path hadds => ?_⟩,
      eachFile_of_not_dir rfl fun path hadds => ⟨.inl rfl, fun _ _ _ _ _ => rfl⟩⟩
    obtain rfl := hroot path hadds
    exact ⟨fun u _ _ _ => AList.notMem_empty u, by unfold NoDir; decide⟩
  exact ⟨_, rfl, (namespace_consistent (.next (.start rfl) ⟨hguard, rfl⟩)).1⟩

/-- Without the slash at its end the root leaves a key whose parent is missing. -/
theorem slashless_root_inconsistent :
    ∃ b, Reach (· = State.construct ['/', 'p'] ['/', 'r'] fun _ => none)
      (Guarded (Step fun _ => 0) (Promised fun _ => 0)) b ∧ ¬ Consistent b := by
  refine ⟨_, .next (e := .load oneFile ['/', 'r', '/', 'a', '/', 'f']) (.start rfl) ⟨?_, rfl⟩, ?_⟩
  · refine eachFile_of_not_dir rfl ⟨normal_oneFile, fun path hadds => ?_⟩
    obtain rfl : ['r', '/', 'a', '/', 'f'] = path := Option.some.inj hadds.root
    exact ⟨fun u _ _ _ => AList.notMem_empty u, by unfold NoDir; decide⟩
  · intro h
    exact absurd (h.file_parent ['r', '/', 'a', '/', 'f'] (by decide)) (by decide)

end EchoFs.Nvml.Backend
