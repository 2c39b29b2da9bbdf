import EchoFs.Nvml.LoadRoots
import EchoFs.Nvml.Unload

/-! Where `unload` writes the files. The directory is the results directory followed by
the key up to its last slash, the file the results directory followed by the key without
its first slash. -/

namespace EchoFs.Nvml.Backend
open Checked PathString

/-- The file system below; `mkdir` answers with an error number. -/
structure Host (σ : Type) where
  mkdir : Path → σ → Int × σ
  write : Path → File → σ → σ

/-- A file that was written, and the directory made for it before. -/
structure Export where
  key : Path
  file : File
  dir : Path
  path : Path
deriving DecidableEq

def PATH_MAX : Nat := 4096

/-- `s.substr(0, s.rfind("/"))` -/
def beforeSlash (p : Path) : Path := if '/' ∈ p then (upToSlash p).dropLast else p

section Unload
variable {σ : Type} (host : Host σ) (mType : File → FileType)

def makeDir (path : Path) (s : σ) : Int × σ :=
  let (errno, s) := host.mkdir path s
  if errno ≠ 0 ∧ errno ≠ EEXIST then (-1, s) else (0, s)

/-- The loop of `mkdir_p`, with the characters before `p` and those from `p` on. -/
def mkdirLoop : Path → Path → σ → Int × σ
  | path, [], s => makeDir host path s
  | path, a :: rest, s =>
    if a = '/' then
      let (error, s) := makeDir host path s
      if error < 0 then (-1, s) else mkdirLoop (path ++ [a]) rest s
    else mkdirLoop (path ++ [a]) rest s

/-- For an empty path the loop of the source runs over what the buffer happens to hold,
and each of its calls is for the empty path too. -/
def mkdirP (path : Path) (s : σ) : Int × σ :=
  if PATH_MAX - 1 < path.length then (-1, s) else mkdirLoop host (path.take 1) (path.drop 1) s

/-- The loop of `unload` over `m_files`. A temporary file writes nothing. -/
def unloadFiles (pathname : Path) : List (Sigma fun _ : Path => File) → σ →
    List Export × Outcome × σ
  | [], s => ([], .success, s)
  | ⟨key, file⟩ :: rest, s =>
    let dir := pathname ++ beforeSlash key
    let (error, s) := mkdirP host dir s
    if error < 0 then ([], .internalError, s)
    else if key = [] then ([], .threw, s)
    else if mType file = .temporary then unloadFiles pathname rest s
    else
      let path := pathname ++ key.drop 1
      let (exports, result) := unloadFiles pathname rest (host.write path file s)
      (⟨key, file, dir, path⟩ :: exports, result)

def State.unload (b : State) (pathname : Path) (s : σ) : List Export × Outcome × σ :=
  unloadFiles host mType pathname b.mFiles.entries s

end Unload

/-- What the calls of the file system promise when nothing stands in their way. -/
structure Posix {σ : Type} (host : Host σ) (Exists : σ → Bool × List Path → Prop) : Prop where
  top : ∀ s absolute, Exists s (absolute, [])
  empty : ∀ s, (host.mkdir [] s).1 = ENOENT
  makes : ∀ p s, p ≠ [] → p.length < PATH_MAX → Exists s (place (upToSlash p)) →
    ((host.mkdir p s).1 = 0 ∨ (host.mkdir p s).1 = EEXIST) ∧ Exists (host.mkdir p s).2 (place p)
  mkdirKeeps : ∀ p s d, Exists s d → Exists (host.mkdir p s).2 d
  writeKeeps : ∀ p file s d, Exists s d → Exists (host.write p file s) d

/-- Every persistent file is at its own place below the results directory, in a directory
that was made for it. -/
structure LandsIn {σ : Type} (Exists : σ → Bool × List Path → Prop) (pathname : Path)
    (mType : File → FileType) (b : State) (r : List Export × Outcome × σ) : Prop where
  written : ∀ e ∈ b.mFiles.entries, mType e.2 = .persistent →
    ∃ x ∈ r.1, x.key = e.1 ∧ x.file = e.2
  path : ∀ x ∈ r.1, place x.path = place (slash pathname (x.key.drop 1))
  inside : ∀ x ∈ r.1, ∃ c, place x.path = ((place x.dir).1, (place x.dir).2 ++ [c])
  made : ∀ x ∈ r.1, Exists r.2.2 (place x.dir)
  distinct : ∀ x ∈ r.1, ∀ y ∈ r.1, place x.path = place y.path → x.key = y.key

/-- The directories up to the file are short enough for `mkdir_p`. -/
def Fits (pathname : Path) (b : State) (e : Sigma fun _ : Path => File) : Prop :=
  ∃ before after, b.mFiles.entries = before ++ e :: after ∧
    ∀ g ∈ before ++ [e], (pathname ++ beforeSlash g.1).length < PATH_MAX

variable {σ : Type} {host : Host σ} {Exists : σ → Bool × List Path → Prop}
  {mType : File → FileType} {b : State} {pathname path done rest : Path} {cs : List Path}
  {c : Path} {s : σ} {files : List (Sigma fun _ : Path => File)}
  {e : Sigma fun _ : Path => File} {x : Export}

namespace Posix
variable (h : Posix host Exists)
include h

theorem makeDir_keeps {d : Bool × List Path} (hd : Exists s d) :
    Exists (makeDir host path s).2 d := by
  unfold makeDir
  dsimp only
  split_ifs <;> exact h.mkdirKeeps path s d hd

theorem makeDir_ok (hne : path ≠ []) (hlen : path.length < PATH_MAX)
    (hd : Exists s (place (upToSlash path))) :
    (makeDir host path s).1 = 0 ∧ Exists (makeDir host path s).2 (place path) := by
  obtain ⟨hanswer, hmade⟩ := h.makes path s hne hlen hd
  unfold makeDir
  dsimp only
  rw [if_neg fun hno => hanswer.elim hno.1 hno.2]
  exact ⟨rfl, hmade⟩

theorem mkdirLoop_keeps {d : Bool × List Path} :
    ∀ {path : Path} {s : σ}, Exists s d → Exists (mkdirLoop host path rest s).2 d := by
  induction rest with
  | nil => exact fun hd => h.makeDir_keeps hd
  | cons a rest ih =>
    intro path s hd
    unfold mkdirLoop
    dsimp only
    split_ifs
    · exact h.makeDir_keeps hd
    · exact ih (h.makeDir_keeps hd)
    · exact ih hd

/-- At every slash the directory before it is made, so each call finds its parent. -/
theorem mkdirLoop_ok : ∀ {path : Path} {s : σ}, path ≠ [] → (path ++ rest).length < PATH_MAX →
    Exists s (place (upToSlash path)) → (mkdirLoop host path rest s).1 = 0 ∧
      Exists (mkdirLoop host path rest s).2 (place (path ++ rest)) := by
  induction rest with
  | nil =>
    intro path s hne hlen hd
    rw [List.append_nil] at hlen ⊢
    exact h.makeDir_ok hne hlen hd
  | cons a rest ih =>
    intro path s hne hlen hd
    rw [List.append_cons] at hlen ⊢
    have hnext : path ++ [a] ≠ [] := by simp
    unfold mkdirLoop
    dsimp only
    split_ifs with ha herror
    · have hshort : path.length < PATH_MAX := by
        rw [List.append_assoc, List.length_append] at hlen
        omega
      rw [(h.makeDir_ok hne hshort hd).1] at herror
      exact absurd herror (by decide)
    · have hshort : path.length < PATH_MAX := by
        rw [List.append_assoc, List.length_append] at hlen
        omega
      refine ih hnext hlen ?_
      rw [ha, upToSlash_slash, place_slash hne]
      exact (h.makeDir_ok hne hshort hd).2
    · refine ih hnext hlen ?_
      rw [upToSlash_concat ha]
      exact hd

theorem mkdirP_keeps {d : Bool × List Path} (hd : Exists s d) :
    Exists (mkdirP host path s).2 d := by
  unfold mkdirP
  split_ifs
  · exact hd
  · exact h.mkdirLoop_keeps hd

theorem mkdirP_ok (hne : path ≠ []) (hlen : path.length < PATH_MAX) :
    (mkdirP host path s).1 = 0 ∧ Exists (mkdirP host path s).2 (place path) := by
  obtain ⟨a, rest, rfl⟩ := List.exists_cons_of_ne_nil hne
  have hone : Exists s (place (upToSlash [a])) := by
    by_cases ha : a = '/'
    · subst ha
      exact h.top s true
    · have hup : upToSlash [a] = [] := upToSlash_concat ha []
      rw [hup]
      exact h.top s false
  unfold mkdirP
  rw [if_neg (by omega)]
  exact h.mkdirLoop_ok (by simp) hlen hone

/-- What `mkdir_p` succeeds at it has made. -/
theorem mkdirP_iff : ¬ (mkdirP host path s).1 < 0 ↔ path ≠ [] ∧ path.length < PATH_MAX := by
  constructor
  · intro herror
    have hlen : path.length < PATH_MAX := by
      by_contra hlen
      have hpos : 0 < PATH_MAX := by decide
      have hrefused : mkdirP host path s = (-1, s) := if_pos (by omega)
      exact herror (hrefused ▸ Int.negSucc_lt_zero 0)
    refine ⟨?_, hlen⟩
    rintro rfl
    have hrefused : (mkdirP host [] s).1 = -1 := by
      have hanswer := h.empty s
      change (makeDir host [] s).1 = -1
      unfold makeDir
      dsimp only
      rw [hanswer, if_pos (by decide)]
    exact herror (hrefused ▸ Int.negSucc_lt_zero 0)
  · rintro ⟨hne, hlen⟩
    rw [(h.mkdirP_ok hne hlen).1]
    decide

theorem unloadFiles_keeps {d : Bool × List Path} : ∀ {s : σ}, Exists s d →
    Exists (unloadFiles host mType pathname files s).2.2 d := by
  induction files with
  | nil => exact fun hd => hd
  | cons e rest ih =>
    intro s hd
    unfold unloadFiles
    dsimp only
    have hmade : Exists (mkdirP host (pathname ++ beforeSlash e.1) s).2 d := h.mkdirP_keeps hd
    split_ifs
    · exact hmade
    · exact hmade
    · exact ih hmade
    · exact ih (h.writeKeeps _ _ _ _ hmade)

/-- The directory of each file written has been made. -/
theorem exports_made : ∀ {s : σ}, ∀ x ∈ (unloadFiles host mType pathname files s).1,
    Exists (unloadFiles host mType pathname files s).2.2 (place x.dir) := by
  induction files with
  | nil => exact fun x hx => absurd hx List.not_mem_nil
  | cons e rest ih =>
    intro s x hx
    unfold unloadFiles at hx ⊢
    dsimp only at hx ⊢
    split_ifs at hx ⊢ with herror
    · exact absurd hx List.not_mem_nil
    · exact absurd hx List.not_mem_nil
    · exact ih x hx
    · obtain ⟨hne, hlen⟩ := h.mkdirP_iff.mp herror
      rcases List.mem_cons.mp hx with rfl | hx
      · exact h.unloadFiles_keeps (h.writeKeeps _ _ _ _ (h.mkdirP_ok hne hlen).2)
      · exact ih x hx

/-- Every file written is one of the map, and all before it had their directories made. -/
theorem exports_spec : ∀ {s : σ}, ∀ x ∈ (unloadFiles host mType pathname files s).1,
    ∃ before e after, files = before ++ e :: after ∧ mType e.2 = .persistent ∧
      x = ⟨e.1, e.2, pathname ++ beforeSlash e.1, pathname ++ e.1.drop 1⟩ ∧
      ∀ g ∈ before ++ [e], pathname ++ beforeSlash g.1 ≠ [] ∧
        (pathname ++ beforeSlash g.1).length < PATH_MAX := by
  induction files with
  | nil => exact fun x hx => absurd hx List.not_mem_nil
  | cons f rest ih =>
    intro s x hx
    unfold unloadFiles at hx
    dsimp only at hx
    split_ifs at hx with herror _ htype
    · exact absurd hx List.not_mem_nil
    · exact absurd hx List.not_mem_nil
    · have hf := h.mkdirP_iff.mp herror
      obtain ⟨before, e, after, rfl, hpersists, hx, hbefore⟩ := ih x hx
      exact ⟨f :: before, e, after, rfl, hpersists, hx, List.forall_mem_cons.mpr ⟨hf, hbefore⟩⟩
    · have hf := h.mkdirP_iff.mp herror
      have hpersists : mType f.2 = .persistent := by
        cases ht : mType f.2 with
        | temporary => exact absurd ht htype
        | persistent => rfl
      rcases List.mem_cons.mp hx with rfl | hx
      · exact ⟨[], f, rest, rfl, hpersists, rfl, List.forall_mem_singleton.mpr hf⟩
      · obtain ⟨before, e, after, rfl, hpersists, hx, hbefore⟩ := ih x hx
        exact ⟨f :: before, e, after, rfl, hpersists, hx, List.forall_mem_cons.mpr ⟨hf, hbefore⟩⟩

theorem exports_complete {before after : List (Sigma fun _ : Path => File)}
    (hpersists : mType e.2 = .persistent) (hbefore : ∀ g ∈ before ++ [e], g.1 ≠ [] ∧
      pathname ++ beforeSlash g.1 ≠ [] ∧ (pathname ++ beforeSlash g.1).length < PATH_MAX) :
    ∀ {s : σ}, ∃ x ∈ (unloadFiles host mType pathname (before ++ e :: after) s).1,
      x.key = e.1 ∧ x.file = e.2 := by
  induction before with
  | nil =>
    intro s
    obtain ⟨hkey, hdir⟩ := hbefore e (by simp)
    rw [List.nil_append]
    unfold unloadFiles
    dsimp only
    rw [if_neg (h.mkdirP_iff.mpr hdir), if_neg hkey, if_neg (by rw [hpersists]; decide)]
    exact ⟨_, List.mem_cons_self, rfl, rfl⟩
  | cons f before ih =>
    intro s
    obtain ⟨⟨hkey, hdir⟩, hrest⟩ := List.forall_mem_cons.mp hbefore
    rw [List.cons_append]
    unfold unloadFiles
    dsimp only
    rw [if_neg (h.mkdirP_iff.mpr hdir), if_neg hkey]
    split_ifs
    · exact ih hrest
    · obtain ⟨x, hx, hxe⟩ := ih hrest
      exact ⟨x, List.mem_cons_of_mem _ hx, hxe⟩

end Posix

theorem beforeSlash_join (hc : Name c) : beforeSlash (join (cs ++ [c])) = join cs := by
  unfold beforeSlash
  rw [if_pos (by rw [join_concat]; simp), upToSlash_join hc, dropLast_key]

theorem drop_join (cs : List Path) (c : Path) : (join (cs ++ [c])).drop 1 = relative (cs ++ [c]) :=
  List.drop_one

theorem names_relative (h : Names (cs ++ [c])) : names (relative (cs ++ [c])) = cs ++ [c] := by
  rw [← names_slash, cons_relative, absolute_concat, names_join h]

/-- Where the results directory ends with a slash, both concatenations lead below it. -/
theorem place_of_slash (hslash : pathname.getLast? = some '/') (h : Names (cs ++ [c])) :
    place (pathname ++ relative (cs ++ [c])) =
        ((place pathname).1, (place pathname).2 ++ cs ++ [c]) ∧
      place (pathname ++ join cs) = ((place pathname).1, (place pathname).2 ++ cs) := by
  obtain ⟨r, rfl⟩ := List.getLast?_eq_some_iff.mp hslash
  have hcs : Names cs := fun d hd => h d (List.mem_append_left _ hd)
  have hplace : ∀ v, place (r ++ ['/'] ++ v) = ((place (r ++ ['/'])).1, names r ++ names v) := by
    intro v
    unfold place
    rw [List.append_assoc, List.singleton_append, names_append_slash]
    cases r <;> rfl
  have hr : (place (r ++ ['/'])).2 = names r := by
    have hnil : names [] = [] := rfl
    rw [place, names_append_slash, hnil, List.append_nil]
  rw [hplace, hplace, hr, names_relative h, names_join hcs, List.append_assoc]
  exact ⟨rfl, rfl⟩

/-- Without it the last name of the directory melts with the first name of the file. -/
theorem place_of_no_slash (hne : pathname ≠ []) (hslash : pathname.getLast? ≠ some '/')
    (h : Names (cs ++ [c])) : place (pathname ++ relative (cs ++ [c])) ≠
      place (slash pathname (relative (cs ++ [c]))) := by
  obtain ⟨d, ds, hd⟩ : ∃ d ds, cs ++ [c] = d :: ds := by
    cases cs with
    | nil => exact ⟨c, [], rfl⟩
    | cons d cs => exact ⟨d, cs ++ [c], rfl⟩
  have hrelative : relative (d :: ds) = d ++ join ds := by simp [relative, join]
  rw [hd] at h ⊢
  intro hplace
  have hnames := congrArg (List.length ∘ Prod.snd) hplace
  have hslashed : slash pathname (relative (d :: ds)) = pathname ++ '/' :: relative (d :: ds) := by
    rw [slash, if_neg hne, withSlash, if_neg hslash, List.append_assoc, List.singleton_append]
  simp only [Function.comp, place, hslashed] at hnames
  rw [names_append_slash, hrelative, length_names_append hne hslash h, names_cons h,
    List.length_append, List.length_cons] at hnames
  omega

/-- An export lands in its place just when the results directory ends with a slash. -/
theorem export_slash {key dir : Path} (h : Names (cs ++ [c])) (hkey : key = join (cs ++ [c]))
    (hdir : dir = pathname ++ beforeSlash key) (hne : dir ≠ [])
    (hpath : place (pathname ++ key.drop 1) = place (slash pathname (key.drop 1)))
    (hinside : (place (pathname ++ key.drop 1)).1 = (place dir).1) :
    pathname.getLast? = some '/' := by
  have hc : Name c := h c (by simp)
  by_contra hslash
  subst hkey hdir
  rw [beforeSlash_join hc] at hne hinside
  rw [drop_join] at hpath hinside
  by_cases hempty : pathname = []
  · subst hempty
    -- the directory is below the root, the file is not
    obtain ⟨d, ds, rfl⟩ := List.exists_cons_of_ne_nil fun hcs : cs = [] => hne (by rw [hcs]; rfl)
    have hd : Name d := h d (by simp)
    obtain ⟨a, d, rfl⟩ := List.exists_cons_of_ne_nil hd.ne
    have ha : a ≠ '/' := fun ha => hd.noSlash (ha ▸ List.mem_cons_self)
    simp [place, relative, join, ha] at hinside
  · exact place_of_no_slash hempty hslash h hpath

/-- What was written where, when the directory ends with a slash and the keys are normal. -/
theorem export_paths (hhost : Posix host Exists)
    (hnormal : ∀ e ∈ b.mFiles.entries, Normal e.1)
    (hslash : ∀ e ∈ b.mFiles.entries, mType e.2 = .persistent → pathname.getLast? = some '/') :
    ∀ x ∈ (b.unload host mType pathname s).1, pathname.getLast? = some '/' ∧
      ∃ cs c, Names (cs ++ [c]) ∧ x.key = join (cs ++ [c]) ∧
        x.path = pathname ++ relative (cs ++ [c]) ∧ x.dir = pathname ++ join cs := by
  intro x hx
  obtain ⟨before, e, after, hfiles, hpersists, rfl, -⟩ := hhost.exports_spec x hx
  have he : e ∈ b.mFiles.entries := by
    rw [hfiles]
    simp
  obtain ⟨cs, c, hcs, hc, hjoin⟩ := hnormal e he
  refine ⟨hslash e he hpersists, cs, c, hcs.concat hc, hjoin, ?_, ?_⟩
  · rw [hjoin, drop_join]
  · rw [hjoin, beforeSlash_join hc]

theorem fits_of_landsIn (hhost : Posix host Exists)
    (hnormal : ∀ e ∈ b.mFiles.entries, Normal e.1)
    (hlands : LandsIn Exists pathname mType b (b.unload host mType pathname s))
    (he : e ∈ b.mFiles.entries) (hpersists : mType e.2 = .persistent) :
    pathname.getLast? = some '/' ∧ Fits pathname b e := by
  obtain ⟨x, hx, hkey, hfile⟩ := hlands.written e he hpersists
  have hplace := hlands.path x hx
  obtain ⟨d, hinside⟩ := hlands.inside x hx
  obtain ⟨before, e', after, hfiles, -, rfl, hbefore⟩ := hhost.exports_spec x hx
  obtain rfl : e' = e := Sigma.ext hkey (heq_of_eq hfile)
  obtain ⟨cs, c, hcs, hc, hjoin⟩ := hnormal e' he
  refine ⟨?_, before, after, hfiles, fun g hg => (hbefore g hg).2⟩
  have hsame := congrArg Prod.fst hinside
  exact export_slash (hcs.concat hc) hjoin rfl (hbefore e' (by simp)).1 hplace hsame

theorem landsIn_of_fits (hhost : Posix host Exists)
    (hnormal : ∀ e ∈ b.mFiles.entries, Normal e.1)
    (hfits : ∀ e ∈ b.mFiles.entries, mType e.2 = .persistent →
      pathname.getLast? = some '/' ∧ Fits pathname b e) :
    LandsIn Exists pathname mType b (b.unload host mType pathname s) := by
  have hspec := export_paths (s := s) hhost hnormal fun e he hpersists => (hfits e he hpersists).1
  constructor
  · intro e he hpersists
    obtain ⟨hslash, before, after, hfiles, hshort⟩ := hfits e he hpersists
    unfold State.unload
    rw [hfiles]
    refine hhost.exports_complete hpersists fun g hg => ⟨?_, ?_, hshort g hg⟩
    · have hg : g ∈ b.mFiles.entries := by
        rw [hfiles, List.append_cons]
        exact List.mem_append_left _ hg
      obtain ⟨cs, c, -, -, hjoin⟩ := hnormal g hg
      rw [hjoin, join_concat]
      simp
    · rintro hnil
      rw [(List.append_eq_nil_iff.mp hnil).1] at hslash
      cases hslash
  · intro x hx
    obtain ⟨hslash, cs, c, h, hkey, hpath, -⟩ := hspec x hx
    have hne : pathname ≠ [] := by
      rintro rfl
      cases hslash
    rw [hkey, drop_join, hpath, slash, if_neg hne, withSlash, if_pos hslash]
  · intro x hx
    obtain ⟨hslash, cs, c, h, -, hpath, hdir⟩ := hspec x hx
    obtain ⟨hfile, hparent⟩ := place_of_slash hslash h
    exact ⟨c, by rw [hpath, hdir, hfile, hparent]⟩
  · exact fun x hx => hhost.exports_made x hx
  · intro x hx y hy hplace
    obtain ⟨hslash, cs, c, h, hkey, hpath, -⟩ := hspec x hx
    obtain ⟨-, ds, d, h', hkey', hpath', -⟩ := hspec y hy
    rw [hpath, hpath', (place_of_slash hslash h).1, (place_of_slash hslash h').1,
      List.append_assoc, List.append_assoc] at hplace
    rw [hkey, hkey', List.append_cancel_left (congrArg Prod.snd hplace)]

/-- A file system of directories only, where a directory needs its parent. -/
def dirHost : Host (Finset (Bool × List Path)) where
  mkdir := fun p dirs =>
    if p = [] then (ENOENT, dirs)
    else if (place p).2 = [] ∨ place p ∈ dirs then (EEXIST, dirs)
    else if (place (upToSlash p)).2 = [] ∨ place (upToSlash p) ∈ dirs then
      (0, insert (place p) dirs)
    else (ENOENT, dirs)
  write := fun _ _ dirs => dirs

def DirExists (dirs : Finset (Bool × List Path)) (d : Bool × List Path) : Prop := d.2 = [] ∨ d ∈ dirs

theorem dirHost_posix : Posix dirHost DirExists where
  top := fun _ _ => .inl rfl
  empty := fun _ => rfl
  makes := by
    intro p dirs hne _ hparent
    simp only [dirHost, if_neg hne]
    split_ifs with hthere
    · exact ⟨.inr rfl, hthere⟩
    · exact ⟨.inl rfl, .inr (Finset.mem_insert_self _ _)⟩
    · exact absurd hparent ‹_›
  mkdirKeeps := by
    intro p dirs d hd
    simp only [dirHost]
    split_ifs
    · exact hd
    · exact hd
    · exact hd.imp_right (Finset.mem_insert_of_mem ·)
    · exact hd
  writeKeeps := fun _ _ _ _ hd => hd

/-- A backend with the file "/a/f". -/
def oneResult : State :=
  { emptyBackend with
    mFiles := (∅ : Map File).insert ['/', 'a', '/', 'f'] ⟨0, ['/', 'a', '/', 'f'], ['/', 'p']⟩ }

theorem normal_oneResult : ∀ k ∈ oneResult.mFiles, Normal k := by
  intro k hk
  rcases (AList.mem_insert _).mp hk with rfl | hk
  · exact ⟨[['a']], ['f'], names_one name_a, ⟨by decide, by decide⟩, rfl⟩
  · exact absurd hk (AList.notMem_empty k)

end EchoFs.Nvml.Backend
