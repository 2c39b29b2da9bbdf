import Mathlib.Data.Set.Function
import Mathlib.Data.Finset.Insert
import EchoFs.Nvml.Loads

/-! The pool subdirectory of a file object is named after the path it was made at, and
keeps that name through renames and while only handles hold the object. As long as no
object is made at the path of one that is alive, the subdirectories are distinct and keep
the pools of their objects. -/

namespace EchoFs.Nvml.Backend
open Checked PathString Transition

variable {hash : Path → BitVec 64} {S : Set Path} {b b' : State} {f g : File}
  {p pathname path : Path} {fs : FileSystem}

theorem toDigits_injective {m n : Nat} (h : Nat.toDigits 16 m = Nat.toDigits 16 n) : m = n := by
  have hdigit : ∀ i < 16, ∀ j < 16, Nat.digitChar i = Nat.digitChar j → i = j := by decide
  induction m using Nat.strong_induction_on generalizing n with
  | _ m ih =>
    rw [Nat.toDigits_eq_if (by omega), Nat.toDigits_eq_if (by omega : 1 < 16) (n := n)] at h
    split_ifs at h with hm hn hn
    · exact hdigit m hm n hn (List.singleton_inj.mp h)
    · have hlen := congrArg List.length h
      have hpos := Nat.length_toDigits_pos (b := 16) (n := n / 16)
      rw [List.length_append, List.length_singleton, List.length_singleton] at hlen
      omega
    · have hlen := congrArg List.length h
      have hpos := Nat.length_toDigits_pos (b := 16) (n := m / 16)
      rw [List.length_append, List.length_singleton, List.length_singleton] at hlen
      omega
    · obtain ⟨hdiv, hmod⟩ := List.append_singleton_inj.mp h
      have hquot := ih (m / 16) (by omega) hdiv
      have hrem := hdigit _ (Nat.mod_lt m (by omega)) _ (Nat.mod_lt n (by omega)) hmod
      omega

theorem slash_injective {q q' : Path} (h : slash p q = slash p q') : q = q' := by
  unfold slash at h
  split at h
  · exact h
  · exact List.append_cancel_left h

theorem generatePoolSubdir_injective {base q : Path}
    (h : generatePoolSubdir hash base p = generatePoolSubdir hash base q) : hash p = hash q :=
  BitVec.eq_of_toNat_eq (toDigits_injective (slash_injective h))

theorem live_iff : b.Live f ↔ (∃ k, b.mFiles.lookup k = some f) ∨ f ∈ b.handles := by
  refine or_congr_left ?_
  rw [List.mem_map]
  constructor
  · rintro ⟨⟨k, f'⟩, hmem, rfl⟩
    exact ⟨k, AList.mem_lookup_iff.mpr hmem⟩
  · rintro ⟨k, hk⟩
    exact ⟨⟨k, f⟩, AList.mem_lookup_iff.mp hk, rfl⟩

theorem live_of_lookup (h : b.mFiles.lookup p = some f) : b.Live f := live_iff.mpr (.inl ⟨p, h⟩)

/-- What the objects that are alive have in the state. -/
structure Owned (hash : Path → BitVec 64) (S : Set Path) (b : State) : Prop where
  fresh : ∀ f, b.Live f → f.serial < b.serials
  init_fresh : ∀ n ∈ b.mInitialized, n < b.serials
  involved : ∀ f, b.Live f → f.mPathname ∈ S
  named : ∀ f, b.Live f →
    f.mPoolSubdir = generatePoolSubdir hash b.mDaxfsMountPoint f.mPathname
  serial_inj : ∀ f g, b.Live f → b.Live g → f.serial = g.serial → f = g
  path_inj : ∀ f g, b.Live f → b.Live g → f.mPathname = g.mPathname → f = g
  pools : ∀ f, b.Live f → f.serial ∈ b.mInitialized → b.pools f.mPoolSubdir = some f.serial

/-- No object that is alive was made at the path. -/
def Unused (b : State) (p : Path) : Prop := ∀ f, b.Live f → f.mPathname ≠ p

section Owned
variable (hinj : Set.InjOn hash S) (h : Owned hash S b)
include h

/-- Pointers go away, and with them at most the pools of objects that are not alive. -/
theorem Owned.shrink (hlive : ∀ f, b'.Live f → b.Live f)
    (hbase : b'.mDaxfsMountPoint = b.mDaxfsMountPoint) (hserials : b'.serials = b.serials)
    (hinit : b'.mInitialized = b.mInitialized)
    (hpools : ∀ f, b'.Live f → f.serial ∈ b.mInitialized →
      b'.pools f.mPoolSubdir = b.pools f.mPoolSubdir) : Owned hash S b' where
  fresh := fun f hf => hserials ▸ h.fresh f (hlive f hf)
  init_fresh := fun n hn => hserials ▸ h.init_fresh n (hinit ▸ hn)
  involved := fun f hf => h.involved f (hlive f hf)
  named := fun f hf => hbase ▸ h.named f (hlive f hf)
  serial_inj := fun f g hf hg => h.serial_inj f g (hlive f hf) (hlive g hg)
  path_inj := fun f g hf hg => h.path_inj f g (hlive f hf) (hlive g hg)
  pools := fun f hf hi => by
    rw [hinit] at hi
    rw [hpools f hf hi, h.pools f (hlive f hf) hi]

include hinj

theorem Owned.apart (hf : b.Live f) (hg : b.Live g) (hne : f ≠ g) :
    f.mPoolSubdir ≠ g.mPoolSubdir := by
  intro he
  rw [h.named f hf, h.named g hg] at he
  exact hne (h.path_inj f g hf hg
    (hinj (h.involved f hf) (h.involved g hg) (generatePoolSubdir_injective he)))

theorem Owned.apart_new (hp : p ∈ S) (hunused : Unused b p) (hf : b.Live f) :
    f.mPoolSubdir ≠ (b.newFile hash p).mPoolSubdir := by
  intro he
  rw [h.named f hf] at he
  exact hunused f hf (hinj (h.involved f hf) hp (generatePoolSubdir_injective he))

/-- The last pointer to an object takes its pools along. -/
theorem Owned.drop (h' : Owned hash S b') (hlive : ∀ f, b'.Live f → b.Live f) (hf : b.Live f) :
    Owned hash S (b'.drop f) := by
  unfold State.drop
  split
  · exact h'
  · rename_i hdead
    refine h'.shrink (fun _ hg => hg) rfl rfl rfl fun g hg _ => Function.update_of_ne ?_ _ _
    exact h.apart hinj (hlive g hg) hf fun he => hdead (he ▸ hg)

theorem Owned.initialise (hf : b.Live f) :
    Owned hash S { b with
      mInitialized := insert f.serial b.mInitialized
      pools := Function.update b.pools f.mPoolSubdir (some f.serial) } where
  fresh := h.fresh
  init_fresh := fun n hn => by
    rcases Finset.mem_insert.mp hn with rfl | hn
    · exact h.fresh f hf
    · exact h.init_fresh n hn
  involved := h.involved
  named := h.named
  serial_inj := h.serial_inj
  path_inj := h.path_inj
  pools := fun g hg hi => by
    by_cases hgf : g = f
    · rw [hgf]
      exact Function.update_self ..
    · have hinit := (Finset.mem_insert.mp hi).resolve_left fun he =>
        hgf (h.serial_inj g f hg hf he)
      exact (Function.update_of_ne (h.apart hinj hg hf hgf) _ _).trans (h.pools g hg hinit)

omit hinj

theorem Owned.add (hp : p ∈ S) (hunused : Unused b p)
    (hlive : ∀ f, b'.Live f → b.Live f ∨ f = b.newFile hash p)
    (hbase : b'.mDaxfsMountPoint = b.mDaxfsMountPoint) (hserials : b'.serials = b.serials + 1)
    (hinit : b'.mInitialized = b.mInitialized) (hpools : b'.pools = b.pools) :
    Owned hash S b' where
  fresh := fun f hf => by
    rw [hserials]
    rcases hlive f hf with hf | rfl
    · exact Nat.lt_succ_of_lt (h.fresh f hf)
    · exact Nat.lt_succ_self _
  init_fresh := fun n hn => by
    rw [hserials]
    exact Nat.lt_succ_of_lt (h.init_fresh n (hinit ▸ hn))
  involved := fun f hf => by
    rcases hlive f hf with hf | rfl
    · exact h.involved f hf
    · exact hp
  named := fun f hf => by
    rw [hbase]
    rcases hlive f hf with hf | rfl
    · exact h.named f hf
    · rfl
  serial_inj := fun f g hf hg he => by
    rcases hlive f hf with hf | rfl <;> rcases hlive g hg with hg | rfl
    · exact h.serial_inj f g hf hg he
    · exact absurd he (h.fresh f hf).ne
    · exact absurd he (h.fresh g hg).ne'
    · rfl
  path_inj := fun f g hf hg he => by
    rcases hlive f hf with hf | rfl <;> rcases hlive g hg with hg | rfl
    · exact h.path_inj f g hf hg he
    · exact absurd he (hunused f hf)
    · exact absurd he.symm (hunused g hg)
    · rfl
  pools := fun f hf hi => by
    rw [hinit] at hi
    rw [hpools]
    rcases hlive f hf with hf | rfl
    · exact h.pools f hf hi
    · exact absurd (h.init_fresh _ hi) (Nat.lt_irrefl _)

end Owned

theorem lookup_of_emplace {α : Type} {m : Map α} {k k' : Path} {a x : α}
    (h : (emplace m k a).lookup k' = some x) : x = a ∨ m.lookup k' = some x := by
  by_cases hk : k ∈ m
  · rw [emplace, if_pos hk] at h
    exact .inr h
  · rw [lookup_emplace hk] at h
    split at h
    · exact .inl (Option.some.inj h).symm
    · exact .inr h

theorem lookup_of_erase {α : Type} {m : Map α} {k k' : Path} {x : α}
    (h : (m.erase k).lookup k' = some x) : m.lookup k' = some x := by
  rw [lookup_erase] at h
  split at h
  · cases h
  · exact h

section Calls
variable (hinj : Set.InjOn hash S) (h : Owned hash S b)
include h

theorem Owned.setDirs (mDirs : Map Dir) : Owned hash S { b with mDirs := mDirs } :=
  h.shrink (fun _ hf => hf) rfl rfl rfl fun _ _ _ => rfl

theorem doCreate_owned (hp : p ∈ S)
    (hunused : p ∉ b.mFiles → parentKey p ∈ b.mDirs → Unused b p) :
    Owned hash S (b.doCreate hash p).1 := by
  unfold State.doCreate
  split_ifs with hfile hdir
  · exact h
  · refine h.add hp (hunused hfile hdir) (fun f hf => ?_) rfl rfl rfl rfl
    rcases live_iff.mp hf with ⟨k, hk⟩ | hf
    · rcases lookup_of_emplace hk with rfl | hk
      · exact .inr rfl
      · exact .inl (live_of_lookup hk)
    · rcases List.mem_cons.mp hf with rfl | hf
      · exact .inr rfl
      · exact .inl (.inr hf)
  · exact h

theorem doOpen_owned (p : Path) : Owned hash S (b.doOpen p) := by
  unfold State.doOpen
  split
  · rename_i f hf
    refine h.shrink (fun g hg => ?_) rfl rfl rfl fun _ _ _ => rfl
    rcases hg with hg | hg
    · exact .inl hg
    · rcases List.mem_cons.mp hg with rfl | hg
      · exact live_of_lookup hf
      · exact .inr hg
  · exact h

theorem doRenamedir_owned (o n : Path) : Owned hash S (b.doRenamedir o n).1 := by
  unfold State.doRenamedir
  split_ifs
  · exact h
  · split
    · exact h.setDirs _
    · exact h

include hinj

theorem eraseFile_owned (hf : b.mFiles.lookup path = some f) :
    Owned hash S (b.eraseFile path f) := by
  have hlive : ∀ g, State.Live { b with mFiles := b.mFiles.erase path } g → b.Live g := by
    intro g hg
    rcases live_iff.mp hg with ⟨k, hk⟩ | hg
    · exact live_of_lookup (lookup_of_erase hk)
    · exact .inr hg
  have herased : Owned hash S { b with mFiles := b.mFiles.erase path } :=
    h.shrink hlive rfl rfl rfl fun _ _ _ => rfl
  exact (h.drop hinj herased hlive (live_of_lookup hf)).setDirs _

theorem doUnlink_owned (p : Path) : Owned hash S (b.doUnlink p).1 := by
  unfold State.doUnlink
  split
  · rename_i f hf
    exact eraseFile_owned hinj h hf
  · exact h

theorem eraseTarget_owned (p : Path) : Owned hash S (b.eraseTarget p) := by
  unfold State.eraseTarget
  split
  · rename_i f hf
    exact eraseFile_owned hinj h hf
  · exact h

theorem doRename_owned {o n : Path} {e : Int} (hcall : b.doRename o n = .ok (b', e)) :
    Owned hash S b' := by
  unfold State.doRename at hcall
  split_ifs at hcall with hdir hfile
  · obtain rfl := congrArg Prod.fst (Except.ok.inj hcall)
    exact doRenamedir_owned h _ _
  · have herased := eraseTarget_owned hinj h n
    dsimp only at hcall
    split at hcall
    · rename_i f hf
      obtain rfl := congrArg Prod.fst (Except.ok.inj hcall)
      refine herased.shrink (fun g hg => ?_) rfl rfl rfl fun _ _ _ => rfl
      rcases live_iff.mp hg with ⟨k, hk⟩ | hg
      · rcases lookup_of_emplace (lookup_of_erase hk) with rfl | hk
        · exact live_of_lookup hf
        · exact live_of_lookup hk
      · exact .inr hg
    · cases hcall
  · obtain rfl := congrArg Prod.fst (Except.ok.inj hcall)
    exact h

theorem release_owned (f : File) : Owned hash S (b.release f) := by
  unfold State.release
  split_ifs with hmem
  · have hlive : ∀ g, State.Live { b with handles := b.handles.erase f } g → b.Live g :=
      fun g hg => hg.imp_right List.mem_of_mem_erase
    exact h.drop hinj (h.shrink hlive rfl rfl rfl fun _ _ _ => rfl) hlive (.inr hmem)
  · exact h

theorem firstWrite_owned (f : File) (made : Bool) : Owned hash S (b.firstWrite f made) := by
  unfold State.firstWrite
  split_ifs with hf hmade
  · exact h.initialise hinj hf.1
  · refine h.shrink (fun _ hg => hg) rfl rfl rfl fun g hg hi => Function.update_of_ne ?_ _ _
    exact h.apart hinj hg hf.1 fun he => hf.2 (he ▸ hi)
  · exact h

end Calls

/-- The constructor of a file runs for `pathname`. -/
def Makes (fs : FileSystem) (b : State) (pathname : Path) : Prop :=
  fs.present pathname ∧ ∃ path, removeRoot b.mRootDir pathname = some path ∧ path ∉ b.mFiles

/-- The paths at which objects are made belong to `S`. -/
def Involved (hash : Path → BitVec 64) (S : Set Path) (b : State) : Call → Prop
  | .create p => p ∈ S
  | .load fs p => EachFile hash fs (fun _ p => p ∈ S) b p
  | _ => True

/-- No object is made at the path at which one that is alive was made. -/
def Unshared (hash : Path → BitVec 64) (b : State) : Call → Prop
  | .create p => p ∉ b.mFiles → parentKey p ∈ b.mDirs → Unused b p
  | .load fs p => EachFile hash fs (fun b p => Makes fs b p → Unused b p) b p
  | _ => True

theorem importFile_owned (hinj : Set.InjOn hash S) (h : Owned hash S b) (hp : pathname ∈ S)
    (hunused : Unused b pathname) (hnew : path ∉ b.mFiles) :
    Owned hash S (b.importFile hash pathname path) := by
  let b₁ : State := { b with
    mFiles := emplace b.mFiles path (b.newFile hash pathname)
    serials := b.serials + 1 }
  have hadded : Owned hash S b₁ := by
    refine h.add hp hunused (fun f hf => ?_) rfl rfl rfl rfl
    rcases live_iff.mp hf with ⟨k, hk⟩ | hf
    · rcases lookup_of_emplace hk with rfl | hk
      · exact .inr rfl
      · exact .inl (live_of_lookup hk)
    · exact .inl (.inr hf)
  have hlive : b₁.Live (b.newFile hash pathname) := by
    refine live_of_lookup (p := path) ?_
    rw [show b₁.mFiles = emplace b.mFiles path (b.newFile hash pathname) from rfl,
      lookup_emplace hnew, if_pos rfl]
  exact hadded.initialise hinj hlive

theorem loadFile_owned {e : Outcome} (hinj : Set.InjOn hash S) (h : Owned hash S b)
    (hp : pathname ∈ S) (hunused : path ∉ b.mFiles → Unused b pathname)
    (hload : b.loadFile hash fs pathname path = .ok (b', e)) : Owned hash S b' := by
  unfold State.loadFile at hload
  split_ifs at hload with hnew hopens
  · obtain rfl := congrArg Prod.fst (Except.ok.inj hload)
    exact h
  · have himport := importFile_owned hinj h hp (hunused hnew) hnew
    obtain ⟨⟨buildPath, mDirs, built⟩, _, hrest⟩ := bind_eq_ok.mp hload
    dsimp only at hrest
    -- from here on only the directories change
    split_ifs at hrest
    · split at hrest
      · obtain rfl := congrArg Prod.fst (Except.ok.inj hrest)
        exact himport.setDirs _
      · obtain rfl := congrArg Prod.fst (Except.ok.inj hrest)
        exact himport.setDirs _
    · obtain rfl := congrArg Prod.fst (Except.ok.inj hrest)
      exact himport.setDirs _
  · obtain rfl := congrArg Prod.fst (Except.ok.inj hload)
    refine h.shrink (fun _ hf => hf) rfl rfl rfl fun f hf _ => Function.update_of_ne ?_ _ _
    exact h.apart_new hinj hp (hunused hnew) hf

theorem loadEntry_owned {e : Outcome} (hinj : Set.InjOn hash S) (h : Owned hash S b)
    (hp : pathname ∈ S) (hunused : Makes fs b pathname → Unused b pathname)
    (hload : b.loadEntry hash fs pathname = .ok (b', e)) : Owned hash S b' := by
  unfold State.loadEntry at hload
  split_ifs at hload with hpresent
  · split at hload
    · rename_i path hroot
      exact loadFile_owned hinj h hp (fun hnew => hunused ⟨hpresent, path, hroot, hnew⟩) hload
    · obtain rfl := congrArg Prod.fst (Except.ok.inj hload)
      exact h
  · obtain rfl := congrArg Prod.fst (Except.ok.inj hload)
    exact h

theorem doMkdir_owned {e : Int} (h : Owned hash S b) (hcall : b.doMkdir p = .ok (b', e)) :
    Owned hash S b' := by
  unfold State.doMkdir at hcall
  dsimp only at hcall
  split_ifs at hcall
  · obtain rfl := congrArg Prod.fst (Except.ok.inj hcall)
    exact h
  · obtain ⟨_, _, hrest⟩ := bind_eq_ok.mp hcall
    obtain rfl := congrArg Prod.fst (Except.ok.inj hrest)
    exact h.setDirs _

theorem doRmdir_owned {e : Int} (h : Owned hash S b) (hcall : b.doRmdir p = .ok (b', e)) :
    Owned hash S b' := by
  unfold State.doRmdir at hcall
  dsimp only at hcall
  split at hcall
  · split_ifs at hcall
    · obtain rfl := congrArg Prod.fst (Except.ok.inj hcall)
      exact h
    · obtain ⟨_, _, hrest⟩ := bind_eq_ok.mp hcall
      obtain rfl := congrArg Prod.fst (Except.ok.inj hrest)
      exact h.setDirs _
  · obtain rfl := congrArg Prod.fst (Except.ok.inj hcall)
    exact h

theorem of_stateOf {α : Type} {x : Result (State × α)} (h : stateOf x = .ok b) :
    ∃ a, x = .ok (b, a) := by
  cases x with
  | ok r => exact ⟨r.2, by rw [← Except.ok.inj h]⟩
  | error e => cases h

theorem call_owned (hinj : Set.InjOn hash S) (h : Owned hash S b) (c : Call)
    (hinvolved : Involved hash S b c) (hunshared : Unshared hash b c)
    (hcall : b.call hash c = .ok b') : Owned hash S b' := by
  cases c with
  | create p => exact Except.ok.inj hcall ▸ doCreate_owned h hinvolved hunshared
  | unlink p => exact Except.ok.inj hcall ▸ doUnlink_owned hinj h p
  | rename o n =>
    obtain ⟨e, hrename⟩ := of_stateOf hcall
    exact doRename_owned hinj h hrename
  | mkdir p =>
    obtain ⟨e, hmkdir⟩ := of_stateOf hcall
    exact doMkdir_owned h hmkdir
  | rmdir p =>
    obtain ⟨e, hrmdir⟩ := of_stateOf hcall
    exact doRmdir_owned h hrmdir
  | load fs p =>
    obtain ⟨e, hload⟩ := of_stateOf hcall
    have hall : EachFile hash fs (fun b p => p ∈ S ∧ (Makes fs b p → Unused b p)) b p :=
      hinvolved.imp₂ (fun _ _ => And.intro) hunshared
    have hrule : Ensures True (fun r => Owned hash S r.1) (State.load hash fs b p) :=
      load_rule (fun b p h hp => ensures_true.mpr fun r hone =>
        loadEntry_owned hinj h hp.1 hp.2 hone) h hall
    exact ensures_true.mp hrule _ hload
  | doOpen p => exact Except.ok.inj hcall ▸ doOpen_owned h p
  | release f => exact Except.ok.inj hcall ▸ release_owned hinj h f
  | firstWrite f made => exact Except.ok.inj hcall ▸ firstWrite_owned hinj h f made

theorem construct_owned (base root : Path) (pools : Path → Option Nat) :
    Owned hash S (State.construct base root pools) := by
  have hdead : ∀ f, ¬ (State.construct base root pools).Live f := by
    rintro f (hf | hf)
    · cases hf
    · cases hf
  exact ⟨fun f hf => absurd hf (hdead f), fun n hn => absurd hn (Finset.notMem_empty n),
    fun f hf => absurd hf (hdead f), fun f hf => absurd hf (hdead f),
    fun f _ hf => absurd hf (hdead f), fun f _ hf => absurd hf (hdead f),
    fun f hf => absurd hf (hdead f)⟩

/-- In every run objects that are alive have subdirectories of their own, and those that
are initialised find their pools there. -/
theorem subdirs_apart {base root : Path} {pools : Path → Option Nat} (hinj : Set.InjOn hash S)
    (h : Reach (· = State.construct base root pools) (Guarded (Step hash) fun b c =>
      Involved hash S b c ∧ Unshared hash b c) b) :
    (∀ f g, b.Live f → b.Live g → f ≠ g → f.mPoolSubdir ≠ g.mPoolSubdir) ∧
      ∀ f, b.Live f → f.serial ∈ b.mInitialized → b.pools f.mPoolSubdir = some f.serial := by
  have howned : Owned hash S b := by
    refine h.invariant ?_ ?_
    · rintro s rfl
      exact construct_owned base root pools
    · rintro s c s' hs ⟨⟨hinvolved, hunshared⟩, hstep⟩
      exact call_owned hinj hs c hinvolved hunshared hstep
  exact ⟨fun f g hf hg hne => howned.apart hinj hf hg hne, howned.pools⟩

def charHash (p : Path) : BitVec 64 := .ofNat 64 (p.foldl (fun n c => 131 * n + c.toNat) 0)

theorem unused_of_forall (h : ∀ f ∈ b.mFiles.entries.map Sigma.snd ++ b.handles, f.mPathname ≠ p) :
    Unused b p := fun f hf => h f (List.mem_append.mpr hf)

theorem subdirs_apart_twoFiles :
    ∃ b : State, ∃ f g, b.Live f ∧ b.Live g ∧ f.mPathname = ['/', 'a'] ∧ g.mPathname = ['/', 'b'] ∧
      f.mPoolSubdir ≠ g.mPoolSubdir := by
  have hinj : Set.InjOn charHash {['/', 'a'], ['/', 'b']} := by
    rintro p (rfl | rfl) q (rfl | rfl) h
    · rfl
    · exact absurd h (by decide)
    · exact absurd h (by decide)
    · rfl
  let b₀ : State := State.construct ['/', 'p'] ['/', 'r', '/'] fun _ => none
  let b₁ : State := (b₀.doCreate charHash ['/', 'a']).1
  let b₂ : State := (b₁.doCreate charHash ['/', 'b']).1
  have hrun : Reach (· = b₀) (Guarded (Step charHash) fun b c =>
      Involved charHash {['/', 'a'], ['/', 'b']} b c ∧ Unshared charHash b c) b₂ := by
    refine .next (s := b₁) (e := .create ['/', 'b']) (.next (e := .create ['/', 'a']) (.start rfl)
      ⟨⟨.inl rfl, fun _ _ => ?_⟩, rfl⟩) ⟨⟨.inr rfl, fun _ _ => ?_⟩, rfl⟩
    · exact unused_of_forall (by decide)
    · exact unused_of_forall (by decide)
  have hapart := (subdirs_apart hinj hrun).1 (b₀.newFile charHash ['/', 'a'])
    (b₁.newFile charHash ['/', 'b']) (by decide) (by decide) (by decide)
  exact ⟨b₂, _, _, by decide, by decide, rfl, rfl, hapart⟩

/-- A file that was renamed loses its pools to a new file at its first path. -/
theorem renamed_file_loses_pools :
    ∃ b : State, Reach (· = State.construct ['/', 'p'] ['/', 'r', '/'] fun _ => none)
        (Guarded (Step charHash) (Involved charHash {['/', 'a']})) b ∧
      ∃ f g, b.Live f ∧ b.Live g ∧ f ≠ g ∧ f.mPoolSubdir = g.mPoolSubdir ∧
        f.serial ∈ b.mInitialized ∧ b.pools f.mPoolSubdir = some g.serial := by
  let b₀ : State := State.construct ['/', 'p'] ['/', 'r', '/'] fun _ => none
  let f : File := b₀.newFile charHash ['/', 'a']
  let g : File := { f with serial := 1 }
  refine ⟨_, .next (e := .firstWrite g true) (.next (e := .create ['/', 'a'])
    (.next (e := .rename ['/', 'a'] ['/', 'b']) (.next (e := .firstWrite f true)
    (.next (e := .create ['/', 'a']) (.start rfl) ⟨rfl, rfl⟩) ⟨trivial, rfl⟩) ⟨trivial, rfl⟩)
    ⟨rfl, rfl⟩) ⟨trivial, rfl⟩, f, g, ?_⟩
  decide

end EchoFs.Nvml.Backend
