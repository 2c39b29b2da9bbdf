import Mathlib.Data.UInt
import EchoFs.DevDax.Extents
import EchoFs.DevDax.TwoRuns

/-! Which file the bytes come from that a read hands out. A run on bytes that are
marked with the file they are written to shows where each byte of the device
comes from; reads of a file do not depend on what the others store as long as
its slots hold no byte below its end that another file stored last. -/

namespace EchoFs.DevDax
open Checked Nvml List

/-- A byte and the file it was written to, none for a byte no file wrote. -/
structure Marked where
  byte : UInt8
  writer : Option Nat
deriving DecidableEq, Repr

instance : Zero Marked := ⟨⟨0, none⟩⟩

def Op.map {β γ : Type} (g : Nat → β → γ) : Op β → Op γ
  | .create i => .create i
  | .preload i content => .preload i (content.map (g i))
  | .putData i start buffer => .putData i start (buffer.map (g i))
  | .allocate i start size => .allocate i start size
  | .truncate i endOffset => .truncate i endOffset
  | .getData i start size => .getData i start size
  | .destroy i => .destroy i

/-- The call with its bytes marked. -/
def Op.mark : Op UInt8 → Op Marked := Op.map fun i b => ⟨b, some i⟩

/-- No byte of the device comes from a file. -/
def System.unmarked (sys : System UInt8) : System Marked :=
  { sys with device := { sys.device with memory := fun x => ⟨sys.device.memory x, none⟩ } }

/-- The byte does not come from another file than `f`. -/
def Own (f : Nat) (b : Marked) : Prop := b.writer = none ∨ b.writer = some f

/-- No byte that another file stored last lies below the end of `f` in its slots. -/
def OwnSlots (f : Nat) (sys : System Marked) : Prop :=
  ∀ g, sys.file f = .ok g → ∀ x, g.Backs x → Own f (sys.device.memory x)

def Op.Reads {β : Type} (f : Nat) : Op β → Prop
  | .getData i _ _ => i = f
  | _ => False

/-- The slots of `f` are its own before every read of `f`, up to the first fault. -/
def RunOwnSlots (cfg : Settings) (f : Nat) : System Marked → List (Op Marked) → Prop
  | _, [] => True
  | sys, op :: ops => (op.Reads f → OwnSlots f sys) ∧
    ∀ sys' out, sys.exec cfg op = .ok (sys', out) → RunOwnSlots cfg f sys' ops

instance (f : Nat) (b : Marked) : Decidable (Own f b) := inferInstanceAs (Decidable (_ ∨ _))

theorem ownSlots_iff {f : Nat} {sys : System Marked} {g : File} (hg : sys.file f = .ok g) :
    OwnSlots f sys ↔ ∀ id ∈ treeIds g.mSegments, ∀ s ∈ g.segments[id]?, s.mIsGap = false →
      ∀ k < (min (s.mOffset + s.mSize) g.mUsedOffset - s.mOffset).toNat,
        Own f (sys.device.memory ((s.mData.getD 0 : Nat) + (k : Int))) := by
  constructor
  · intro h id hid s hs hgap k hk
    refine h g hg _ ⟨id, hid, s, hs, hgap, s.mOffset + k, ?_, by omega, by rw [add_sub_cancel_left]⟩
    unfold Segment.Holds
    omega
  · rintro h g' hg' x ⟨id, hid, s, hs, hgap, o, ho, hlt, rfl⟩
    obtain rfl := Except.ok.inj (hg.symm.trans hg')
    obtain ⟨hlo, hhi⟩ := ho
    have hown := h id hid s hs hgap (o - s.mOffset).toNat (by omega)
    rwa [Int.toNat_of_nonneg (by omega)] at hown

instance (f : Nat) (sys : System Marked) : Decidable (OwnSlots f sys) :=
  match hg : sys.file f with
  | .error _ => isTrue fun _ hg' => nomatch hg.symm.trans hg'
  | .ok _ => decidable_of_iff _ (ownSlots_iff hg).symm

instance {β : Type} (f : Nat) : DecidablePred (Op.Reads (β := β) f)
  | .getData i _ _ => inferInstanceAs (Decidable (i = f))
  | .create _ | .preload _ _ | .putData _ _ _ | .allocate _ _ _ | .truncate _ _ | .destroy _ =>
    isFalse id

theorem runOwnSlots_cons {cfg : Settings} {f : Nat} {sys sys' : System Marked} {op : Op Marked}
    {ops : List (Op Marked)} {out : Option (Nat × ReadResult Marked)}
    (hx : sys.exec cfg op = .ok (sys', out)) :
    RunOwnSlots cfg f sys (op :: ops) ↔
      (op.Reads f → OwnSlots f sys) ∧ RunOwnSlots cfg f sys' ops := by
  refine and_congr_right fun _ => ⟨fun h => h sys' out hx, fun h s o heq => ?_⟩
  obtain ⟨rfl, -⟩ := Prod.mk.inj (Except.ok.inj (hx.symm.trans heq))
  exact h

instance decidableRunOwnSlots (cfg : Settings) (f : Nat) : ∀ (sys : System Marked)
    (ops : List (Op Marked)), Decidable (RunOwnSlots cfg f sys ops)
  | _, [] => isTrue trivial
  | sys, op :: ops =>
    match hx : sys.exec cfg op with
    | .error _ => decidable_of_iff (op.Reads f → OwnSlots f sys)
        ⟨fun h => ⟨h, fun _ _ heq => nomatch hx.symm.trans heq⟩, And.left⟩
    | .ok (sys', _) =>
      have := decidableRunOwnSlots cfg f sys' ops
      decidable_of_iff _ (runOwnSlots_cons hx).symm

/-- The same calls, with other bytes for other files than `f`. -/
def SameBut (f : Nat) : List (Op UInt8) → List (Op UInt8) → Prop :=
  Forall₂ (Op.Rel fun i b c => i = f → b = c)

/-- What the reads of `f` hand out. -/
def readsOf {β : Type} (f : Nat) (l : List (Nat × ReadResult β)) : List (Nat × ReadResult β) :=
  l.filter fun o => o.1 = f

/-- Reads of `f` hand out the same bytes whatever is written to other files. -/
def NoLeak (cfg : Settings) (sys : System UInt8) (f : Nat) (ops : List (Op UInt8)) : Prop :=
  ∀ ops', SameBut f ops ops' →
    readsOf f (sys.outputs cfg ops') = readsOf f (sys.outputs cfg ops)

section CopyOut
variable {β : Type} [Zero β] {d : Device β}

/-- The bytes of a region are zeros or bytes of the device. -/
theorem mem_load {r : Region} {bytes : List β} (h : d.load r = .ok bytes) {b : β}
    (hb : b ∈ bytes) :
    b = 0 ∨ ∃ a x, r.addr = some a ∧ a ≤ x ∧ x < a + toSize r.size ∧ d.memory x = b := by
  unfold Device.load at h
  cases ha : r.addr with
  | none =>
    rw [ha] at h
    obtain rfl := Except.ok.inj h
    exact .inl (List.eq_of_mem_replicate hb)
  | some a =>
    rw [ha] at h
    dsimp only at h
    split_ifs at h
    obtain rfl := Except.ok.inj h
    simp only [Memory.window, List.mem_map, List.mem_range] at hb
    obtain ⟨k, hk, rfl⟩ := hb
    exact .inr ⟨a, a + k, rfl, by omega, by omega, rfl⟩

/-- Every region fits into the buffer, and its bytes come from where it lies. -/
theorem mem_copyOut {regions : List Region} : ∀ {room : Nat} {bytes : List β},
    d.copyOut regions room = .ok bytes → ∀ b ∈ bytes, b = 0 ∨ ∃ r ∈ regions,
      toSize r.size ≤ room ∧
        ∃ a x, r.addr = some a ∧ a ≤ x ∧ x < a + toSize r.size ∧ d.memory x = b := by
  induction regions with
  | nil =>
    intro room bytes h
    obtain rfl := Except.ok.inj h
    simp
  | cons r regions ih =>
    intro room bytes h b hb
    unfold Device.copyOut at h
    split_ifs at h with hroom
    obtain ⟨bs, hbs, h⟩ := bind_eq_ok.mp h
    obtain ⟨bs', hbs', h⟩ := bind_eq_ok.mp h
    obtain rfl := Except.ok.inj h
    rcases List.mem_append.mp hb with hb | hb
    · exact (mem_load hbs hb).imp_right fun hx => ⟨r, List.mem_cons_self, by omega, hx⟩
    · refine (ih hbs' b hb).imp_right ?_
      rintro ⟨r', hr', hle, hx⟩
      exact ⟨r', List.mem_cons_of_mem _ hr', by omega, hx⟩

end CopyOut

section Reads
variable {β : Type} [Zero β] {cfg : Settings} {d : Device β} {g : File} {start size : Int}

/-- A read hands out zeros and bytes that back the file. -/
theorem getData_backs (h : g.Placed) (hlt : start + size < 2 ^ 63) {bytes : List β}
    (hr : g.getData cfg d start size = .ok (.bytes bytes)) :
    ∀ b ∈ bytes, b = 0 ∨ ∃ x, g.Backs x ∧ d.memory x = b := by
  obtain ⟨_, _, hr⟩ := bind_eq_ok.mp hr
  obtain ⟨regions, hregions, hr⟩ := bind_eq_ok.mp hr
  have hbacks := h.lookupData_backs hlt hregions
  dsimp only at hr
  split_ifs at hr with hnil htotal
  · obtain rfl := ReadResult.bytes.inj (Except.ok.inj hr)
    simp
  · cases Except.ok.inj hr
  · obtain ⟨copied, hcopied, hr⟩ := bind_eq_ok.mp hr
    obtain rfl := ReadResult.bytes.inj (Except.ok.inj hr)
    intro b hb
    refine (mem_copyOut hcopied b hb).imp_right ?_
    rintro ⟨r, hmem, hle, a, x, ha, hlo, hhi, hx⟩
    exact ⟨x, hbacks r hmem a ha (by omega) x hlo hhi, hx⟩

end Reads

section Runs
variable {cfg : Settings} {f : Nat}

def OutputsOwn (f : Nat) (l : List (Nat × ReadResult Marked)) : Prop :=
  ∀ bytes, (f, ReadResult.bytes bytes) ∈ l → ∀ b ∈ bytes, Own f b

/-- A read of `f` hands out its own bytes if its slots are its own. -/
theorem outputsOwn_of_exec {sys sys' : System Marked} {op : Op Marked}
    {out : Option (Nat × ReadResult Marked)} (hp : sys.Placed) (hv : op.Valid)
    (hown : op.Reads f → OwnSlots f sys) (h : sys.exec cfg op = .ok (sys', out)) :
    OutputsOwn f out.toList := by
  intro bytes hmem b hb
  obtain rfl : out = some (f, .bytes bytes) := by simpa [eq_comm] using hmem
  cases op with
  | getData i start size =>
    obtain ⟨g, hg, h⟩ := bind_eq_ok.mp h
    obtain ⟨r, hr, h⟩ := bind_eq_ok.mp h
    obtain ⟨-, hout⟩ := Prod.mk.inj (Except.ok.inj h)
    obtain ⟨rfl, rfl⟩ := Prod.mk.inj (Option.some.inj hout)
    rcases getData_backs (hp.file hg) hv hr b hb with rfl | ⟨x, hx, rfl⟩
    · exact .inl rfl
    · exact hown rfl g hg x hx
  | create j =>
    obtain ⟨_, _, h⟩ := bind_eq_ok.mp h
    cases (Prod.mk.inj (Except.ok.inj h)).2
  | preload | putData | allocate | truncate | destroy =>
    obtain ⟨_, _, h⟩ := bind_eq_ok.mp h
    obtain ⟨_, _, h⟩ := bind_eq_ok.mp h
    cases (Prod.mk.inj (Except.ok.inj h)).2

theorem outputsOwn_of_run {ops : List (Op Marked)} : ∀ {sys : System Marked}, sys.Placed →
    (∀ op ∈ ops, op.Valid) → RunOwnSlots cfg f sys ops → OutputsOwn f (sys.outputs cfg ops) := by
  induction ops with
  | nil =>
    intro sys _ _ _
    simp [System.outputs, OutputsOwn]
  | cons op ops ih =>
    intro sys hp hv hrun
    unfold System.outputs
    cases hx : sys.exec cfg op with
    | error e => simp [OutputsOwn]
    | ok q =>
      obtain ⟨sys', out⟩ := q
      have hop := hv op List.mem_cons_self
      have hhead := outputsOwn_of_exec hp hop hrun.1 hx
      have htail := ih (hp.exec hop hx) (fun op' hm => hv op' (List.mem_cons_of_mem _ hm))
        (hrun.2 sys' out hx)
      intro bytes hmem
      exact (List.mem_append.mp hmem).elim (hhead bytes) (htail bytes)

end Runs

/-! The marked run stands between the runs that are compared. -/

section Compare
variable {β γ : Type} {f : Nat}

theorem Op.map_id (op : Op β) : op.map (fun _ b => b) = op := by
  cases op <;> simp [Op.map]

theorem Op.Rel.map {δ ε : Type} {R : Nat → β → γ → Prop} {T : Nat → δ → ε → Prop}
    {g : Nat → β → δ} {k : Nat → γ → ε} {op : Op β} {op' : Op γ} (h : op.Rel R op')
    (hT : ∀ i b c, R i b c → T i (g i b) (k i c)) : (op.map g).Rel T (op'.map k) := by
  have hmap : ∀ i {b c}, Forall₂ (R i) b c → Forall₂ (T i) (b.map (g i)) (c.map (k i)) :=
    fun i b c hb => forall₂_map_left_iff.mpr (forall₂_map_right_iff.mpr (hb.imp (hT i)))
  cases h with
  | create i => exact .create i
  | preload i hb => exact .preload i (hmap i hb)
  | putData i start hb => exact .putData i start (hmap i hb)
  | allocate i start size => exact .allocate i start size
  | truncate i endOffset => exact .truncate i endOffset
  | getData i start size => exact .getData i start size
  | destroy i => exact .destroy i

theorem Op.Rel.refl (op : Op β) : op.Rel (fun _ b c => b = c) op := by
  cases op <;> constructor <;> exact forall₂_same.mpr fun _ _ => rfl

theorem rel_unmarked {S : Marked → UInt8 → Prop} (hS : ∀ b, S ⟨b, none⟩ b) (sys : System UInt8) :
    sys.unmarked.Rel S sys := ⟨⟨rfl, rfl, fun _ => hS _⟩, rfl⟩

/-- Runs of `ops'` beside the marked run of `ops`. -/
theorem outputs_mark (cfg : Settings) (sys : System UInt8) {R : Nat → UInt8 → UInt8 → Prop}
    {S : Marked → UInt8 → Prop} (hnone : ∀ b, S ⟨b, none⟩ b)
    (hR : ∀ i b c, R i b c → S ⟨b, some i⟩ c) {ops ops' : List (Op UInt8)}
    (ho : Forall₂ (Op.Rel R) ops ops') : Forall₂ (System.OutRel S)
      (sys.unmarked.outputs cfg (ops.map Op.mark)) (sys.outputs cfg ops') := by
  have hmark : Forall₂ (Op.Rel fun _ t c => S t c) (ops.map Op.mark) ops' := by
    refine forall₂_map_left_iff.mpr (ho.imp fun op op' h => ?_)
    have hop := h.map (T := fun _ t c => S t c) (g := fun i b => ⟨b, some i⟩)
      (k := fun _ c => c) hR
    rwa [Op.map_id] at hop
  exact System.Rel.outputs (hnone 0) (fun _ _ _ h => h) hmark (rel_unmarked hnone sys)

theorem eq_of_rel {bytes : List Marked} {b c : List UInt8}
    (hb : Forall₂ (fun t x => t.byte = x) bytes b)
    (hc : Forall₂ (fun t x => Own f t → t.byte = x) bytes c) (hown : ∀ t ∈ bytes, Own f t) :
    c = b := by
  induction hb generalizing c with
  | nil =>
    cases hc
    rfl
  | cons hhead _ ih =>
    cases hc with
    | cons hhead' htail =>
      rw [← hhead, ← hhead' (hown _ List.mem_cons_self),
        ih htail fun t ht => hown t (List.mem_cons_of_mem _ ht)]

theorem readsOf_cons (f : Nat) (o : Nat × ReadResult β) (l : List (Nat × ReadResult β)) :
    readsOf f (o :: l) = if o.1 = f then o :: readsOf f l else readsOf f l := by
  by_cases h : o.1 = f <;> simp [readsOf, h]

theorem readsOf_eq {marked : List (Nat × ReadResult Marked)} {l l' : List (Nat × ReadResult UInt8)}
    (h : Forall₂ (System.OutRel fun t x => t.byte = x) marked l)
    (h' : Forall₂ (System.OutRel fun t x => Own f t → t.byte = x) marked l')
    (hown : OutputsOwn f marked) : readsOf f l' = readsOf f l := by
  induction h generalizing l' with
  | nil =>
    cases h'
    rfl
  | @cons t o _ _ ho _ ih =>
    cases h' with
    | @cons _ o' _ _ ho' htail =>
      have hrest := ih htail fun bytes hmem => hown bytes (List.mem_cons_of_mem _ hmem)
      obtain ⟨i, r⟩ := t
      obtain ⟨j, q⟩ := o
      obtain ⟨j', q'⟩ := o'
      obtain ⟨hj, hr⟩ := ho
      obtain ⟨hj', hr'⟩ := ho'
      obtain rfl : j = i := hj
      obtain rfl : j' = j := hj'
      rw [readsOf_cons, readsOf_cons, hrest]
      dsimp only
      split_ifs with hf
      · subst hf
        cases hr with
        | enomem =>
          cases hr'
          rfl
        | bytes hb =>
          cases hr' with
          | bytes hb' => rw [eq_of_rel hb hb' (hown _ List.mem_cons_self)]
      · rfl

/-- Bytes that come from other files are changed. -/
def bump (f : Nat) (t : Marked) : UInt8 := if Own f t then t.byte else t.byte + 1

theorem add_one_ne (b : UInt8) : b + 1 ≠ b := by
  intro h
  have hnat := congrArg UInt8.toNat h
  have hlt := b.toNat_lt
  rw [UInt8.toNat_add] at hnat
  simp only [UInt8.reduceToNat] at hnat
  omega

theorem own_of_rel {bytes : List Marked} {b : List UInt8}
    (hb : Forall₂ (fun t x => t.byte = x) bytes b) (hc : Forall₂ (fun t x => bump f t = x) bytes b) :
    ∀ t ∈ bytes, Own f t := by
  induction hb with
  | nil => simp
  | cons hhead _ ih =>
    cases hc with
    | cons hhead' htail =>
      intro t ht
      rcases List.mem_cons.mp ht with rfl | ht
      · by_contra hown
        unfold bump at hhead'
        rw [if_neg hown, ← hhead] at hhead'
        exact add_one_ne _ hhead'
      · exact ih htail t ht

theorem outputsOwn_of_eq {marked : List (Nat × ReadResult Marked)}
    {l l' : List (Nat × ReadResult UInt8)}
    (h : Forall₂ (System.OutRel fun t x => t.byte = x) marked l)
    (h' : Forall₂ (System.OutRel fun t x => bump f t = x) marked l')
    (heq : readsOf f l' = readsOf f l) : OutputsOwn f marked := by
  induction h generalizing l' with
  | nil =>
    intro bytes hmem
    cases hmem
  | @cons t o _ _ ho _ ih =>
    cases h' with
    | @cons _ o' _ _ ho' htail =>
      obtain ⟨i, r⟩ := t
      obtain ⟨j, q⟩ := o
      obtain ⟨j', q'⟩ := o'
      obtain ⟨hj, hr⟩ := ho
      obtain ⟨hj', hr'⟩ := ho'
      obtain rfl : j = i := hj
      obtain rfl : j' = j := hj'
      rw [readsOf_cons, readsOf_cons] at heq
      dsimp only at heq
      intro bytes hmem
      by_cases hf : j' = f
      · subst hf
        rw [if_pos rfl, if_pos rfl] at heq
        obtain ⟨hhead, hrest⟩ := List.cons.inj heq
        rcases List.mem_cons.mp hmem with hmem | hmem
        · obtain ⟨_, rfl⟩ := Prod.mk.inj hmem
          cases hr with
          | bytes hb =>
            cases hr' with
            | bytes hb' =>
              obtain rfl := ReadResult.bytes.inj (Prod.mk.inj hhead).2
              exact own_of_rel hb hb'
        · exact ih htail hrest bytes hmem
      · rw [if_neg hf, if_neg hf] at heq
        rcases List.mem_cons.mp hmem with hmem | hmem
        · exact absurd (Prod.mk.inj hmem).1.symm hf
        · exact ih htail heq bytes hmem

/-- Reads of `f` are independent of the bytes of other files exactly in the runs
in which they hand out no byte that another file stored. -/
theorem noLeak_iff_outputsOwn (cfg : Settings) (sys : System UInt8) (f : Nat)
    (ops : List (Op UInt8)) :
    NoLeak cfg sys f ops ↔ OutputsOwn f (sys.unmarked.outputs cfg (ops.map Op.mark)) := by
  have hsame : Forall₂ (Op.Rel fun _ b c => b = c) ops ops :=
    forall₂_same.mpr fun op _ => Op.Rel.refl op
  have hself := outputs_mark cfg sys (S := fun t x => t.byte = x) (fun _ => rfl)
    (fun _ _ _ h => h) hsame
  constructor
  · intro h
    -- the other files write every byte plus one
    have hbump : ∀ T : Nat → UInt8 → UInt8 → Prop, (∀ i b, T i b (if i = f then b else b + 1)) →
        Forall₂ (Op.Rel T) ops (ops.map (Op.map fun i b => if i = f then b else b + 1)) := by
      intro T hT
      refine forall₂_map_right_iff.mpr (forall₂_same.mpr fun op _ => ?_)
      have hop := (Op.Rel.refl op).map (T := T) (g := fun _ b => b)
        (k := fun i b => if i = f then b else b + 1) fun i b c hb => hb ▸ hT i b
      rwa [Op.map_id] at hop
    have hmarked := outputs_mark cfg sys (S := fun t x => bump f t = x) (fun _ => rfl)
      (R := fun i b c => c = if i = f then b else b + 1) (fun i b c h => by simp [bump, Own, h])
      (hbump _ fun _ _ => rfl)
    exact outputsOwn_of_eq hself hmarked (h _ (hbump _ fun i b hi => by simp [hi]))
  · intro hown ops' hops
    have hmarked := outputs_mark cfg sys (S := fun t x => Own f t → t.byte = x)
      (fun _ _ => rfl) (fun i b c h hi => h (by simpa [Own] using hi)) hops
    exact readsOf_eq hself hmarked hown

theorem Op.valid_map {op : Op β} (h : op.Valid) (g : Nat → β → γ) : (op.map g).Valid := by
  cases op <;> exact h

end Compare

/-- In every run in which the slots of `f` are its own before each read of `f`, nothing
leaks: a slot that another file wrote is not handed to `f` with what it held, and a slot of
`f` is not handed to another file that writes it. -/
theorem noLeak_of_ownSlots {cfg : Settings} {sys : System UInt8} {f : Nat} {ops : List (Op UInt8)}
    (hinit : sys.Init cfg) (hv : ∀ op ∈ ops, op.Valid)
    (hown : RunOwnSlots cfg f sys.unmarked (ops.map Op.mark)) : NoLeak cfg sys f ops := by
  have hplaced : sys.unmarked.Placed := by
    intro g hg
    have hfiles : sys.unmarked.files = [] := hinit.1
    rw [hfiles] at hg
    cases hg
  refine (noLeak_iff_outputsOwn cfg sys f ops).mpr (outputsOwn_of_run hplaced ?_ hown)
  intro op hop
  obtain ⟨op', hop', rfl⟩ := List.mem_map.mp hop
  exact Op.valid_map (hv op' hop') _

/-- Two files that are written one after the other have a slot each. -/
theorem noLeak_twoFiles : NoLeak .default emptySystem 1
    [.create 0, .putData 0 0 [7], .create 1, .putData 1 10 [1], .getData 1 0 11] :=
  noLeak_of_ownSlots emptySystem_init (by simp [Op.Valid]) (by decide +kernel)

def Settings.oneSlot : Settings := ⟨⟨2 ^ 39, by decide, by decide⟩, 100, fun _ => 0, 2 ^ 47 - 4096⟩

def oneSlotSystem : System UInt8 := ⟨⟨oneSlotPool 0, fun _ => 0, fun _ => false⟩, []⟩

/-- A file is written and destroyed, then another one is written behind its start and read. -/
def reuseSlot (b : UInt8) : List (Op UInt8) :=
  [.create 0, .putData 0 0 [b], .destroy 0, .create 1, .putData 1 10 [1], .getData 1 0 11]

theorem slot_reuse_leaks :
    readsOf 1 (oneSlotSystem.outputs .oneSlot (reuseSlot 7)) =
      [(1, .bytes [7, 0, 0, 0, 0, 0, 0, 0, 0, 0, 1])] ∧
    readsOf 1 (oneSlotSystem.outputs .oneSlot (reuseSlot 9)) =
      [(1, .bytes [9, 0, 0, 0, 0, 0, 0, 0, 0, 0, 1])] ∧
    ¬ NoLeak .oneSlot oneSlotSystem 1 (reuseSlot 7) := by
  have hseven : readsOf 1 (oneSlotSystem.outputs .oneSlot (reuseSlot 7)) =
      [(1, .bytes [7, 0, 0, 0, 0, 0, 0, 0, 0, 0, 1])] := by decide +kernel
  have hnine : readsOf 1 (oneSlotSystem.outputs .oneSlot (reuseSlot 9)) =
      [(1, .bytes [9, 0, 0, 0, 0, 0, 0, 0, 0, 0, 1])] := by decide +kernel
  refine ⟨hseven, hnine, fun h => ?_⟩
  have hsame : SameBut 1 (reuseSlot 7) (reuseSlot 9) :=
    .cons (.create 0) (.cons (.putData 0 0 (.cons (fun h => by cases h) .nil)) (.cons (.destroy 0)
      (.cons (.create 1) (.cons (.putData 1 10 (.cons (fun _ => rfl) .nil))
        (.cons (.getData 1 0 11) .nil)))))
  have heq := h _ hsame
  rw [hseven, hnine] at heq
  revert heq
  decide

end EchoFs.DevDax
