import Mathlib.Data.List.Forall2
import EchoFs.DevDax.Files

/-! Two runs of the same calls on different bytes. Bytes reach nothing but the
memory of the device, so runs on related bytes go through related states and hand
out related bytes. -/

namespace EchoFs.DevDax
open Checked Nvml List

variable {β γ : Type} {S : β → γ → Prop}

namespace Device

/-- The same allocator and the same mapped pages, with related bytes. -/
structure Rel (S : β → γ → Prop) (d : Device β) (e : Device γ) : Prop where
  pool : e.mBpool = d.mBpool
  unmapped : e.unmapped = d.unmapped
  memory : ∀ x, S (d.memory x) (e.memory x)

variable {d : Device β} {e : Device γ}

theorem getElem?_rel {b : β} {c : γ} {bs : List β} {cs : List γ} (hbc : S b c)
    (h : Forall₂ S bs cs) : ∀ n : Nat, S (bs[n]?.getD b) (cs[n]?.getD c) := by
  induction h with
  | nil => exact fun _ => hbc
  | cons hhead _ ih =>
    intro n
    cases n with
    | zero => exact hhead
    | succ n => simpa using ih n

theorem Rel.accessible_iff (h : d.Rel S e) (a : Int) (n : Nat) :
    e.Accessible a n ↔ d.Accessible a n := by
  unfold Accessible
  rw [h.pool, h.unmapped]

theorem Rel.setPool (h : d.Rel S e) (p : BigPool) :
    Rel S { d with mBpool := p } { e with mBpool := p } := ⟨rfl, h.unmapped, h.memory⟩

theorem Rel.store (h : d.Rel S e) {bs : List β} {cs : List γ} (hb : Forall₂ S bs cs)
    (addr : Option Int) : Related (Rel S) (d.store addr bs) (e.store addr cs) := by
  cases hb with
  | nil => exact .ok h
  | @cons b c bs cs hhead htail =>
    cases addr with
    | none => exact .error _
    | some a =>
      have hlen : (b :: bs).length = (c :: cs).length := congrArg (· + 1) htail.length_eq
      unfold Device.store
      dsimp only
      by_cases hacc : d.Accessible a (b :: bs).length
      · rw [if_pos hacc, if_pos ((h.accessible_iff a _).mpr (hlen ▸ hacc))]
        refine .ok ⟨h.pool, h.unmapped, fun x => ?_⟩
        simp only [Memory.overwrite]
        split_ifs
        · exact getElem?_rel (h.memory x) (.cons hhead htail) _
        · exact h.memory x
      · rw [if_neg hacc, if_neg fun hacc' => hacc (hlen ▸ (h.accessible_iff a _).mp hacc')]
        exact .error _

theorem Rel.pmemUnmap (h : d.Rel S e) (taskSize : Nat) (addr : Option Nat) (n : Nat) :
    Rel S (d.pmemUnmap taskSize addr n) (e.pmemUnmap taskSize addr n) := by
  unfold Device.pmemUnmap
  dsimp only
  split_ifs
  · exact ⟨h.pool, by simp only [h.unmapped], h.memory⟩
  · exact h

theorem Rel.copyIn {regions : List Region} : ∀ {d : Device β} {e : Device γ} {bs : List β}
    {cs : List γ}, d.Rel S e → Forall₂ S bs cs →
    Related (Rel S) (d.copyIn regions bs) (e.copyIn regions cs) := by
  induction regions with
  | nil => exact fun h _ => .ok h
  | cons r regions ih =>
    intro d e bs cs h hb
    unfold Device.copyIn
    refine (h.store (forall₂_take _ hb) r.addr).bind fun d' e' h' => ?_
    exact ih h' (forall₂_drop _ hb)

variable [Zero β] [Zero γ]

theorem Rel.load (h : d.Rel S e) (hz : S 0 0) (r : Region) :
    Related (Forall₂ S) (d.load r) (e.load r) := by
  unfold Device.load
  cases r.addr with
  | none =>
    refine .ok ?_
    generalize toSize r.size = n
    induction n with
    | zero => exact .nil
    | succ n ih => exact .cons hz ih
  | some a =>
    dsimp only
    by_cases hacc : d.Accessible a (toSize r.size)
    · rw [if_pos hacc, if_pos ((h.accessible_iff a _).mpr hacc)]
      refine .ok ?_
      unfold Memory.window
      rw [forall₂_map_left_iff, forall₂_map_right_iff]
      exact forall₂_same.mpr fun k _ => h.memory _
    · rw [if_neg hacc, if_neg fun hacc' => hacc ((h.accessible_iff a _).mp hacc')]
      exact .error _

theorem Rel.copyOut (h : d.Rel S e) (hz : S 0 0) {regions : List Region} : ∀ {room : Nat},
    Related (Forall₂ S) (d.copyOut regions room) (e.copyOut regions room) := by
  induction regions with
  | nil => exact .ok .nil
  | cons r regions ih =>
    intro room
    unfold Device.copyOut
    split_ifs
    · exact .error _
    · refine (h.load hz r).bind fun bs cs hb => ih.bind fun bs' cs' hb' => .ok ?_
      exact rel_append hb hb'

end Device

inductive ReadResult.Rel (S : β → γ → Prop) : ReadResult β → ReadResult γ → Prop
  | bytes {b : List β} {c : List γ} : Forall₂ S b c → Rel S (.bytes b) (.bytes c)
  | enomem : Rel S .enomem .enomem

/-- The same call, on bytes that are related as the file they go to says. -/
inductive Op.Rel (R : Nat → β → γ → Prop) : Op β → Op γ → Prop
  | create (i : Nat) : Rel R (.create i) (.create i)
  | preload (i : Nat) {b : List β} {c : List γ} :
      Forall₂ (R i) b c → Rel R (.preload i b) (.preload i c)
  | putData (i : Nat) (start : Int) {b : List β} {c : List γ} :
      Forall₂ (R i) b c → Rel R (.putData i start b) (.putData i start c)
  | allocate (i : Nat) (start size : Int) : Rel R (.allocate i start size) (.allocate i start size)
  | truncate (i : Nat) (endOffset : Int) : Rel R (.truncate i endOffset) (.truncate i endOffset)
  | getData (i : Nat) (start size : Int) : Rel R (.getData i start size) (.getData i start size)
  | destroy (i : Nat) : Rel R (.destroy i) (.destroy i)

namespace File
variable {d : Device β} {e : Device γ} {cfg : Settings}

def Rel (S : β → γ → Prop) (p : Device β × File) (q : Device γ × File) : Prop :=
  p.1.Rel S q.1 ∧ q.2 = p.2

theorem putData_rel (h : d.Rel S e) {bs : List β} {cs : List γ} (hb : Forall₂ S bs cs) (f : File)
    (start : Int) : Related (Rel S) (f.putData cfg d start bs) (f.putData cfg e start cs) := by
  unfold putData
  rw [h.pool, ← hb.length_eq]
  apply related_bind_same
  rintro ⟨p, g, regions⟩ _
  exact ((h.setPool p).copyIn hb).bind fun d' e' h' => .ok ⟨h', rfl⟩

theorem shrinkLoop_rel {endOffset : Int} {leaves : List Leaf} : ∀ {size : Int} {cut : Bool}
    {d : Device β} {e : Device γ} {f : File}, d.Rel S e →
    Related (Rel S) (f.shrinkLoop cfg endOffset leaves size cut d)
      (f.shrinkLoop cfg endOffset leaves size cut e) := by
  induction leaves with
  | nil => exact fun h => .ok ⟨h, rfl⟩
  | cons leaf rest ih =>
    intro size cut d e f h
    unfold shrinkLoop
    cases leaf.val with
    | none => exact ih h
    | some id =>
      refine related_bind_same _ fun s _ => ?_
      dsimp only
      generalize (size + if s.mBytes ≠ 0 then s.mBytes else s.mSize) = total
      split_ifs
      · exact ih h
      · exact ih (h.pmemUnmap _ _ _)
      · exact ih h

theorem truncate_rel (h : d.Rel S e) (f : File) (endOffset : Int) :
    Related (Rel S) (f.truncate cfg d endOffset) (f.truncate cfg e endOffset) := by
  unfold truncate
  rw [h.pool]
  split_ifs
  · apply related_bind_same
    rintro ⟨p, g⟩ _
    exact .ok ⟨h.setPool p, rfl⟩
  · apply (shrinkLoop_rel h).bind
    rintro ⟨d', g⟩ ⟨e', g'⟩ ⟨h', rfl⟩
    exact .ok ⟨h', rfl⟩

variable [Zero β] [Zero γ]

theorem getData_rel (h : d.Rel S e) (hz : S 0 0) (f : File) (start size : Int) :
    Related (ReadResult.Rel S) (f.getData cfg d start size) (f.getData cfg e start size) := by
  unfold getData
  rw [h.pool]
  refine related_bind_same _ fun _ _ => related_bind_same _ fun regions _ => ?_
  dsimp only
  split_ifs
  · exact .ok (.bytes .nil)
  · exact .ok .enomem
  · exact (h.copyOut hz).bind fun b c hb => .ok (.bytes hb)

theorem preload_rel (h : d.Rel S e) (hz : S 0 0) {bs : List β} {cs : List γ}
    (hb : Forall₂ S bs cs) : Related (Rel S) (preload d bs) (preload e cs) := by
  have hzeros : ∀ n, Forall₂ S (List.replicate n 0) (List.replicate n 0) := by
    intro n
    induction n with
    | zero => exact .nil
    | succ n ih => exact .cons hz ih
  unfold preload
  rw [h.pool, ← hb.length_eq]
  apply related_bind_same
  rintro ⟨p, s⟩ _
  dsimp only
  apply related_bind_same
  intro g _
  refine ((h.setPool p).store hb _).bind fun d₁ e₁ h₁ => ?_
  exact (h₁.store (hzeros _) _).bind fun d₂ e₂ h₂ => .ok ⟨h₂, rfl⟩

end File

namespace System
variable [Zero β] [Zero γ] {cfg : Settings}

structure Rel (S : β → γ → Prop) (sys : System β) (sys' : System γ) : Prop where
  device : sys.device.Rel S sys'.device
  files : sys'.files = sys.files

def OutRel (S : β → γ → Prop) (o : Nat × ReadResult β) (o' : Nat × ReadResult γ) : Prop :=
  o'.1 = o.1 ∧ o.2.Rel S o'.2

omit [Zero β] [Zero γ] in
theorem Rel.file {sys : System β} {sys' : System γ} (h : sys.Rel S sys') (i : Nat) :
    sys'.file i = sys.file i := by
  unfold System.file
  rw [h.files]

variable {R : Nat → β → γ → Prop}

/-- Calls on related bytes keep related states. -/
theorem Rel.exec (cfg : Settings) {sys : System β} {sys' : System γ} (h : sys.Rel S sys')
    (hz : S 0 0) (hR : ∀ i b c, R i b c → S b c) {op : Op β} {op' : Op γ} (ho : op.Rel R op') :
    Related (fun p q => p.1.Rel S q.1 ∧ Option.Rel (OutRel S) p.2 q.2) (sys.exec cfg op)
      (sys'.exec cfg op') := by
  cases ho with
  | create i =>
    simp only [System.exec]
    rw [h.files]
    exact related_bind_same _ fun _ _ => .ok ⟨⟨h.device, rfl⟩, .none⟩
  | @preload i b c hb =>
    simp only [System.exec]
    rw [h.files]
    refine related_bind_same _ fun _ _ => ?_
    apply (File.preload_rel h.device hz (hb.imp (hR i))).bind
    rintro ⟨d, g⟩ ⟨e, g'⟩ ⟨h', rfl⟩
    exact .ok ⟨⟨h', rfl⟩, .none⟩
  | @putData i start b c hb =>
    simp only [System.exec]
    rw [h.file, h.files]
    refine related_bind_same _ fun f _ => ?_
    apply (File.putData_rel h.device (hb.imp (hR i)) f start).bind
    rintro ⟨d, g⟩ ⟨e, g'⟩ ⟨h', rfl⟩
    exact .ok ⟨⟨h', rfl⟩, .none⟩
  | allocate i start size =>
    simp only [System.exec]
    rw [h.file, h.files, h.device.pool]
    refine related_bind_same _ fun f _ => related_bind_same _ ?_
    rintro ⟨p, g⟩ _
    exact .ok ⟨⟨h.device.setPool p, rfl⟩, .none⟩
  | truncate i endOffset =>
    simp only [System.exec]
    rw [h.file, h.files]
    refine related_bind_same _ fun f _ => ?_
    apply (File.truncate_rel h.device f endOffset).bind
    rintro ⟨d, g⟩ ⟨e, g'⟩ ⟨h', rfl⟩
    exact .ok ⟨⟨h', rfl⟩, .none⟩
  | getData i start size =>
    simp only [System.exec]
    rw [h.file]
    refine related_bind_same _ fun f _ => ?_
    exact (File.getData_rel h.device hz f start size).bind fun r r' hr =>
      .ok ⟨h, .some ⟨rfl, hr⟩⟩
  | destroy i =>
    simp only [System.exec]
    rw [h.file, h.files, h.device.pool]
    refine related_bind_same _ fun f _ => related_bind_same _ fun p _ => ?_
    exact .ok ⟨⟨h.device.setPool p, rfl⟩, .none⟩

/-- What the reads of a run hand out, up to the first fault. -/
def outputs (cfg : Settings) : System β → List (Op β) → List (Nat × ReadResult β)
  | _, [] => []
  | sys, op :: ops =>
    match sys.exec cfg op with
    | .error _ => []
    | .ok (sys', out) => out.toList ++ outputs cfg sys' ops

theorem Rel.outputs (hz : S 0 0) (hR : ∀ i b c, R i b c → S b c) {ops : List (Op β)}
    {ops' : List (Op γ)} (ho : Forall₂ (Op.Rel R) ops ops') : ∀ {sys : System β} {sys' : System γ},
    sys.Rel S sys' → Forall₂ (OutRel S) (sys.outputs cfg ops) (sys'.outputs cfg ops') := by
  induction ho with
  | nil => exact fun _ => .nil
  | cons hop _ ih =>
    intro sys sys' h
    unfold System.outputs
    generalize hx : sys.exec cfg _ = x
    generalize hy : sys'.exec cfg _ = y
    have hexec := h.exec cfg hz hR hop
    rw [hx, hy] at hexec
    cases hexec with
    | error e => exact .nil
    | @ok p q hpq =>
      obtain ⟨s, out⟩ := p
      obtain ⟨s', out'⟩ := q
      obtain ⟨hsys, hout⟩ := hpq
      dsimp only at hsys hout ⊢
      refine rel_append ?_ (ih hsys)
      cases hout with
      | none => exact .nil
      | some ho => exact .cons ho .nil

end System
end EchoFs.DevDax
