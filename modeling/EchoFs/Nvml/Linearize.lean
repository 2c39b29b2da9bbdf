import Mathlib.Data.List.Nodup
import Mathlib.Data.Finset.Insert
import Mathlib.Logic.Function.Basic
import EchoFs.Library.Transition

/-! Concurrent `put_data` and `get_data` on one `nvml::file`. The storage is a
flat byte array; every byte copied is a step, so are `update_size` and the
clipping of a read against `m_used_offset`, and the range lock is any lock with
mutual exclusion. -/

namespace EchoFs.Nvml.Linearize
open Transition

structure Flat where
  bytes : Nat → UInt8
  used : Nat
  stSize : Nat

namespace Flat

def writeByte (f : Flat) (x : Nat) (b : UInt8) : Flat :=
  { f with bytes := Function.update f.bytes x b }

def updateSize (f : Flat) (size : Nat) : Flat :=
  if f.stSize < size then { f with used := size, stSize := size } else f

/-- The end of the region that `lookup_data` yields. -/
def clip (f : Flat) (stop : Nat) : Nat := min stop f.used

def copyIn (f : Flat) (start : Nat) : List UInt8 → Flat
  | [] => f
  | b :: data => (f.writeByte start b).copyIn (start + 1) data

/-- The bytes of `[start, stop)`. -/
def slice (f : Flat) (start stop : Nat) : List UInt8 :=
  (List.range (stop - start)).map fun k => f.bytes (start + k)

end Flat

inductive Call where
  | put (start : Nat) (data : List UInt8) (nonempty : data ≠ [])
  | get (start size : Nat) (nonempty : 0 < size)

namespace Call

def start : Call → Nat
  | put start _ _ => start
  | get start _ _ => start

def stop : Call → Nat
  | put start data _ => start + data.length
  | get start size _ => start + size

def IsPut : Call → Prop
  | put _ _ _ => True
  | get _ _ _ => False

/-- The call executed alone: the file after it, and the bytes it returns. -/
def alone (f : Flat) : Call → Flat × Option (List UInt8)
  | put start data _ => ((f.copyIn start data).updateSize (start + data.length), none)
  | get start size _ => (f, some (f.slice start (f.clip (start + size))))

def Overlaps (c d : Call) : Prop := c.start < d.stop ∧ d.start < c.stop

end Call

/-- Where a call is. A writer has copied the bytes in `copied`; a reader of
`[start, stop)` has the bytes in `buffer`. -/
inductive Phase where
  | idle
  | invoked
  | copying (copied : Finset Nat)
  | updated
  | locked
  | reading (stop : Nat) (buffer : Nat → Option UInt8)
  | returned (out : Option (List UInt8))

def Phase.Holding : Phase → Prop
  | copying _ => True
  | updated => True
  | locked => True
  | reading _ _ => True
  | _ => False

variable {ι : Type*} [DecidableEq ι]

structure State (ι : Type*) where
  file : Flat
  phase : ι → Phase

def State.goto (s : State ι) (i : ι) (p : Phase) : State ι :=
  { s with phase := Function.update s.phase i p }

inductive Event (ι : Type*) where
  | invoke (i : ι)
  | step (i : ι)
  | ret (i : ι)

def Free (calls : ι → Call) (s : State ι) (i : ι) : Prop :=
  ∀ j, j ≠ i → (s.phase j).Holding → (calls i).Overlaps (calls j) →
    ¬(calls i).IsPut ∧ ¬(calls j).IsPut

inductive Step (calls : ι → Call) : State ι → Event ι → State ι → Prop
  | invoke {s : State ι} {i : ι} (h : s.phase i = .idle) :
      Step calls s (.invoke i) (s.goto i .invoked)
  | acquireWrite {s : State ι} {i : ι} {start : Nat} {data : List UInt8} {hd : data ≠ []}
      (hc : calls i = .put start data hd) (h : s.phase i = .invoked) (hf : Free calls s i) :
      Step calls s (.step i) (s.goto i (.copying ∅))
  | copyIn {s : State ι} {i : ι} {start k : Nat} {data : List UInt8} {hd : data ≠ []}
      {copied : Finset Nat} (hc : calls i = .put start data hd) (h : s.phase i = .copying copied)
      (hk : k < data.length) (hnew : k ∉ copied) :
      Step calls s (.step i)
        { s.goto i (.copying (insert k copied)) with file := s.file.writeByte (start + k) data[k] }
  | updateSize {s : State ι} {i : ι} {start : Nat} {data : List UInt8} {hd : data ≠ []}
      {copied : Finset Nat} (hc : calls i = .put start data hd) (h : s.phase i = .copying copied)
      (hall : ∀ k < data.length, k ∈ copied) :
      Step calls s (.step i)
        { s.goto i .updated with file := s.file.updateSize (start + data.length) }
  | releaseWrite {s : State ι} {i : ι} (h : s.phase i = .updated) :
      Step calls s (.ret i) (s.goto i (.returned none))
  | acquireRead {s : State ι} {i : ι} {start size : Nat} {hs : 0 < size}
      (hc : calls i = .get start size hs) (h : s.phase i = .invoked) (hf : Free calls s i) :
      Step calls s (.step i) (s.goto i .locked)
  | clip {s : State ι} {i : ι} {start size : Nat} {hs : 0 < size}
      (hc : calls i = .get start size hs) (h : s.phase i = .locked) :
      Step calls s (.step i) (s.goto i (.reading (s.file.clip (start + size)) fun _ => none))
  | copyOut {s : State ι} {i : ι} {start size stop k : Nat} {hs : 0 < size}
      {buffer : Nat → Option UInt8} (hc : calls i = .get start size hs)
      (h : s.phase i = .reading stop buffer) (hk : k < stop - start) (hnew : buffer k = none) :
      Step calls s (.step i)
        (s.goto i (.reading stop (Function.update buffer k (some (s.file.bytes (start + k))))))
  | releaseRead {s : State ι} {i : ι} {start size stop : Nat} {hs : 0 < size}
      {buffer : Nat → Option UInt8} (hc : calls i = .get start size hs)
      (h : s.phase i = .reading stop buffer) (hall : ∀ k < stop - start, buffer k ≠ none) :
      Step calls s (.ret i)
        (s.goto i (.returned (some ((List.range (stop - start)).map fun k => (buffer k).getD 0))))

/-- The calls of a list executed one at a time: the file and what each returned. -/
def serial (calls : ι → Call) (f : Flat) : List ι → Flat × (ι → Option (List UInt8)) :=
  List.foldl (fun r i => (((calls i).alone r.1).1, Function.update r.2 i ((calls i).alone r.1).2))
    (f, fun _ => none)

section Serial
variable {calls : ι → Call} {f : Flat}

theorem serial_snoc (lin : List ι) (i : ι) :
    serial calls f (lin ++ [i]) = (((calls i).alone (serial calls f lin).1).1,
      Function.update (serial calls f lin).2 i ((calls i).alone (serial calls f lin).1).2) := by
  simp only [serial, List.foldl_append, List.foldl_cons, List.foldl_nil]

theorem Flat.copyIn_sizes (f : Flat) (start : Nat) (data : List UInt8) :
    (f.copyIn start data).used = f.used ∧ (f.copyIn start data).stSize = f.stSize := by
  induction data generalizing f start with
  | nil => exact ⟨rfl, rfl⟩
  | cons b data ih => exact ih (f.writeByte start b) (start + 1)

theorem Flat.copyIn_bytes (f : Flat) (start : Nat) (data : List UInt8) (x : Nat) :
    (f.copyIn start data).bytes x =
      if start ≤ x then (data[x - start]?).getD (f.bytes x) else f.bytes x := by
  induction data generalizing f start with
  | nil => simp [Flat.copyIn]
  | cons b data ih =>
    rw [Flat.copyIn, ih]
    rcases lt_trichotomy x start with h | rfl | h
    · rw [if_neg (by omega), if_neg (by omega)]
      simp [Flat.writeByte, h.ne]
    · rw [if_neg (by omega), if_pos le_rfl]
      simp [Flat.writeByte]
    · obtain ⟨k, rfl⟩ : ∃ k, x = start + 1 + k := ⟨x - (start + 1), by omega⟩
      rw [if_pos (by omega), if_pos (by omega), show start + 1 + k - start = k + 1 by omega,
        Nat.add_sub_cancel_left, List.getElem?_cons_succ]
      simp [Flat.writeByte, h.ne']

theorem Flat.updateSize_bytes (f : Flat) (n : Nat) : (f.updateSize n).bytes = f.bytes := by
  unfold Flat.updateSize
  split_ifs <;> rfl

theorem Flat.updateSize_sizes {f g : Flat} (n : Nat) (hf : f.used = f.stSize)
    (hu : g.used = f.used) (hs : g.stSize = f.stSize) :
    (f.updateSize n).used = (f.updateSize n).stSize ∧
      (g.updateSize n).used = (f.updateSize n).used ∧
      (g.updateSize n).stSize = (f.updateSize n).stSize := by
  unfold Flat.updateSize
  rw [hs]
  split_ifs
  · exact ⟨rfl, rfl, rfl⟩
  · exact ⟨hf, hu, hs⟩

theorem Flat.slice_congr {f g : Flat} {start stop : Nat}
    (h : ∀ x, start ≤ x → x < stop → f.bytes x = g.bytes x) :
    f.slice start stop = g.slice start stop := by
  unfold Flat.slice
  refine List.map_congr_left fun k hk => ?_
  have hk := List.mem_range.mp hk
  exact h _ (by omega) (by omega)

end Serial

/-- The call has passed its linearization point: `update_size` for a write, the
clipping for a read. -/
def Phase.Done : Phase → Prop
  | updated => True
  | reading _ _ => True
  | returned _ => True
  | _ => False

def Phase.IsCopying : Phase → Prop
  | copying _ => True
  | _ => False

/-- What is known about call `c` in phase `p`, when the serial execution gave it `out`. -/
def CallOk (f : Flat) (out : Option (List UInt8)) (c : Call) : Phase → Prop
  | .idle => True
  | .invoked => True
  | .copying copied => ∃ start data hd, c = .put start data hd ∧
      ∀ k ∈ copied, ∀ h : k < data.length, f.bytes (start + k) = data[k]
  | .updated => c.IsPut ∧ out = none
  | .locked => ¬c.IsPut
  | .reading stop buffer => ∃ start size hs, c = .get start size hs ∧ stop ≤ start + size ∧
      out = some (f.slice start stop) ∧
      ∀ k < stop - start, ∀ v, buffer k = some v → v = f.bytes (start + k)
  | .returned res => out = res

/-- The invariant of a run with labels `l`: `lin` is a serial order of the calls
that have passed their linearization point. -/
structure Inv (calls : ι → Call) (f₀ : Flat) (lin : List ι) (l : List (Event ι))
    (s : State ι) : Prop where
  excl : ∀ i j, i ≠ j → (s.phase i).Holding → (s.phase j).Holding →
    (calls i).Overlaps (calls j) → ¬(calls i).IsPut ∧ ¬(calls j).IsPut
  nodup : lin.Nodup
  mem : ∀ i, i ∈ lin ↔ (s.phase i).Done
  sizes : s.file.used = s.file.stSize ∧ (serial calls f₀ lin).1.used = s.file.used ∧
    (serial calls f₀ lin).1.stSize = s.file.stSize
  bytes : ∀ x, (∀ i, (s.phase i).IsCopying → ¬((calls i).start ≤ x ∧ x < (calls i).stop)) →
    s.file.bytes x = (serial calls f₀ lin).1.bytes x
  call : ∀ i, CallOk s.file ((serial calls f₀ lin).2 i) (calls i) (s.phase i)
  invoked : ∀ i, s.phase i = .idle → .invoke i ∉ l
  returned : ∀ i, .ret i ∈ l → (s.phase i).Done
  realTime : ∀ i j, [Event.ret i, .invoke j].Sublist l → j ∈ lin → [i, j].Sublist lin

theorem CallOk.frame {f f' : Flat} {out out' : Option (List UInt8)} {c : Call} {p : Phase}
    (h : CallOk f out c p) (ho : out' = out)
    (hb : p.Holding → ∀ x, c.start ≤ x → x < c.stop → f'.bytes x = f.bytes x) :
    CallOk f' out' c p := by
  subst ho
  cases p with
  | idle => trivial
  | invoked => trivial
  | copying copied =>
    obtain ⟨start, data, hd, rfl, hk⟩ := h
    refine ⟨start, data, hd, rfl, fun k hkc hkl => ?_⟩
    rw [hb trivial (start + k) (Nat.le_add_right _ _) (Nat.add_lt_add_left hkl _)]
    exact hk k hkc hkl
  | updated => exact h
  | locked => exact h
  | reading stop buffer =>
    obtain ⟨start, size, hs, rfl, hstop, hout, hbuf⟩ := h
    have hsame : ∀ x, start ≤ x → x < stop → f'.bytes x = f.bytes x := fun x h₁ h₂ =>
      hb trivial x h₁ (h₂.trans_le hstop)
    refine ⟨start, size, hs, rfl, hstop, ?_, fun k hk v hv => ?_⟩
    · rw [hout, Flat.slice_congr hsame]
    · rw [hbuf k hk v hv, hsame (start + k) (by omega) (by omega)]
  | returned res => exact h

theorem pair_sublist_snoc {α : Type*} {x y z : α} {l : List α} (h : [x, y].Sublist (l ++ [z])) :
    [x, y].Sublist l ∨ y = z ∧ x ∈ l := by
  obtain ⟨l₁, l₂, he, h₁, h₂⟩ := List.sublist_append_iff.mp h
  rcases l₂ with _ | ⟨b, l₂⟩
  · left
    rw [List.append_nil] at he
    exact he ▸ h₁
  · have hb : b = z ∧ l₂ = [] := by simpa using h₂
    obtain ⟨rfl, rfl⟩ := hb
    right
    have hxy : [x] ++ [y] = l₁ ++ [b] := he
    obtain ⟨hx, hy⟩ := List.append_inj' hxy rfl
    refine ⟨by simpa using hy, List.singleton_sublist.mp (hx ▸ h₁)⟩

section Invariant
variable {calls : ι → Call} {f₀ : Flat} {lin : List ι} {l : List (Event ι)} {s : State ι} {i : ι}

/-- What a step of call `i` to phase `p` with label `e` does to the order: nothing,
or it puts the call at its end. -/
def Appends (s : State ι) (i : ι) (p : Phase) (lin lin' : List ι) : Prop :=
  lin' = lin ∧ (p.Done ↔ (s.phase i).Done) ∨ lin' = lin ++ [i] ∧ ¬(s.phase i).Done ∧ p.Done

def LabelOk (i : ι) (p : Phase) (e : Event ι) : Prop :=
  e = .invoke i ∧ ¬p.Done ∨ e = .step i ∨ e = .ret i ∧ p.Done

theorem Appends.mem (h : Inv calls f₀ lin l s) {p : Phase} {lin' : List ι}
    (ha : Appends s i p lin lin') : lin'.Nodup ∧
      ∀ j, j ∈ lin' ↔ (Function.update s.phase i p j).Done := by
  rcases ha with ⟨rfl, hp⟩ | ⟨rfl, hno, hp⟩
  · refine ⟨h.nodup, fun j => ?_⟩
    by_cases hj : j = i
    · subst hj
      rw [Function.update_self, h.mem j, hp]
    · rw [Function.update_of_ne hj, h.mem j]
  · have hnot : i ∉ lin := fun hm => hno ((h.mem i).mp hm)
    refine ⟨List.nodup_append.mpr ⟨h.nodup, List.nodup_singleton i, ?_⟩, fun j => ?_⟩
    · intro a ha b hb
      rw [List.mem_singleton.mp hb]
      rintro rfl
      exact hnot ha
    · rw [List.mem_append, List.mem_singleton]
      by_cases hj : j = i
      · subst hj
        rw [Function.update_self]
        exact ⟨fun _ => hp, fun _ => .inr rfl⟩
      · rw [Function.update_of_ne hj, h.mem j]
        exact ⟨fun hm => hm.resolve_right hj, .inl⟩

theorem Appends.realTime (h : Inv calls f₀ lin l s) {p : Phase} {lin' : List ι} {e : Event ι}
    (ha : Appends s i p lin lin') (he : LabelOk i p e) (a b : ι)
    (hab : [Event.ret a, .invoke b].Sublist (l ++ [e])) (hb : b ∈ lin') : [a, b].Sublist lin' := by
  have hmem := (ha.mem h).2 b
  rcases pair_sublist_snoc hab with hab | ⟨rfl, _⟩
  · rcases ha with ⟨rfl, _⟩ | ⟨rfl, _, _⟩
    · exact h.realTime a b hab hb
    · rcases List.mem_append.mp hb with hb | hb
      · exact (h.realTime a b hab hb).trans (List.sublist_append_left _ _)
      · have hret : Event.ret a ∈ l := hab.subset List.mem_cons_self
        have hal : a ∈ lin := (h.mem a).mpr (h.returned a hret)
        rw [List.mem_singleton.mp hb]
        exact (List.singleton_sublist.mpr hal).append (List.Sublist.refl [i])
  · -- a call that is only now invoked is not in the order
    rcases he with ⟨he, hp⟩ | he | ⟨he, _⟩
    · obtain rfl : b = i := by simpa using he
      rw [Function.update_self] at hmem
      exact absurd (hmem.mp hb) hp
    · simp at he
    · simp at he

/-- One step of call `i`, from what it does to the file and to the order. -/
theorem Inv.goto (h : Inv calls f₀ lin l s) {p : Phase} {f : Flat} {lin' : List ι} {e : Event ι}
    (ha : Appends s i p lin lin') (he : LabelOk i p e) (hidle : p ≠ .idle)
    (hfree : p.Holding → (s.phase i).Holding ∨ Free calls s i)
    (hframe : ∀ j, j ≠ i → (s.phase j).Holding → ∀ x, (calls j).start ≤ x → x < (calls j).stop →
      f.bytes x = s.file.bytes x)
    (hsizes : f.used = f.stSize ∧ (serial calls f₀ lin').1.used = f.used ∧
      (serial calls f₀ lin').1.stSize = f.stSize)
    (hbytes : ∀ x, (∀ j, j ≠ i → (s.phase j).IsCopying →
        ¬((calls j).start ≤ x ∧ x < (calls j).stop)) →
      (p.IsCopying → ¬((calls i).start ≤ x ∧ x < (calls i).stop)) →
      f.bytes x = (serial calls f₀ lin').1.bytes x)
    (hcall : CallOk f ((serial calls f₀ lin').2 i) (calls i) p) :
    Inv calls f₀ lin' (l ++ [e]) { s.goto i p with file := f } := by
  obtain ⟨hnd, hmem⟩ := ha.mem h
  have hself : (s.goto i p).phase i = p := Function.update_self ..
  have hother : ∀ j, j ≠ i → (s.goto i p).phase j = s.phase j := fun j hj =>
    Function.update_of_ne hj ..
  have hout : ∀ j, j ≠ i → (serial calls f₀ lin').2 j = (serial calls f₀ lin).2 j := by
    intro j hj
    rcases ha with ⟨rfl, _⟩ | ⟨rfl, _, _⟩
    · rfl
    · rw [serial_snoc]
      exact Function.update_of_ne hj ..
  -- mutual exclusion of call `i` with the others
  have hexcl : ∀ j, j ≠ i → p.Holding → (s.phase j).Holding → (calls i).Overlaps (calls j) →
      ¬(calls i).IsPut ∧ ¬(calls j).IsPut := by
    intro j hj hp hhold ho
    rcases hfree hp with hi | hf
    · exact h.excl i j hj.symm hi hhold ho
    · exact hf j hj hhold ho
  refine ⟨?_, hnd, hmem, hsizes, ?_, ?_, ?_, ?_, ha.realTime h he⟩
  · intro a b hab hpa hpb ho
    by_cases hai : a = i
    · subst hai
      rw [hself] at hpa
      rw [hother b hab.symm] at hpb
      exact hexcl b hab.symm hpa hpb ho
    · rw [hother a hai] at hpa
      by_cases hbi : b = i
      · subst hbi
        rw [hself] at hpb
        exact (hexcl a hai hpb hpa ho.symm).symm
      · rw [hother b hbi] at hpb
        exact h.excl a b hab hpa hpb ho
  · intro x hx
    refine hbytes x (fun j hj hc => hx j ?_) fun hc => hx i ?_
    · rw [hother j hj]
      exact hc
    · rw [hself]
      exact hc
  · intro j
    by_cases hj : j = i
    · subst hj
      rw [hself]
      exact hcall
    · rw [hother j hj]
      exact (h.call j).frame (hout j hj) (hframe j hj)
  · intro j hj hmem
    by_cases hji : j = i
    · subst hji
      rw [hself] at hj
      exact hidle hj
    · rw [hother j hji] at hj
      rcases List.mem_append.mp hmem with hm | hm
      · exact h.invoked j hj hm
      · rcases he with ⟨rfl, _⟩ | rfl | ⟨rfl, _⟩
        · exact hji (by simpa using hm)
        · simp at hm
        · simp at hm
  · intro j hm
    refine (hmem j).mp ?_
    rcases List.mem_append.mp hm with hm | hm
    · have hj : j ∈ lin := (h.mem j).mpr (h.returned j hm)
      rcases ha with ⟨rfl, _⟩ | ⟨rfl, _, _⟩
      · exact hj
      · exact List.mem_append_left _ hj
    · rcases he with ⟨rfl, _⟩ | rfl | ⟨rfl, hp⟩
      · simp at hm
      · simp at hm
      · obtain rfl : j = i := by simpa using hm
        refine (hmem j).mpr ?_
        rw [Function.update_self]
        exact hp

theorem Inv.goto_same (h : Inv calls f₀ lin l s) {p : Phase} {e : Event ι}
    (hd : p.Done ↔ (s.phase i).Done) (he : LabelOk i p e) (hidle : p ≠ .idle)
    (hfree : p.Holding → (s.phase i).Holding ∨ Free calls s i)
    (hcopy : (s.phase i).IsCopying → p.IsCopying)
    (hcall : CallOk s.file ((serial calls f₀ lin).2 i) (calls i) p) :
    Inv calls f₀ lin (l ++ [e]) (s.goto i p) := by
  refine h.goto (f := s.file) (.inl ⟨rfl, hd⟩) he hidle hfree (fun _ _ _ _ _ _ => rfl) h.sizes
    (fun x hx hi => h.bytes x fun j hj => ?_) hcall
  by_cases hji : j = i
  · subst hji
    exact hi (hcopy hj)
  · exact hx j hji hj

/-- The bytes of a call that holds its lock are not those of a writer. -/
theorem Inv.not_copying (h : Inv calls f₀ lin l s) (hi : (s.phase i).Holding)
    (hget : ¬(calls i).IsPut) {j : ι} (hj : (s.phase j).IsCopying) {x : Nat}
    (hx : (calls i).start ≤ x ∧ x < (calls i).stop) :
    ¬((calls j).start ≤ x ∧ x < (calls j).stop) := by
  intro hxj
  have hcall := h.call j
  cases hp : s.phase j with
  | copying copied =>
    rw [hp] at hcall
    obtain ⟨start, data, hd, hc, _⟩ := hcall
    have hput : (calls j).IsPut := by rw [hc]; trivial
    have hne : i ≠ j := fun he => hget (he ▸ hput)
    refine (h.excl i j hne hi (by rw [hp]; trivial) ⟨?_, ?_⟩).2 hput
    · omega
    · omega
  | _ => simp [hp, Phase.IsCopying] at hj

theorem Inv.ne_of_held (h : Inv calls f₀ lin l s) (hi : (s.phase i).Holding)
    (hput : (calls i).IsPut) {j : ι} (hji : j ≠ i) (hj : (s.phase j).Holding) {x y : Nat}
    (hx : (calls i).start ≤ x ∧ x < (calls i).stop)
    (hy : (calls j).start ≤ y ∧ y < (calls j).stop) : y ≠ x := by
  rintro rfl
  exact (h.excl i j hji.symm hi hj ⟨by omega, by omega⟩).1 hput

theorem Inv.copyIn (h : Inv calls f₀ lin l s) {start k : Nat} {data : List UInt8} {hd : data ≠ []}
    {copied : Finset Nat} (hc : calls i = .put start data hd) (hp : s.phase i = .copying copied)
    (hk : k < data.length) :
    Inv calls f₀ lin (l ++ [.step i])
      { s.goto i (.copying (insert k copied)) with
        file := s.file.writeByte (start + k) data[k] } := by
  have hhold : (s.phase i).Holding := by rw [hp]; trivial
  have hput : (calls i).IsPut := by rw [hc]; trivial
  have hin : (calls i).start ≤ start + k ∧ start + k < (calls i).stop := by
    rw [hc]
    exact ⟨Nat.le_add_right _ _, Nat.add_lt_add_left hk _⟩
  refine h.goto (.inl ⟨rfl, by rw [hp]; rfl⟩) (.inr (.inl rfl)) (by simp) (fun _ => .inl hhold)
    (fun j hj hhj x h₁ h₂ => ?_) h.sizes (fun x hx hi => ?_) ⟨start, data, hd, hc, ?_⟩
  · exact Function.update_of_ne (h.ne_of_held hhold hput hj hhj hin ⟨h₁, h₂⟩) ..
  · have hne : x ≠ start + k := by
      rintro rfl
      exact hi trivial hin
    have hb : (s.file.writeByte (start + k) data[k]).bytes x = s.file.bytes x :=
      Function.update_of_ne hne ..
    rw [hb]
    refine h.bytes x fun j hj => ?_
    by_cases hji : j = i
    · subst hji
      exact hi trivial
    · exact hx j hji hj
  · intro m hm hml
    have hcall := h.call i
    rw [hp] at hcall
    obtain ⟨start', data', hd', hc', hcopied⟩ := hcall
    rw [hc] at hc'
    obtain ⟨rfl, rfl⟩ : start = start' ∧ data = data' := by simpa using hc'
    by_cases hmk : m = k
    · subst hmk
      exact Function.update_self ..
    · have hm' : m ∈ copied := (Finset.mem_insert.mp hm).resolve_left hmk
      rw [← hcopied m hm' hml]
      exact Function.update_of_ne (by omega) ..

/-- The write takes effect: its bytes are in place, so the serial execution may
run it now. -/
theorem Inv.updateSize (h : Inv calls f₀ lin l s) {start : Nat} {data : List UInt8}
    {hd : data ≠ []} {copied : Finset Nat} (hc : calls i = .put start data hd)
    (hp : s.phase i = .copying copied) (hall : ∀ k < data.length, k ∈ copied) :
    Inv calls f₀ (lin ++ [i]) (l ++ [.step i])
      { s.goto i .updated with file := s.file.updateSize (start + data.length) } := by
  have hhold : (s.phase i).Holding := by rw [hp]; trivial
  have hserial : serial calls f₀ (lin ++ [i]) =
      (((serial calls f₀ lin).1.copyIn start data).updateSize (start + data.length),
        Function.update (serial calls f₀ lin).2 i none) := by
    rw [serial_snoc, hc]
    rfl
  have hcopied : ∀ k (hk : k < data.length), s.file.bytes (start + k) = data[k] := by
    have hcall := h.call i
    rw [hp] at hcall
    obtain ⟨start', data', hd', hc', hcopied⟩ := hcall
    rw [hc] at hc'
    obtain ⟨rfl, rfl⟩ : start = start' ∧ data = data' := by simpa using hc'
    exact fun k hk => hcopied k (hall k hk) hk
  refine h.goto (.inr ⟨rfl, by rw [hp]; simp [Phase.Done], trivial⟩) (.inr (.inl rfl)) (by simp)
    (fun _ => .inl hhold) (fun j _ _ x _ _ => by rw [Flat.updateSize_bytes]) ?_
    (fun x hx _ => ?_) ⟨by rw [hc]; trivial, by rw [hserial]; exact Function.update_self ..⟩
  · obtain ⟨hu, hs⟩ := (serial calls f₀ lin).1.copyIn_sizes start data
    rw [hserial]
    exact Flat.updateSize_sizes _ h.sizes.1 (hu.trans h.sizes.2.1) (hs.trans h.sizes.2.2)
  · rw [hserial, Flat.updateSize_bytes, Flat.updateSize_bytes, Flat.copyIn_bytes]
    by_cases hin : start ≤ x ∧ x < start + data.length
    · obtain ⟨k, rfl⟩ : ∃ k, x = start + k := ⟨x - start, by omega⟩
      have hk : k < data.length := by omega
      rw [if_pos hin.1, Nat.add_sub_cancel_left, List.getElem?_eq_getElem hk, hcopied k hk]
      rfl
    · have hold : s.file.bytes x = (serial calls f₀ lin).1.bytes x := by
        refine h.bytes x fun j hj => ?_
        by_cases hji : j = i
        · subst hji
          rw [hc]
          exact hin
        · exact hx j hji hj
      rw [hold]
      split_ifs with hs
      · rw [List.getElem?_eq_none (by omega)]
        rfl
      · rfl

/-- The read takes effect: what it will return is what is there now. -/
theorem Inv.clip (h : Inv calls f₀ lin l s) {start size : Nat} {hs : 0 < size}
    (hc : calls i = .get start size hs) (hp : s.phase i = .locked) :
    Inv calls f₀ (lin ++ [i]) (l ++ [.step i])
      (s.goto i (.reading (s.file.clip (start + size)) fun _ => none)) := by
  have hhold : (s.phase i).Holding := by rw [hp]; trivial
  have hget : ¬(calls i).IsPut := by rw [hc]; exact id
  have hserial : serial calls f₀ (lin ++ [i]) = ((serial calls f₀ lin).1,
      Function.update (serial calls f₀ lin).2 i (some ((serial calls f₀ lin).1.slice start
        ((serial calls f₀ lin).1.clip (start + size))))) := by
    rw [serial_snoc, hc]
    rfl
  have hclip : (serial calls f₀ lin).1.clip (start + size) = s.file.clip (start + size) := by
    unfold Flat.clip
    rw [h.sizes.2.1]
  have hle : s.file.clip (start + size) ≤ start + size := min_le_left _ _
  refine h.goto (f := s.file) (.inr ⟨rfl, by rw [hp]; simp [Phase.Done], trivial⟩) (.inr (.inl rfl))
    (by simp) (fun _ => .inl hhold) (fun _ _ _ _ _ _ => rfl) (by rw [hserial]; exact h.sizes)
    (fun x hx _ => ?_) ⟨start, size, hs, hc, hle, ?_, fun _ _ _ hv => by simp at hv⟩
  · rw [hserial]
    refine h.bytes x fun j hj => ?_
    by_cases hji : j = i
    · subst hji
      rw [hp] at hj
      exact hj.elim
    · exact hx j hji hj
  · rw [hserial]
    refine (Function.update_self ..).trans ?_
    rw [hclip]
    refine congrArg some (Flat.slice_congr fun x h₁ h₂ => ?_)
    refine (h.bytes x fun j hj => h.not_copying hhold hget hj ?_).symm
    rw [hc]
    exact ⟨h₁, h₂.trans_le hle⟩

theorem Inv.copyOut (h : Inv calls f₀ lin l s) {start size stop k : Nat} {hs : 0 < size}
    {buffer : Nat → Option UInt8} (hc : calls i = .get start size hs)
    (hp : s.phase i = .reading stop buffer) :
    Inv calls f₀ lin (l ++ [.step i])
      (s.goto i (.reading stop (Function.update buffer k (some (s.file.bytes (start + k)))))) := by
  have hcall := h.call i
  rw [hp] at hcall
  obtain ⟨start', size', hs', hc', hstop, hout, hbuf⟩ := hcall
  obtain ⟨rfl, rfl⟩ : start = start' ∧ size = size' := by
    rw [hc] at hc'
    simpa using hc'
  refine h.goto_same (by rw [hp]; rfl) (.inr (.inl rfl)) (by simp)
    (fun _ => .inl (by rw [hp]; trivial)) (fun hcopy => by rw [hp] at hcopy; exact hcopy)
    ⟨start, size, hs, hc, hstop, hout, fun m hm v hv => ?_⟩
  by_cases hmk : m = k
  · subst hmk
    rw [Function.update_self] at hv
    exact (Option.some.inj hv).symm
  · rw [Function.update_of_ne hmk] at hv
    exact hbuf m hm v hv

theorem Inv.releaseRead (h : Inv calls f₀ lin l s) {start size stop : Nat} {hs : 0 < size}
    {buffer : Nat → Option UInt8} (hc : calls i = .get start size hs)
    (hp : s.phase i = .reading stop buffer) (hall : ∀ k < stop - start, buffer k ≠ none) :
    Inv calls f₀ lin (l ++ [.ret i]) (s.goto i (.returned
      (some ((List.range (stop - start)).map fun k => (buffer k).getD 0)))) := by
  have hcall := h.call i
  rw [hp] at hcall
  obtain ⟨start', size', hs', hc', hstop, hout, hbuf⟩ := hcall
  obtain ⟨rfl, rfl⟩ : start = start' ∧ size = size' := by
    rw [hc] at hc'
    simpa using hc'
  refine h.goto_same (by rw [hp]; rfl) (.inr (.inr ⟨rfl, trivial⟩)) (by simp)
    (fun hold => hold.elim) (fun hcopy => by rw [hp] at hcopy; exact hcopy) ?_
  refine hout.trans (congrArg some (List.map_congr_left fun k hk => ?_))
  have hk := List.mem_range.mp hk
  obtain ⟨v, hv⟩ := Option.ne_none_iff_exists'.mp (hall k hk)
  rw [hv, ← hbuf k hk v hv]
  rfl

theorem Inv.step (h : Inv calls f₀ lin l s) {e : Event ι} {s' : State ι}
    (hstep : Step calls s e s') : ∃ lin', Inv calls f₀ lin' (l ++ [e]) s' := by
  cases hstep with
  | invoke hp =>
    exact ⟨lin, h.goto_same (by rw [hp]; rfl) (.inl ⟨rfl, id⟩) (by simp) (fun hh => hh.elim)
      (fun hcopy => by rw [hp] at hcopy; exact hcopy) trivial⟩
  | acquireWrite hc hp hf =>
    exact ⟨lin, h.goto_same (by rw [hp]; rfl) (.inr (.inl rfl)) (by simp) (fun _ => .inr hf)
      (fun _ => trivial) ⟨_, _, _, hc, fun k hk => by simp at hk⟩⟩
  | copyIn hc hp hk _ => exact ⟨lin, h.copyIn hc hp hk⟩
  | updateSize hc hp hall => exact ⟨_, h.updateSize hc hp hall⟩
  | @releaseWrite i hp =>
    have hcall := h.call i
    rw [hp] at hcall
    exact ⟨lin, h.goto_same (by rw [hp]; rfl) (.inr (.inr ⟨rfl, trivial⟩)) (by simp)
      (fun hh => hh.elim) (fun hcopy => by rw [hp] at hcopy; exact hcopy) hcall.2⟩
  | acquireRead hc hp hf =>
    exact ⟨lin, h.goto_same (by rw [hp]; rfl) (.inr (.inl rfl)) (by simp) (fun _ => .inr hf)
      (fun hcopy => by rw [hp] at hcopy; exact hcopy.elim) (by rw [hc]; exact id)⟩
  | clip hc hp => exact ⟨_, h.clip hc hp⟩
  | copyOut hc hp _ _ => exact ⟨lin, h.copyOut hc hp⟩
  | releaseRead hc hp hall => exact ⟨lin, h.releaseRead hc hp hall⟩

theorem exists_inv {s₀ : State ι} (hsize : s₀.file.used = s₀.file.stSize)
    (hidle : ∀ i, s₀.phase i = .idle) (hrun : Run (Step calls) s₀ l s) :
    ∃ lin, Inv calls s₀.file lin l s := by
  refine hrun.invariant (I := fun l s => ∃ lin, Inv calls s₀.file lin l s) ⟨[], ?_⟩
    fun l s' e s'' ⟨lin, h⟩ hstep => h.step hstep
  have hno : ∀ i, ¬(s₀.phase i).Holding := fun i hi => by
    rw [hidle i] at hi
    exact hi
  refine ⟨fun i j _ hi => absurd hi (hno i), List.nodup_nil, fun i => ?_, ⟨hsize, rfl, rfl⟩,
    fun _ _ => rfl, fun i => ?_, fun _ _ => List.not_mem_nil, fun _ hm => absurd hm List.not_mem_nil,
    fun _ _ _ hm => absurd hm List.not_mem_nil⟩
  · rw [hidle i]
    exact ⟨fun hm => absurd hm List.not_mem_nil, fun hd => hd.elim⟩
  · rw [hidle i]
    trivial

/-- Whatever the interleaving of the calls of a run, once all of them have
returned there is a serial order of them that respects real time, in which every
read returns the same bytes and the file ends up the same. -/
theorem putGet_linearizable {s₀ : State ι} (hsize : s₀.file.used = s₀.file.stSize)
    (hidle : ∀ i, s₀.phase i = .idle) (hrun : Run (Step calls) s₀ l s)
    (hall : ∀ i, s.phase i = .idle ∨ ∃ out, s.phase i = .returned out) :
    ∃ order : List ι, order.Nodup ∧ (∀ i, i ∈ order ↔ ∃ out, s.phase i = .returned out) ∧
      (∀ i j, [Event.ret i, .invoke j].Sublist l → [i, j].Sublist order) ∧
      (∀ i out, s.phase i = .returned out → (serial calls s₀.file order).2 i = out) ∧
      (serial calls s₀.file order).1.bytes = s.file.bytes ∧
      (serial calls s₀.file order).1.used = s.file.used ∧
      (serial calls s₀.file order).1.stSize = s.file.stSize := by
  obtain ⟨lin, h⟩ := exists_inv hsize hidle hrun
  have hret : ∀ i, i ∈ lin ↔ ∃ out, s.phase i = .returned out := by
    intro i
    rw [h.mem i]
    rcases hall i with hp | ⟨out, hp⟩
    · rw [hp]
      exact ⟨fun hd => hd.elim, fun ⟨_, he⟩ => by simp at he⟩
    · rw [hp]
      exact ⟨fun _ => ⟨out, rfl⟩, fun _ => trivial⟩
  refine ⟨lin, h.nodup, hret, fun i j hij => ?_, fun i out hp => ?_, funext fun x => ?_,
    h.sizes.2.1, h.sizes.2.2⟩
  · refine h.realTime i j hij ((hret j).mpr ?_)
    have hinv : Event.invoke j ∈ l := hij.subset (by simp)
    exact (hall j).resolve_left fun hp => h.invoked j hp hinv
  · have hcall := h.call i
    rw [hp] at hcall
    exact hcall
  · refine (h.bytes x fun i hc => ?_).symm
    rcases hall i with hp | ⟨out, hp⟩ <;> rw [hp] at hc <;> exact hc.elim

end Invariant

/-- A write of one byte and a read of two at offset 0. -/
def twoCalls : Bool → Call
  | true => .put 0 [7] (by decide)
  | false => .get 0 2 (by decide)

def zeroFile : State Bool := ⟨⟨fun _ => 0, 0, 0⟩, fun _ => .idle⟩

/-- Both calls are invoked before the write has the lock; the read gets the lock
after the write has given it back. -/
theorem putGet_linearizable_twoCalls :
    ∃ l s, Run (Step twoCalls) zeroFile l s ∧ s.phase false = .returned (some [7]) ∧
      ∃ order : List Bool, order.Nodup ∧
        (∀ i out, s.phase i = .returned out →
          (serial twoCalls zeroFile.file order).2 i = out) ∧
        (serial twoCalls zeroFile.file order).1.bytes = s.file.bytes := by
  have h₀ : Run (Step twoCalls) zeroFile [] zeroFile := .nil
  have h₁ := h₀.snoc (.invoke (i := true) rfl)
  have h₂ := h₁.snoc (.invoke (i := false) rfl)
  have h₃ := h₂.snoc (.acquireWrite (i := true) rfl rfl (by
    intro j hj hh
    cases j
    · exact hh.elim
    · exact absurd rfl hj))
  have h₄ := h₃.snoc (.copyIn (i := true) (k := 0) rfl rfl (by decide) (by decide))
  have h₅ := h₄.snoc (.updateSize (i := true) rfl rfl (by decide))
  have h₆ := h₅.snoc (.releaseWrite (i := true) rfl)
  have h₇ := h₆.snoc (.acquireRead (i := false) rfl rfl (by
    intro j hj hh
    cases j
    · exact absurd rfl hj
    · exact hh.elim))
  have h₈ := h₇.snoc (.clip (i := false) rfl rfl)
  have h₉ := h₈.snoc (.copyOut (i := false) (k := 0) rfl rfl (by decide) rfl)
  have h := h₉.snoc (.releaseRead (i := false) rfl rfl (by
    intro k hk
    have hk0 : k = 0 := Nat.lt_one_iff.mp hk
    subst hk0
    decide))
  obtain ⟨order, hnd, _, _, hout, hbytes, _⟩ := putGet_linearizable rfl (fun _ => rfl) h (by
    intro i
    cases i
    · exact .inr ⟨_, rfl⟩
    · exact .inr ⟨_, rfl⟩)
  exact ⟨_, _, h, rfl, order, hnd, hout, hbytes⟩

end EchoFs.Nvml.Linearize
