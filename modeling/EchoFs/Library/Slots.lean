import Mathlib.Data.List.Basic

/-! Lists of data cells with an address of their own: what a pointer-based
container holds, in its order. The lemmas evaluate the operations at a cell
whose place in the list is known. -/

/-- A cell: its address and the data stored there. -/
structure Slot (α : Type*) where
  addr : Nat
  data : α
deriving DecidableEq, Repr

namespace Slots
variable {α : Type*}

def addrs (l : List (Slot α)) : List Nat := l.map Slot.addr

def get? (l : List (Slot α)) (a : Nat) : Option α :=
  (l.find? fun n => n.addr = a).map Slot.data

def modify (l : List (Slot α)) (a : Nat) (f : α → α) : List (Slot α) :=
  l.map fun n => if n.addr = a then { n with data := f n.data } else n

def erase (l : List (Slot α)) (a : Nat) : List (Slot α) := l.filter fun n => n.addr ≠ a

def nextOf : List (Slot α) → Nat → Option Nat
  | [], _ => none
  | n :: r, a => if n.addr = a then r.head?.map Slot.addr else nextOf r a

@[simp] theorem addrs_nil : addrs ([] : List (Slot α)) = [] := rfl

@[simp] theorem addrs_cons (n : Slot α) (l : List (Slot α)) :
    addrs (n :: l) = n.addr :: addrs l := rfl

@[simp] theorem addrs_append (l r : List (Slot α)) : addrs (l ++ r) = addrs l ++ addrs r :=
  List.map_append

theorem mem_addrs {l : List (Slot α)} {n : Slot α} (h : n ∈ l) : n.addr ∈ addrs l :=
  List.mem_map_of_mem h

theorem exists_of_mem_addrs {l : List (Slot α)} {a : Nat} (h : a ∈ addrs l) :
    ∃ n ∈ l, n.addr = a := List.mem_map.mp h

theorem get?_append_right {l r : List (Slot α)} {a : Nat} (h : a ∉ addrs l) :
    get? (l ++ r) a = get? r a := by
  have hnone : l.find? (fun n => n.addr = a) = none := by
    rw [List.find?_eq_none]
    intro n hn
    simp only [decide_eq_true_eq]
    exact fun he => h (he ▸ mem_addrs hn)
  simp only [get?, List.find?_append, hnone, Option.none_or]

theorem get?_cons_self (n : Slot α) (r : List (Slot α)) : get? (n :: r) n.addr = some n.data := by
  simp [get?]

theorem get?_mid {l r : List (Slot α)} {n : Slot α} (h : n.addr ∉ addrs l) :
    get? (l ++ n :: r) n.addr = some n.data := by
  rw [get?_append_right h, get?_cons_self]

theorem get?_of_mem {l : List (Slot α)} (hd : (addrs l).Nodup) {n : Slot α} (h : n ∈ l) :
    get? l n.addr = some n.data := by
  obtain ⟨l₁, l₂, rfl⟩ := List.append_of_mem h
  refine get?_mid fun hm => ?_
  rw [addrs_append, addrs_cons] at hd
  exact (List.nodup_append.mp hd).2.2 _ hm _ List.mem_cons_self rfl

theorem get?_eq_none {l : List (Slot α)} {a : Nat} (h : a ∉ addrs l) : get? l a = none := by
  simpa [get?] using get?_append_right (r := []) h

theorem modify_of_notMem {l : List (Slot α)} {a : Nat} (f : α → α) (h : a ∉ addrs l) :
    modify l a f = l := by
  induction l with
  | nil => rfl
  | cons n l ih =>
    simp only [addrs_cons, List.mem_cons, not_or] at h
    have hl : modify (n :: l) a f = (if n.addr = a then { n with data := f n.data } else n) ::
        modify l a f := rfl
    rw [hl, ih h.2, if_neg (Ne.symm h.1)]

theorem modify_append (l r : List (Slot α)) (a : Nat) (f : α → α) :
    modify (l ++ r) a f = modify l a f ++ modify r a f := List.map_append

theorem modify_mid {l r : List (Slot α)} {n : Slot α} (f : α → α) (hl : n.addr ∉ addrs l)
    (hr : n.addr ∉ addrs r) : modify (l ++ n :: r) n.addr f = l ++ ⟨n.addr, f n.data⟩ :: r := by
  rw [modify_append, modify_of_notMem f hl]
  have hc : modify (n :: r) n.addr f = ⟨n.addr, f n.data⟩ :: modify r n.addr f := by
    simp [modify]
  rw [hc, modify_of_notMem f hr]

@[simp] theorem addrs_modify (l : List (Slot α)) (a : Nat) (f : α → α) :
    addrs (modify l a f) = addrs l := by
  simp only [addrs, modify, List.map_map]
  refine List.map_congr_left fun n _ => ?_
  simp only [Function.comp_apply]
  split <;> rfl

theorem erase_of_notMem {l : List (Slot α)} {a : Nat} (h : a ∉ addrs l) : erase l a = l := by
  refine List.filter_eq_self.mpr fun n hn => ?_
  simp only [ne_eq, decide_eq_true_eq]
  exact fun he => h (he ▸ mem_addrs hn)

theorem erase_mid {l r : List (Slot α)} {n : Slot α} (hl : n.addr ∉ addrs l)
    (hr : n.addr ∉ addrs r) : erase (l ++ n :: r) n.addr = l ++ r := by
  have he : erase (l ++ n :: r) n.addr = erase l n.addr ++ erase (n :: r) n.addr :=
    List.filter_append _ _
  have hc : erase (n :: r) n.addr = erase r n.addr := by simp [erase]
  rw [he, hc, erase_of_notMem hl, erase_of_notMem hr]

theorem nextOf_mid {l r : List (Slot α)} {n : Slot α} (h : n.addr ∉ addrs l) :
    nextOf (l ++ n :: r) n.addr = r.head?.map Slot.addr := by
  induction l with
  | nil => simp [nextOf]
  | cons m l ih =>
    simp only [addrs_cons, List.mem_cons, not_or] at h
    simp only [List.cons_append, nextOf]
    rw [if_neg (Ne.symm h.1), ih h.2]

theorem notMem_of_nodup_mid {l r : List (Slot α)} {n : Slot α}
    (h : (addrs (l ++ n :: r)).Nodup) : n.addr ∉ addrs l ∧ n.addr ∉ addrs r := by
  rw [addrs_append, addrs_cons, List.nodup_append] at h
  obtain ⟨_, h₂, h₃⟩ := h
  exact ⟨fun hm => h₃ _ hm _ List.mem_cons_self rfl, (List.nodup_cons.mp h₂).1⟩

end Slots
