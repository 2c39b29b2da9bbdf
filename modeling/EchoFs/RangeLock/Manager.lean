import EchoFs.Library.Transition
import EchoFs.RangeLock.Handles

/-! `lock_manager` as a transition system: calls of `lock_range` and
`unlock_range` from any number of threads, one critical section of `m_mutex` a
step, cut at the waits on condition variables. -/

namespace EchoFs.RangeLock
open Checked Slots Transition

/-- A call of `lock_range` that waits on a condition variable of the descriptor
at `node`, the one for its own type; `notified` once it has been woken up. -/
structure Waiter where
  id : Nat
  rq : Request
  node : Nat
  notified : Bool
deriving DecidableEq

structure State where
  table : Table
  held : List Handle
  waiters : List Waiter
  nextId : Nat
  fault : Option Fault

inductive Action where
  | call (rq : Request)
  | resume (w : Waiter)
  | unlock (h : Handle)

def lockRange (t : Table) (rq : Request) : Result Outcome :=
  match rq.type with
  | .reader => lockRangeReader t rq
  | .writer => lockRangeWriter t rq

/-- `lock_range` after a wait: readers go to `retry`, writers start their loop again. -/
def resumeRange (t : Table) (rq : Request) : Result Outcome :=
  match rq.type with
  | .reader => readerRetry t rq
  | .writer => lockRangeWriter t rq

namespace State

def initial : State := ⟨.empty, [], [], 0, none⟩

/-- The end of a critical section of call `id`. A fault ends the process. -/
def settle (s : State) (id : Nat) (rq : Request) : Result Outcome → State
  | .ok (.granted t ptr) => { s with table := t, held := ⟨id, rq, ptr⟩ :: s.held }
  | .ok (.blocked t a) => { s with table := t, waiters := ⟨id, rq, a, false⟩ :: s.waiters }
  | .error e => { s with fault := some e }

def call (s : State) (rq : Request) : State :=
  { s with nextId := s.nextId + 1 }.settle s.nextId rq (lockRange s.table rq)

def resume (s : State) (w : Waiter) : State :=
  { s with waiters := s.waiters.erase w }.settle w.id w.rq (resumeRange s.table w.rq)

/-- `notify_all` reaches the threads that wait on the condition variable. -/
def wake (signals : List Signal) (w : Waiter) : Waiter :=
  if ⟨w.node, w.rq.type⟩ ∈ signals then { w with notified := true } else w

def unlock (s : State) (h : Handle) : State :=
  match unlockRange s.table h with
  | .ok (t, signals) =>
    { s with table := t, held := s.held.erase h, waiters := s.waiters.map (wake signals) }
  | .error e => { s with fault := some e }

end State

/-- A waiter may also wake up without a notification. -/
inductive Step : State → Action → State → Prop
  | call {s : State} (rq : Request) (hf : s.fault = none) : Step s (.call rq) (s.call rq)
  | resume {s : State} {w : Waiter} (hw : w ∈ s.waiters) (hf : s.fault = none) :
      Step s (.resume w) (s.resume w)
  | unlock {s : State} {h : Handle} (hh : h ∈ s.held) (hf : s.fault = none) :
      Step s (.unlock h) (s.unlock h)

abbrev Reachable (s : State) : Prop := Reach (fun s => s = State.initial) Step s

/-- Where `lock_range` asks for the size, a size of zero hides no entry that it meets. A reader
that goes back to `retry` does not ask, and neither does `unlock_range`. -/
def State.SizeTells (s : State) : Action → Prop
  | .call rq => s.table.Tells rq
  | .resume w => w.rq.type = .writer → s.table.Tells w.rq
  | .unlock _ => True

/-- The step takes no entry out of the tree while the counter is zero. -/
def State.RemovesTell (s : State) : Action → Prop
  | .call rq => s.table.Replaceable rq
  | .resume w => s.table.Replaceable w.rq
  | .unlock h => s.table.Releasable h

instance (s : State) : ∀ a, Decidable (s.SizeTells a)
  | .call rq => inferInstanceAs (Decidable (s.table.Tells rq))
  | .resume _ => inferInstanceAs (Decidable (_ → _))
  | .unlock _ => isTrue trivial

instance (s : State) : ∀ a, Decidable (s.RemovesTell a)
  | .call rq => inferInstanceAs (Decidable (s.table.Replaceable rq))
  | .resume w => inferInstanceAs (Decidable (s.table.Replaceable w.rq))
  | .unlock h => inferInstanceAs (Decidable (s.table.Releasable h))

/-- The runs in which the counter never hides an entry that `lock_range` meets. -/
abbrev Told (s : State) : Prop :=
  Reach (fun s => s = State.initial) (Guarded Step State.SizeTells) s

/-- The runs in which, besides, no entry is taken out while the counter is zero. -/
abbrev Counts (s : State) : Prop :=
  Reach (fun s => s = State.initial)
    (Guarded Step fun s a => s.SizeTells a ∧ s.RemovesTell a) s

/-- The flag that announces a waiting thread of the given type. -/
def Range.wanted (r : Range) : LockType → Bool
  | .reader => r.mReadWanted
  | .writer => r.mWriteWanted

/-- The waiter waits on an entry of the tree that is in its way and knows of it. -/
def Waiter.Queued (w : Waiter) (l : List Node) : Prop :=
  ∃ n ∈ l, n.addr = w.node ∧ Overlaps n.data w.rq.start w.rq.stop ∧ n.data.wanted w.rq.type = true

/-- The same entry at a later time: it may have lost references and got flags. -/
structure Persists (n n' : Node) : Prop where
  addr : n'.addr = n.addr
  start : n'.data.mStart = n.data.mStart
  stop : n'.data.mEnd = n.data.mEnd
  type : n'.data.mType = n.data.mType
  isProxy : n'.data.mIsProxy = n.data.mIsProxy
  wanted : ∀ type, n.data.wanted type = true → n'.data.wanted type = true

theorem Persists.refl (n : Node) : Persists n n := ⟨rfl, rfl, rfl, rfl, rfl, fun _ h => h⟩

theorem Persists.queued {w : Waiter} {l : List Node} {n n' : Node} (h : Persists n n')
    (hn' : n' ∈ l) (ha : n.addr = w.node) (ho : Overlaps n.data w.rq.start w.rq.stop)
    (hw : n.data.wanted w.rq.type = true) : w.Queued l :=
  ⟨n', hn', h.addr.trans ha, ⟨h.start ▸ ho.1, h.stop ▸ ho.2⟩, h.wanted _ hw⟩

def Outcome.table : Outcome → Table
  | .granted t _ => t
  | .blocked t _ => t

section Steps
variable {t : Table} {rq : Request} {n : Node}

theorem blocksReader_of_wanted (h : EntryOk n.data) {type : LockType}
    (hw : n.data.wanted type = true) : BlocksReader n.data := by
  cases type with
  | reader => exact h.readWanted hw
  | writer => exact .inr hw

theorem persists_modify (hA : t.AddrOk) {m : Node} (hm : m ∈ t.nodes) (f : Range → Range)
    (hf : ∀ r, Persists ⟨m.addr, r⟩ ⟨m.addr, f r⟩) (hn : n ∈ t.nodes) :
    ∃ n' ∈ (t.modify m.addr f).nodes, Persists n n' := by
  obtain ⟨L, R, hLR⟩ := List.append_of_mem hm
  obtain ⟨_, _, hn'⟩ := Table.modify_spec hA (a := m.addr) (r := m.data) hLR f
  rw [hLR, List.mem_append, List.mem_cons] at hn
  rw [hn']
  rcases hn with hn | rfl | hn
  · exact ⟨n, by simp [hn], .refl n⟩
  · exact ⟨⟨n.addr, f n.data⟩, by simp, hf n.data⟩
  · exact ⟨n, by simp [hn], .refl n⟩

theorem persists_readWanted (a : Nat) (r : Range) :
    Persists ⟨a, r⟩ ⟨a, { r with mReadWanted := true }⟩ :=
  ⟨rfl, rfl, rfl, rfl, rfl, fun type h => by cases type <;> [rfl; exact h]⟩

theorem persists_writeWanted (a : Nat) (r : Range) :
    Persists ⟨a, r⟩ ⟨a, { r with mWriteWanted := true }⟩ :=
  ⟨rfl, rfl, rfl, rfl, rfl, fun type h => by cases type <;> [exact h; rfl]⟩

/-- No step of `lock_range` touches an entry that somebody waits on. -/
theorem LockStep.persists {o : Outcome} (h : LockStep rq t o) (hOk : t.Ok) (hn : n ∈ t.nodes)
    {type : LockType} (hw : n.data.wanted type = true) :
    ∃ n' ∈ o.table.nodes, Persists n n' := by
  cases h with
  | alone hLR _ _ _ _ _ hn' =>
    refine ⟨n, ?_, .refl n⟩
    rw [hLR, List.mem_append] at hn
    rw [Outcome.table, hn', List.mem_append, List.mem_cons]
    tauto
  | shared _ _ hs _ hfree =>
    have hno : ¬Overlaps n.data rq.start rq.stop := fun ho =>
      hfree n hn ho (blocksReader_of_wanted (hOk.entry n hn) hw)
    exact ⟨n, hs.kept n hn hno, .refl n⟩
  | reader _ hm _ _ => exact persists_modify hOk.addr hm _ (persists_readWanted _) hn
  | writer _ hm _ => exact persists_modify hOk.addr hm _ (persists_writeWanted _) hn

theorem mem_wakeUps {type : LockType} (h : n.data.wanted type = true) :
    ⟨n.addr, type⟩ ∈ wakeUps n.addr n.data := by
  cases type <;> simp_all [wakeUps, Range.wanted]

/-- An entry stays when a handle is released, or it is freed and its waiters are notified. -/
theorem UnlockStep.persists {h : Handle} {t' : Table} {signals : List Signal}
    (hstep : UnlockStep h t (t', signals)) (hA : t.AddrOk) (hn : n ∈ t.nodes) :
    (∃ n' ∈ t'.nodes, Persists n n') ∨ n.addr ∉ addrs (t'.nodes ++ t'.removed) ∧
      ∀ type, n.data.wanted type = true → ⟨n.addr, type⟩ ∈ signals := by
  have hrem := hA.notMem_removed hn
  cases hstep with
  | @own _ L R m _ hLR _ hr hn' =>
    rw [hLR, List.mem_append, List.mem_cons] at hn
    rw [hn', hr]
    rcases hn with hn | rfl | hn
    · exact .inl ⟨n, by simp [hn], .refl n⟩
    · obtain ⟨hL, hR⟩ := hA.around hLR
      refine .inr ⟨?_, fun type hw => mem_wakeUps hw⟩
      simp only [addrs_append, List.mem_append]
      tauto
    · exact .inl ⟨n, by simp [hn], .refl n⟩
  | @proxies _ L M R _ hLR _ _ _ hr hn' =>
    rw [hLR, List.append_assoc, List.mem_append, List.mem_append] at hn
    rw [hn']
    rcases hn with hn | hn | hn
    · exact .inl ⟨n, by simp [hn], .refl n⟩
    · by_cases hone : n.data.mRefs = 1
      · refine .inr ⟨fun hmem => ?_, fun type hw => ?_⟩
        · rw [addrs_append, List.mem_append] at hmem
          rcases hmem with hmem | hmem
          · -- an entry at this address would be an old one with more than a reference
            have hnodes : n ∈ t.nodes := by simp [hLR, hn]
            obtain ⟨m, hm, hma⟩ := exists_of_mem_addrs hmem
            simp only [List.mem_append, mem_released] at hm
            obtain ⟨L₁, M₁, rfl⟩ := List.append_of_mem hn
            have haround := hA.around (L := L ++ L₁) (n := n) (R := M₁ ++ R) (by simp [hLR])
            simp only [addrs_append, List.mem_append] at haround
            rcases hm with (hm | ⟨k, hk, hne, rfl⟩) | hm
            · exact haround.1 (.inl (hma ▸ mem_addrs hm))
            · have hkt : k ∈ t.nodes := by
                rw [hLR]
                exact List.mem_append_left _ (List.mem_append_right _ hk)
              have hkn : k = n := hA.eq_of_addr hkt hnodes hma
              exact hne (hkn ▸ hone)
            · exact haround.2 (.inr (hma ▸ mem_addrs hm))
          · obtain ⟨m, hm, hma⟩ := exists_of_mem_addrs hmem
            exact hrem (hma ▸ mem_addrs ((hr m).mp hm).1)
        · simp only [releaseSignals, List.mem_flatMap, List.mem_filter, decide_eq_true_eq]
          exact ⟨n, ⟨hn, hone⟩, mem_wakeUps hw⟩
      · refine .inl ⟨⟨n.addr, { n.data with mRefs := n.data.mRefs - 1 }⟩, ?_, rfl, rfl, rfl, rfl, rfl,
          fun type hw => ?_⟩
        · simp only [List.mem_append, mem_released]
          exact .inl (.inr ⟨n, hn, hone, rfl⟩)
        · cases type <;> exact hw
    · exact .inl ⟨n, by simp [hn], .refl n⟩

end Steps

/-- The calls that have not returned their lock yet, or not given it back. -/
def State.ids (s : State) : List Nat := s.held.map Handle.id ++ s.waiters.map Waiter.id

/-- The invariant of `lock_manager`. -/
structure State.Inv (s : State) : Prop where
  consistent : Consistent s.table s.held
  ids : s.ids.Nodup
  idsLt : ∀ id ∈ s.ids, id < s.nextId
  queued : ∀ w ∈ s.waiters, w.notified = false → w.Queued s.table.nodes

section Invariant
variable {s : State}

theorem replaceable_of_writer {t : Table} {rq : Request} (hq : rq.type = .writer) :
    t.Replaceable rq := fun hr => by
  rw [hq] at hr
  cases hr

/-- `lock_range` ends as it should, or in the assertion of `remove_node`. -/
theorem lockRange_spec {t : Table} {rq : Request} (h : t.Ok) (ht : t.Tells rq) :
    (t.Replaceable rq → ∃ o, lockRange t rq = .ok o ∧ LockStep rq t o) ∧
    (¬t.Replaceable rq → lockRange t rq = .error .assertion) := by
  unfold lockRange
  cases hq : rq.type with
  | reader => exact lockRangeReader_spec h ht hq
  | writer =>
    exact ⟨fun _ => lockRangeWriter_spec h ht hq, fun hrep => absurd (replaceable_of_writer hq) hrep⟩

theorem resumeRange_spec {t : Table} {rq : Request} (h : t.Ok)
    (ht : rq.type = .writer → t.Tells rq) :
    (rq.type = .reader ∧ t.nodes = [] ∧ resumeRange t rq = .error .badPointer) ∨
    (t.Replaceable rq → ∃ o, resumeRange t rq = .ok o ∧ LockStep rq t o) ∧
    (¬t.Replaceable rq → resumeRange t rq = .error .assertion) := by
  unfold resumeRange
  cases hq : rq.type with
  | reader =>
    by_cases hnil : t.nodes = []
    · exact .inl ⟨rfl, hnil, readerRetry_empty h hnil⟩
    · exact .inr (readerRetry_spec h hnil hq)
  | writer =>
    exact .inr ⟨fun _ => lockRangeWriter_spec h (ht hq) hq,
      fun hrep => absurd (replaceable_of_writer hq) hrep⟩

/-- A thread that blocks has put its flag on the entry in its way. -/
theorem LockStep.queued {t t' : Table} {rq : Request} {a id : Nat}
    (h : LockStep rq t (.blocked t' a)) (hA : t.AddrOk) :
    (⟨id, rq, a, false⟩ : Waiter).Queued t'.nodes := by
  cases h with
  | @reader n htype hn ho hb =>
    obtain ⟨L, R, hLR⟩ := List.append_of_mem hn
    obtain ⟨_, _, hn'⟩ := Table.modify_spec hA (a := n.addr) (r := n.data) hLR
      (fun r => { r with mReadWanted := true })
    exact ⟨⟨n.addr, { n.data with mReadWanted := true }⟩, by simp [hn'], rfl, ho, by rw [htype]; rfl⟩
  | @writer n htype hn ho =>
    obtain ⟨L, R, hLR⟩ := List.append_of_mem hn
    obtain ⟨_, _, hn'⟩ := Table.modify_spec hA (a := n.addr) (r := n.data) hLR
      (fun r => { r with mWriteWanted := true })
    exact ⟨⟨n.addr, { n.data with mWriteWanted := true }⟩, by simp [hn'], rfl, ho,
      by rw [htype]; rfl⟩

/-- A thread that blocks leaves the table as it is, but for its flag. -/
theorem Consistent.blocked {t t' : Table} {held : List Handle} {rq : Request} {a : Nat}
    (hc : Consistent t held) (h : LockStep rq t (.blocked t' a)) : Consistent t' held := by
  cases h with
  | @reader n _ hn _ hb =>
    obtain ⟨L, R, hLR⟩ := List.append_of_mem hn
    obtain ⟨hA', hr, hn'⟩ := Table.modify_spec hc.ok.addr (a := n.addr) (r := n.data) hLR
      (fun r => { r with mReadWanted := true })
    exact hc.reflag hLR hA' hr hn' rfl rfl rfl rfl rfl rfl ⟨(hc.ok.entry n hn).kind, fun _ => hb⟩
  | @writer n _ hn _ =>
    obtain ⟨L, R, hLR⟩ := List.append_of_mem hn
    obtain ⟨hA', hr, hn'⟩ := Table.modify_spec hc.ok.addr (a := n.addr) (r := n.data) hLR
      (fun r => { r with mWriteWanted := true })
    exact hc.reflag hLR hA' hr hn' rfl rfl rfl rfl rfl rfl
      ⟨(hc.ok.entry n hn).kind, fun _ => .inr rfl⟩

theorem State.Inv.settle {id : Nat} {rq : Request} {o : Outcome} (h : s.Inv)
    (hid : id ∉ s.ids) (hlt : id < s.nextId) (hstep : LockStep rq s.table o) :
    (s.settle id rq (.ok o)).Inv := by
  have hheld : ∀ h ∈ s.held, h.id ≠ id := fun h hm he =>
    hid (List.mem_append_left _ (he ▸ List.mem_map_of_mem hm))
  have hkeep : ∀ w ∈ s.waiters, w.notified = false → w.Queued o.table.nodes := by
    intro w hw hnw
    obtain ⟨n, hn, ha, ho, hwant⟩ := h.queued w hw hnw
    obtain ⟨n', hn', hp⟩ := hstep.persists h.consistent.ok hn hwant
    exact hp.queued hn' ha ho hwant
  cases o with
  | granted t ptr =>
    refine ⟨h.consistent.granted hheld hstep, ?_, ?_, hkeep⟩
    · exact List.nodup_cons.mpr ⟨hid, h.ids⟩
    · intro i hi
      rcases List.mem_cons.mp hi with rfl | hi
      · exact hlt
      · exact h.idsLt i hi
  | blocked t a =>
    have hperm : (s.held.map Handle.id ++ id :: s.waiters.map Waiter.id).Perm (id :: s.ids) :=
      List.perm_middle
    refine ⟨h.consistent.blocked hstep, ?_, ?_, ?_⟩
    · exact hperm.nodup_iff.mpr (List.nodup_cons.mpr ⟨hid, h.ids⟩)
    · intro i hi
      rcases List.mem_cons.mp (hperm.mem_iff.mp hi) with rfl | hi
      · exact hlt
      · exact h.idsLt i hi
    · intro w hw hnw
      rcases List.mem_cons.mp hw with rfl | hw
      · exact hstep.queued h.consistent.ok.addr
      · exact hkeep w hw hnw

/-- A call that ends in a fault leaves the table and the handles as they were. -/
theorem State.Inv.failed (h : s.Inv) (id : Nat) (rq : Request) (e : Fault) :
    (s.settle id rq (.error e)).Inv := ⟨h.consistent, h.ids, h.idsLt, h.queued⟩

theorem State.Inv.call {rq : Request} (h : s.Inv) (ht : s.table.Tells rq) : (s.call rq).Inv := by
  have h' : State.Inv { s with nextId := s.nextId + 1 } :=
    ⟨h.consistent, h.ids, fun id hid => Nat.lt_succ_of_lt (h.idsLt id hid), h.queued⟩
  obtain ⟨hok, hwrapped⟩ := lockRange_spec h.consistent.ok ht
  rw [State.call]
  by_cases hrep : s.table.Replaceable rq
  · obtain ⟨o, he, hstep⟩ := hok hrep
    rw [he]
    exact h'.settle (fun hid => lt_irrefl _ (h.idsLt _ hid)) (Nat.lt_succ_self _) hstep
  · rw [hwrapped hrep]
    exact h'.failed _ _ _

theorem State.ids_perm {w : Waiter} (hw : w ∈ s.waiters) :
    s.ids.Perm (w.id :: State.ids { s with waiters := s.waiters.erase w }) := by
  have hp : (s.waiters.map Waiter.id).Perm (w.id :: (s.waiters.erase w).map Waiter.id) :=
    (List.perm_cons_erase hw).map _
  exact (hp.append_left _).trans List.perm_middle

theorem State.Inv.resume {w : Waiter} (h : s.Inv) (hw : w ∈ s.waiters)
    (ht : w.rq.type = .writer → s.table.Tells w.rq) : (s.resume w).Inv := by
  have hperm := State.ids_perm hw
  obtain ⟨hid, hnd⟩ := List.nodup_cons.mp (hperm.nodup_iff.mp h.ids)
  have hlt : ∀ id ∈ State.ids { s with waiters := s.waiters.erase w }, id < s.nextId :=
    fun id hm => h.idsLt id (hperm.mem_iff.mpr (List.mem_cons_of_mem _ hm))
  have h' : State.Inv { s with waiters := s.waiters.erase w } :=
    ⟨h.consistent, hnd, hlt, fun w' hw' => h.queued w' (List.mem_of_mem_erase hw')⟩
  rw [State.resume]
  rcases resumeRange_spec h.consistent.ok ht with ⟨-, -, he⟩ | ⟨hok, hwrapped⟩
  · rw [he]
    exact h'.failed _ _ _
  · by_cases hrep : s.table.Replaceable w.rq
    · obtain ⟨o, he, hstep⟩ := hok hrep
      rw [he]
      exact h'.settle hid (h.idsLt _ (hperm.mem_iff.mpr List.mem_cons_self)) hstep
    · rw [hwrapped hrep]
      exact h'.failed _ _ _

theorem State.map_id_wake (signals : List Signal) (l : List Waiter) :
    (l.map (State.wake signals)).map Waiter.id = l.map Waiter.id := by
  rw [List.map_map]
  refine List.map_congr_left fun w _ => ?_
  simp only [Function.comp_apply, State.wake]
  split <;> rfl

theorem State.Inv.unlock {h : Handle} (hi : s.Inv) (hh : h ∈ s.held) : (s.unlock h).Inv := by
  obtain ⟨hok, hwrapped⟩ := hi.consistent.unlockRange_spec hh
  by_cases hrel : s.table.Releasable h
  swap
  · simp only [State.unlock, hwrapped hrel]
    exact ⟨hi.consistent, hi.ids, hi.idsLt, hi.queued⟩
  obtain ⟨⟨t, signals⟩, he, hstep⟩ := hok hrel
  simp only [State.unlock, he]
  have hsub : (State.ids ⟨t, s.held.erase h, s.waiters.map (State.wake signals), s.nextId,
      s.fault⟩).Sublist s.ids := by
    simp only [State.ids, State.map_id_wake]
    exact (List.erase_sublist.map _).append_right _
  refine ⟨hi.consistent.released hh hstep, hi.ids.sublist hsub,
    fun id hid => hi.idsLt id (hsub.subset hid), ?_⟩
  intro w' hw' hnw
  obtain ⟨w, hw, rfl⟩ := List.mem_map.mp hw'
  -- a waiter that was not notified still waits on an entry of the tree
  by_cases hsig : (⟨w.node, w.rq.type⟩ : Signal) ∈ signals
  · simp [State.wake, hsig] at hnw
  · simp only [State.wake, if_neg hsig] at hnw ⊢
    obtain ⟨n, hn, ha, ho, hwant⟩ := hi.queued w hw hnw
    rcases hstep.persists hi.consistent.ok.addr hn with ⟨n', hn', hp⟩ | ⟨_, hall⟩
    · exact hp.queued hn' ha ho hwant
    · exact absurd (ha ▸ hall _ hwant) hsig

theorem State.Inv.step {a : Action} {s' : State} (hI : s.Inv) (ht : s.SizeTells a)
    (hstep : Step s a s') : s'.Inv := by
  cases hstep with
  | call rq _ => exact hI.call ht
  | resume hw _ => exact hI.resume hw ht
  | unlock hh _ => exact hI.unlock hh

theorem inv_of_told (h : Told s) : s.Inv := by
  refine h.invariant ?_ ?_
  · rintro s rfl
    exact ⟨consistent_empty, by simp [State.ids, State.initial],
      by simp [State.ids, State.initial], by simp [State.initial]⟩
  · intro s a s' hI hstep
    exact hI.step hstep.1 hstep.2

theorem Told.reachable (h : Told s) : Reachable s :=
  h.invariant (fun _ hi => .start hi) fun _ _ _ hr hstep => .next hr hstep.2

theorem Counts.told (h : Counts s) : Told s :=
  h.invariant (fun _ hi => .start hi) fun _ _ _ hr hstep => .next hr ⟨hstep.1.1, hstep.2⟩

theorem State.settle_fault {id : Nat} {rq : Request} {o : Outcome} :
    (s.settle id rq (.ok o)).fault = s.fault := by
  cases o <;> rfl

/-- With a counter that tells, a step fails only as a reader that goes back to `retry` when
the tree is empty. -/
theorem State.Inv.step_fault {a : Action} {s' : State} (hI : s.Inv) (ht : s.SizeTells a)
    (hr : s.RemovesTell a) (hstep : Step s a s') :
    s'.fault = none ∨ s'.fault = some .badPointer := by
  cases hstep with
  | call rq hf =>
    obtain ⟨o, he, -⟩ := (lockRange_spec hI.consistent.ok ht).1 hr
    rw [State.call, he, State.settle_fault]
    exact .inl hf
  | @resume w _ hf =>
    rw [State.resume]
    rcases resumeRange_spec hI.consistent.ok ht with ⟨-, -, he⟩ | ⟨hok, -⟩
    · rw [he]
      exact .inr rfl
    · obtain ⟨o, he, -⟩ := hok hr
      rw [he, State.settle_fault]
      exact .inl hf
  | unlock hh hf =>
    obtain ⟨r, he, -⟩ := (hI.consistent.unlockRange_spec hh).1 hr
    simp only [State.unlock, he]
    exact .inl hf

theorem fault_of_counts (h : Counts s) : s.fault = none ∨ s.fault = some .badPointer := by
  have hboth : s.Inv ∧ (s.fault = none ∨ s.fault = some .badPointer) := by
    refine h.invariant (I := fun s => s.Inv ∧ (s.fault = none ∨ s.fault = some .badPointer)) ?_ ?_
    · rintro s rfl
      exact ⟨inv_of_told (.start rfl), .inl rfl⟩
    · rintro s a s' ⟨hI, -⟩ ⟨⟨ht, hr⟩, hstep⟩
      exact ⟨hI.step ht hstep, hI.step_fault ht hr hstep⟩
  exact hboth.2

end Invariant
end EchoFs.RangeLock
