import EchoFs.RangeLock.Asserts

/-! Why a call of `lock_range` waits. A range that no handle holds is there for the taking,
whoever waits for it. -/

namespace EchoFs.RangeLock
open Checked Slots Transition

/-- The ranges have an offset in common. -/
def Handle.Meets (h : Handle) (rq : Request) : Prop := h.rq.start < rq.stop ∧ rq.start < h.rq.stop

instance (h : Handle) (rq : Request) : Decidable (h.Meets rq) :=
  inferInstanceAs (Decidable (h.rq.start < rq.stop ∧ rq.start < h.rq.stop))

section Waiting
variable {s : State} {t : Table} {held : List Handle} {rq : Request}

/-- An entry in the way of a request is in the range of a handle. -/
theorem Consistent.exists_meets (hc : Consistent t held) {n : Node} (hn : n ∈ t.nodes)
    (ho : Overlaps n.data rq.start rq.stop) : ∃ h ∈ held, h.Meets rq := by
  obtain ⟨-, h, hh, hstart, hstop⟩ := hc.mem_range hn
  exact ⟨h, hh, hstart.trans_lt ho.1, ho.2.trans_le hstop⟩

theorem Consistent.held_nil (hc : Consistent t held) (hnil : t.nodes = []) : held = [] := by
  refine List.eq_nil_iff_forall_not_mem.mpr fun h hh => ?_
  obtain ⟨n, hn, -⟩ := hc.exists_entry hh ⟨le_rfl, h.rq.lt⟩
  rw [hnil] at hn
  cases hn

theorem LockStep.granted_of_free {o : Outcome} (h : LockStep rq t o)
    (hfree : ∀ n ∈ t.nodes, ¬Overlaps n.data rq.start rq.stop) :
    ∃ t' ptr, o = .granted t' ptr := by
  cases h with
  | alone => exact ⟨_, _, rfl⟩
  | shared => exact ⟨_, _, rfl⟩
  | reader _ hn ho => exact absurd ho (hfree _ hn)
  | writer _ hn ho => exact absurd ho (hfree _ hn)

/-- In a run in which the counter hides no entry that a call meets, a request that meets no held
range is granted at once, and a call that waits for such a range has been woken: its next turn
gets the lock, but for a reader that goes back to `retry` when nothing is held. -/
theorem waits_for_held (hs : Told s) :
    (∀ rq : Request, (∀ h ∈ s.held, ¬h.Meets rq) →
      ∃ t ptr, lockRange s.table rq = .ok (.granted t ptr)) ∧
    ∀ w ∈ s.waiters, (∀ h ∈ s.held, ¬h.Meets w.rq) → w.notified = true ∧
      ((∃ t ptr, resumeRange s.table w.rq = .ok (.granted t ptr)) ∨
        s.held = [] ∧ w.rq.type = .reader ∧
          resumeRange s.table w.rq = .error .badPointer) := by
  have hI := inv_of_told hs
  have hc := hI.consistent
  have hclear : ∀ rq : Request, (∀ h ∈ s.held, ¬h.Meets rq) →
      ∀ n ∈ s.table.nodes, ¬Overlaps n.data rq.start rq.stop := by
    intro rq hfree n hn ho
    obtain ⟨h, hh, hmeets⟩ := hc.exists_meets hn ho
    exact hfree h hh hmeets
  refine ⟨fun rq hfree => ?_, fun w hw hfree => ⟨?_, ?_⟩⟩
  · have hno := hclear rq hfree
    obtain ⟨o, he, hstep⟩ := (lockRange_spec hc.ok fun _ => hno).1 (replaceable_of_free hc.ok hno)
    obtain ⟨t, ptr, rfl⟩ := hstep.granted_of_free hno
    exact ⟨t, ptr, he⟩
  · by_contra hasleep
    obtain ⟨n, hn, -, ho, -⟩ := hI.queued w hw (Bool.eq_false_of_not_eq_true hasleep)
    exact hclear w.rq hfree n hn ho
  · have hno := hclear w.rq hfree
    rcases resumeRange_spec hc.ok fun _ _ => hno with ⟨htype, hnil, he⟩ | ⟨hok, -⟩
    · exact .inr ⟨hc.held_nil hnil, htype, he⟩
    · obtain ⟨o, he, hstep⟩ := hok (replaceable_of_free hc.ok hno)
      obtain ⟨t, ptr, rfl⟩ := hstep.granted_of_free hno
      exact .inl ⟨t, ptr, he⟩

/-- A writer that has waited for another one. -/
def writerWoken : State :=
  ((State.initial.call ⟨101, 123, .writer, by decide, by decide, by decide⟩).call
    ⟨111, 131, .writer, by decide, by decide, by decide⟩).unlock
      ⟨0, ⟨101, 123, .writer, by decide, by decide, by decide⟩, some 1⟩

theorem writerWoken_told : Told writerWoken := by
  refine .next (e := .unlock _) (.next (e := .call _) (.next (e := .call _) (.start rfl)
    ⟨?_, .call _ rfl⟩) ⟨?_, .call _ rfl⟩) ⟨trivial, .unlock (by decide) rfl⟩
  all_goals decide

theorem waits_for_held_writer : writerWoken.waiters.map Waiter.notified = [true] ∧
    ∀ w ∈ writerWoken.waiters, (∀ h ∈ writerWoken.held, ¬h.Meets w.rq) → w.notified = true ∧
      ((∃ t ptr, resumeRange writerWoken.table w.rq = .ok (.granted t ptr)) ∨
        writerWoken.held = [] ∧ w.rq.type = .reader ∧
          resumeRange writerWoken.table w.rq = .error .badPointer) :=
  ⟨by decide, (waits_for_held writerWoken_told).2⟩

end Waiting
end EchoFs.RangeLock
