import EchoFs.RangeLock.Manager

/-! Readers that go back to `retry` after a wait. The shortcut for an empty table stands
before the label, so only a new call takes it. -/

namespace EchoFs.RangeLock
open Checked Slots Transition

/-- Both requests wait, or both leave the same entries and the same pointer for the handle. -/
def Alike : Outcome → Outcome → Prop
  | .blocked _ _, .blocked _ _ => True
  | .granted t ptr, .granted t' ptr' => t.nodes = t'.nodes ∧ ptr = ptr'
  | _, _ => False

/-- The pass from `retry` on does what a new call does. It looks at entries of the tree only:
with every other descriptor gone, where an access to one of them would fault, it ends too. -/
structure LikeNew (t : Table) (rq : Request) : Prop where
  outcome : ∃ o o', readerRetry t rq = .ok o ∧ lockRangeReader t rq = .ok o' ∧ Alike o o'
  entries : ∃ o, readerRetry { t with removed := [] } rq = .ok o

section Resume
variable {t : Table} {rq : Request} {s : State}

theorem Alike.refl (o : Outcome) : Alike o o := by
  cases o with
  | granted t ptr => exact ⟨rfl, rfl⟩
  | blocked t on => exact trivial

theorem Table.Ok.onlyNodes (h : t.Ok) : Table.Ok { t with removed := [] } := by
  refine ⟨h.addr.of_sublist ?_ le_rfl, h.ordered, h.entry, fun n hn => by cases hn⟩
  rw [List.append_nil, addrs_append]
  exact List.sublist_append_left _ _

/-- Behind the shortcut, a new call is the pass from `retry` on. -/
theorem lockRangeReader_retry (hsize : t.size ≠ 0) : lockRangeReader t rq = readerRetry t rq := by
  rw [lockRangeReader, if_neg hsize]

/-- The pass from `retry` on can do what a new call does: there is an entry, and the shortcut
is right or is not taken, where the entries that the reader shares can be replaced. -/
def Table.Resumable (t : Table) (rq : Request) : Prop :=
  t.nodes ≠ [] ∧ t.Tells rq ∧ t.Replaceable rq

instance (t : Table) (rq : Request) : Decidable (t.Resumable rq) :=
  inferInstanceAs (Decidable (_ ∧ _ ∧ _))

/-- A reader that meets no entry inserts its range at the end of the search, as `add` does. -/
theorem readerRetry_free (h : t.Ok) (hne : t.nodes ≠ [])
    (hfree : ∀ n ∈ t.nodes, ¬Overlaps n.data rq.start rq.stop) :
    readerRetry t rq = (do
      let (t, a) ← t.add (Range.new rq.start rq.stop .reader)
      return .granted t (some a)) := by
  have hlt := rq.lt
  obtain ⟨L, R, hn, hends, hstops⟩ := exists_gap h.ordered.spread rq.lt
    (fun m hm => h.ordered.lt hm) hfree
  have hL : ∀ m ∈ L, m.data.mStart < rq.start := fun m hm =>
    (h.ordered.lt (by simp [hn, hm])).trans_le (hends m hm)
  have hR : ∀ m ∈ R, rq.start < m.data.mStart := fun m hm => hlt.trans_le (hstops m hm)
  have hfind := Table.find_between hn hL hR
  have hnext := Table.nearest_after hn hne
  have hnone : ∀ ptr, ScanResult rq t.nodes ptr → ptr = none := by
    rintro (_ | a) hr
    · rfl
    · obtain ⟨n, hmem, -, ho, -⟩ := hr
      exact absurd ho (hfree n hmem)
  have hblocker : readerBlocker t rq (L.getLast?.map Slot.addr) (.at L.length) = .ok none := by
    rcases List.eq_nil_or_concat L with rfl | ⟨L', p, rfl⟩
    · obtain ⟨ptr, hb, hr⟩ := readerBlocker_none rq h.addr h.ordered.spread hne
        (fun m hm => hR m (by simpa [hn] using hm))
      exact hnone ptr hr ▸ hb
    · have hn' : t.nodes = L' ++ p :: R := by simp [hn]
      obtain ⟨ptr, hb, hr⟩ := readerBlocker_prev h.addr h.ordered.spread hn' (hL p (by simp)).le hR
        (.at (L'.concat p).length)
      rw [hnone ptr hr] at hb
      rw [List.concat_eq_append, List.getLast?_concat]
      rw [List.concat_eq_append] at hb
      exact hb
  have hadd : addReader t (Range.new rq.start rq.stop .reader) (L.getLast?.map Slot.addr)
      (.at L.length) = (do
        let (t, a) ← t.insertAt (Range.new rq.start rq.stop .reader) (.at L.length)
        return (t, some a)) := by
    simp only [addReader, show (Range.new rq.start rq.stop .reader).mStart = rq.start from rfl,
      show (Range.new rq.start rq.stop .reader).mEnd = rq.stop from rfl,
      splitPrev_free h.addr hn hends, ok_bind, checkStart, pure_eq_ok, hnext]
    rcases R with _ | ⟨n, R⟩
    · rfl
    · have hget : t.get n.addr = .ok n.data := Table.get_node h.addr (by simp [hn])
      simp only [List.head?_cons, Option.map_some, hget, ok_bind,
        if_pos (hstops n List.mem_cons_self)]
  simp only [readerRetry, hfind, Table.nearest_before hn hne, readerFrom, hblocker, ok_bind, hadd,
    Table.add, show (Range.new rq.start rq.stop .reader).mStart = rq.start from rfl]
  cases t.insertAt (Range.new rq.start rq.stop .reader) (.at L.length) <;> rfl

/-- The shortcut in front of entries that the reader meets gives it an entry of its own, which
the pass from `retry` on never does. -/
theorem not_alike_of_hidden {o o' : Outcome} (hsize : t.size = 0)
    (hmeets : ∃ n ∈ t.nodes, Overlaps n.data rq.start rq.stop) (hstep : LockStep rq t o)
    (hnew : lockRangeReader t rq = .ok o') : ¬Alike o o' := by
  obtain ⟨⟨t', a⟩, -, hnew⟩ : ∃ p, t.add (Range.new rq.start rq.stop .reader) = .ok p ∧
      Outcome.granted p.1 (some p.2) = o' := by
    rw [lockRangeReader, if_pos hsize] at hnew
    obtain ⟨p, hadd, hp⟩ := bind_eq_ok.mp hnew
    exact ⟨p, hadd, Except.ok.inj hp⟩
  subst hnew
  intro halike
  cases hstep with
  | @alone _ L R _ _ hn hL hR =>
    obtain ⟨n, hmem, ho⟩ := hmeets
    rcases List.mem_append.mp (hn ▸ hmem) with hm | hm
    · exact absurd ho.2 (not_lt.mpr (hL n hm))
    · exact absurd ho.1 (not_lt.mpr (hR n hm))
  | shared => exact absurd halike.2 (by simp)
  | reader => exact halike
  | writer => exact halike

theorem likeNew_iff (h : t.Ok) (htype : rq.type = .reader) : LikeNew t rq ↔ t.Resumable rq := by
  constructor
  · intro hlike
    have hne : t.nodes ≠ [] := by
      intro hnil
      obtain ⟨o, hretry⟩ := hlike.entries
      rw [readerRetry_empty h.onlyNodes hnil] at hretry
      cases hretry
    obtain ⟨o, o', hretry, hnew, halike⟩ := hlike.outcome
    obtain ⟨hok, hwrapped⟩ := readerRetry_spec h hne htype
    have hrep : t.Replaceable rq := by
      by_contra hrep
      rw [hwrapped hrep] at hretry
      cases hretry
    obtain ⟨o₁, he, hstep⟩ := hok hrep
    obtain rfl := Except.ok.inj (he.symm.trans hretry)
    refine ⟨hne, fun hsize n hn ho => ?_, hrep⟩
    exact not_alike_of_hidden hsize ⟨n, hn, ho⟩ hstep hnew halike
  · rintro ⟨hne, ht, hrep⟩
    obtain ⟨o, hretry, -⟩ := (readerRetry_spec h hne htype).1 hrep
    obtain ⟨o', hretry', -⟩ := (readerRetry_spec h.onlyNodes hne htype).1 hrep
    refine ⟨⟨o, o, hretry, ?_, .refl o⟩, o', hretry'⟩
    by_cases hsize : t.size = 0
    · rw [lockRangeReader, if_pos hsize, ← readerRetry_free h hne (ht hsize)]
      exact hretry
    · exact (lockRangeReader_retry hsize).trans hretry

/-- A reader that resumes behaves like a new one if and only if the table has an entry, and its
counter shows the reader what it meets and lets it take that out. -/
theorem resumed_reader_iff (hs : Told s) {w : Waiter} (_ : w ∈ s.waiters)
    (htype : w.rq.type = .reader) : LikeNew s.table w.rq ↔ s.table.Resumable w.rq :=
  likeNew_iff (inv_of_told hs).consistent.ok htype

/-- Two writers, and a reader that waits for the first of them until it unlocks. -/
def readerWaits : State :=
  ((State.initial.call ⟨10, 25, .writer, by decide, by decide, by decide⟩).call
    ⟨30, 40, .writer, by decide, by decide, by decide⟩).call
      ⟨15, 22, .reader, by decide, by decide, by decide⟩

def resumedReader : Waiter := ⟨2, ⟨15, 22, .reader, by decide, by decide, by decide⟩, 1, true⟩

def firstWriter : Handle := ⟨0, ⟨10, 25, .writer, by decide, by decide, by decide⟩, some 1⟩

theorem resumed_reader_occupied :
    resumedReader ∈ (readerWaits.unlock firstWriter).waiters ∧
      1 ∉ addrs (readerWaits.unlock firstWriter).table.nodes ∧
      LikeNew (readerWaits.unlock firstWriter).table resumedReader.rq := by
  have hs : Told (readerWaits.unlock firstWriter) := by
    refine .next (e := .unlock _) (.next (e := .call _) (.next (e := .call _)
      (.next (e := .call _) (.start rfl) ⟨?_, .call _ rfl⟩) ⟨?_, .call _ rfl⟩)
      ⟨?_, .call _ rfl⟩) ⟨trivial, .unlock (by decide) rfl⟩
    all_goals decide
  exact ⟨by decide, by decide, (resumed_reader_iff hs (by decide) rfl).mpr (by decide)⟩

/-- The writer the reader waits for was the only entry. -/
theorem resumed_reader_faults : ¬∀ (s : State) (w : Waiter), Reachable s → w ∈ s.waiters →
    w.rq.type = .reader → w.notified = true → w.node ∉ addrs s.table.nodes →
    LikeNew s.table w.rq := by
  intro hclaim
  have hs : Reachable (((State.initial.call ⟨10, 25, .writer, by decide, by decide, by decide⟩).call
      ⟨15, 20, .reader, by decide, by decide, by decide⟩).unlock firstWriter) :=
    .next (.next (.next (.start rfl) (.call _ rfl)) (.call _ rfl)) (.unlock (by decide) rfl)
  obtain ⟨o, hretry⟩ := (hclaim _ ⟨1, ⟨15, 20, .reader, by decide, by decide, by decide⟩, 1, true⟩
    hs (by decide) rfl rfl (by decide)).entries
  cases hretry

/-- The table has an entry whenever a reader goes back to `retry`. -/
def Occupied (s : State) : Action → Prop
  | .resume w => w.rq.type = .reader → s.table.nodes ≠ []
  | _ => True

/-- Runs in which the counter tells and readers resume on tables with entries are free of
faults. -/
theorem no_fault_of_occupied (h : Reach (fun s => s = State.initial)
    (Guarded Step fun s a => s.SizeTells a ∧ s.RemovesTell a ∧ Occupied s a) s) :
    s.fault = none := by
  have hinv : s.Inv ∧ s.fault = none := by
    refine h.invariant (I := fun s => s.Inv ∧ s.fault = none) ?_ ?_
    · rintro s rfl
      exact ⟨inv_of_told (.start rfl), rfl⟩
    · rintro s a s' ⟨hI, hf⟩ ⟨⟨ht, hr, hocc⟩, hstep⟩
      refine ⟨hI.step ht hstep, ?_⟩
      -- only a resumed reader could fail, and it finds an entry
      cases hstep with
      | call rq _ =>
        obtain ⟨o, he, -⟩ := (lockRange_spec hI.consistent.ok ht).1 hr
        rw [State.call, he, State.settle_fault]
        exact hf
      | @resume w hw _ =>
        rcases resumeRange_spec hI.consistent.ok ht with ⟨htype, hnil, -⟩ | ⟨hok, -⟩
        · exact absurd hnil (hocc htype)
        · obtain ⟨o, he, -⟩ := hok hr
          rw [State.resume, he, State.settle_fault]
          exact hf
      | unlock hh _ =>
        obtain ⟨r, he, -⟩ := (hI.consistent.unlockRange_spec hh).1 hr
        simp only [State.unlock, he]
        exact hf
  exact hinv.2

end Resume
end EchoFs.RangeLock
