import EchoFs.RangeLock.Manager

/-! What callers may rely on in every reachable state of `lock_manager`: mutual
exclusion, a table that holds exactly the ranges of the handles, and no waiter
that is forgotten. -/

namespace EchoFs.RangeLock
open Checked Slots Transition

section Safety
variable {s : State}

theorem State.settle_table (s : State) (id : Nat) (rq : Request) (o : Outcome) :
    (s.settle id rq (.ok o)).table = o.table := by
  cases o <;> rfl

/-- A writer's range has an entry of its own with a single reference. -/
theorem Consistent.not_writer {t : Table} {held : List Handle} (hc : Consistent t held)
    {h h' : Handle} (hh : h ∈ held) (hh' : h' ∈ held) (hne : h ≠ h') {x : Int}
    (hx : h.Contains x) (hx' : h'.Contains x) : h.rq.type ≠ .writer := by
  intro hw
  cases hp : h.ptr with
  | none =>
    rw [hc.unlinked h hh hp] at hw
    exact absurd hw (by simp)
  | some a =>
    rcases hc.linked h hh a hp with ⟨n, hn, -, hown⟩ | ⟨hr, -⟩
    · have hrefs := hc.refs_eq hn (x := x)
        ⟨hown.start ▸ hx.1, hown.stop ▸ hx.2⟩
      rw [(hc.ok.entry n hn).refs_one hown.isProxy] at hrefs
      have htwo := two_le_cover hh hh' hne hx hx'
      omega
    · rw [hr] at hw
      exact absurd hw (by simp)

/-- A writer whose range is free gets an entry of its own. -/
theorem lockRange_writer_free {t : Table} {rq : Request} (h : t.Ok) (htype : rq.type = .writer)
    (hfree : ∀ n ∈ t.nodes, ¬Overlaps n.data rq.start rq.stop) :
    ∃ t' L R b, lockRange t rq = .ok (.granted t' (some b)) ∧ t.nodes = L ++ R ∧
      (∀ m ∈ L, m.data.mEnd ≤ rq.start) ∧ (∀ m ∈ R, rq.stop ≤ m.data.mStart) ∧
      t'.nodes = L ++ ⟨b, Range.new rq.start rq.stop .writer⟩ :: R := by
  obtain ⟨o, he, hstep⟩ := (lockRange_spec h fun _ => hfree).1 (replaceable_of_writer htype)
  cases hstep with
  | @alone t' L R b type hn hL hR htype' hA hr hn' =>
    have hw : type = .writer := by rw [htype', htype]
    exact ⟨t', L, R, b, he, hn, hL, hR, hw ▸ hn'⟩
  | shared htype' => simp [htype] at htype'
  | reader htype' => simp [htype] at htype'
  | writer _ hn ho => exact absurd ho (hfree _ hn)

def firstReader : Request := ⟨0, 10, .reader, by decide, by decide, by decide⟩

/-- A reader at the front of the table, and `k` writers behind it. -/
structure Crowded (k : Nat) (s : State) : Prop where
  counts : Counts s
  fault : s.fault = none
  held : ⟨0, firstReader, some 1⟩ ∈ s.held
  nodes : ∃ W, s.table.nodes = ⟨1, Range.new 0 10 .reader⟩ :: W ∧ W.length = k ∧
    ∀ n ∈ W, 10 ≤ n.data.mStart ∧ n.data.mEnd ≤ 10 + k

theorem crowded_zero : Crowded 0 (State.initial.call firstReader) :=
  ⟨.next (e := .call _) (.start rfl) ⟨⟨by decide, by decide⟩, .call _ rfl⟩, rfl,
    List.mem_cons_self, [], rfl, rfl, by simp⟩

/-- One more writer, whatever the counter shows: its range is free. -/
theorem Crowded.next {k : Nat} (hs : Crowded k s) (hk : k < 2 ^ 32) :
    ∃ s', Crowded (k + 1) s' := by
  have hOk := (inv_of_told hs.counts.told).consistent.ok
  obtain ⟨W, hn, hlen, hW⟩ := hs.nodes
  have hends : ∀ n ∈ s.table.nodes, n.data.mEnd ≤ 10 + k := by
    intro n hmem
    rw [hn] at hmem
    rcases List.mem_cons.mp hmem with rfl | hmem
    · simp only [Range.new]
      omega
    · exact (hW n hmem).2
  have hfree : ∀ n ∈ s.table.nodes, ¬Overlaps n.data (10 + k) (11 + k) := fun n hmem ho =>
    absurd (hends n hmem) (not_le.mpr ho.2)
  have hwriter : (⟨10 + k, 11 + k, .writer, by omega, by omega, by omega⟩ : Request).type =
      .writer := rfl
  obtain ⟨t', L, R, b, he, hLR, -, hR, hn'⟩ := lockRange_writer_free hOk hwriter hfree
  obtain rfl : R = [] := by
    refine List.eq_nil_iff_forall_not_mem.mpr fun m hm => ?_
    have hmem : m ∈ s.table.nodes := by simp [hLR, hm]
    have := hR m hm
    have := hends m hmem
    have := hOk.ordered.lt hmem
    simp only at *
    omega
  rw [List.append_nil] at hLR
  refine ⟨s.call ⟨10 + k, 11 + k, .writer, by omega, by omega, by omega⟩,
    .next (e := .call _) hs.counts ⟨⟨fun _ => hfree, replaceable_of_writer rfl⟩,
      .call _ hs.fault⟩, ?_, ?_, W ++ [⟨b, Range.new (10 + k) (11 + k) .writer⟩], ?_, ?_, ?_⟩
  · rw [State.call, he]
    exact hs.fault
  · rw [State.call, he]
    exact List.mem_cons_of_mem _ hs.held
  · rw [State.call, he, State.settle_table, Outcome.table, hn', ← hLR, hn, List.cons_append]
  · simp [hlen]
  · intro n hmem
    rcases List.mem_append.mp hmem with hmem | hmem
    · have := hW n hmem
      omega
    · obtain rfl := List.mem_singleton.mp hmem
      simp only [Range.new]
      omega

theorem exists_crowded (k : Nat) (hk : k ≤ 2 ^ 32) : ∃ s, Crowded k s := by
  induction k with
  | zero => exact ⟨_, crowded_zero⟩
  | succ k ih =>
    obtain ⟨s, hs⟩ := ih (by omega)
    exact hs.next (by omega)

def innerWriter : Request := ⟨5, 6, .writer, by decide, by decide, by decide⟩

/-- With `2 ^ 32` entries the tree looks empty, and a writer is let into the reader's range. -/
theorem Crowded.lets_in (hs : Crowded (2 ^ 32 - 1) s) : ∃ t W b,
    lockRange s.table innerWriter = .ok (.granted t (some b)) ∧ t.AddrOk ∧
      t.nodes = ⟨1, Range.new 0 10 .reader⟩ :: ⟨b, Range.new 5 6 .writer⟩ :: W ∧
      W.length = 2 ^ 32 - 1 ∧ Keyed t.nodes := by
  have hOk := (inv_of_told hs.counts.told).consistent.ok
  obtain ⟨W, hn, hlen, hW⟩ := hs.nodes
  have hsize : s.table.size = 0 := by
    simp only [Table.size, hn, List.length_cons, hlen]
    norm_num
  obtain ⟨t, b, hadd, hA, -, hn'⟩ := Table.add_spec hOk.addr
    (L := [⟨1, Range.new 0 10 .reader⟩]) (R := W) (r := Range.new 5 6 .writer) hn
    (by simp [Range.new])
    (fun m hm => by
      have := (hW m hm).1
      simp only [Range.new]
      omega)
  refine ⟨t, W, b, ?_, hA, hn', hlen, ?_⟩
  · show lockRangeWriter s.table innerWriter = _
    unfold lockRangeWriter
    simp only [if_pos hsize, innerWriter, hadd, ok_bind, pure_eq_ok]
  · have hkeyed := hOk.ordered.spread.keyed
    rw [hn] at hkeyed
    obtain ⟨hfirst, hrest⟩ := List.pairwise_cons.mp hkeyed
    rw [hn']
    refine List.pairwise_cons.mpr ⟨fun m hm => ?_, List.pairwise_cons.mpr ⟨fun m hm => ?_, hrest⟩⟩
    · rcases List.mem_cons.mp hm with rfl | hm
      · simp [Range.new]
      · exact hfirst m hm
    · have := (hW m hm).1
      simp only [Range.new]
      omega

/-- Two overlapping readers and a writer that waits for them. -/
def sharedRun : State :=
  ((State.initial.call ⟨0, 10, .reader, by decide, by decide, by decide⟩).call
    ⟨5, 15, .reader, by decide, by decide, by decide⟩).call
      ⟨8, 20, .writer, by decide, by decide, by decide⟩

theorem sharedRun_counts : Counts sharedRun := by
  refine .next (e := .call _) (.next (e := .call _) (.next (e := .call _) (.start rfl)
    ⟨⟨?_, ?_⟩, .call _ rfl⟩) ⟨⟨?_, ?_⟩, .call _ rfl⟩) ⟨⟨?_, ?_⟩, .call _ rfl⟩
  all_goals decide

def refsAt (l : List Node) (x : Int) : Int :=
  match l.find? fun n => n.data.mStart ≤ x ∧ x < n.data.mEnd with
  | some n => n.data.mRefs
  | none => 0

theorem refsAt_eq_weightAt {l : List Node} (hO : Ordered l) (x : Int) :
    refsAt l x = weightAt l x := by
  unfold refsAt
  cases hf : l.find? fun n => n.data.mStart ≤ x ∧ x < n.data.mEnd with
  | some n =>
    have hx := List.find?_some hf
    simp only [decide_eq_true_eq] at hx
    exact (Intervals.weightAt_eq (w := fun n => n.data.mRefs) hO (List.mem_of_find?_eq_some hf)
      hx).symm
  | none =>
    rw [List.find?_eq_none] at hf
    simp only [decide_eq_true_eq] at hf
    exact (Intervals.weightAt_eq_zero hf).symm

theorem Consistent.nodes_nil {t : Table} (hc : Consistent t []) : t.nodes = [] := by
  by_contra hne
  obtain ⟨n, l, hn⟩ := List.exists_cons_of_ne_nil hne
  have hmem : n ∈ t.nodes := by simp [hn]
  have hrefs := hc.refs_eq hmem (x := n.data.mStart) ⟨le_rfl, hc.ok.ordered.lt hmem⟩
  have hpos := (hc.ok.entry n hmem).refs_pos
  simp only [cover, List.countP_nil] at hrefs
  omega

/-- What a step of any thread does to an entry that somebody waits on. -/
theorem State.Inv.persists {a : Action} {s' : State} (hI : s.Inv) (ht : s.SizeTells a)
    (hr : s.RemovesTell a) (hstep : Step s a s') {n : Node} (hn : n ∈ s.table.nodes)
    {type : LockType} (hw : n.data.wanted type = true) :
    (∃ n' ∈ s'.table.nodes, Persists n n') ∨
      n.addr ∉ addrs (s'.table.nodes ++ s'.table.removed) ∧
        (∃ h, a = .unlock h) ∧ ∀ w ∈ s.waiters, w.node = n.addr → n.data.wanted w.rq.type = true →
          { w with notified := true } ∈ s'.waiters := by
  cases hstep with
  | call rq _ =>
    obtain ⟨o, he, hstep⟩ := (lockRange_spec hI.consistent.ok ht).1 hr
    rw [State.call, he, State.settle_table]
    exact .inl (hstep.persists hI.consistent.ok hn hw)
  | @resume w _ _ =>
    rcases resumeRange_spec hI.consistent.ok ht with ⟨-, -, he⟩ | ⟨hok, -⟩
    · rw [State.resume, he]
      exact .inl ⟨n, hn, .refl n⟩
    · obtain ⟨o, he, hstep⟩ := hok hr
      rw [State.resume, he, State.settle_table]
      exact .inl (hstep.persists hI.consistent.ok hn hw)
  | @unlock h hh _ =>
    obtain ⟨⟨t, signals⟩, he, hstep⟩ := (hI.consistent.unlockRange_spec hh).1 hr
    simp only [State.unlock, he]
    rcases hstep.persists hI.consistent.ok.addr hn with hp | ⟨hgone, hall⟩
    · exact .inl hp
    · refine .inr ⟨hgone, ⟨h, rfl⟩, fun w hwm hnode hwant => ?_⟩
      have hsig : (⟨w.node, w.rq.type⟩ : Signal) ∈ signals := hnode ▸ hall _ hwant
      exact List.mem_map.mpr ⟨w, hwm, by simp [State.wake, hsig]⟩

def frontReader : Request := ⟨0, 8, .reader, by decide, by decide, by decide⟩

def rearReader : Request := ⟨8, 10, .reader, by decide, by decide, by decide⟩

section Unordered
variable {t : Table} {W : List Node} {b : Nat}

/-- A reader that ends inside the first entry does not look at the next one, and splits the
first entry over it. -/
theorem lockRange_frontReader (hA : t.AddrOk) (hO : Keyed t.nodes)
    (hn : t.nodes = ⟨1, Range.new 0 10 .reader⟩ :: ⟨b, Range.new 5 6 .writer⟩ :: W)
    (hlen : W.length = 2 ^ 32 - 1) :
    ∃ t' c d, lockRange t frontReader = .ok (.granted t' none) ∧ t'.AddrOk ∧
      t'.nodes = ⟨c, proxy 0 8 2⟩ :: ⟨d, proxy 8 10 1⟩ :: ⟨b, Range.new 5 6 .writer⟩ :: W := by
  have hcount : t.nodes.length % 2 ^ 32 = 1 := by
    rw [hn, List.length_cons, List.length_cons, hlen]
    norm_num
  have hsize : ¬t.size = 0 := by
    rw [Table.size, hcount]
    exact one_ne_zero
  have hget : t.get 1 = .ok (Range.new 0 10 .reader) := Table.get_at hA (L := []) hn
  have hfind : t.find 0 = (some 1, .null) := Table.find_at (L := []) hn (by simp)
  have hs : Shareable (Range.new 0 10 .reader) := by
    constructor <;> simp [Range.new]
  have hstart : (Range.new 0 10 .reader).mStart < 8 := by decide
  obtain ⟨t₁, c, d, hsplit, hA₁, -, hn₁⟩ := rangeSplit_spec hA hO (L := []) hn hs hstart
    (show (8 : Int) < 10 by decide)
    (fun _ => by rw [hcount]; exact one_ne_zero)
  obtain ⟨hA₂, -, hn₂⟩ := bumpRefs_spec hA₁ (L := []) hn₁
  refine ⟨bumpRefs t₁ c, c, d, ?_, hA₂, hn₂⟩
  have hsplit : rangeSplit t 1 8 = .ok (t₁, c, d) := hsplit
  have hblocker : readerBlocker t frontReader (some 1) .null = .ok none := by
    simp only [readerBlocker, hget, ok_bind]
    rfl
  have hloop : addReaderLoop 8 (t.nodes.length + 1) t none (some 1) = .ok (bumpRefs t₁ c) := by
    simp only [addReaderLoop, hget, ok_bind, fillGap, hsplit, pure_eq_ok]
    rfl
  have hadd : addReader t (Range.new 0 8 .reader) (some 1) .null = .ok (bumpRefs t₁ c, none) := by
    have hprev : splitPrev t 0 (some 1) = .ok (t, some 1) := by
      simp only [splitPrev, hget, ok_bind]
      rfl
    have hstart : checkStart t 0 (some 1) = .ok () := by
      simp only [checkStart, hget, ok_bind]
      rfl
    have hstop : ¬(8 : Int) ≤ (Range.new 0 10 .reader).mStart := by decide
    have hgap : ¬(0 : Int) < (Range.new 0 10 .reader).mStart := by decide
    simp only [addReader, show (Range.new 0 8 .reader).mStart = 0 from rfl,
      show (Range.new 0 8 .reader).mEnd = 8 from rfl, hprev, hstart, ok_bind, hget, if_neg hstop,
      if_neg hgap, pure_eq_ok, hloop]
  show lockRangeReader t frontReader = _
  simp only [lockRangeReader, if_neg hsize, readerRetry, show frontReader.start = 0 from rfl,
    show frontReader.stop = 8 from rfl, hfind, readerFrom, hblocker, ok_bind, hadd, pure_eq_ok]

/-- A reader of the rear piece goes on to the entry that stands after it now, and waits there. -/
theorem lockRange_rearReader {c d : Nat} (hA : t.AddrOk) (hlen : W.length = 2 ^ 32 - 1)
    (hn : t.nodes = ⟨c, proxy 0 8 2⟩ :: ⟨d, proxy 8 10 1⟩ :: ⟨b, Range.new 5 6 .writer⟩ :: W) :
    lockRange t rearReader =
      .ok (.blocked (t.modify b fun r => { r with mReadWanted := true }) b) := by
  have hsize : ¬t.size = 0 := by
    rw [Table.size, hn, List.length_cons, List.length_cons, List.length_cons, hlen]
    norm_num
  have hget : t.get d = .ok (proxy 8 10 1) := Table.get_at hA (L := [⟨c, proxy 0 8 2⟩]) hn
  have hnext : t.next d = some b := Table.next_node hA (n := ⟨d, proxy 8 10 1⟩)
    (L := [⟨c, proxy 0 8 2⟩]) hn
  have hgetb : t.get b = .ok (Range.new 5 6 .writer) :=
    Table.get_at hA (L := [⟨c, proxy 0 8 2⟩, ⟨d, proxy 8 10 1⟩]) hn
  have hfind : t.find 8 = (some d, .null) :=
    Table.find_at (n := ⟨d, proxy 8 10 1⟩) (L := [⟨c, proxy 0 8 2⟩]) hn
      (by simp [proxy, Range.new])
  have hscan : readerScan t 10 (t.nodes.length + 1) (some b) = .ok (some b) := by
    simp only [readerScan, hgetb, ok_bind]
    rfl
  have hblocker : readerBlocker t rearReader (some d) .null = .ok (some b) := by
    simp only [readerBlocker, hget, ok_bind, readerScanFrom, hnext,
      show rearReader.stop = 10 from rfl, hscan]
    rfl
  show lockRangeReader t rearReader = _
  simp only [lockRangeReader, if_neg hsize, readerRetry, show rearReader.start = 8 from rfl, hfind,
    readerFrom, hblocker, ok_bind, pure_eq_ok]

end Unordered

end Safety
end EchoFs.RangeLock
