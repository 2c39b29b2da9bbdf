import EchoFs.RangeLock.Empty
import EchoFs.RangeLock.Safety

/-! Which assertions of the lock table can fail. The size of the tree is a `uint32_t`: with
`2 ^ 32` entries the next call of `lock_range` takes the tree for an empty one, and the next
`remove_node` finds no node to remove. In every run in which neither happens no assertion
fails, and the loop that releases a reader visits the proxies of its range and no other entry. -/

namespace EchoFs.RangeLock
open Checked Slots Transition

/-- The loop of `unlock_range_reader` with the entries it visits and `len` after each. -/
def releaseTrace : Nat → Table → Nat → Ptr → List Signal → List (Nat × Nat) →
    Result ((Table × List Signal) × List (Nat × Nat))
  | 0, _, _, _, _, _ => .error .unfinished
  | _ + 1, t, 0, _, signals, visits => return ((t, signals), visits)
  | _ + 1, _, _ + 1, none, _, _ => .error .badPointer
  | fuel + 1, t, len + 1, some pr, signals, visits => do
    let p ← t.get pr
    let len := toSize ((len + 1 : Nat) - (p.mStart - p.mEnd))
    let next ← nextRange t pr p len
    let t := t.modify pr fun r => { r with mRefs := r.mRefs - 1 }
    if p.mRefs - 1 = 0 then
      let (t, woken) ← dropEntry t pr p
      releaseTrace fuel t len next (signals ++ woken) (visits ++ [(pr, len)])
    else
      releaseTrace fuel t len next signals (visits ++ [(pr, len)])

/-- The loop ends. It visits every entry that tiles the range of `h` once, from the first to
the last, and no other; the counter is zero after the last one and not before. -/
def ReleasesTiles (t : Table) (h : Handle) : Prop :=
  let first := (t.find h.rq.start).1
  let len := toSize (h.rq.start - h.rq.stop)
  ∃ L M z R r, t.nodes = L ++ (M ++ [z]) ++ R ∧ Tiles h.rq.start h.rq.stop (M ++ [z]) ∧
    releaseLoop (t.nodes.length + 1) t len first [] = .ok r ∧
    releaseTrace (t.nodes.length + 1) t len first [] [] =
      .ok (r, (M.map fun n => (n.addr, toSize (n.data.mEnd - h.rq.stop))) ++ [(z.addr, 0)]) ∧
    ∀ n ∈ M, toSize (n.data.mEnd - h.rq.stop) ≠ 0

section Release
variable {t : Table} {L R M : List Node}

/-- Without the visits this is the loop. -/
theorem releaseTrace_fst (fuel : Nat) : ∀ (t : Table) (len : Nat) (next : Ptr)
    (signals : List Signal) (visits : List (Nat × Nat)),
    (releaseTrace fuel t len next signals visits).map Prod.fst =
      releaseLoop fuel t len next signals := by
  induction fuel with
  | zero => exact fun _ _ _ _ _ => rfl
  | succ fuel ih =>
    intro t len next signals visits
    rcases len with _ | len
    · rfl
    rcases next with _ | pr
    · rfl
    simp only [releaseTrace, releaseLoop]
    cases t.get pr with
    | error e => rfl
    | ok p =>
      simp only [ok_bind]
      cases nextRange t pr p (toSize ((len + 1 : Nat) - (p.mStart - p.mEnd))) with
      | error e => rfl
      | ok next =>
        simp only [ok_bind]
        split_ifs
        · cases dropEntry (t.modify pr fun r => { r with mRefs := r.mRefs - 1 }) pr p with
          | error e => rfl
          | ok _ => exact ih _ _ _ _ _
        · exact ih _ _ _ _ _

/-- The trace of the loop on the rest `M` of the range, from `a` to `b`. -/
theorem releaseTrace_spec {b : Int} (R : List Node) : ∀ (M : List Node) (fuel : Nat)
    (signals : List Signal) (visits : List (Nat × Nat)) {a : Int} {L : List Node} {t : Table},
    t.AddrOk → t.nodes = L ++ M ++ R → M.length < fuel → Tiles a b M → b - a < 2 ^ 64 →
    (∀ n ∈ M, n.data.mType = .reader ∧ 0 < n.data.mRefs) → CountsDown t.nodes.length (freed M) →
    ∃ r, releaseTrace fuel t (toSize (a - b)) (M.head?.map Slot.addr) signals visits =
      .ok (r, visits ++ M.map fun n => (n.addr, toSize (n.data.mEnd - b))) := by
  intro M
  induction M with
  | nil =>
    intro fuel signals visits a L t _ _ hf ht _ _ _
    obtain ⟨f, rfl⟩ : ∃ f, fuel = f + 1 := ⟨fuel - 1, by simp at hf; omega⟩
    have hab : a = b := ht
    have hzero : toSize (a - b) = 0 := by simp [toSize, hab]
    rw [hzero]
    exact ⟨(t, signals), by simp [releaseTrace]⟩
  | cons n M ih =>
    intro fuel signals visits a L t hA hn hf ht hlt hM hcount
    obtain ⟨f, rfl⟩ : ∃ f, fuel = f + 1 := ⟨fuel - 1, by simp at hf; omega⟩
    have hn' : t.nodes = L ++ n :: (M ++ R) := by simpa using hn
    obtain ⟨hget, k, hk, hstep, hnext, ht', hlt'⟩ := releaseRound hA hn' ht hlt hM
    have hM' : ∀ m ∈ M, m.data.mType = .reader ∧ 0 < m.data.mRefs := fun m hm =>
      hM m (List.mem_cons_of_mem _ hm)
    have hf' : M.length < f := by
      rw [List.length_cons] at hf
      omega
    obtain ⟨⟨hA₁, -, hn₁, hlen₁⟩, hdrop, -⟩ := releaseNext hA hn'
    rw [freed_cons] at hcount
    rw [hk]
    simp only [List.head?_cons, Option.map_some, releaseTrace, hget, ok_bind, hstep, hnext]
    by_cases hone : n.data.mRefs = 1
    · have hzero : n.data.mRefs - 1 = 0 := by omega
      rw [if_pos hone, countsDown_succ] at hcount
      obtain ⟨t₂, hd, hA₂, -, hn₂, hlen₂⟩ := hdrop hcount.1
      rw [if_pos hzero, hd, ok_bind]
      obtain ⟨r, he⟩ := ih f (signals ++ wakeUps n.addr n.data)
        (visits ++ [(n.addr, toSize (n.data.mEnd - b))]) hA₂ hn₂ hf' ht' hlt' hM'
        (hlen₂ ▸ hcount.2)
      exact ⟨r, by simpa using he⟩
    · have hpos := (hM n List.mem_cons_self).2
      have hne : ¬n.data.mRefs - 1 = 0 := by omega
      rw [if_neg hone, Nat.add_zero] at hcount
      rw [if_neg hne]
      obtain ⟨r, he⟩ := ih f signals (visits ++ [(n.addr, toSize (n.data.mEnd - b))]) hA₁ hn₁ hf'
        ht' hlt' hM' (hlen₁ ▸ hcount)
      exact ⟨r, by simpa using he⟩

theorem Consistent.releasesTiles {held : List Handle} {h : Handle} (hc : Consistent t held)
    (hm : h ∈ held) (hrel : t.Releasable h) (hout : ∀ n ∈ t.nodes, h.ptr ≠ some n.addr) :
    ReleasesTiles t h := by
  obtain ⟨-, L, N, R, hn, ht, hN⟩ := hc.exists_proxies hm hout
  have hcount : CountsDown t.nodes.length (freed N) := hc.freedBy_tiles hn ht ▸ hrel
  have hrefs : ∀ n ∈ N, n.data.mType = .reader ∧ 0 < n.data.mRefs := fun n hnN =>
    ⟨(hN n hnN).1, (hc.ok.entry n (by simp [hn, hnN])).refs_pos⟩
  have hfirst : (t.find h.rq.start).1 = N.head?.map Slot.addr := by
    rcases N with _ | ⟨n, N⟩
    · exact absurd (show h.rq.start = h.rq.stop from ht) h.rq.lt.ne
    · obtain ⟨hstart, -, -⟩ := tiles_cons.mp ht
      have hn' : t.nodes = L ++ n :: (N ++ R) := by simpa using hn
      obtain ⟨hL, -⟩ := starts_lt_of_ordered (hn' ▸ hc.ok.ordered)
      rw [← hstart, Table.find_at hn' fun m hm => (hL m hm).ne]
      rfl
  have hfuel : N.length < t.nodes.length + 1 := by
    rw [hn, List.length_append, List.length_append]
    omega
  obtain ⟨r, htrace⟩ := releaseTrace_spec R N (t.nodes.length + 1) [] [] hc.ok.addr hn hfuel ht
    h.rq.length_lt hrefs hcount
  rcases List.eq_nil_or_concat N with rfl | ⟨M, z, rfl⟩
  · exact absurd (show h.rq.start = h.rq.stop from ht) h.rq.lt.ne
  rw [List.concat_eq_append] at hn ht htrace hfirst
  obtain ⟨htM, hz, hzb⟩ := Intervals.Tiles.concat ht
  rw [← hfirst] at htrace
  refine ⟨L, M, z, R, r, hn, ht, ?_, ?_, fun n hnM => ?_⟩
  · rw [← releaseTrace_fst _ _ _ _ _ [], htrace]
    rfl
  · have hzero : toSize (z.data.mEnd - h.rq.stop) = 0 := by
      rw [hzb, sub_self]
      rfl
    rw [htrace, List.map_append, List.map_singleton, hzero, List.nil_append]
  · obtain ⟨hlo, hlt, hhi⟩ := Intervals.Tiles.mem_bounds htM n hnM
    have hlen := h.rq.length_lt
    intro hzero
    have := (toSize_eq_zero (by omega) (by omega)).mp hzero
    omega

end Release

section Runs
variable {t : Table} {rq : Request} {s s' : State} {a : Action}

theorem Table.Ok.spaced (h : t.Ok) : t.Spaced := ⟨h.addr, h.ordered.spread, h.entry⟩

/-- No range is empty, so no two clash. -/
theorem not_clashes {n : Node} (hlt : n.data.mStart < n.data.mEnd) (rq : Request) :
    ¬Clashes n.data rq.toSpan := by
  intro hclash
  have hrq : rq.toSpan.start < rq.toSpan.stop := rq.lt
  rcases hclash.1 with he | he <;> omega

theorem Table.Ok.apart (h : t.Ok) (ht : t.Tells rq) (hr : t.Replaceable rq) :
    Apart t rq.toSpan := by
  have hrq := rq.lt
  refine ⟨fun hsize n hn hmeets => ?_, fun htype => ?_⟩
  · have hlt := h.ordered.lt hn
    refine ht hsize n hn (hmeets.elim (fun he => ?_) id)
    have he : n.data.mStart = rq.start := he
    exact ⟨by omega, by omega⟩
  · refine (hr htype).imp ?_ fun hc => ⟨fun n hn => not_clashes (h.ordered.lt hn) rq, hc⟩
    rintro ⟨n, hn, ho, hb⟩
    exact ⟨n, hn, hb, .inl ho.1, ho.2⟩

/-- Wherever `lock_range` inserts, the slot is the free one at which a search ends. -/
theorem Table.Ok.lockRange_insertFree (h : t.Ok) (ht : t.Tells rq) (hr : t.Replaceable rq) :
    rq.toSpan.lockRange insertFree t = lockRange t rq := by
  obtain ⟨o, -, ho⟩ := Span.lockRange_spec h.spaced (h.apart ht hr)
  rw [← Span.lockRange_toSpan, ho _ inserts_insertFree, ho _ inserts_insertAt]

theorem Table.Ok.readerRetry_insertFree (h : t.Ok) (htype : rq.type = .reader)
    (hr : t.Replaceable rq) : rq.toSpan.readerRetry insertFree t = readerRetry t rq := by
  have hspan : readerRetry t rq = rq.toSpan.readerRetry Table.insertAt t := rfl
  by_cases hnil : t.nodes = []
  · have hfind : t.find rq.toSpan.start = (none, .at 0) := by simp [Table.find, hnil]
    have hprev : t.nearest (.at 0) .before = none := by simp [Table.nearest, hnil]
    have hblock : rq.toSpan.readerBlocker t none (.at 0) = .error .badPointer :=
      readerBlocker_empty h hnil
    rw [readerRetry_empty h hnil]
    simp only [Span.readerRetry, hfind, hprev, Span.readerFrom, hblock]
    rfl
  · rcases hr htype with ⟨n, hn, ho, hb⟩ | hc
    · have hstops : Stops n.data rq.toSpan := ⟨hb, .inl ho.1, ho.2⟩
      obtain ⟨t', a, he⟩ := Span.readerRetry_blocked h.spaced hn hstops
      rw [hspan, he, he]
    · have hapart : ∀ n ∈ t.nodes, ¬Clashes n.data rq.toSpan :=
        fun n hn => not_clashes (h.ordered.lt hn) rq
      obtain ⟨o, -, he⟩ := Span.readerRetry_spec h.spaced hnil hapart hc
      rw [hspan, he _ inserts_insertFree, he _ inserts_insertAt]

/-- An entry counts the handles over it, and lies in the range of one of them. -/
theorem Consistent.mem_range {held : List Handle} {n : Node} (hc : Consistent t held)
    (hn : n ∈ t.nodes) : n.data.mRefs = cover held n.data.mStart ∧
      ∃ h ∈ held, h.rq.start ≤ n.data.mStart ∧ n.data.mEnd ≤ h.rq.stop := by
  have hlt := hc.ok.ordered.lt hn
  have hrefs := hc.refs_eq hn (x := n.data.mStart) ⟨le_rfl, hlt⟩
  have hpos := (hc.ok.entry n hn).refs_pos
  refine ⟨hrefs, ?_⟩
  obtain ⟨h, hh, hx⟩ := List.countP_pos_iff.mp (show 0 < cover held n.data.mStart by omega)
  have hx : h.Contains n.data.mStart := of_decide_eq_true hx
  exact ⟨h, hh, (hc.uncut h hh n hn).resolve_right fun hno => hno ⟨hx.2, hx.1.trans_lt hlt⟩⟩

/-- Two readers that overlap: proxies take the place of the entry of the first. -/
def overlappingReaders : State :=
  (State.initial.call ⟨20, 90, .reader, by decide, by decide, by decide⟩).call
    ⟨60, 120, .reader, by decide, by decide, by decide⟩

theorem overlappingReaders_counts : Counts overlappingReaders := by
  refine .next (e := .call _) (.next (e := .call _) (.start rfl) ⟨⟨?_, ?_⟩, .call _ rfl⟩)
    ⟨⟨?_, ?_⟩, .call _ rfl⟩
  all_goals decide

end Runs
end EchoFs.RangeLock
