import EchoFs.RangeLock.Manager

/-! `lock_range` on ranges that may be empty, as truncating a file to its size and unloading
an empty file ask for. An empty entry has a key like any other, so a search can end at it
without an insertion point, and an empty reader can split the entry it lies in. -/

namespace EchoFs.RangeLock
open Checked Slots Transition

/-- The arguments of `lock_range`: two values of `off_t` with `start ≤ end`. -/
structure Span where
  start : Int
  stop : Int
  type : LockType
  le : start ≤ stop
  lower : -2 ^ 63 ≤ start
  upper : stop < 2 ^ 63

def Request.toSpan (rq : Request) : Span :=
  ⟨rq.start, rq.stop, rq.type, rq.lt.le, rq.lower, rq.upper⟩

/-- What the functions below call as `insert_at`. -/
abbrev Insert := Table → Range → Index → Result (Table × Nat)

/-- `insert_at`, with the requirement that the insertion point is the free slot at
which a search of the tree as it is now ends. -/
def insertFree : Insert := fun t r index => do
  check (t.find r.mStart = (none, index))
  t.insertAt r index

namespace Span

def addReader (insertAt : Insert) (t : Table) (newRange : Range) (prev : Ptr) (index : Index) :
    Result (Table × Ptr) := do
  let start := newRange.mStart
  let stop := newRange.mEnd
  let (t, prev) ← splitPrev t start prev
  checkStart t start prev
  let next := match prev with
    | some p => some p
    | none => t.nearest index .after
  match next with
  | none => do
    let (t, a) ← insertAt t newRange index
    return (t, some a)
  | some a => do
    let n ← t.get a
    if stop ≤ n.mStart then
      let (t, a) ← insertAt t newRange index
      return (t, some a)
    else
      let t ← if start < n.mStart then rangeNewProxy t start (n.mStart - start) else pure t
      let t ← addReaderLoop stop (t.nodes.length + 1) t none (some a)
      return (t, none)

def readerScanFrom (rq : Span) (t : Table) (prev : Ptr) (index : Index) : Result Ptr :=
  readerScan t rq.stop (t.nodes.length + 1) <| match prev with
    | some p => t.next p
    | none => t.nearest index .after

def readerBlocker (rq : Span) (t : Table) (prev : Ptr) (index : Index) : Result Ptr :=
  match prev with
  | none => rq.readerScanFrom t prev index
  | some p => do
    let pr ← t.get p
    if rq.start < pr.mEnd then
      if pr.mType = .writer ∨ pr.mWriteWanted then
        return some p
      else if rq.stop < pr.mEnd then
        return none
      else
        rq.readerScanFrom t prev index
    else
      rq.readerScanFrom t prev index

def readerFrom (rq : Span) (insertAt : Insert) (t : Table) (prev : Ptr) (index : Index) :
    Result Outcome := do
  match ← rq.readerBlocker t prev index with
  | some a => return .blocked (t.modify a fun r => { r with mReadWanted := true }) a
  | none => do
    let (t, ptr) ← addReader insertAt t (Range.new rq.start rq.stop .reader) prev index
    return .granted t ptr

def readerRetry (rq : Span) (insertAt : Insert) (t : Table) : Result Outcome :=
  let (found, index) := t.find rq.start
  let prev := match found with
    | some p => some p
    | none => t.nearest index .before
  rq.readerFrom insertAt t prev index

def lockRangeReader (rq : Span) (insertAt : Insert) (t : Table) : Result Outcome := do
  if t.size = 0 then
    let (t, a) ← t.add (Range.new rq.start rq.stop .reader)
    return .granted t (some a)
  else
    rq.readerRetry insertAt t

def nextBlocker (rq : Span) (t : Table) (next : Ptr) : Result Ptr :=
  match next with
  | none => return none
  | some a => do
    let n ← t.get a
    return if n.mStart < rq.stop then some a else none

def prevBlocker (rq : Span) (t : Table) (prev : Ptr) : Result Ptr :=
  match prev with
  | none => return none
  | some a => do
    let n ← t.get a
    return if n.mEnd > rq.start then some a else none

def writerBlocker (rq : Span) (t : Table) (found : Ptr) (index : Index) : Result Ptr :=
  match found with
  | some a => return some a
  | none => do
    match ← rq.nextBlocker t (t.nearest index .after) with
    | some a => return some a
    | none => rq.prevBlocker t (t.nearest index .before)

def lockRangeWriter (rq : Span) (insertAt : Insert) (t : Table) : Result Outcome := do
  let newRange := Range.new rq.start rq.stop .writer
  if t.size = 0 then
    let (t, a) ← t.add newRange
    return .granted t (some a)
  else
    let (found, index) := t.find rq.start
    match ← rq.writerBlocker t found index with
    | some a => return .blocked (t.modify a fun r => { r with mWriteWanted := true }) a
    | none => do
      let (t, a) ← insertAt t newRange index
      return .granted t (some a)

/-- One critical section of `lock_range`. -/
def lockRange (rq : Span) (insertAt : Insert) (t : Table) : Result Outcome :=
  match rq.type with
  | .reader => rq.lockRangeReader insertAt t
  | .writer => rq.lockRangeWriter insertAt t

/-- On a range that is not empty this is the `lock_range` of the lock manager. -/
theorem lockRange_toSpan (t : Table) (rq : Request) :
    rq.toSpan.lockRange Table.insertAt t = RangeLock.lockRange t rq := by
  cases htype : rq.type
  · simp only [lockRange, RangeLock.lockRange, Request.toSpan, htype]
    rfl
  · simp only [lockRange, RangeLock.lockRange, Request.toSpan, htype]
    rfl

end Span

/-- Some entry of the tree holds the offset `x`. -/
def Covered (l : List Node) (x : Int) : Prop :=
  ∃ n ∈ l, n.data.mStart ≤ x ∧ x < n.data.mEnd

theorem covered_cons {n : Node} {l : List Node} {x : Int} :
    Covered (n :: l) x ↔ (n.data.mStart ≤ x ∧ x < n.data.mEnd) ∨ Covered l x := by
  simp [Covered]

theorem covered_append {l r : List Node} {x : Int} :
    Covered (l ++ r) x ↔ Covered l x ∨ Covered r x := by
  simp [Covered, or_and_right, exists_or]

/-- An entry and a new range that meet while one of them is empty: they start at one
offset, or the empty one lies inside the other. -/
def Clashes (r : Range) (rq : Span) : Prop :=
  (r.mStart = r.mEnd ∨ rq.start = rq.stop) ∧
    (r.mStart = rq.start ∨ Overlaps r rq.start rq.stop)

instance (r : Range) (rq : Span) : Decidable (Clashes r rq) :=
  inferInstanceAs (Decidable (_ ∧ _))

/-- An entry that a reader of the range waits for: one that blocks readers and overlaps the
range, or holds the offset where it starts. -/
def Stops (r : Range) (rq : Span) : Prop :=
  BlocksReader r ∧ (r.mStart < rq.stop ∨ r.mStart = rq.start) ∧ rq.start < r.mEnd

instance (r : Range) (rq : Span) : Decidable (Stops r rq) :=
  inferInstanceAs (Decidable (_ ∧ _))

/-- A size of zero hides no entry that starts where the range does or overlaps it. -/
def Shown (t : Table) (rq : Span) : Prop :=
  t.size = 0 → ∀ n ∈ t.nodes, ¬(n.data.mStart = rq.start ∨ Overlaps n.data rq.start rq.stop)

instance (t : Table) (rq : Span) : Decidable (Shown t rq) :=
  inferInstanceAs (Decidable (_ → ∀ n ∈ t.nodes, _))

/-- The size hides nothing from the call, and a new reader has to wait, or clashes with no
entry of the tree and can replace the entries that it shares. -/
def Apart (t : Table) (rq : Span) : Prop :=
  Shown t rq ∧ (rq.type = .reader → (∃ n ∈ t.nodes, Stops n.data rq) ∨
    (∀ n ∈ t.nodes, ¬Clashes n.data rq) ∧
      Countable rq.stop rq.start t.nodes.length t.nodes)

instance (t : Table) (rq : Span) : Decidable (Apart t rq) :=
  inferInstanceAs (Decidable (_ ∧ (_ → _)))

/-- The call has to wait. -/
def Blocks (t : Table) (rq : Span) : Prop :=
  ∃ t' a, rq.lockRange Table.insertAt t = .ok (.blocked t' a)

instance (t : Table) (rq : Span) : Decidable (Blocks t rq) :=
  match h : rq.lockRange Table.insertAt t with
  | .ok (.blocked t' a) => isTrue ⟨t', a, h⟩
  | .ok (.granted _ _) => isFalse fun ⟨_, _, hb⟩ => by rw [h] at hb; simp at hb
  | .error _ => isFalse fun ⟨_, _, hb⟩ => by rw [h] at hb; simp at hb

/-- One call of `lock_range`, up to its end or to the point where it waits. -/
inductive Called (t : Table) (rq : Span) : Table → Prop
  | granted {t' : Table} (ptr : Ptr) :
      rq.lockRange Table.insertAt t = .ok (.granted t' ptr) → Called t rq t'
  | blocked {t' : Table} {a : Nat} :
      rq.lockRange Table.insertAt t = .ok (.blocked t' a) → Called t rq t'

/-- The call ends with the lock. It meets no failed assertion and no bad pointer, it inserts
at a free slot of the tree as it is then, and it leaves no offset uncovered. -/
def Undamaged (t : Table) (rq : Span) : Prop :=
  ∃ t' ptr, rq.lockRange Table.insertAt t = .ok (.granted t' ptr) ∧
    rq.lockRange insertFree t = .ok (.granted t' ptr) ∧
    ∀ x, Covered t.nodes x → Covered t'.nodes x

/-- The lock table between two calls of `lock_range`, when entries may be empty. -/
structure Table.Spaced (t : Table) : Prop where
  addr : t.AddrOk
  spread : Spread t.nodes
  entry : ∀ n ∈ t.nodes, EntryOk n.data

/-- What is left of the table after a call, wherever it inserts. -/
def Kept (t : Table) : Outcome → Prop
  | .granted t' _ => t'.Spaced ∧ ∀ x, Covered t.nodes x → Covered t'.nodes x
  | .blocked _ _ => True

/-- The parameter does what `insert_at` does wherever that is called as it should be. -/
def Inserts (insertAt : Insert) : Prop :=
  ∀ t r index, t.find r.mStart = (none, index) → insertAt t r index = t.insertAt r index

theorem inserts_insertAt : Inserts Table.insertAt := fun _ _ _ _ => rfl

theorem inserts_insertFree : Inserts insertFree := by
  intro t r index h
  simp only [insertFree, check_ok h, ok_bind]

section Walk
variable {hi lo x : Int} {l l' : List Node}

/-- The walk of `add_reader` keeps the order when it meets no empty entry. -/
theorem Share.spread (h : Share hi lo l l') (hO : Spread l) (hl : ∀ m ∈ l, lo ≤ m.data.mStart)
    (hne : ∀ m ∈ l, m.data.mStart < hi → m.data.mStart < m.data.mEnd) :
    Spread l' ∧ ∀ m ∈ l', lo ≤ m.data.mStart := by
  induction h with
  | tail a hlt hge =>
    refine ⟨spread_cons.mpr ⟨hlt.le, fun m hm => ⟨hge m hm, hlt.trans_le (hge m hm)⟩, hO⟩, ?_⟩
    simpa using hl
  | @gap lo n l l' a hlt hn hsh ih =>
    obtain ⟨ihO, ihl⟩ := ih hO (hO.le_starts (L := [])) hne
    refine ⟨spread_cons.mpr ⟨hlt.le, fun m hm => ⟨ihl m hm, hlt.trans_le (ihl m hm)⟩, ihO⟩, ?_⟩
    simpa using fun m hm => hlt.le.trans (ihl m hm)
  | @exact n l a hs he =>
    refine ⟨Spread.replace (L := []) hO rfl rfl, ?_⟩
    simpa using fun m hm => hl m (List.mem_cons_of_mem _ hm)
  | @split n l a b hs h₁ h₂ =>
    have hO' := Spread.split (L := []) (a := a) (b := b) (r := n.data.mRefs + 1)
      (s := n.data.mRefs) hO h₁ h₂
    refine ⟨hO', ?_⟩
    simpa [h₁.le] using fun m hm => hl m (List.mem_cons_of_mem _ hm)
  | @whole n l l' a hs he hsh ih =>
    obtain ⟨hn, hnl, hOl⟩ := spread_cons.mp hO
    have hlen := hne n List.mem_cons_self (hn.trans_lt he)
    obtain ⟨ihO, ihl⟩ := ih hOl (fun m hm => (hnl m hm).1)
      fun m hm => hne m (List.mem_cons_of_mem _ hm)
    refine ⟨spread_cons.mpr ⟨hn, fun m hm => ⟨ihl m hm, hlen.trans_le (ihl m hm)⟩, ihO⟩, ?_⟩
    simpa using fun m hm => hn.trans (ihl m hm)

theorem Share.entryOk (h : Share hi lo l l') (hl : ∀ m ∈ l, EntryOk m.data) :
    ∀ m ∈ l', EntryOk m.data := by
  induction h with
  | tail a hlt hge => simpa using ⟨(shareable_proxy one_pos).entryOk, hl⟩
  | gap a hlt hn hsh ih => simpa using ⟨(shareable_proxy one_pos).entryOk, ih hl⟩
  | exact a hs he =>
    have hpos := hs.refs
    simpa using ⟨(shareable_proxy (by omega)).entryOk, fun m hm => hl m (List.mem_cons_of_mem _ hm)⟩
  | split a b hs h₁ h₂ =>
    have hpos := hs.refs
    simpa using ⟨(shareable_proxy (by omega)).entryOk, (shareable_proxy hpos).entryOk,
      fun m hm => hl m (List.mem_cons_of_mem _ hm)⟩
  | whole a hs he hsh ih =>
    have hpos := hs.refs
    simpa using ⟨(shareable_proxy (by omega)).entryOk,
      ih fun m hm => hl m (List.mem_cons_of_mem _ hm)⟩

theorem Share.covered (h : Share hi lo l l') (hc : Covered l x) : Covered l' x := by
  induction h with
  | tail a hlt hge => exact covered_cons.mpr (.inr hc)
  | gap a hlt hn hsh ih => exact covered_cons.mpr (.inr (ih hc))
  | exact a hs he =>
    rw [covered_cons] at hc ⊢
    exact hc
  | split a b hs h₁ h₂ =>
    rw [covered_cons] at hc
    rw [covered_cons, covered_cons]
    simp only [proxy_mStart, proxy_mEnd]
    rcases hc with hc | hc
    · omega
    · exact .inr (.inr hc)
  | whole a hs he hsh ih =>
    rcases covered_cons.mp hc with hc | hc
    · exact covered_cons.mpr (.inl hc)
    · exact covered_cons.mpr (.inr (ih hc))

end Walk

section Steps
variable {t t' : Table} {rq : Span} {L R P S S' : List Node} {lo hi : Int} {insertAt : Insert}

/-- The new range has got an entry of its own. -/
theorem kept_insert (h : t.Spaced) (hn : t.nodes = L ++ R) (hA : t'.AddrOk) (hle : lo ≤ hi)
    (hL : ∀ m ∈ L, m.data.mEnd ≤ lo ∧ m.data.mStart < lo)
    (hR : ∀ m ∈ R, hi ≤ m.data.mStart ∧ lo < m.data.mStart) {type : RangeType}
    (htype : type = .reader ∨ type = .writer) {a : Nat} (ptr : Ptr)
    (hn' : t'.nodes = L ++ ⟨a, Range.new lo hi type⟩ :: R) : Kept t (.granted t' ptr) := by
  refine ⟨⟨hA, ?_, fun m hm => ?_⟩, fun x hx => ?_⟩
  · rw [hn']
    exact (hn ▸ h.spread).between hle hL hR
  · rw [hn', List.mem_append, List.mem_cons] at hm
    rcases hm with hm | rfl | hm
    · exact h.entry m (by simp [hn, hm])
    · refine ⟨?_, by simp [Range.new]⟩
      rcases htype with rfl | rfl <;> simp [Range.new]
    · exact h.entry m (by simp [hn, hm])
  · rw [hn, covered_append] at hx
    rw [hn', covered_append, covered_cons]
    exact hx.imp_right .inr

/-- The new range has been shared out among the entries from `lo` on. -/
theorem kept_share (hA : t'.AddrOk) (hO : Spread (P ++ S)) (he : ∀ m ∈ P ++ S, EntryOk m.data)
    (hc : ∀ x, Covered t.nodes x → Covered (P ++ S) x)
    (hP : ∀ m ∈ P, m.data.mEnd ≤ lo ∧ m.data.mStart < lo) (hS : ∀ m ∈ S, lo ≤ m.data.mStart)
    (hne : ∀ m ∈ S, m.data.mStart < hi → m.data.mStart < m.data.mEnd)
    (hsh : Share hi lo S S') (hn' : t'.nodes = P ++ S') : Kept t (.granted t' none) := by
  obtain ⟨hOP, hOS, _⟩ := spread_append.mp hO
  obtain ⟨hO', hS'⟩ := hsh.spread hOS hS hne
  refine ⟨⟨hA, ?_, fun m hm => ?_⟩, fun x hx => ?_⟩
  · rw [hn']
    exact spread_append.mpr ⟨hOP, hO', fun p hp m hm =>
      ⟨(hP p hp).1.trans (hS' m hm), (hP p hp).2.trans_le (hS' m hm)⟩⟩
  · rw [hn', List.mem_append] at hm
    rcases hm with hm | hm
    · exact he m (List.mem_append_left _ hm)
    · exact hsh.entryOk (fun k hk => he k (List.mem_append_right _ hk)) m hm
  · have := hc x hx
    rw [covered_append] at this
    rw [hn', covered_append]
    exact this.imp_right hsh.covered

/-- A call that returns the null pointer has put proxies for the new range in the tree, and
has not inserted the range itself. -/
theorem Span.addReader_null {r : Range} {prev : Ptr} {index : Index}
    (h : RangeLock.addReader t r prev index = .ok (t', none)) :
    Span.addReader insertAt t r prev index = .ok (t', none) := by
  simp only [RangeLock.addReader, bind_eq_ok, Prod.exists] at h
  obtain ⟨t₁, p, hsplit, u, hcheck, h⟩ := h
  simp only [Span.addReader, hsplit, ok_bind, hcheck]
  -- there is an entry to share, or the call would have inserted
  obtain ⟨a, hnext⟩ : ∃ a, p = some a ∨ p = none ∧ t₁.nearest index .after = some a := by
    rcases p with _ | a
    · rcases hnear : t₁.nearest index .after with _ | a
      · simp [hnear, bind_eq_ok] at h
      · exact ⟨a, .inr ⟨rfl, rfl⟩⟩
    · exact ⟨a, .inl rfl⟩
  rcases hnext with rfl | ⟨rfl, hnear⟩
  on_goal 2 => simp only [hnear] at h ⊢
  all_goals
    obtain ⟨n, hget, h⟩ := bind_eq_ok.mp h
    simp only [hget, ok_bind]
    split at h
    · simp [bind_eq_ok] at h
    · rename_i hstop
      rw [if_neg hstop]
      exact h

/-- A call that finds nothing in its way inserts where the search ended. -/
theorem Span.addReader_free {r : Range} {prev : Ptr} {index : Index} (hI : Inserts insertAt)
    (hsplit : splitPrev t r.mStart prev = .ok (t, none))
    (hfind : t.find r.mStart = (none, index)) :
    Span.addReader insertAt t r prev index = RangeLock.addReader t r prev index := by
  have hins := hI t r index hfind
  unfold Span.addReader RangeLock.addReader
  simp only [hsplit, ok_bind]
  cases t.nearest index .after with
  | none => simp only [hins]
  | some a => simp only [hins]

theorem Span.readerFrom_spec {prev ptr : Ptr} {index : Index}
    (hb : rq.readerBlocker t prev index = .ok ptr)
    (hadd : ptr = none → ∃ t' q, Kept t (.granted t' q) ∧ ∀ insertAt, Inserts insertAt →
      Span.addReader insertAt t (Range.new rq.start rq.stop .reader) prev index = .ok (t', q)) :
    ∃ o, Kept t o ∧ ∀ insertAt, Inserts insertAt → rq.readerFrom insertAt t prev index = .ok o := by
  rcases ptr with _ | a
  · obtain ⟨t', q, hk, he⟩ := hadd rfl
    refine ⟨_, hk, fun insertAt hI => ?_⟩
    simp only [Span.readerFrom, hb, ok_bind, he insertAt hI, pure_eq_ok]
  · refine ⟨.blocked (t.modify a fun r => { r with mReadWanted := true }) a, trivial,
      fun insertAt _ => ?_⟩
    simp only [Span.readerFrom, hb, ok_bind, pure_eq_ok]

/-- Nothing in the way of a reader blocks it. -/
def Free (t : Table) (rq : Span) : Prop :=
  ∀ m ∈ t.nodes, Overlaps m.data rq.start rq.stop → ¬BlocksReader m.data

/-- The entries that a new reader shares are readers, and not empty. -/
theorem Free.walkable (hf : Free t rq) (h : t.Spaced) (ha : ∀ n ∈ t.nodes, ¬Clashes n.data rq)
    {m : Node} (hm : m ∈ t.nodes) (hlo : rq.start ≤ m.data.mStart) (hlt : m.data.mStart < rq.stop) :
    Walkable m.data := by
  have hlen : m.data.mStart < m.data.mEnd := by
    have hle := h.spread.le hm
    have hno := ha m hm
    simp only [Clashes, Overlaps] at hno
    omega
  exact ⟨(h.entry m hm).shareable (hf m hm ⟨hlt, hlo.trans_lt hlen⟩), hlen⟩

/-- A range that is not empty, as the lock manager's requests have it. -/
def Span.toRequest (rq : Span) (hlt : rq.start < rq.stop) : Request :=
  ⟨rq.start, rq.stop, rq.type, hlt, rq.lower, rq.upper⟩

theorem Span.readerBlocker_prev (h : t.Spaced) (hlt : rq.start < rq.stop) {n : Node}
    (hn : t.nodes = L ++ n :: R) (hle : n.data.mStart ≤ rq.start)
    (hR : ∀ m ∈ R, rq.start < m.data.mStart) (index : Index) :
    ∃ ptr, rq.readerBlocker t (some n.addr) index = .ok ptr ∧ (ptr = none → Free t rq) := by
  obtain ⟨ptr, hb, hr⟩ : ∃ ptr, RangeLock.readerBlocker t (rq.toRequest hlt) (some n.addr) index =
      .ok ptr ∧ ScanResult (rq.toRequest hlt) t.nodes ptr :=
    RangeLock.readerBlocker_prev h.addr h.spread hn hle hR index
  refine ⟨ptr, hb, ?_⟩
  rintro rfl
  exact hr

/-- No entry starts where the new range does. -/
theorem Span.readerBlocker_before (h : t.Spaced) (hlt : rq.start < rq.stop) (hne : t.nodes ≠ [])
    (hn : t.nodes = L ++ R) (hL : ∀ m ∈ L, m.data.mStart < rq.start)
    (hR : ∀ m ∈ R, rq.start < m.data.mStart) :
    ∃ ptr, rq.readerBlocker t (L.getLast?.map Slot.addr) (.at L.length) = .ok ptr ∧
      (ptr = none → Free t rq) := by
  rcases List.eq_nil_or_concat L with rfl | ⟨L', p, rfl⟩
  · obtain ⟨ptr, hb, hr⟩ := readerBlocker_none (rq.toRequest hlt) h.addr h.spread hne
      (fun m hm => hR m (by simpa [hn] using hm))
    refine ⟨ptr, hb, ?_⟩
    rintro rfl
    exact hr
  · have hn' : t.nodes = L' ++ p :: R := by simp [hn]
    rw [List.concat_eq_append, List.getLast?_concat]
    exact Span.readerBlocker_prev h hlt hn' (hL p (by simp)).le hR _

/-- An empty reader between two entries has nothing to look at. -/
theorem Span.readerBlocker_empty (h : t.Spaced) (hne : t.nodes ≠ []) (he : rq.start = rq.stop)
    (hn : t.nodes = L ++ R) (hL : ∀ m ∈ L, m.data.mEnd ≤ rq.start)
    (hR : ∀ m ∈ R, rq.start < m.data.mStart) :
    rq.readerBlocker t (L.getLast?.map Slot.addr) (.at L.length) = .ok none := by
  have hscan : readerScan t rq.stop (t.nodes.length + 1) (R.head?.map Slot.addr) = .ok none := by
    rcases R with _ | ⟨n, R⟩
    · rfl
    · have hget : t.get n.addr = .ok n.data := Table.get_node h.addr (by simp [hn])
      have hstop : rq.stop ≤ n.data.mStart := he ▸ (hR n List.mem_cons_self).le
      simp only [List.head?_cons, Option.map_some, readerScan, hget, ok_bind, if_pos hstop,
        pure_eq_ok]
  rcases List.eq_nil_or_concat L with rfl | ⟨L', p, rfl⟩
  · have hnext := Table.nearest_after hn hne
    simp only [List.getLast?_nil, Option.map_none, Span.readerBlocker, Span.readerScanFrom, hnext,
      hscan]
  · have hn' : t.nodes = L' ++ p :: R := by simp [hn]
    have hget : t.get p.addr = .ok p.data := Table.get_node h.addr (by simp [hn'])
    have hend : ¬rq.start < p.data.mEnd := not_lt.mpr (hL p (by simp))
    simp only [List.concat_eq_append, List.getLast?_concat, Option.map_some, Span.readerBlocker,
      hget, ok_bind, if_neg hend, Span.readerScanFrom, Table.next_node h.addr hn', hscan]

/-- An entry starts where the new range does. -/
theorem Span.readerFrom_at (h : t.Spaced) (ha : ∀ n ∈ t.nodes, ¬Clashes n.data rq)
    (hc : Countable rq.stop rq.start t.nodes.length t.nodes) {n : Node}
    (hn : t.nodes = L ++ n :: R) (hstart : n.data.mStart = rq.start) :
    ∃ o, Kept t o ∧ ∀ insertAt, Inserts insertAt →
      rq.readerFrom insertAt t (some n.addr) .null = .ok o := by
  have hO : Spread (L ++ n :: R) := hn ▸ h.spread
  have hmem : ∀ m ∈ n :: R, m ∈ t.nodes := fun m hm => by
    rw [hn]
    exact List.mem_append_right _ hm
  have hlt : rq.start < rq.stop := lt_of_le_of_ne rq.le fun he =>
    ha n (hmem n List.mem_cons_self) ⟨.inr he, .inl hstart⟩
  obtain ⟨ptr, hb, hfree⟩ := Span.readerBlocker_prev h hlt hn hstart.le
    (fun m hm => hstart ▸ (hO.around.2 m hm).2) .null
  refine Span.readerFrom_spec hb fun hnone => ?_
  have hwalk : ∀ m ∈ n :: R, m.data.mStart < rq.stop → Walkable m.data := fun m hm =>
    (hfree hnone).walkable h ha (hmem m hm) (hstart ▸ hO.le_starts m hm)
  rw [countable_append hn fun m hm => hstart ▸ (hO.around.1 m hm).1] at hc
  obtain ⟨t', S', he, hA, hn', hsh, _⟩ := (addReader_at_share h.addr h.spread hn hstart hlt .null
    hwalk).1 hc
  refine ⟨t', none, ?_, fun insertAt _ => Span.addReader_null he⟩
  exact kept_share hA hO (fun m hm => h.entry m (hn ▸ hm)) (fun x hx => hn ▸ hx)
    (fun m hm => hstart ▸ hO.around.1 m hm) (fun m hm => hstart ▸ hO.le_starts m hm)
    (fun m hm hmlt => (hwalk m hm hmlt).2) hsh hn'

/-- The entry before the new range reaches into it. -/
theorem Span.readerFrom_split (h : t.Spaced) (ha : ∀ n ∈ t.nodes, ¬Clashes n.data rq)
    (hc : Countable rq.stop rq.start t.nodes.length t.nodes) {n : Node}
    (hn : t.nodes = L ++ n :: R) (hlo : n.data.mStart < rq.start) (hend : rq.start < n.data.mEnd)
    (hR : ∀ m ∈ R, rq.start < m.data.mStart) (index : Index) :
    ∃ o, Kept t o ∧ ∀ insertAt, Inserts insertAt →
      rq.readerFrom insertAt t (some n.addr) index = .ok o := by
  have hO : Spread (L ++ n :: R) := hn ▸ h.spread
  have hmem : n ∈ t.nodes := by simp [hn]
  have hov : Overlaps n.data rq.start rq.stop := ⟨hlo.trans_le rq.le, hend⟩
  have hlt : rq.start < rq.stop :=
    lt_of_le_of_ne rq.le fun he => ha n hmem ⟨.inr he, .inr hov⟩
  obtain ⟨ptr, hb, hfree⟩ := Span.readerBlocker_prev h hlt hn hlo.le hR index
  refine Span.readerFrom_spec hb fun hnone => ?_
  have hsn : Shareable n.data := (h.entry n hmem).shareable (hfree hnone n hmem hov)
  have hwalk : ∀ m ∈ R, m.data.mStart < rq.stop → Walkable m.data := fun m hm =>
    (hfree hnone).walkable h ha (by simp [hn, hm]) (hR m hm).le
  rw [countable_append hn fun m hm => (hO.around.1 m hm).1.trans hlo.le] at hc
  obtain ⟨t', a, b, S', he, hA, hn', hsh, _⟩ := (addReader_split_share h.addr h.spread hn hlo hend
    hlt index hsn hwalk).1 hc
  refine ⟨t', none, ?_, fun insertAt _ => Span.addReader_null he⟩
  have hO₂ := hO.split (a := a) (b := b) (r := n.data.mRefs) (s := n.data.mRefs) hlo hend
  refine kept_share hA hO₂ (fun m hm => ?_) (fun x hx => ?_) hO₂.around.1 hO₂.le_starts
    (fun m hm hmlt => ?_) hsh hn'
  · simp only [List.append_assoc, List.singleton_append, List.mem_append, List.mem_cons] at hm
    rcases hm with hm | rfl | rfl | hm
    · exact h.entry m (by simp [hn, hm])
    · exact (shareable_proxy hsn.refs).entryOk
    · exact (shareable_proxy hsn.refs).entryOk
    · exact h.entry m (by simp [hn, hm])
  · rw [hn, covered_append, covered_cons] at hx
    simp only [List.append_assoc, List.singleton_append, covered_append, covered_cons, proxy_mStart,
      proxy_mEnd]
    by_cases hx' : x < rq.start
    · tauto
    · have hge : rq.start ≤ x := not_lt.mp hx'
      tauto
  · rcases List.mem_cons.mp hm with rfl | hm
    · exact hend
    · exact (hwalk m hm hmlt).2

/-- No entry holds the start of the new range or starts there. -/
theorem Span.readerFrom_free (h : t.Spaced) (ha : ∀ n ∈ t.nodes, ¬Clashes n.data rq)
    (hc : Countable rq.stop rq.start t.nodes.length t.nodes)
    (hne : t.nodes ≠ []) (hn : t.nodes = L ++ R)
    (hL : ∀ m ∈ L, m.data.mEnd ≤ rq.start ∧ m.data.mStart < rq.start)
    (hR : ∀ m ∈ R, rq.start < m.data.mStart) :
    ∃ o, Kept t o ∧ ∀ insertAt, Inserts insertAt →
      rq.readerFrom insertAt t (L.getLast?.map Slot.addr) (.at L.length) = .ok o := by
  have hO : Spread (L ++ R) := hn ▸ h.spread
  obtain ⟨ptr, hb, hfree⟩ : ∃ ptr, rq.readerBlocker t (L.getLast?.map Slot.addr) (.at L.length) =
      .ok ptr ∧ (ptr = none → Free t rq) := by
    rcases rq.le.lt_or_eq with hlt | he
    · exact Span.readerBlocker_before h hlt hne hn (fun m hm => (hL m hm).2) hR
    · refine ⟨none, Span.readerBlocker_empty h hne he hn (fun m hm => (hL m hm).1) hR, ?_⟩
      intro _ m hm ho
      rcases List.mem_append.mp (hn ▸ hm) with hm | hm
      · exact absurd ho.2 (not_lt.mpr (hL m hm).1)
      · exact absurd ho.1 (not_lt.mpr (he ▸ (hR m hm).le))
  refine Span.readerFrom_spec hb fun hnone => ?_
  have hwalk : ∀ m ∈ R, m.data.mStart < rq.stop → Walkable m.data := fun m hm =>
    (hfree hnone).walkable h ha (by simp [hn, hm]) (hR m hm).le
  have hsame : ∀ insertAt, Inserts insertAt → Span.addReader insertAt t
      (Range.new rq.start rq.stop .reader) (L.getLast?.map Slot.addr) (.at L.length) =
      RangeLock.addReader t (Range.new rq.start rq.stop .reader) (L.getLast?.map Slot.addr)
        (.at L.length) := fun insertAt hI =>
    Span.addReader_free hI (splitPrev_free h.addr hn fun m hm => (hL m hm).1)
      (Table.find_between hn (fun m hm => (hL m hm).2) hR)
  rw [countable_append hn fun m hm => (hL m hm).1] at hc
  rcases (addReader_free_share h.addr h.spread hne hn hL hR hwalk).1 hc with
    ⟨t', a, he, hge, hA, _, hn'⟩ | ⟨t', S', he, hA, hn', hsh, _⟩
  · refine ⟨t', some a, ?_, fun insertAt hI => (hsame insertAt hI).trans he⟩
    exact kept_insert h hn hA rq.le hL (fun m hm => ⟨hge m hm, hR m hm⟩) (.inl rfl) _ hn'
  · refine ⟨t', none, ?_, fun insertAt hI => (hsame insertAt hI).trans he⟩
    exact kept_share hA hO (fun m hm => h.entry m (hn ▸ hm)) (fun x hx => hn ▸ hx) hL
      (fun m hm => (hR m hm).le) (fun m hm hmlt => (hwalk m hm hmlt).2) hsh hn'

theorem Span.readerFrom_blocked {prev ptr : Ptr} {index : Index}
    (hb : rq.readerBlocker t prev index = .ok ptr) (hptr : ptr ≠ none) :
    ∃ t' a, ∀ insertAt, rq.readerFrom insertAt t prev index = .ok (.blocked t' a) := by
  obtain ⟨a, rfl⟩ := Option.ne_none_iff_exists'.mp hptr
  refine ⟨t.modify a fun r => { r with mReadWanted := true }, a, fun insertAt => ?_⟩
  simp only [Span.readerFrom, hb, ok_bind, pure_eq_ok]

/-- The entry that the search comes to first stops the reader. -/
theorem Span.readerBlocker_self (h : t.Spaced) {n : Node} (hmem : n ∈ t.nodes)
    (hs : Stops n.data rq) (index : Index) :
    rq.readerBlocker t (some n.addr) index = .ok (some n.addr) := by
  simp only [Span.readerBlocker, Table.get_node h.addr hmem, ok_bind, if_pos hs.2.2, pure_eq_ok]
  exact if_pos hs.1

/-- A reader waits for an entry that stops it, whichever entry the search comes to first. -/
theorem Span.readerRetry_blocked (h : t.Spaced) {n : Node} (hmem : n ∈ t.nodes)
    (hs : Stops n.data rq) :
    ∃ t' a, ∀ insertAt, rq.readerRetry insertAt t = .ok (.blocked t' a) := by
  have ⟨hblk, hle, hend⟩ := hs
  have hne : t.nodes ≠ [] := List.ne_nil_of_mem hmem
  -- an entry that starts further on is found by the scan
  have hahead : ∀ {ptr : Ptr}, rq.start < n.data.mStart → (ptr = none → Free t rq) → ptr ≠ none :=
    fun hlt hfree hnone => hfree hnone n hmem ⟨by omega, hend⟩ hblk
  rcases Table.find_cases h.spread rq.start with ⟨L, m, R, hn, hstart, hfind⟩ |
    ⟨L, R, hn, hL, hR, hfind⟩
  · have hO : Spread (L ++ m :: R) := hn ▸ h.spread
    simp only [Span.readerRetry, hfind]
    by_cases hlt : rq.start < n.data.mStart
    · obtain ⟨ptr, hb, hfree⟩ := Span.readerBlocker_prev h (by omega) hn hstart.le
        (fun k hk => hstart ▸ (hO.around.2 k hk).2) .null
      exact Span.readerFrom_blocked hb (hahead hlt hfree)
    · obtain rfl : n = m := by
        rw [hn, List.mem_append, List.mem_cons] at hmem
        rcases hmem with hmem | rfl | hmem
        · have := (hO.around.1 n hmem).1
          omega
        · rfl
        · have := (hO.around.2 n hmem).2
          omega
      exact Span.readerFrom_blocked (Span.readerBlocker_self h hmem hs .null) (by simp)
  · simp only [Span.readerRetry, hfind, Table.nearest_before hn hne]
    by_cases hlt : rq.start < n.data.mStart
    · obtain ⟨ptr, hb, hfree⟩ := Span.readerBlocker_before h (by omega) hne hn hL hR
      exact Span.readerFrom_blocked hb (hahead hlt hfree)
    · have hmemL : n ∈ L := by
        rcases List.mem_append.mp (hn ▸ hmem) with hmem | hmem
        · exact hmem
        · exact absurd (hR n hmem) hlt
      rcases List.eq_nil_or_concat L with rfl | ⟨L', p, rfl⟩
      · exact absurd hmemL List.not_mem_nil
      · have hn' : t.nodes = L' ++ p :: R := by simp [hn]
        obtain rfl : n = p := by
          rw [List.concat_eq_append, List.mem_append, List.mem_singleton] at hmemL
          rcases hmemL with hmemL | rfl
          · have := ((hn' ▸ h.spread : Spread (L' ++ p :: R)).around.1 n hmemL).1
            have := hL p (by simp)
            omega
          · rfl
        rw [List.concat_eq_append, List.getLast?_concat]
        exact Span.readerFrom_blocked (Span.readerBlocker_self h hmem hs _) (by simp)

/-- Without a search, the new range goes to the place between the entries. -/
theorem Span.add_shown (h : t.Spaced)
    (hfree : ∀ n ∈ t.nodes, ¬(n.data.mStart = rq.start ∨ Overlaps n.data rq.start rq.stop))
    {type : RangeType} (htype : type = .reader ∨ type = .writer) :
    ∃ t' a, t.add (Range.new rq.start rq.stop type) = .ok (t', a) ∧
      Kept t (.granted t' (some a)) := by
  have hle := rq.le
  have haround : ∀ m ∈ t.nodes, m.data.mEnd ≤ rq.start ∧ m.data.mStart < rq.start ∨
      rq.stop ≤ m.data.mStart ∧ rq.start < m.data.mStart := fun m hm => by
    have hm' := hfree m hm
    have := h.spread.le hm
    simp only [Overlaps] at hm'
    omega
  rcases Table.find_cases h.spread rq.start with ⟨L, n, R, hn, hstart, -⟩ | ⟨L, R, hn, hL, hR, -⟩
  · exact absurd (.inl hstart) (hfree n (by simp [hn]))
  · have hbefore : ∀ m ∈ L, m.data.mEnd ≤ rq.start ∧ m.data.mStart < rq.start := fun m hm =>
      (haround m (by simp [hn, hm])).resolve_right fun hr => absurd hr.2 (hL m hm).asymm
    have hafter : ∀ m ∈ R, rq.stop ≤ m.data.mStart ∧ rq.start < m.data.mStart := fun m hm =>
      (haround m (by simp [hn, hm])).resolve_left fun hl => absurd hl.2 (hR m hm).asymm
    obtain ⟨t', a, he, hA, _, hn'⟩ := Table.add_spec h.addr hn
      (r := Range.new rq.start rq.stop type) hL hR
    exact ⟨t', a, he, kept_insert h hn hA rq.le hbefore hafter htype _ hn'⟩

theorem Span.readerRetry_spec (h : t.Spaced) (hnil : t.nodes ≠ [])
    (ha : ∀ n ∈ t.nodes, ¬Clashes n.data rq)
    (hc : Countable rq.stop rq.start t.nodes.length t.nodes) :
    ∃ o, Kept t o ∧ ∀ insertAt, Inserts insertAt → rq.readerRetry insertAt t = .ok o := by
  rcases Table.find_cases h.spread rq.start with ⟨L, n, R, hn, hstart, hfind⟩ |
    ⟨L, R, hn, hL, hR, hfind⟩
  · simp only [Span.readerRetry, hfind]
    exact Span.readerFrom_at h ha hc hn hstart
  · simp only [Span.readerRetry, hfind, Table.nearest_before hn hnil]
    by_cases hends : ∀ m ∈ L, m.data.mEnd ≤ rq.start
    · exact Span.readerFrom_free h ha hc hnil hn (fun m hm => ⟨hends m hm, hL m hm⟩) hR
    · -- only the last entry before the new range can reach into it
      rcases List.eq_nil_or_concat L with rfl | ⟨L', p, rfl⟩
      · simp at hends
      · have hn' : t.nodes = L' ++ p :: R := by simp [hn]
        have hp : p.data.mStart < rq.start := hL p (by simp)
        have hend : rq.start < p.data.mEnd := by
          by_contra hle
          refine hends fun m hm => ?_
          rw [List.concat_eq_append, List.mem_append, List.mem_singleton] at hm
          rcases hm with hm | rfl
          · exact ((hn' ▸ h.spread : Spread (L' ++ p :: R)).around.1 m hm).1.trans hp.le
          · exact not_lt.mp hle
        rw [List.concat_eq_append, List.getLast?_concat]
        exact Span.readerFrom_split h ha hc hn' hp hend hR _

theorem Span.lockRangeReader_spec (h : t.Spaced) (ht : Shown t rq)
    (ha : ∀ n ∈ t.nodes, ¬Clashes n.data rq)
    (hc : Countable rq.stop rq.start t.nodes.length t.nodes) :
    ∃ o, Kept t o ∧ ∀ insertAt, Inserts insertAt → rq.lockRangeReader insertAt t = .ok o := by
  by_cases hsize : t.size = 0
  · obtain ⟨t', a, he, hk⟩ := Span.add_shown h (ht hsize) (.inl (Eq.refl RangeType.reader))
    refine ⟨_, hk, fun insertAt _ => ?_⟩
    simp only [Span.lockRangeReader, if_pos hsize, he, ok_bind, pure_eq_ok]
  · have hnil : t.nodes ≠ [] := by
      rintro hnil
      exact hsize (by simp [Table.size, hnil])
    simp only [Span.lockRangeReader, if_neg hsize]
    exact Span.readerRetry_spec h hnil ha hc

theorem Span.nextBlocker_spec (h : t.Spaced) (rq : Span) (hn : t.nodes = L ++ R) :
    ∃ ptr, rq.nextBlocker t (R.head?.map Slot.addr) = .ok ptr ∧
      (ptr = none → ∀ m ∈ R, rq.stop ≤ m.data.mStart) := by
  rcases R with _ | ⟨n, R⟩
  · exact ⟨none, rfl, by simp⟩
  · have hget : t.get n.addr = .ok n.data := Table.get_node h.addr (by simp [hn])
    refine ⟨if n.data.mStart < rq.stop then some n.addr else none,
      by simp only [List.head?_cons, Option.map_some, Span.nextBlocker, hget, ok_bind, pure_eq_ok],
      fun hnone m hm => ?_⟩
    have hge : rq.stop ≤ n.data.mStart := by simpa using hnone
    exact hge.trans ((hn ▸ h.spread : Spread (L ++ n :: R)).le_starts m hm)

theorem Span.prevBlocker_spec (h : t.Spaced) (hn : t.nodes = L ++ R)
    (hL : ∀ m ∈ L, m.data.mStart < rq.start) :
    ∃ ptr, rq.prevBlocker t (L.getLast?.map Slot.addr) = .ok ptr ∧
      (ptr = none → ∀ m ∈ L, m.data.mEnd ≤ rq.start) := by
  rcases List.eq_nil_or_concat L with rfl | ⟨L', p, rfl⟩
  · exact ⟨none, rfl, by simp⟩
  · have hn' : t.nodes = L' ++ p :: R := by simp [hn]
    have hget : t.get p.addr = .ok p.data := Table.get_node h.addr (by simp [hn'])
    rw [List.concat_eq_append, List.getLast?_concat]
    refine ⟨if p.data.mEnd > rq.start then some p.addr else none,
      by simp only [Option.map_some, Span.prevBlocker, hget, ok_bind, pure_eq_ok],
      fun hnone m hm => ?_⟩
    have hle : p.data.mEnd ≤ rq.start := by simpa using hnone
    rw [List.mem_append, List.mem_singleton] at hm
    rcases hm with hm | rfl
    · exact ((hn' ▸ h.spread : Spread (L' ++ p :: R)).around.1 m hm).1.trans (hL p (by simp)).le
    · exact hle

/-- A writer waits for every entry that an empty one could clash with. -/
theorem Span.lockRangeWriter_spec (h : t.Spaced) (ht : Shown t rq) :
    ∃ o, Kept t o ∧ ∀ insertAt, Inserts insertAt → rq.lockRangeWriter insertAt t = .ok o := by
  by_cases hsize : t.size = 0
  · obtain ⟨t', a, he, hk⟩ := Span.add_shown h (ht hsize) (.inr (Eq.refl RangeType.writer))
    refine ⟨_, hk, fun insertAt _ => ?_⟩
    simp only [Span.lockRangeWriter, if_pos hsize, he, ok_bind, pure_eq_ok]
  · have hnil : t.nodes ≠ [] := by
      rintro hnil
      exact hsize (by simp [Table.size, hnil])
    have hwait : ∀ a, Kept t (.blocked (t.modify a fun r => { r with mWriteWanted := true }) a) :=
      fun _ => trivial
    simp only [Span.lockRangeWriter, if_neg hsize]
    rcases Table.find_cases h.spread rq.start with ⟨L, n, R, hn, hstart, hfind⟩ |
      ⟨L, R, hn, hL, hR, hfind⟩
    · simp only [hfind, Span.writerBlocker, pure_eq_ok, ok_bind]
      exact ⟨_, hwait _, fun _ _ => rfl⟩
    · simp only [hfind, Span.writerBlocker, Table.nearest_after hn hnil,
        Table.nearest_before hn hnil]
      obtain ⟨next, hnext, hge⟩ := Span.nextBlocker_spec h rq hn
      obtain ⟨prev, hprev, hends⟩ := Span.prevBlocker_spec h hn hL
      rcases next with _ | a
      · rcases prev with _ | a
        · have hins := h.addr.insert (r := Range.new rq.start rq.stop .writer) hn
          refine ⟨_, kept_insert h hn hins rq.le (fun m hm => ⟨hends rfl m hm, hL m hm⟩)
            (fun m hm => ⟨hge rfl m hm, hR m hm⟩) (.inr rfl) (some t.fresh) rfl,
            fun insertAt hI => ?_⟩
          simp only [hnext, hprev, ok_bind,
            hI t (Range.new rq.start rq.stop .writer) _ hfind, Table.insertAt,
            Table.insertIdx_length hn, pure_eq_ok]
        · simp only [hnext, hprev, ok_bind, pure_eq_ok]
          exact ⟨_, hwait _, fun _ _ => rfl⟩
      · simp only [hnext, ok_bind, pure_eq_ok]
        exact ⟨_, hwait _, fun _ _ => rfl⟩

/-- Setting a flag leaves every entry in its place. -/
theorem Table.Spaced.modify (h : t.Spaced) {a : Nat} {f : Range → Range}
    (hs : ∀ r, (f r).mStart = r.mStart) (he : ∀ r, (f r).mEnd = r.mEnd)
    (hok : ∀ n ∈ t.nodes, n.addr = a → EntryOk (f n.data)) : (t.modify a f).Spaced := by
  by_cases ha : a ∈ addrs t.nodes
  · obtain ⟨n, hmem, rfl⟩ := exists_of_mem_addrs ha
    obtain ⟨L, R, hn⟩ := List.append_of_mem hmem
    obtain ⟨hA, _, hn'⟩ := Table.modify_spec h.addr hn f
    refine ⟨hA, ?_, fun m hm => ?_⟩
    · rw [hn']
      exact (hn ▸ h.spread : Spread (L ++ n :: R)).replace (hs _) (he _)
    · rw [hn', List.mem_append, List.mem_cons] at hm
      rcases hm with hm | rfl | hm
      · exact h.entry m (by simp [hn, hm])
      · exact hok n hmem rfl
      · exact h.entry m (by simp [hn, hm])
  · have hnodes : (t.modify a f).nodes = t.nodes := modify_of_notMem f ha
    exact ⟨h.addr.modify a f, hnodes ▸ h.spread, fun m hm => h.entry m (hnodes ▸ hm)⟩

/-- A reader waits on a descriptor that blocks readers, whatever the tree looks like. -/
theorem readerScan_blocks {stop : Int} {a : Nat} : ∀ (fuel : Nat) (next : Ptr),
    readerScan t stop fuel next = .ok (some a) → ∃ r, t.get a = .ok r ∧ BlocksReader r := by
  intro fuel
  induction fuel with
  | zero =>
    intro next h
    cases h
  | succ fuel ih =>
    intro next h
    rcases next with _ | b
    · simp [readerScan] at h
    · obtain ⟨n, hget, h⟩ := bind_eq_ok.mp h
      split_ifs at h with hstop hblk hend
      · simp at h
      · obtain rfl : b = a := by simpa using h
        exact ⟨n, hget, hblk⟩
      · simp at h
      · exact ih _ h

theorem Span.readerBlocker_blocks {prev : Ptr} {index : Index} {a : Nat}
    (h : rq.readerBlocker t prev index = .ok (some a)) :
    ∃ r, t.get a = .ok r ∧ BlocksReader r := by
  rcases prev with _ | p
  · exact readerScan_blocks _ _ h
  · obtain ⟨n, hget, h⟩ := bind_eq_ok.mp h
    split_ifs at h with hend hblk hin
    · obtain rfl : p = a := by simpa using h
      exact ⟨n, hget, hblk⟩
    · simp at h
    · exact readerScan_blocks _ _ h
    · exact readerScan_blocks _ _ h

/-- A call that waits changes a flag, on whatever descriptor. -/
theorem Span.blocked_spaced (h : t.Spaced) {a : Nat}
    (hb : rq.lockRange Table.insertAt t = .ok (.blocked t' a)) : t'.Spaced := by
  cases htype : rq.type
  · simp only [Span.lockRange, htype, Span.lockRangeReader] at hb
    split_ifs at hb with hsize
    · simp [bind_eq_ok] at hb
    · obtain ⟨ptr, hptr, hb⟩ := bind_eq_ok.mp hb
      rcases ptr with _ | b
      · simp [bind_eq_ok] at hb
      · simp only [pure_eq_ok, Except.ok.injEq, Outcome.blocked.injEq] at hb
        obtain ⟨rfl, rfl⟩ := hb
        obtain ⟨r, hget, hblk⟩ := Span.readerBlocker_blocks hptr
        refine h.modify (fun _ => rfl) (fun _ => rfl) fun n hn hnb => ?_
        obtain rfl : n.data = r := by
          have := Table.get_node h.addr hn
          rw [hnb, hget] at this
          exact (Except.ok.inj this).symm
        exact ⟨(h.entry n hn).kind, fun _ => hblk⟩
  · simp only [Span.lockRange, htype, Span.lockRangeWriter] at hb
    split_ifs at hb with hsize
    · simp [bind_eq_ok] at hb
    · obtain ⟨ptr, hptr, hb⟩ := bind_eq_ok.mp hb
      rcases ptr with _ | b
      · simp [bind_eq_ok] at hb
      · simp only [pure_eq_ok, Except.ok.injEq, Outcome.blocked.injEq] at hb
        obtain ⟨rfl, rfl⟩ := hb
        exact h.modify (fun _ => rfl) (fun _ => rfl) fun n hn _ =>
          ⟨(h.entry n hn).kind, fun _ => .inr rfl⟩

theorem Span.lockRange_spec (h : t.Spaced) (ha : Apart t rq) :
    ∃ o, Kept t o ∧ ∀ insertAt, Inserts insertAt → rq.lockRange insertAt t = .ok o := by
  cases htype : rq.type
  · simp only [Span.lockRange, htype]
    rcases ha.2 htype with ⟨n, hmem, hs⟩ | ⟨hclash, hc⟩
    · have hsize : t.size ≠ 0 := fun hzero =>
        ha.1 hzero n hmem (hs.2.1.symm.imp id fun hlt => ⟨hlt, hs.2.2⟩)
      obtain ⟨t', a, he⟩ := Span.readerRetry_blocked h hmem hs
      refine ⟨.blocked t' a, trivial, fun insertAt _ => ?_⟩
      simp only [Span.lockRangeReader, if_neg hsize, he]
    · exact Span.lockRangeReader_spec h ha.1 hclash hc
  · simp only [Span.lockRange, htype]
    exact Span.lockRangeWriter_spec h ha.1

theorem Called.spaced (h : t.Spaced) (hc : Called t rq t') (ha : Apart t rq) : t'.Spaced := by
  cases hc with
  | granted ptr hok =>
    obtain ⟨o, hk, he⟩ := Span.lockRange_spec h ha
    obtain rfl := Except.ok.inj ((he _ inserts_insertAt).symm.trans hok)
    exact hk.1
  | blocked hb => exact Span.blocked_spaced h hb

theorem spaced_of_reach (h : Reach (fun t => t = Table.empty) (Guarded Called Apart) t) :
    t.Spaced := by
  refine h.invariant ?_ fun t rq t' hI hstep => hstep.2.spaced hI hstep.1
  rintro _ rfl
  exact ⟨⟨by simp [Table.empty], by simp [Table.empty], by simp [Table.empty], by decide⟩,
    Intervals.spread_nil, by simp [Table.empty]⟩

/-- In a run of calls in which no reader that goes through clashes with an entry, and the
counter of the tree hides and stops nothing, no call damages the table. -/
theorem empty_ranges_undamaged
    (h : Reach (fun t => t = Table.empty) (Guarded Called Apart) t)
    (rq : Span) (ha : Apart t rq) (hb : ¬Blocks t rq) : Undamaged t rq := by
  obtain ⟨o, hk, he⟩ := Span.lockRange_spec (spaced_of_reach h) ha
  rcases o with ⟨t', ptr⟩ | ⟨t', a⟩
  · exact ⟨t', ptr, he _ inserts_insertAt, he _ inserts_insertFree, hk.2⟩
  · exact absurd ⟨t', a, he _ inserts_insertAt⟩ hb

end Steps

/-- A reader on `[0, 8)` and an empty one behind it. -/
def readerBeforeEmpty : Table :=
  ⟨[⟨1, Range.new 0 8 .reader⟩, ⟨2, Range.new 8 8 .reader⟩], [], 3⟩

theorem readerBeforeEmpty_reach :
    Reach (fun t => t = Table.empty) (Guarded Called Apart) readerBeforeEmpty := by
  refine .next (s := ⟨[⟨1, Range.new 0 8 .reader⟩], [], 2⟩)
    (e := ⟨8, 8, .reader, by decide, by decide, by decide⟩)
    (.next (s := Table.empty) (e := ⟨0, 8, .reader, by decide, by decide, by decide⟩) (.start rfl)
      ⟨by decide, .granted (some 1) ?_⟩)
    ⟨by decide, .granted (some 2) ?_⟩
  · decide
  · decide

/-- A third reader splits the first entry and leaves the empty one alone. -/
theorem empty_ranges_undamaged_split :
    Undamaged readerBeforeEmpty ⟨4, 8, .reader, by decide, by decide, by decide⟩ :=
  empty_ranges_undamaged readerBeforeEmpty_reach _ (by decide) (by decide)

-- an empty reader inside a held range: the insertion point was found before the split
example : Span.lockRange ⟨4, 4, .reader, by decide, by decide, by decide⟩ insertFree
    ⟨[⟨1, Range.new 0 8 .reader⟩], [], 2⟩ = .error .assertion := by decide

/-- A search for the offset of an empty reader ends without an insertion point, and the
next reader there inserts at that. -/
theorem empty_reader_takes_insertion_point :
    ¬∀ t, Reach (fun t => t = Table.empty) Called t → ∀ rq, ¬Blocks t rq → Undamaged t rq := by
  intro h
  have hr : Reach (fun t => t = Table.empty) Called ⟨[⟨1, Range.new 5 5 .reader⟩], [], 2⟩ :=
    .next (s := Table.empty) (e := ⟨5, 5, .reader, by decide, by decide, by decide⟩) (.start rfl)
      (.granted (some 1) (by decide))
  have hfault : Span.lockRange ⟨5, 8, .reader, by decide, by decide, by decide⟩ Table.insertAt
      ⟨[⟨1, Range.new 5 5 .reader⟩], [], 2⟩ = .error .assertion := by decide
  obtain ⟨t', ptr, he, _⟩ := h _ hr ⟨5, 8, .reader, by decide, by decide, by decide⟩ (by decide)
  rw [hfault] at he
  cases he

end EchoFs.RangeLock
