import EchoFs.RangeLock.Share

/-! One critical section of `lock_range`: what it does to a table that satisfies
the invariant, when it grants the lock and when it waits. -/

namespace EchoFs.RangeLock
open Checked Slots

/-- What holds of a descriptor while it is in the tree. -/
structure EntryOk (r : Range) : Prop where
  kind : (r.mType = .writer ∧ r.mRefs = 1 ∧ r.mIsProxy = false) ∨
    (r.mType = .reader ∧ 0 < r.mRefs ∧ (r.mIsProxy = false → r.mRefs = 1))
  readWanted : r.mReadWanted = true → r.mType = .writer ∨ r.mWriteWanted = true

theorem EntryOk.refs_pos {r : Range} (h : EntryOk r) : 0 < r.mRefs := by
  rcases h.kind with ⟨_, h, _⟩ | ⟨_, h, _⟩ <;> omega

theorem EntryOk.refs_one {r : Range} (h : EntryOk r) (hp : r.mIsProxy = false) : r.mRefs = 1 := by
  rcases h.kind with ⟨_, h, _⟩ | ⟨_, _, h⟩
  · exact h
  · exact h hp

/-- A reader waits for writers and for entries a writer waits on. -/
def BlocksReader (r : Range) : Prop := r.mType = .writer ∨ r.mWriteWanted = true

instance (r : Range) : Decidable (BlocksReader r) :=
  inferInstanceAs (Decidable (r.mType = .writer ∨ r.mWriteWanted = true))

theorem EntryOk.shareable {r : Range} (h : EntryOk r) (hb : ¬BlocksReader r) : Shareable r := by
  have hw : r.mType ≠ .writer := fun hw => hb (.inl hw)
  have hww : r.mWriteWanted = false := by simpa using fun hww => hb (.inr hww)
  have hrw : r.mReadWanted = false := by simpa using fun hrw => hb (h.readWanted hrw)
  rcases h.kind with ⟨hw', _⟩ | ⟨h₁, h₂, h₃⟩
  · exact absurd hw' hw
  · exact ⟨h₁, hrw, hww, h₂, h₃⟩

theorem Shareable.entryOk {r : Range} (h : Shareable r) : EntryOk r :=
  ⟨.inr ⟨h.reader, h.refs, h.single⟩, fun hr => absurd hr (by simp [h.noReader])⟩

/-- The lock table between two critical sections. -/
structure Table.Ok (t : Table) : Prop where
  addr : t.AddrOk
  ordered : Ordered t.nodes
  entry : ∀ n ∈ t.nodes, EntryOk n.data
  detached : ∀ n ∈ t.removed, n.data.mRefs = 0

/-- The entries that lost their place in the tree to a new reader on `[lo, hi)`. -/
def Detached (t t' : Table) (lo hi : Int) : Prop :=
  ∀ m, m ∈ t'.removed ↔ m ∈ t.removed ∨
    ∃ n ∈ t.nodes, Overlaps n.data lo hi ∧ n.data.mIsProxy = false ∧ m = detach n

theorem Detaches.detached {t t' : Table} {l : List Node} {lo hi : Int} (h : Detaches t t' l)
    (hl : ∀ n : Node, n.data.mIsProxy = false → (n ∈ l ↔ n ∈ t.nodes ∧ Overlaps n.data lo hi)) :
    Detached t t' lo hi := by
  intro m
  rw [h m]
  refine or_congr_right ⟨?_, ?_⟩
  · rintro ⟨n, hn, hp, rfl⟩
    exact ⟨n, ((hl n hp).mp hn).1, ((hl n hp).mp hn).2, hp, rfl⟩
  · rintro ⟨n, hn, ho, hp, rfl⟩
    exact ⟨n, (hl n hp).mpr ⟨hn, ho⟩, hp, rfl⟩

/-- What a critical section of `lock_range` may do. -/
inductive LockStep (rq : Request) (t : Table) : Outcome → Prop
  | alone {t' : Table} {L R : List Node} {a : Nat} {type : RangeType} (hn : t.nodes = L ++ R)
      (hL : ∀ m ∈ L, m.data.mEnd ≤ rq.start) (hR : ∀ m ∈ R, rq.stop ≤ m.data.mStart)
      (htype : type = match rq.type with | .reader => .reader | .writer => .writer)
      (hA : t'.AddrOk) (hr : t'.removed = t.removed)
      (hn' : t'.nodes = L ++ ⟨a, Range.new rq.start rq.stop type⟩ :: R) :
      LockStep rq t (.granted t' (some a))
  | shared {t' : Table} (htype : rq.type = .reader) (hA : t'.AddrOk)
      (hs : Shared rq.start rq.stop t.nodes t'.nodes) (hd : Detached t t' rq.start rq.stop)
      (hfree : ∀ m ∈ t.nodes, Overlaps m.data rq.start rq.stop → ¬BlocksReader m.data) :
      LockStep rq t (.granted t' none)
  | reader {n : Node} (htype : rq.type = .reader) (hn : n ∈ t.nodes)
      (ho : Overlaps n.data rq.start rq.stop) (hb : BlocksReader n.data) :
      LockStep rq t (.blocked (t.modify n.addr fun r => { r with mReadWanted := true }) n.addr)
  | writer {n : Node} (htype : rq.type = .writer) (hn : n ∈ t.nodes)
      (ho : Overlaps n.data rq.start rq.stop) :
      LockStep rq t (.blocked (t.modify n.addr fun r => { r with mWriteWanted := true }) n.addr)

/-- A size of zero hides no entry that the request meets. -/
def Table.Tells (t : Table) (rq : Request) : Prop :=
  t.size = 0 → ∀ n ∈ t.nodes, ¬Overlaps n.data rq.start rq.stop

instance (t : Table) (rq : Request) : Decidable (t.Tells rq) :=
  inferInstanceAs (Decidable (_ → ∀ n ∈ t.nodes, _))

/-- A reader waits, or every entry that it shares can be replaced by proxies. -/
def Table.Replaceable (t : Table) (rq : Request) : Prop :=
  rq.type = .reader → (∃ n ∈ t.nodes, Overlaps n.data rq.start rq.stop ∧ BlocksReader n.data) ∨
    Countable rq.stop rq.start t.nodes.length t.nodes

instance (t : Table) (rq : Request) : Decidable (t.Replaceable rq) :=
  inferInstanceAs (Decidable (_ → (∃ n ∈ t.nodes, _) ∨ _))

section Find
variable {t : Table} {lo hi : Int}

theorem exists_split_start {l : List Node} (hO : Spread l) (k : Int) :
    ∃ L R, l = L ++ R ∧ (∀ m ∈ L, m.data.mStart < k) ∧ ∀ m ∈ R, k ≤ m.data.mStart := by
  induction l with
  | nil => exact ⟨[], [], rfl, by simp, by simp⟩
  | cons n l ih =>
    obtain ⟨hn, hnl, hOl⟩ := spread_cons.mp hO
    by_cases hk : n.data.mStart < k
    · obtain ⟨L, R, rfl, hL, hR⟩ := ih hOl
      exact ⟨n :: L, R, rfl, by simpa using ⟨hk, hL⟩, hR⟩
    · exact ⟨[], n :: l, rfl, by simp, fun m hm =>
        (not_lt.mp hk).trans (hO.le_starts (L := []) m hm)⟩

theorem Table.find_cases (hO : Spread t.nodes) (k : Int) :
    (∃ L n R, t.nodes = L ++ n :: R ∧ n.data.mStart = k ∧ t.find k = (some n.addr, .null)) ∨
      ∃ L R, t.nodes = L ++ R ∧ (∀ m ∈ L, m.data.mStart < k) ∧ (∀ m ∈ R, k < m.data.mStart) ∧
        t.find k = (none, .at L.length) := by
  obtain ⟨L, R, hn, hL, hR⟩ := exists_split_start hO k
  rcases R with _ | ⟨n, R⟩
  · exact .inr ⟨L, [], hn, hL, by simp, Table.find_between hn hL (by simp)⟩
  · by_cases hk : n.data.mStart = k
    · subst hk
      exact .inl ⟨L, n, R, hn, rfl, Table.find_at hn fun m hm => (hL m hm).ne⟩
    · have hR' : ∀ m ∈ n :: R, k < m.data.mStart := by
        have hnk := hR n List.mem_cons_self
        intro m hm
        have := (hn ▸ hO : Spread (L ++ n :: R)).le_starts m hm
        omega
      exact .inr ⟨L, n :: R, hn, hL, hR', Table.find_between hn hL hR'⟩

end Find

section Reader
variable {t : Table} {L R P S : List Node} {n : Node} {lo hi : Int}

/-- `add_reader` when an entry starts where the new range does. -/
theorem addReaderLoop_from (hA : t.AddrOk) (hO : Spread t.nodes) (hn : t.nodes = P ++ n :: S)
    (hlt : n.data.mStart < hi)
    (hs : ∀ m ∈ n :: S, m.data.mStart < hi → Walkable m.data) :
    (Countable hi n.data.mStart t.nodes.length (n :: S) →
      ∃ t' S', addReaderLoop hi (t.nodes.length + 1) t none (some n.addr) = .ok t' ∧ t'.AddrOk ∧
        t'.nodes = P ++ S' ∧ Share hi n.data.mStart (n :: S) S' ∧
        Detaches t t' ((n :: S).filter fun m => m.data.mStart < hi)) ∧
    (¬Countable hi n.data.mStart t.nodes.length (n :: S) →
      addReaderLoop hi (t.nodes.length + 1) t none (some n.addr) = .error .assertion) := by
  have hP : ∀ m ∈ P, m.data.mStart < n.data.mStart := fun m hm =>
    ((hn ▸ hO : Spread (P ++ n :: S)).around.1 m hm).2
  refine addReaderLoop_spec hi (n :: S) _ hA hO hn ?_ hlt (.inr ⟨rfl, n, S, rfl, rfl⟩) hP ?_ hs
  · rw [hn, List.length_append]
    omega
  · simpa using hlt

/-- An entry starts where the new range does. -/
theorem addReader_at_share (hA : t.AddrOk) (hO : Spread t.nodes) (hn : t.nodes = L ++ n :: R)
    (hlo : n.data.mStart = lo) (hlt : lo < hi) (index : Index)
    (hs : ∀ m ∈ n :: R, m.data.mStart < hi → Walkable m.data) :
    (Countable hi lo t.nodes.length (n :: R) →
      ∃ t' S', addReader t (Range.new lo hi .reader) (some n.addr) index = .ok (t', none) ∧
        t'.AddrOk ∧ t'.nodes = L ++ S' ∧ Share hi lo (n :: R) S' ∧
        Detaches t t' ((n :: R).filter fun m => m.data.mStart < hi)) ∧
    (¬Countable hi lo t.nodes.length (n :: R) →
      addReader t (Range.new lo hi .reader) (some n.addr) index = .error .assertion) := by
  subst hlo
  have hget : t.get n.addr = .ok n.data := Table.get_node hA (by simp [hn])
  have hlen := (hs n List.mem_cons_self hlt).2
  obtain ⟨hok, hwrapped⟩ := addReaderLoop_from hA hO hn hlt hs
  have hprev : splitPrev t n.data.mStart (some n.addr) = .ok (t, some n.addr) := by
    simp only [splitPrev, hget, ok_bind, if_neg (not_le.mpr hlen), ne_eq, not_true_eq_false,
      if_false, pure_eq_ok]
  have hcheck : checkStart t n.data.mStart (some n.addr) = .ok () := by
    simp only [checkStart, hget, ok_bind, check_ok]
  simp only [addReader, Range.new, hprev, ok_bind, hcheck, hget, if_neg (not_le.mpr hlt),
    lt_irrefl, if_false, pure_eq_ok]
  refine ⟨fun hc => ?_, fun hc => by rw [hwrapped hc, error_bind]⟩
  obtain ⟨t', S', he, hrest⟩ := hok hc
  exact ⟨t', S', by rw [he, ok_bind], hrest⟩

/-- The entries after one of them has been split in two. -/
theorem Spread.split {a b : Nat} {r s c : Int} (hO : Spread (L ++ n :: R))
    (h₁ : n.data.mStart < c) (h₂ : c < n.data.mEnd) :
    Spread ((L ++ [⟨a, proxy n.data.mStart c r⟩]) ++ ⟨b, proxy c n.data.mEnd s⟩ :: R) := by
  obtain ⟨hL, hR⟩ := hO.around
  have hfront : Spread (L ++ ⟨a, proxy n.data.mStart c r⟩ :: R) := by
    obtain ⟨hOL, hnR, hLR⟩ := spread_append.mp hO
    refine Spread.between (spread_append.mpr ⟨hOL, (spread_cons.mp hnR).2.2, fun p hp m hm =>
      hLR p hp m (List.mem_cons_of_mem _ hm)⟩) h₁.le hL fun m hm => ?_
    exact ⟨h₂.le.trans (hR m hm).1, (hR m hm).2⟩
  rw [List.append_cons] at hfront
  refine hfront.between h₂.le (fun m hm => ?_) fun m hm => ⟨(hR m hm).1, h₂.trans_le (hR m hm).1⟩
  rcases List.mem_append.mp hm with hm | hm
  · exact ⟨(hL m hm).1.trans h₁.le, (hL m hm).2.trans h₁⟩
  · rw [List.mem_singleton.mp hm]
    exact ⟨le_rfl, h₁⟩

/-- The entry before the new range reaches into it. -/
theorem addReader_split_share (hA : t.AddrOk) (hO : Spread t.nodes) (hn : t.nodes = L ++ n :: R)
    (hlo : n.data.mStart < lo) (hend : lo < n.data.mEnd) (hlt : lo < hi) (index : Index)
    (hsn : Shareable n.data) (hs : ∀ m ∈ R, m.data.mStart < hi → Walkable m.data) :
    (Countable hi lo t.nodes.length (n :: R) →
      ∃ t' a b S', addReader t (Range.new lo hi .reader) (some n.addr) index = .ok (t', none) ∧
        t'.AddrOk ∧ t'.nodes = (L ++ [⟨a, proxy n.data.mStart lo n.data.mRefs⟩]) ++ S' ∧
        Share hi lo (⟨b, proxy lo n.data.mEnd n.data.mRefs⟩ :: R) S' ∧
        Detaches t t' (n :: (⟨b, proxy lo n.data.mEnd n.data.mRefs⟩ :: R).filter
          fun m => m.data.mStart < hi)) ∧
    (¬Countable hi lo t.nodes.length (n :: R) →
      addReader t (Range.new lo hi .reader) (some n.addr) index = .error .assertion) := by
  have hO' : Spread (L ++ n :: R) := hn ▸ hO
  have hget : t.get n.addr = .ok n.data := Table.get_node hA (by simp [hn])
  rw [countable_cons hend (hlo.trans hlt), if_neg (not_lt.mpr hlo.le), if_pos hlo]
  by_cases hcn : n.data.mIsProxy = false → t.nodes.length % 2 ^ 32 ≠ 0
  case neg =>
    refine ⟨fun hc => absurd hc.1 hcn, fun _ => ?_⟩
    simp only [addReader, Range.new, splitPrev, hget, ok_bind, if_neg (not_le.mpr hend), ne_eq,
      hlo.ne, not_false_eq_true, if_true, rangeSplit_wrapped hA hn hsn hlo hend hcn, error_bind]
  obtain ⟨t₁, a, b, hsplit, hA₁, hD₁, hn₁⟩ := rangeSplit_spec hA hO.keyed hn hsn hlo hend hcn
  have hn₂ : t₁.nodes = (L ++ [⟨a, proxy n.data.mStart lo n.data.mRefs⟩]) ++
      ⟨b, proxy lo n.data.mEnd n.data.mRefs⟩ :: R := by simp [hn₁]
  have hO₁ : Spread t₁.nodes := by
    rw [hn₂]
    exact hO'.split hlo hend
  have hget₁ : t₁.get b = .ok (proxy lo n.data.mEnd n.data.mRefs) := Table.get_at hA₁ hn₂
  have hs₁ : ∀ m ∈ (⟨b, proxy lo n.data.mEnd n.data.mRefs⟩ : Node) :: R, m.data.mStart < hi →
      Walkable m.data := by
    intro m hm hmlt
    rcases List.mem_cons.mp hm with rfl | hm
    · exact ⟨shareable_proxy hsn.refs, hend⟩
    · exact hs m hm hmlt
  obtain ⟨hok, hwrapped⟩ := addReaderLoop_from hA₁ hO₁ hn₂ hlt hs₁
  have hcount : Countable hi lo t₁.nodes.length
      (⟨b, proxy lo n.data.mEnd n.data.mRefs⟩ :: R) ↔
        Countable hi n.data.mEnd (t.nodes.length + 1) R := by
    have hlen : t₁.nodes.length = t.nodes.length + 1 := by
      rw [hn₁, hn]
      simp only [List.length_append, List.length_cons]
      omega
    rw [countable_cons (n := ⟨b, proxy lo n.data.mEnd n.data.mRefs⟩) hend hlt, hlen]
    simp [proxy, Range.new]
  simp only [proxy_mStart] at hok hwrapped
  rw [hcount] at hok hwrapped
  have hnext : t₁.next a = some b := by
    have := Table.next_node hA₁ hn₁
    simpa using this
  have hprev : splitPrev t lo (some n.addr) = .ok (t₁, some b) := by
    simp only [splitPrev, hget, ok_bind, if_neg (not_le.mpr hend), ne_eq, hlo.ne,
      not_false_eq_true, if_true, hsplit, check_ok hnext, pure_eq_ok]
  have hcheck : checkStart t₁ lo (some b) = .ok () := by
    simp only [checkStart, hget₁, ok_bind, proxy_mStart, check_ok]
  simp only [addReader, Range.new, hprev, ok_bind, hcheck, hget₁, proxy_mStart,
    if_neg (not_le.mpr hlt), lt_irrefl, if_false, pure_eq_ok]
  refine ⟨fun hc => ?_, fun hc => ?_⟩
  · obtain ⟨t', S', he, hA', hn', hsh, hD⟩ := hok hc.2
    exact ⟨t', a, b, S', by rw [he, ok_bind], hA', hn', hsh, hD₁.trans hD⟩
  · rw [hwrapped fun hcR => hc ⟨hcn, hcR⟩, error_bind]

theorem splitPrev_free (hA : t.AddrOk) (hn : t.nodes = L ++ R)
    (hL : ∀ m ∈ L, m.data.mEnd ≤ lo) :
    splitPrev t lo (L.getLast?.map Slot.addr) = .ok (t, none) := by
  rcases List.eq_nil_or_concat L with rfl | ⟨L', p, rfl⟩
  · rfl
  · have hget : t.get p.addr = .ok p.data := Table.get_node hA (by simp [hn])
    have hp : p.data.mEnd ≤ lo := hL p (by simp)
    simp only [List.concat_eq_append, List.getLast?_concat, Option.map_some, splitPrev, hget,
      ok_bind, if_pos hp, pure_eq_ok]

/-- No entry contains the start of the new range. -/
theorem addReader_free_share (hA : t.AddrOk) (hO : Spread t.nodes) (hne : t.nodes ≠ [])
    (hn : t.nodes = L ++ R) (hL : ∀ m ∈ L, m.data.mEnd ≤ lo ∧ m.data.mStart < lo)
    (hR : ∀ m ∈ R, lo < m.data.mStart) (hs : ∀ m ∈ R, m.data.mStart < hi → Walkable m.data) :
    (Countable hi lo t.nodes.length R →
      (∃ t' a, addReader t (Range.new lo hi .reader) (L.getLast?.map Slot.addr) (.at L.length) =
          .ok (t', some a) ∧ (∀ m ∈ R, hi ≤ m.data.mStart) ∧ t'.AddrOk ∧ t'.removed = t.removed ∧
          t'.nodes = L ++ ⟨a, Range.new lo hi .reader⟩ :: R) ∨
        ∃ t' S', addReader t (Range.new lo hi .reader) (L.getLast?.map Slot.addr) (.at L.length) =
          .ok (t', none) ∧ t'.AddrOk ∧ t'.nodes = L ++ S' ∧ Share hi lo R S' ∧
          Detaches t t' (R.filter fun m => m.data.mStart < hi)) ∧
    (¬Countable hi lo t.nodes.length R →
      addReader t (Range.new lo hi .reader) (L.getLast?.map Slot.addr) (.at L.length) =
        .error .assertion) := by
  have hO' : Spread (L ++ R) := hn ▸ hO
  have hnext := Table.nearest_after hn hne
  have hins : t.insertAt (Range.new lo hi .reader) (.at L.length) = .ok
      ({ t with nodes := L ++ ⟨t.fresh, Range.new lo hi .reader⟩ :: R, fresh := t.fresh + 1 },
        t.fresh) := by
    simp only [Table.insertAt, Table.insertIdx_length hn, pure_eq_ok]
  simp only [Range.new, reduceCtorEq, if_false, decide_false] at hins ⊢
  simp only [addReader, splitPrev_free hA hn fun m hm => (hL m hm).1, ok_bind, checkStart,
    pure_eq_ok, hnext]
  rcases R with _ | ⟨n, R⟩
  · simp only [List.head?_nil, Option.map_none, hins, ok_bind]
    exact ⟨fun _ => .inl ⟨_, _, rfl, by simp, hA.insert hn, rfl, rfl⟩,
      fun hc => absurd trivial hc⟩
  · have hget : t.get n.addr = .ok n.data := Table.get_node hA (by simp [hn])
    simp only [List.head?_cons, Option.map_some, hget, ok_bind]
    have hge := hO'.le_starts
    by_cases hstop : hi ≤ n.data.mStart
    · simp only [if_pos hstop, hins, ok_bind]
      have hbehind : ∀ m ∈ n :: R, hi ≤ m.data.mStart := fun m hm => hstop.trans (hge m hm)
      exact ⟨fun _ => .inl ⟨_, _, rfl, hbehind, hA.insert hn, rfl, rfl⟩,
        fun hc => absurd (countable_of_behind hbehind) hc⟩
    · have hgap : lo < n.data.mStart := hR n List.mem_cons_self
      have hin : n.data.mStart < hi := not_le.mp hstop
      obtain ⟨t₁, c, hnew, hA₁, hr₁, hn₁⟩ := rangeNewProxy_spec hA hn hgap
        (fun m hm => (hL m hm).2) hR
      have hO₁ : Spread t₁.nodes := by
        rw [hn₁]
        exact hO'.between hgap.le hL fun m hm => ⟨hge m hm, hR m hm⟩
      rw [List.append_cons] at hn₁
      obtain ⟨hok, hwrapped⟩ := addReaderLoop_from hA₁ hO₁ hn₁ hin hs
      have hend := (hs n List.mem_cons_self hin).2
      have hcount : Countable hi lo t.nodes.length (n :: R) ↔
          Countable hi n.data.mStart t₁.nodes.length (n :: R) := by
        have hlen : t₁.nodes.length = t.nodes.length + 1 := by
          rw [hn₁, hn]
          simp only [List.length_append, List.length_cons, List.length_nil]
          omega
        rw [countable_cons (hgap.trans hend) hin, countable_cons hend hin, if_pos hgap,
          if_neg (not_lt.mpr hgap.le), if_neg (lt_irrefl _), if_neg (lt_irrefl _), hlen]
      simp only [if_neg hstop, if_pos hgap, hnew, ok_bind, hcount]
      refine ⟨fun hc => .inr ?_, fun hc => by rw [hwrapped hc, error_bind]⟩
      obtain ⟨t', S', he, hA', hn', hsh, hD⟩ := hok hc
      rw [← List.append_cons] at hn'
      exact ⟨t', _, by rw [he, ok_bind], hA', hn', .gap c hgap hin hsh,
        by simpa using (detaches_of_removed_eq hr₁).trans hD⟩

theorem overlaps_iff_of_le {m : Node} (hlt : m.data.mStart < m.data.mEnd) (h : lo ≤ m.data.mStart) :
    Overlaps m.data lo hi ↔ m.data.mStart < hi :=
  ⟨fun ho => ho.1, fun hm => ⟨hm, by omega⟩⟩

theorem not_overlaps_of_ends {m : Node} (h : m.data.mEnd ≤ lo) : ¬Overlaps m.data lo hi :=
  fun ho => absurd ho.2 (not_lt.mpr h)

/-- The part of an ordered list that a range starting at `lo` can overlap. -/
theorem mem_filter_iff_overlaps (hi : Int) (hO : Ordered (P ++ S)) (hP : ∀ m ∈ P, m.data.mEnd ≤ lo)
    (hS : ∀ m ∈ S, lo ≤ m.data.mStart) (m : Node) :
    m ∈ S.filter (fun m => m.data.mStart < hi) ↔ m ∈ P ++ S ∧ Overlaps m.data lo hi := by
  simp only [List.mem_filter, decide_eq_true_eq, List.mem_append]
  constructor
  · rintro ⟨hm, hlt⟩
    exact ⟨.inr hm, (overlaps_iff_of_le (hO.lt (by simp [hm])) (hS m hm)).mpr hlt⟩
  · rintro ⟨hm | hm, ho⟩
    · exact absurd ho (not_overlaps_of_ends (hP m hm))
    · exact ⟨hm, ho.1⟩

theorem Share.shared_append {S' : List Node} (h : Share hi lo S S') (hO : Ordered (P ++ S))
    (hP : ∀ m ∈ P, m.data.mEnd ≤ lo) (hS : ∀ m ∈ S, lo ≤ m.data.mStart) :
    Shared lo hi (P ++ S) (P ++ S') := by
  obtain ⟨hsh, hS'⟩ := h.shared (ordered_append.mp hO).2.1 hS
  exact hsh.append_left hO hP hS'

theorem le_starts_of_ordered (hO : Ordered (L ++ n :: R)) :
    ∀ m ∈ n :: R, n.data.mStart ≤ m.data.mStart := by
  intro m hm
  rcases List.mem_cons.mp hm with rfl | hm
  · exact le_rfl
  · exact ((starts_lt_of_ordered hO).2 m hm).le

theorem ends_le_of_ordered (hO : Ordered (L ++ n :: R)) : ∀ m ∈ L, m.data.mEnd ≤ n.data.mStart :=
  fun m hm => (ordered_append.mp hO).2.2 m hm n List.mem_cons_self

theorem Ordered.walkable (hO : Ordered (P ++ S)) (hS : ∀ m ∈ S, lo ≤ m.data.mStart)
    (hs : ∀ m ∈ P ++ S, Overlaps m.data lo hi → Shareable m.data) :
    ∀ m ∈ S, m.data.mStart < hi → Walkable m.data := by
  intro m hm hlt
  have hmem : m ∈ P ++ S := List.mem_append_right _ hm
  exact ⟨hs m hmem ((overlaps_iff_of_le (hO.lt hmem) (hS m hm)).mpr hlt), hO.lt hmem⟩

theorem addReader_at (hA : t.AddrOk) (hO : Ordered t.nodes) (hn : t.nodes = L ++ n :: R)
    (hlo : n.data.mStart = lo) (hlt : lo < hi) (index : Index)
    (hs : ∀ m ∈ t.nodes, Overlaps m.data lo hi → Shareable m.data) :
    (Countable hi lo t.nodes.length t.nodes →
      ∃ t', addReader t (Range.new lo hi .reader) (some n.addr) index = .ok (t', none) ∧
        t'.AddrOk ∧ Shared lo hi t.nodes t'.nodes ∧ Detached t t' lo hi) ∧
    (¬Countable hi lo t.nodes.length t.nodes →
      addReader t (Range.new lo hi .reader) (some n.addr) index = .error .assertion) := by
  subst hlo
  rw [hn] at hs
  have hO' := hn ▸ hO
  have hP := ends_le_of_ordered hO'
  have hS := le_starts_of_ordered hO'
  have hcount : Countable hi n.data.mStart t.nodes.length t.nodes ↔
      Countable hi n.data.mStart t.nodes.length (n :: R) := countable_append hn hP
  rw [hcount]
  obtain ⟨hok, hwrapped⟩ := addReader_at_share hA hO.spread hn rfl hlt index (hO'.walkable hS hs)
  refine ⟨fun hc => ?_, hwrapped⟩
  obtain ⟨t', S', he, hA', hn', hsh, hD⟩ := hok hc
  refine ⟨t', he, hA', ?_, hD.detached fun m _ => ?_⟩
  · rw [hn, hn']
    exact hsh.shared_append hO' hP hS
  · rw [hn]
    exact mem_filter_iff_overlaps hi hO' hP hS m

theorem addReader_split (hA : t.AddrOk) (hO : Ordered t.nodes) (hn : t.nodes = L ++ n :: R)
    (hlo : n.data.mStart < lo) (hend : lo < n.data.mEnd) (hlt : lo < hi) (index : Index)
    (hs : ∀ m ∈ t.nodes, Overlaps m.data lo hi → Shareable m.data) :
    (Countable hi lo t.nodes.length t.nodes →
      ∃ t', addReader t (Range.new lo hi .reader) (some n.addr) index = .ok (t', none) ∧
        t'.AddrOk ∧ Shared lo hi t.nodes t'.nodes ∧ Detached t t' lo hi) ∧
    (¬Countable hi lo t.nodes.length t.nodes →
      addReader t (Range.new lo hi .reader) (some n.addr) index = .error .assertion) := by
  have hO' := hn ▸ hO
  have hov : Overlaps n.data lo hi := ⟨hlo.trans hlt, hend⟩
  have hsn : Shareable n.data := hs n (by simp [hn]) hov
  obtain ⟨_, hnR, hLR⟩ := ordered_append.mp hO'
  obtain ⟨_, hRend, hOR⟩ := ordered_cons.mp hnR
  have hL := ends_le_of_ordered hO'
  have hwalk : ∀ m ∈ R, m.data.mStart < hi → Walkable m.data := by
    refine Ordered.walkable (P := L ++ [n]) (by simpa using hO')
      (fun m hm => hend.le.trans (hRend m hm)) fun m hm => hs m ?_
    simpa [hn] using hm
  have hcount : Countable hi lo t.nodes.length t.nodes ↔
      Countable hi lo t.nodes.length (n :: R) :=
    countable_append hn fun m hm => (hL m hm).trans hlo.le
  rw [hcount]
  obtain ⟨hok, hwrapped⟩ := addReader_split_share hA hO.spread hn hlo hend hlt index hsn hwalk
  refine ⟨fun hc => ?_, hwrapped⟩
  obtain ⟨t', a, b, S', he, hA', hn', hsh, hD⟩ := hok hc
  have hO₂ : Ordered ((L ++ [⟨a, proxy n.data.mStart lo n.data.mRefs⟩]) ++
      ⟨b, proxy lo n.data.mEnd n.data.mRefs⟩ :: R) := by
    rw [List.append_assoc, List.singleton_append]
    refine Ordered.between (ordered_append.mpr ⟨(ordered_append.mp hO').1,
      ordered_cons.mpr ⟨hend, hRend, hOR⟩, fun p hp m hm => ?_⟩) hlo hL fun m hm => ?_
    · rcases List.mem_cons.mp hm with rfl | hm
      · exact (hL p hp).trans hlo.le
      · exact hLR p hp m (List.mem_cons_of_mem _ hm)
    · rcases List.mem_cons.mp hm with rfl | hm
      · exact le_rfl
      · exact hend.le.trans (hRend m hm)
  have hP := ends_le_of_ordered hO₂
  have hS := le_starts_of_ordered hO₂
  refine ⟨t', he, hA', ?_, hD.detached fun m hm => ?_⟩
  · rw [hn, hn']
    refine Shared.unsplit (a := a) (b := b) hsn hov hlo hend ?_
    have := hsh.shared_append hO₂ hP hS
    simpa using this
  · have hfilter := mem_filter_iff_overlaps hi hO₂ hP hS m
    simp only [proxy_mStart] at hfilter
    rw [List.mem_cons, hfilter, hn]
    have hap : m ≠ ⟨a, proxy n.data.mStart lo n.data.mRefs⟩ := by
      rintro rfl
      simp [proxy, Range.new] at hm
    have hbp : m ≠ ⟨b, proxy lo n.data.mEnd n.data.mRefs⟩ := by
      rintro rfl
      simp [proxy, Range.new] at hm
    simp only [List.mem_append, List.mem_cons, hap, hbp, List.not_mem_nil, or_false, false_or]
    constructor
    · rintro (rfl | ⟨h, ho⟩)
      · exact ⟨.inr (.inl rfl), hov⟩
      · exact ⟨h.imp_right .inr, ho⟩
    · rintro ⟨h | rfl | h, ho⟩
      · exact .inr ⟨.inl h, ho⟩
      · exact .inl rfl
      · exact .inr ⟨.inr h, ho⟩

theorem addReader_free (hA : t.AddrOk) (hO : Ordered t.nodes) (hne : t.nodes ≠ [])
    (hn : t.nodes = L ++ R) (hL : ∀ m ∈ L, m.data.mEnd ≤ lo) (hR : ∀ m ∈ R, lo < m.data.mStart)
    (hs : ∀ m ∈ t.nodes, Overlaps m.data lo hi → Shareable m.data) :
    (Countable hi lo t.nodes.length t.nodes →
      ∃ t' ptr, addReader t (Range.new lo hi .reader) (L.getLast?.map Slot.addr) (.at L.length) =
          .ok (t', ptr) ∧ t'.AddrOk ∧
        ((∃ a, ptr = some a ∧ (∀ m ∈ R, hi ≤ m.data.mStart) ∧ t'.removed = t.removed ∧
            t'.nodes = L ++ ⟨a, Range.new lo hi .reader⟩ :: R) ∨
          ptr = none ∧ Shared lo hi t.nodes t'.nodes ∧ Detached t t' lo hi)) ∧
    (¬Countable hi lo t.nodes.length t.nodes →
      addReader t (Range.new lo hi .reader) (L.getLast?.map Slot.addr) (.at L.length) =
        .error .assertion) := by
  have hO' := hn ▸ hO
  rw [hn] at hs
  have hL' : ∀ m ∈ L, m.data.mEnd ≤ lo ∧ m.data.mStart < lo := fun m hm =>
    ⟨hL m hm, (hO.lt (by simp [hn, hm])).trans_le (hL m hm)⟩
  have hS : ∀ m ∈ R, lo ≤ m.data.mStart := fun m hm => (hR m hm).le
  have hcount : Countable hi lo t.nodes.length t.nodes ↔ Countable hi lo t.nodes.length R :=
    countable_append hn hL
  rw [hcount]
  obtain ⟨hok, hwrapped⟩ := addReader_free_share hA hO.spread hne hn hL' hR (hO'.walkable hS hs)
  refine ⟨fun hc => ?_, hwrapped⟩
  rcases hok hc with ⟨t', a, he, hge, hA', hrem, hn'⟩ | ⟨t', S', he, hA', hn', hsh, hD⟩
  · exact ⟨t', some a, he, hA', .inl ⟨a, rfl, hge, hrem, hn'⟩⟩
  · refine ⟨t', none, he, hA', .inr ⟨rfl, ?_, hD.detached fun m _ => ?_⟩⟩
    · rw [hn, hn']
      exact hsh.shared_append hO' hL hS
    · rw [hn]
      exact mem_filter_iff_overlaps hi hO' hL hS m

end Reader

section Scan
variable {t : Table} {L R P S : List Node} {n : Node} {rq : Request}

/-- What a search for a blocking entry among `l` found. -/
def ScanResult (rq : Request) (l : List Node) : Ptr → Prop
  | none => ∀ m ∈ l, Overlaps m.data rq.start rq.stop → ¬BlocksReader m.data
  | some a => ∃ n ∈ l, n.addr = a ∧ Overlaps n.data rq.start rq.stop ∧ BlocksReader n.data

theorem readerScan_spec (rq : Request) (hA : t.AddrOk) (hO : Spread t.nodes) :
    ∀ (S P : List Node) (fuel : Nat), t.nodes = P ++ S → S.length < fuel →
      (∀ m ∈ S, rq.start < m.data.mEnd) →
      ∃ r, readerScan t rq.stop fuel (S.head?.map Slot.addr) = .ok r ∧ ScanResult rq S r := by
  intro S
  induction S with
  | nil =>
    intro P fuel hn hf _
    obtain ⟨f, rfl⟩ : ∃ f, fuel = f + 1 := ⟨fuel - 1, by simp at hf; omega⟩
    exact ⟨none, rfl, by simp [ScanResult]⟩
  | cons n S ih =>
    intro P fuel hn hf hS
    obtain ⟨f, rfl⟩ : ∃ f, fuel = f + 1 := ⟨fuel - 1, by simp at hf; omega⟩
    have hget : t.get n.addr = .ok n.data := Table.get_node hA (by simp [hn])
    have hO' : Spread (P ++ n :: S) := hn ▸ hO
    simp only [List.head?_cons, Option.map_some, readerScan, hget, ok_bind]
    by_cases hstop : rq.stop ≤ n.data.mStart
    · refine ⟨none, if_pos hstop, fun m hm ho => absurd ho.1 (not_lt.mpr ?_)⟩
      exact hstop.trans (hO'.le_starts m hm)
    · rw [if_neg hstop]
      have hov : Overlaps n.data rq.start rq.stop := ⟨not_le.mp hstop, hS n List.mem_cons_self⟩
      by_cases hb : BlocksReader n.data
      · exact ⟨some n.addr, if_pos hb, n, List.mem_cons_self, rfl, hov, hb⟩
      · rw [if_neg (show ¬(n.data.mType = .writer ∨ n.data.mWriteWanted = true) from hb)]
        by_cases hend : rq.stop ≤ n.data.mEnd
        · refine ⟨none, if_pos hend, fun m hm ho => ?_⟩
          rcases List.mem_cons.mp hm with rfl | hm
          · exact hb
          · exact absurd ho.1 (not_lt.mpr (hend.trans (hO'.around.2 m hm).1))
        · rw [if_neg hend, Table.next_node hA hn]
          obtain ⟨r, he, hr⟩ := ih (P ++ [n]) f (by simp [hn]) (by simp at hf; omega)
            fun m hm => hS m (List.mem_cons_of_mem _ hm)
          refine ⟨r, he, ?_⟩
          rcases r with _ | a
          · intro m hm ho
            rcases List.mem_cons.mp hm with rfl | hm
            · exact hb
            · exact hr m hm ho
          · obtain ⟨m, hm, hrest⟩ := hr
            exact ⟨m, List.mem_cons_of_mem _ hm, hrest⟩

/-- The search goes over all entries, the first of them being the one before
the request or at its start. -/
theorem readerBlocker_prev (hA : t.AddrOk) (hO : Spread t.nodes) (hn : t.nodes = L ++ n :: R)
    (hle : n.data.mStart ≤ rq.start) (hR : ∀ m ∈ R, rq.start < m.data.mStart) (index : Index) :
    ∃ r, readerBlocker t rq (some n.addr) index = .ok r ∧ ScanResult rq t.nodes r := by
  have hget : t.get n.addr = .ok n.data := Table.get_node hA (by simp [hn])
  have hO' : Spread (L ++ n :: R) := hn ▸ hO
  have hRlt : ∀ m ∈ R, rq.start < m.data.mEnd := fun m hm =>
    (hR m hm).trans_le (hO.le (by simp [hn, hm]))
  have hL : ∀ m ∈ L, ¬Overlaps m.data rq.start rq.stop := fun m hm =>
    not_overlaps_of_ends ((hO'.around.1 m hm).1.trans hle)
  obtain ⟨r, hscan, hr⟩ := readerScan_spec rq hA hO R (L ++ [n]) (t.nodes.length + 1)
    (by simp [hn])
    (by rw [hn, List.length_append, List.length_cons]; omega) hRlt
  have hfrom : readerScanFrom t rq (some n.addr) index = .ok r := by
    simp only [readerScanFrom, Table.next_node hA hn, hscan]
  have hrest : ¬(Overlaps n.data rq.start rq.stop ∧ BlocksReader n.data) →
      ScanResult rq t.nodes r := by
    intro hnb
    rcases r with _ | a
    · intro m hm ho hb
      rcases List.mem_append.mp (hn ▸ hm) with hm | hm
      · exact hL m hm ho
      · rcases List.mem_cons.mp hm with rfl | hm
        · exact hnb ⟨ho, hb⟩
        · exact hr m hm ho hb
    · obtain ⟨m, hm, hmr⟩ := hr
      exact ⟨m, by simp [hn, hm], hmr⟩
  simp only [readerBlocker, hget, ok_bind, hfrom]
  by_cases hov : rq.start < n.data.mEnd
  · rw [if_pos hov]
    have ho : Overlaps n.data rq.start rq.stop := ⟨hle.trans_lt rq.lt, hov⟩
    by_cases hb : BlocksReader n.data
    · exact ⟨some n.addr, if_pos hb, n, by simp [hn], rfl, ho, hb⟩
    · rw [if_neg (show ¬(n.data.mType = .writer ∨ n.data.mWriteWanted = true) from hb)]
      by_cases hend : rq.stop < n.data.mEnd
      · refine ⟨none, if_pos hend, fun m hm hmo hmb => ?_⟩
        rcases List.mem_append.mp (hn ▸ hm) with hm | hm
        · exact hL m hm hmo
        · rcases List.mem_cons.mp hm with rfl | hm
          · exact hb hmb
          · have := (hO'.around.2 m hm).1
            have := hmo.1
            omega
      · rw [if_neg hend]
        exact ⟨r, rfl, hrest fun h => hb h.2⟩
  · rw [if_neg hov]
    exact ⟨r, rfl, hrest fun h => hov h.1.2⟩

theorem readerBlocker_none (rq : Request) (hA : t.AddrOk) (hO : Spread t.nodes) (hne : t.nodes ≠ [])
    (hS : ∀ m ∈ t.nodes, rq.start < m.data.mStart) :
    ∃ r, readerBlocker t rq none (.at 0) = .ok r ∧ ScanResult rq t.nodes r := by
  obtain ⟨r, hscan, hr⟩ := readerScan_spec rq hA hO t.nodes [] (t.nodes.length + 1)
    rfl (by omega) fun m hm => (hS m hm).trans_le (hO.le hm)
  refine ⟨r, ?_, hr⟩
  have hnext := Table.nearest_after (L := []) (R := t.nodes) rfl hne
  simp only [List.length_nil] at hnext
  simp only [readerBlocker, readerScanFrom, hnext, hscan]

theorem readerFrom_spec {prev : Ptr} {index : Index} {r : Ptr} (htype : rq.type = .reader)
    (hr : ScanResult rq t.nodes r) (hb : readerBlocker t rq prev index = .ok r)
    (hadd : r = none → (Countable rq.stop rq.start t.nodes.length t.nodes →
      ∃ t' ptr, addReader t (Range.new rq.start rq.stop .reader) prev index = .ok (t', ptr) ∧
        LockStep rq t (.granted t' ptr)) ∧
      (¬Countable rq.stop rq.start t.nodes.length t.nodes →
        addReader t (Range.new rq.start rq.stop .reader) prev index = .error .assertion)) :
    (t.Replaceable rq → ∃ o, readerFrom t rq prev index = .ok o ∧ LockStep rq t o) ∧
    (¬t.Replaceable rq → readerFrom t rq prev index = .error .assertion) := by
  simp only [readerFrom, hb, ok_bind]
  rcases r with _ | a
  · have hrep : t.Replaceable rq ↔ Countable rq.stop rq.start t.nodes.length t.nodes := by
      refine ⟨fun hrep => (hrep htype).resolve_left ?_, fun hc _ => .inr hc⟩
      rintro ⟨n, hn, ho, hblk⟩
      exact hr n hn ho hblk
    rw [hrep]
    obtain ⟨hok, hwrapped⟩ := hadd rfl
    refine ⟨fun hc => ?_, fun hc => by rw [hwrapped hc, error_bind]⟩
    obtain ⟨t', ptr, he, hstep⟩ := hok hc
    simp only [he, ok_bind, pure_eq_ok]
    exact ⟨_, rfl, hstep⟩
  · obtain ⟨n, hn, rfl, ho, hblk⟩ := hr
    exact ⟨fun _ => ⟨_, rfl, .reader htype hn ho hblk⟩,
      fun hrep => absurd (fun _ => .inl ⟨n, hn, ho, hblk⟩) hrep⟩

/-- A reader ends as it should, unless it comes to an entry that cannot be taken out. -/
theorem readerRetry_spec (h : t.Ok) (hne : t.nodes ≠ []) (htype : rq.type = .reader) :
    (t.Replaceable rq → ∃ o, readerRetry t rq = .ok o ∧ LockStep rq t o) ∧
    (¬t.Replaceable rq → readerRetry t rq = .error .assertion) := by
  have hshare : (∀ m ∈ t.nodes, Overlaps m.data rq.start rq.stop → ¬BlocksReader m.data) →
      ∀ m ∈ t.nodes, Overlaps m.data rq.start rq.stop → Shareable m.data :=
    fun hfree m hm ho => (h.entry m hm).shareable (hfree m hm ho)
  rcases Table.find_cases h.ordered.spread rq.start with ⟨L, n, R, hn, hstart, hfind⟩ |
    ⟨L, R, hn, hL, hR, hfind⟩
  · obtain ⟨_, hRgt⟩ := starts_lt_of_ordered (hn ▸ h.ordered)
    obtain ⟨r, hb, hr⟩ := readerBlocker_prev h.addr h.ordered.spread hn hstart.le
      (fun m hm => hstart ▸ hRgt m hm) .null
    simp only [readerRetry, hfind]
    refine readerFrom_spec htype hr hb fun hnone => ?_
    subst hnone
    obtain ⟨hok, hwrapped⟩ := addReader_at h.addr h.ordered hn hstart rq.lt .null (hshare hr)
    refine ⟨fun hc => ?_, hwrapped⟩
    obtain ⟨t', he, hA', hsh, hd⟩ := hok hc
    exact ⟨t', none, he, .shared htype hA' hsh hd hr⟩
  · simp only [readerRetry, hfind, Table.nearest_before hn hne]
    -- no overlap with the entry before: the new range lies between `L` and `R`
    have hfree : (∀ m ∈ L, m.data.mEnd ≤ rq.start) → ScanResult rq t.nodes none →
        (Countable rq.stop rq.start t.nodes.length t.nodes →
          ∃ t' ptr, addReader t (Range.new rq.start rq.stop .reader) (L.getLast?.map Slot.addr)
            (.at L.length) = .ok (t', ptr) ∧ LockStep rq t (.granted t' ptr)) ∧
        (¬Countable rq.stop rq.start t.nodes.length t.nodes →
          addReader t (Range.new rq.start rq.stop .reader) (L.getLast?.map Slot.addr)
            (.at L.length) = .error .assertion) := by
      intro hends hr
      obtain ⟨hok, hwrapped⟩ := addReader_free h.addr h.ordered hne hn hends hR (hshare hr)
      refine ⟨fun hc => ?_, hwrapped⟩
      obtain ⟨t', ptr, he, hA', hcase⟩ := hok hc
      refine ⟨t', ptr, he, ?_⟩
      rcases hcase with ⟨a, rfl, hge, hrem, hn'⟩ | ⟨rfl, hsh, hd⟩
      · exact .alone hn hends hge (by rw [htype]) hA' hrem hn'
      · exact .shared htype hA' hsh hd hr
    rcases List.eq_nil_or_concat L with rfl | ⟨L', p, rfl⟩
    · obtain ⟨r, hb, hr⟩ := readerBlocker_none rq h.addr h.ordered.spread hne
        (fun m hm => hR m (by simpa [hn] using hm))
      refine readerFrom_spec htype hr hb fun hnone => ?_
      subst hnone
      exact hfree (by simp) hr
    · have hn' : t.nodes = L' ++ p :: R := by simp [hn]
      have hp : p.data.mStart < rq.start := hL p (by simp)
      obtain ⟨r, hb, hr⟩ := readerBlocker_prev h.addr h.ordered.spread hn' hp.le hR
        (.at (L'.concat p).length)
      simp only [List.concat_eq_append, List.getLast?_concat, Option.map_some] at hb hfree ⊢
      refine readerFrom_spec htype hr hb fun hnone => ?_
      subst hnone
      by_cases hend : p.data.mEnd ≤ rq.start
      · refine hfree (fun m hm => ?_) hr
        rcases List.mem_append.mp hm with hm | hm
        · exact (ends_le_of_ordered (hn' ▸ h.ordered) m hm).trans hp.le
        · rw [List.mem_singleton.mp hm]
          exact hend
      · obtain ⟨hok, hwrapped⟩ := addReader_split h.addr h.ordered hn' hp
          (not_le.mp hend) rq.lt (.at (L' ++ [p]).length) (hshare hr)
        refine ⟨fun hc => ?_, hwrapped⟩
        obtain ⟨t', he, hA', hsh, hd⟩ := hok hc
        exact ⟨t', none, he, .shared htype hA' hsh hd hr⟩

/-- Where no entry meets the new range there is a place for it. -/
theorem exists_gap {lo hi : Int} {l : List Node} (hO : Spread l) (hlt : lo < hi)
    (hlen : ∀ m ∈ l, m.data.mStart < m.data.mEnd) (hfree : ∀ m ∈ l, ¬Overlaps m.data lo hi) :
    ∃ L R, l = L ++ R ∧ (∀ m ∈ L, m.data.mEnd ≤ lo) ∧ ∀ m ∈ R, hi ≤ m.data.mStart := by
  obtain ⟨L, R, rfl, hL, hR⟩ := exists_split_start hO lo
  refine ⟨L, R, rfl, fun m hm => ?_, fun m hm => ?_⟩
  · exact not_lt.mp fun hend => hfree m (by simp [hm]) ⟨(hL m hm).trans hlt, hend⟩
  · exact not_lt.mp fun hst =>
      hfree m (by simp [hm]) ⟨hst, (hR m hm).trans_lt (hlen m (by simp [hm]))⟩

theorem add_free (rq : Request) (h : t.Ok)
    (hfree : ∀ n ∈ t.nodes, ¬Overlaps n.data rq.start rq.stop) (type : RangeType)
    (htype : type = match rq.type with | .reader => .reader | .writer => .writer) :
    ∃ t' a, t.add (Range.new rq.start rq.stop type) = .ok (t', a) ∧
      LockStep rq t (.granted t' (some a)) := by
  obtain ⟨L, R, hn, hL, hR⟩ := exists_gap h.ordered.spread rq.lt (fun m hm => h.ordered.lt hm) hfree
  obtain ⟨t', a, he, hA', hr, hn'⟩ := Table.add_spec h.addr hn
    (r := Range.new rq.start rq.stop type)
    (fun m hm => (h.ordered.lt (by simp [hn, hm])).trans_le (hL m hm))
    (fun m hm => rq.lt.trans_le (hR m hm))
  exact ⟨t', a, he, .alone hn hL hR htype hA' hr hn'⟩

/-- A request that meets no entry takes none out. -/
theorem replaceable_of_free (h : t.Ok) (hfree : ∀ n ∈ t.nodes, ¬Overlaps n.data rq.start rq.stop) :
    t.Replaceable rq := by
  obtain ⟨L, R, hn, hL, hR⟩ := exists_gap h.ordered.spread rq.lt (fun m hm => h.ordered.lt hm) hfree
  refine fun _ => .inr ?_
  exact (countable_append hn hL).mpr (countable_of_behind hR)

theorem lockRangeReader_spec (h : t.Ok) (ht : t.Tells rq) (htype : rq.type = .reader) :
    (t.Replaceable rq → ∃ o, lockRangeReader t rq = .ok o ∧ LockStep rq t o) ∧
    (¬t.Replaceable rq → lockRangeReader t rq = .error .assertion) := by
  by_cases hsize : t.size = 0
  · refine ⟨fun _ => ?_, fun hrep => absurd (replaceable_of_free h (ht hsize)) hrep⟩
    obtain ⟨t', a, he, hstep⟩ := add_free rq h (ht hsize) .reader (by rw [htype])
    exact ⟨_, by simp only [lockRangeReader, if_pos hsize, he, ok_bind, pure_eq_ok], hstep⟩
  · have hnil : t.nodes ≠ [] := by
      rintro hnil
      exact hsize (by simp [Table.size, hnil])
    simp only [lockRangeReader, if_neg hsize]
    exact readerRetry_spec h hnil htype

/-- `nearest` makes an address of the null node, and nothing is stored there. -/
theorem readerBlocker_empty (h : t.Ok) (hnil : t.nodes = []) :
    readerBlocker t rq none (.at 0) = .error .badPointer := by
  have hget : t.get nullNodeData = .error .badPointer := by
    have hno : nullNodeData ∉ addrs (t.nodes ++ t.removed) := fun hm =>
      absurd (h.addr.pos _ hm) (lt_irrefl _)
    simp only [Table.get, get?_eq_none hno]
  simp only [readerBlocker, readerScanFrom, Table.nearest, hnil, List.length_nil, readerScan, hget]
  rfl

/-- A reader that is woken up when the tree is empty reads through that address. -/
theorem readerRetry_empty (h : t.Ok) (hnil : t.nodes = []) :
    readerRetry t rq = .error .badPointer := by
  have hfind : t.find rq.start = (none, .at 0) := by simp [Table.find, hnil]
  have hprev : t.nearest (.at 0) .before = none := by simp [Table.nearest, hnil]
  simp only [readerRetry, hfind, hprev, readerFrom, readerBlocker_empty h hnil]
  rfl

theorem nextBlocker_spec (hA : t.AddrOk) (hO : Ordered t.nodes) (hn : t.nodes = L ++ R)
    (hR : ∀ m ∈ R, rq.start < m.data.mStart) :
    (∃ n ∈ t.nodes, Overlaps n.data rq.start rq.stop ∧
        nextBlocker t rq (R.head?.map Slot.addr) = .ok (some n.addr)) ∨
      (∀ m ∈ R, rq.stop ≤ m.data.mStart) ∧ nextBlocker t rq (R.head?.map Slot.addr) = .ok none := by
  rcases R with _ | ⟨n, R⟩
  · exact .inr ⟨by simp, rfl⟩
  · have hmem : n ∈ t.nodes := by simp [hn]
    simp only [List.head?_cons, Option.map_some, nextBlocker, Table.get_node hA hmem, ok_bind,
      pure_eq_ok]
    by_cases hlt : n.data.mStart < rq.stop
    · have := hR n List.mem_cons_self
      have := hO.lt hmem
      exact .inl ⟨n, hmem, ⟨hlt, by omega⟩, by rw [if_pos hlt]⟩
    · refine .inr ⟨fun m hm => ?_, by rw [if_neg hlt]⟩
      exact (not_lt.mp hlt).trans (le_starts_of_ordered (hn ▸ hO) m hm)

theorem prevBlocker_spec (hA : t.AddrOk) (hO : Ordered t.nodes) (hn : t.nodes = L ++ R)
    (hL : ∀ m ∈ L, m.data.mStart < rq.start) :
    (∃ n ∈ t.nodes, Overlaps n.data rq.start rq.stop ∧
        prevBlocker t rq (L.getLast?.map Slot.addr) = .ok (some n.addr)) ∨
      (∀ m ∈ L, m.data.mEnd ≤ rq.start) ∧
        prevBlocker t rq (L.getLast?.map Slot.addr) = .ok none := by
  rcases List.eq_nil_or_concat L with rfl | ⟨L', p, rfl⟩
  · exact .inr ⟨by simp, rfl⟩
  · have hn' : t.nodes = L' ++ p :: R := by simp [hn]
    have hmem : p ∈ t.nodes := by simp [hn']
    have hp : p.data.mStart < rq.start := hL p (by simp)
    simp only [List.concat_eq_append, List.getLast?_concat, Option.map_some, prevBlocker,
      Table.get_node hA hmem, ok_bind, pure_eq_ok]
    by_cases hgt : p.data.mEnd > rq.start
    · exact .inl ⟨p, hmem, ⟨hp.trans rq.lt, hgt⟩, by rw [if_pos hgt]⟩
    · refine .inr ⟨fun m hm => ?_, by rw [if_neg hgt]⟩
      rcases List.mem_append.mp hm with hm | hm
      · exact (ends_le_of_ordered (hn' ▸ hO) m hm).trans hp.le
      · rw [List.mem_singleton.mp hm]
        exact not_lt.mp hgt

theorem lockRangeWriter_spec (h : t.Ok) (ht : t.Tells rq) (htype : rq.type = .writer) :
    ∃ o, lockRangeWriter t rq = .ok o ∧ LockStep rq t o := by
  by_cases hsize : t.size = 0
  · obtain ⟨t', a, he, hstep⟩ := add_free rq h (ht hsize) .writer (by rw [htype])
    exact ⟨_, by simp only [lockRangeWriter, if_pos hsize, he, ok_bind, pure_eq_ok], hstep⟩
  · have hnil : t.nodes ≠ [] := by
      rintro hnil
      exact hsize (by simp [Table.size, hnil])
    simp only [lockRangeWriter, if_neg hsize]
    rcases Table.find_cases h.ordered.spread rq.start with ⟨L, n, R, hn, hstart, hfind⟩ |
      ⟨L, R, hn, hL, hR, hfind⟩
    · have hmem : n ∈ t.nodes := by simp [hn]
      have hlen := h.ordered.lt hmem
      have hlt := rq.lt
      simp only [hfind, writerBlocker, pure_eq_ok, ok_bind]
      exact ⟨_, rfl, .writer htype hmem ⟨by omega, by omega⟩⟩
    · simp only [hfind, writerBlocker, Table.nearest_after hn hnil, Table.nearest_before hn hnil]
      rcases nextBlocker_spec h.addr h.ordered hn hR with ⟨n, hmem, ho, he⟩ | ⟨hge, he⟩
      · simp only [he, ok_bind, pure_eq_ok]
        exact ⟨_, rfl, .writer htype hmem ho⟩
      · rcases prevBlocker_spec h.addr h.ordered hn hL with ⟨n, hmem, ho, he'⟩ | ⟨hends, he'⟩
        · simp only [he, he', ok_bind, pure_eq_ok]
          exact ⟨_, rfl, .writer htype hmem ho⟩
        · simp only [he, he', ok_bind, pure_eq_ok, Table.insertAt, Table.insertIdx_length hn]
          exact ⟨_, rfl, .alone hn hends hge (by rw [htype]) (h.addr.insert hn) rfl rfl⟩

end Scan
end EchoFs.RangeLock
