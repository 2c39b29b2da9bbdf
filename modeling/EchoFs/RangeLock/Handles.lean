import EchoFs.RangeLock.Unlock

/-! The relation between the entries of the tree and the handles that callers
hold, and how the steps of `lock_range` and `unlock_range` keep it. -/

namespace EchoFs.RangeLock
open Checked Slots

def Handle.Contains (h : Handle) (x : Int) : Prop := h.rq.start ≤ x ∧ x < h.rq.stop

instance (h : Handle) (x : Int) : Decidable (h.Contains x) :=
  inferInstanceAs (Decidable (h.rq.start ≤ x ∧ x < h.rq.stop))

/-- The number of handles whose range contains `x`. -/
def cover (held : List Handle) (x : Int) : Nat := held.countP fun h => h.Contains x

/-- The descriptor `r` is the one `lock_range` made for the handle `h`. -/
structure Own (h : Handle) (r : Range) : Prop where
  start : r.mStart = h.rq.start
  stop : r.mEnd = h.rq.stop
  isProxy : r.mIsProxy = false
  type : r.mType = .writer ↔ h.rq.type = .writer

/-- The table holds exactly the ranges of the handles. -/
structure Consistent (t : Table) (held : List Handle) : Prop where
  ok : t.Ok
  nodup : held.Nodup
  weight : ∀ x, weightAt t.nodes x = cover held x
  uncut : ∀ h ∈ held, ∀ n ∈ t.nodes, (h.rq.start ≤ n.data.mStart ∧ n.data.mEnd ≤ h.rq.stop) ∨
    ¬Overlaps n.data h.rq.start h.rq.stop
  linked : ∀ h ∈ held, ∀ a, h.ptr = some a → (∃ n ∈ t.nodes, n.addr = a ∧ Own h n.data) ∨
    h.rq.type = .reader ∧ ∃ m ∈ t.removed, m.addr = a
  unlinked : ∀ h ∈ held, h.ptr = none → h.rq.type = .reader
  owner : ∀ n ∈ t.nodes, n.data.mIsProxy = false → ∃ h ∈ held, h.ptr = some n.addr
  ptrs : ∀ h ∈ held, ∀ h' ∈ held, ∀ a, h.ptr = some a → h'.ptr = some a → h = h'

/-- The entries that go when the handle is given back. -/
def Table.freedBy (t : Table) (h : Handle) : Nat :=
  t.nodes.countP fun n =>
    h.rq.start ≤ n.data.mStart ∧ n.data.mEnd ≤ h.rq.stop ∧ n.data.mRefs = 1

/-- `remove_node` finds a positive counter at each of them. -/
def Table.Releasable (t : Table) (h : Handle) : Prop := CountsDown t.nodes.length (t.freedBy h)

instance (t : Table) (h : Handle) : Decidable (t.Releasable h) :=
  inferInstanceAs (Decidable (CountsDown _ _))

theorem cover_cons (h : Handle) (held : List Handle) (x : Int) :
    cover (h :: held) x = cover held x + if h.Contains x then 1 else 0 := by
  simp [cover, List.countP_cons]

/-- The number of handles as the weight of the entries counts it. -/
theorem cover_cons_int (h : Handle) (held : List Handle) (x : Int) :
    (cover (h :: held) x : Int) =
      cover held x + if h.rq.start ≤ x ∧ x < h.rq.stop then 1 else 0 := by
  rw [cover_cons]
  by_cases hx : h.Contains x
  · rw [if_pos hx, if_pos (show h.rq.start ≤ x ∧ x < h.rq.stop from hx)]
    rfl
  · rw [if_neg hx, if_neg (show ¬(h.rq.start ≤ x ∧ x < h.rq.stop) from hx)]
    rfl

theorem cover_erase {h : Handle} {held : List Handle} (hm : h ∈ held) (x : Int) :
    cover held x = cover (held.erase h) x + if h.Contains x then 1 else 0 := by
  rw [← cover_cons]
  exact (List.perm_cons_erase hm).countP_eq _

theorem cover_pos {h : Handle} {held : List Handle} (hm : h ∈ held) {x : Int} (hx : h.Contains x) :
    0 < cover held x := List.countP_pos_iff.mpr ⟨h, hm, by simpa using hx⟩

theorem two_le_cover {h h' : Handle} {held : List Handle} (hm : h ∈ held) (hm' : h' ∈ held)
    (hne : h ≠ h') {x : Int} (hx : h.Contains x) (hx' : h'.Contains x) : 2 ≤ cover held x := by
  have hpos := cover_pos ((List.mem_erase_of_ne hne.symm).mpr hm') hx'
  rw [cover_erase hm, if_pos hx]
  omega

theorem consistent_empty : Consistent Table.empty [] where
  ok := ⟨⟨by simp [Table.empty], by simp [Table.empty], by simp [Table.empty], by decide⟩,
    Intervals.ordered_nil, by simp [Table.empty], by simp [Table.empty]⟩
  nodup := List.nodup_nil
  weight := fun _ => rfl
  uncut := by simp
  linked := by simp
  unlinked := by simp
  owner := by simp [Table.empty]
  ptrs := by simp

namespace Consistent
variable {t t' : Table} {held : List Handle} {h : Handle} {n : Node} {L M R : List Node}

theorem exists_entry (hc : Consistent t held) (hm : h ∈ held) {x : Int} (hx : h.Contains x) :
    ∃ n ∈ t.nodes, n.data.mStart ≤ x ∧ x < n.data.mEnd := by
  refine Intervals.exists_mem_of_weightAt_ne_zero (w := fun n => n.data.mRefs) ?_
  have hw : weightAt t.nodes x = cover held x := hc.weight x
  have hpos := cover_pos hm hx
  simp only [weightAt] at hw
  omega

theorem free (hc : Consistent t held) (hm : h ∈ held) {r : Range} (hr : r.mStart < r.mEnd)
    (hfree : ∀ n ∈ t.nodes, ¬Overlaps n.data r.mStart r.mEnd) :
    ¬Overlaps r h.rq.start h.rq.stop := by
  intro ho
  have h₁ := ho.1
  have h₂ := ho.2
  have hlt := h.rq.lt
  obtain ⟨n, hn, hx⟩ := hc.exists_entry hm (x := max r.mStart h.rq.start)
    ⟨by omega, by omega⟩
  exact hfree n hn ⟨by omega, by omega⟩

theorem refs_eq (hc : Consistent t held) (hn : n ∈ t.nodes) {x : Int}
    (hx : n.data.mStart ≤ x ∧ x < n.data.mEnd) : n.data.mRefs = cover held x := by
  rw [← hc.weight x]
  exact (Intervals.weightAt_eq (w := fun n => n.data.mRefs) hc.ok.ordered hn hx).symm

theorem own (hc : Consistent t held) (hm : h ∈ held) (hn : n ∈ t.nodes)
    (hp : h.ptr = some n.addr) : Own h n.data := by
  rcases hc.linked h hm _ hp with ⟨n', hn', ha, hown⟩ | ⟨_, m, hm', ha⟩
  · exact hc.ok.addr.eq_of_addr hn' hn ha ▸ hown
  · exact absurd (mem_addrs hm') (ha ▸ hc.ok.addr.notMem_removed hn)

/-- A handle whose descriptor is not in the tree is a reader, and proxies
fill its range. -/
theorem exists_proxies (hc : Consistent t held) (hm : h ∈ held)
    (hout : ∀ n ∈ t.nodes, h.ptr ≠ some n.addr) :
    h.rq.type = .reader ∧ ∃ L M R, t.nodes = L ++ M ++ R ∧ Tiles h.rq.start h.rq.stop M ∧
      ∀ m ∈ M, m.data.mType = .reader ∧ m.data.mIsProxy = true := by
  have htype : h.rq.type = .reader := by
    cases hp : h.ptr with
    | none => exact hc.unlinked h hm hp
    | some a =>
      rcases hc.linked h hm a hp with ⟨n, hn, rfl, _⟩ | ⟨htype, _⟩
      · exact absurd hp (hout n hn)
      · exact htype
  obtain ⟨L, M, R, hn, ht, _⟩ := Intervals.exists_tiles hc.ok.ordered h.rq.lt.le
    (fun n hn => by
      rcases hc.uncut h hm n hn with hin | hno
      · exact .inl hin
      · simp only [Overlaps, not_and_or, not_lt] at hno
        exact .inr hno.symm)
    (fun x hx hxb => hc.exists_entry hm ⟨hx, hxb⟩)
  refine ⟨htype, L, M, R, hn, ht, fun m hmM => ?_⟩
  have hmem : m ∈ t.nodes := by simp [hn, hmM]
  obtain ⟨hlo, hlt, hhi⟩ := Intervals.Tiles.mem_bounds ht m hmM
  -- a descriptor that is no proxy has an owner, which would be a second handle there
  have hproxy : m.data.mIsProxy = true := by
    by_contra hnp
    have hnp : m.data.mIsProxy = false := by simpa using hnp
    obtain ⟨h', hm', hp'⟩ := hc.owner m hmem hnp
    have hown := hc.own hm' hmem hp'
    have hne : h ≠ h' := by
      rintro rfl
      exact hout m hmem hp'
    have htwo := two_le_cover hm hm' hne (x := m.data.mStart) ⟨hlo, by omega⟩
      ⟨hown.start.ge, by have := hown.stop; omega⟩
    have hrefs := hc.refs_eq hmem (x := m.data.mStart) ⟨le_rfl, hlt⟩
    rw [(hc.ok.entry m hmem).refs_one hnp] at hrefs
    omega
  refine ⟨?_, hproxy⟩
  rcases (hc.ok.entry m hmem).kind with ⟨_, _, hnp⟩ | ⟨hr, _⟩
  · rw [hproxy] at hnp
    exact absurd hnp (by simp)
  · exact hr

/-- Of the entries in a range that is tiled, the tiles are all. -/
theorem freedBy_tiles (hc : Consistent t held) (hn : t.nodes = L ++ M ++ R)
    (ht : Tiles h.rq.start h.rq.stop M) : t.freedBy h = freed M := by
  have hlt := h.rq.lt
  have hO := hn ▸ hc.ok.ordered
  obtain ⟨first, hfirst, hstart, -⟩ := ht.exists_mem le_rfl hlt
  obtain ⟨last, hlast, hlo, hhi⟩ := ht.exists_mem (x := h.rq.stop - 1) (by omega) (by omega)
  have hpos : ∀ m ∈ L ++ M ++ R, m.data.mStart < m.data.mEnd := fun m hm => hO.lt hm
  obtain ⟨hOM, -, hR⟩ := ordered_append.mp hO
  obtain ⟨-, -, hL⟩ := ordered_append.mp hOM
  have hbefore : ∀ m ∈ L, ¬(h.rq.start ≤ m.data.mStart ∧ m.data.mEnd ≤ h.rq.stop ∧
      m.data.mRefs = 1) := fun m hm hin => by
    have := hL m hm first hfirst
    have := hpos m (by simp [hm])
    omega
  have hafter : ∀ m ∈ R, ¬(h.rq.start ≤ m.data.mStart ∧ m.data.mEnd ≤ h.rq.stop ∧
      m.data.mRefs = 1) := fun m hm hin => by
    have := hR last (by simp [hlast]) m hm
    have := hpos m (by simp [hm])
    omega
  have hinside : ∀ m ∈ M, (h.rq.start ≤ m.data.mStart ∧ m.data.mEnd ≤ h.rq.stop ∧
      m.data.mRefs = 1) ↔ m.data.mRefs = 1 := fun m hm =>
    ⟨fun hin => hin.2.2, fun hone => ⟨(ht.mem_bounds m hm).1, (ht.mem_bounds m hm).2.2, hone⟩⟩
  have hL₀ : L.countP (fun m => h.rq.start ≤ m.data.mStart ∧ m.data.mEnd ≤ h.rq.stop ∧
      m.data.mRefs = 1) = 0 := List.countP_eq_zero.mpr fun m hm => by simpa using hbefore m hm
  have hR₀ : R.countP (fun m => h.rq.start ≤ m.data.mStart ∧ m.data.mEnd ≤ h.rq.stop ∧
      m.data.mRefs = 1) = 0 := List.countP_eq_zero.mpr fun m hm => by simpa using hafter m hm
  unfold Table.freedBy
  rw [hn, List.countP_append, List.countP_append, hL₀, hR₀, Nat.zero_add, Nat.add_zero]
  exact List.countP_congr fun m hm => by simpa using hinside m hm

theorem freedBy_own (hc : Consistent t held) (hm : h ∈ held) (hn : n ∈ t.nodes)
    (hp : h.ptr = some n.addr) : t.freedBy h = 1 := by
  have hown := hc.own hm hn hp
  obtain ⟨L, R, hLR⟩ := List.append_of_mem hn
  have htiles : Tiles h.rq.start h.rq.stop [n] :=
    tiles_cons.mpr ⟨hown.start, by rw [hown.stop]; exact h.rq.lt, hown.stop⟩
  rw [hc.freedBy_tiles (L := L) (R := R) (by simpa using hLR) htiles, freed_cons,
    if_pos ((hc.ok.entry n hn).refs_one hown.isProxy)]
  rfl

/-- `unlock_range` on a held handle goes through, unless it comes to an entry that cannot be
taken out. -/
theorem unlockRange_spec (hc : Consistent t held) (hm : h ∈ held) :
    (t.Releasable h → ∃ r, unlockRange t h = .ok r ∧ UnlockStep h t r) ∧
    (¬t.Releasable h → unlockRange t h = .error .assertion) := by
  unfold Table.Releasable
  by_cases hin : ∃ n ∈ t.nodes, h.ptr = some n.addr
  · obtain ⟨n, hn, hp⟩ := hin
    rw [hc.freedBy_own hm hn hp]
    exact unlockRange_own hc.ok hn hp
  · have hout : ∀ n ∈ t.nodes, h.ptr ≠ some n.addr := fun n hn hp => hin ⟨n, hn, hp⟩
    obtain ⟨htype, L, M, R, hn, ht, hM⟩ := hc.exists_proxies hm hout
    rw [hc.freedBy_tiles hn ht]
    refine unlockRange_proxies hc.ok htype (fun a hp => ?_) hn ht hM
    rcases hc.linked h hm a hp with ⟨n, hn, rfl, _⟩ | ⟨_, hm'⟩
    · exact absurd hp (hout n hn)
    · exact hm'

theorem ptr_mem (hc : Consistent t held) (hm : h ∈ held) {a : Nat} (hp : h.ptr = some a) :
    a ∈ addrs (t.nodes ++ t.removed) := by
  rw [addrs_append, List.mem_append]
  rcases hc.linked h hm a hp with ⟨n, hn, rfl, _⟩ | ⟨_, m, hm', rfl⟩
  · exact .inl (mem_addrs hn)
  · exact .inr (mem_addrs hm')

/-- The lock is granted with an entry of its own. -/
theorem alone {rq : Request} {id a : Nat} {type : RangeType} (hc : Consistent t held)
    (hid : ∀ h ∈ held, h.id ≠ id) (hn : t.nodes = L ++ R)
    (hL : ∀ m ∈ L, m.data.mEnd ≤ rq.start) (hR : ∀ m ∈ R, rq.stop ≤ m.data.mStart)
    (htype : type = match rq.type with | .reader => .reader | .writer => .writer)
    (hA : t'.AddrOk) (hr : t'.removed = t.removed)
    (hn' : t'.nodes = L ++ ⟨a, Range.new rq.start rq.stop type⟩ :: R) :
    Consistent t' (⟨id, rq, some a⟩ :: held) := by
  have hnp : type ≠ .proxyReader := by rw [htype]; cases rq.type <;> simp
  have hnew : Range.new rq.start rq.stop type = ⟨rq.start, rq.stop, type, 1, false, false, false⟩ := by
    simp [Range.new, hnp]
  rw [hnew] at hn'
  have hold : ∀ m ∈ t.nodes, m ∈ t'.nodes := by
    intro m hm
    rw [hn, List.mem_append] at hm
    rw [hn', List.mem_append, List.mem_cons]
    tauto
  have hback : ∀ m ∈ t'.nodes, m ∈ t.nodes ∨
      m = ⟨a, ⟨rq.start, rq.stop, type, 1, false, false, false⟩⟩ := by
    intro m hm
    rw [hn', List.mem_append, List.mem_cons] at hm
    rw [hn, List.mem_append]
    tauto
  have hfree : ∀ m ∈ t.nodes, ¬Overlaps m.data rq.start rq.stop := by
    intro m hm ho
    rcases List.mem_append.mp (hn ▸ hm) with hm | hm
    · exact not_overlaps_of_ends (hL m hm) ho
    · exact absurd ho.1 (not_lt.mpr (hR m hm))
  have hfresh : a ∉ addrs (t.nodes ++ t.removed) := by
    have hnd := hA.nodup
    rw [hn', hr, List.append_assoc, List.cons_append] at hnd
    have := notMem_of_nodup_mid hnd
    rw [hn]
    simp only [addrs_append, List.mem_append] at this ⊢
    tauto
  have hOnew : Ordered t'.nodes := by
    rw [hn']
    exact Ordered.between (hn ▸ hc.ok.ordered) rq.lt hL hR
  refine ⟨⟨hA, hOnew, ?_, fun m hm => hc.ok.detached m (hr ▸ hm)⟩, ?_, ?_, ?_, ?_, ?_, ?_, ?_⟩
  · intro m hm
    rcases hback m hm with hm | rfl
    · exact hc.ok.entry m hm
    · refine ⟨?_, by simp⟩
      cases hq : rq.type <;> simp [htype, hq]
  · exact List.nodup_cons.mpr ⟨fun hm => hid _ hm rfl, hc.nodup⟩
  · intro x
    have hw := hc.weight x
    rw [hn] at hw
    rw [hn', cover_cons_int]
    simp only [weightAt, Intervals.weightAt_append, Intervals.weightAt] at hw ⊢
    omega
  · intro h hm m hmem
    rcases List.mem_cons.mp hm with rfl | hm
    · rcases hback m hmem with hmem | rfl
      · exact .inr (hfree m hmem)
      · exact .inl ⟨le_rfl, le_rfl⟩
    · rcases hback m hmem with hmem | rfl
      · exact hc.uncut h hm m hmem
      · exact .inr (hc.free hm rq.lt hfree)
  · intro h hm b hp
    rcases List.mem_cons.mp hm with rfl | hm
    · obtain rfl : a = b := by simpa using hp
      refine .inl ⟨⟨a, ⟨rq.start, rq.stop, type, 1, false, false, false⟩⟩, by simp [hn'], rfl, rfl,
        rfl, rfl, ?_⟩
      cases hq : rq.type <;> simp [htype, hq]
    · rcases hc.linked h hm b hp with ⟨n, hn, hrest⟩ | hrest
      · exact .inl ⟨n, hold n hn, hrest⟩
      · exact .inr (hr ▸ hrest)
  · intro h hm hp
    rcases List.mem_cons.mp hm with rfl | hm
    · simp at hp
    · exact hc.unlinked h hm hp
  · intro m hmem hp
    rcases hback m hmem with hmem | rfl
    · obtain ⟨h, hm, hhp⟩ := hc.owner m hmem hp
      exact ⟨h, List.mem_cons_of_mem _ hm, hhp⟩
    · exact ⟨_, List.mem_cons_self, rfl⟩
  · intro h hm h' hm' b hp hp'
    rcases List.mem_cons.mp hm with rfl | hm <;> rcases List.mem_cons.mp hm' with rfl | hm'
    · rfl
    · obtain rfl : a = b := by simpa using hp
      exact absurd (hc.ptr_mem hm' hp') hfresh
    · obtain rfl : a = b := by simpa using hp'
      exact absurd (hc.ptr_mem hm hp) hfresh
    · exact hc.ptrs h hm h' hm' b hp hp'

/-- The lock is granted by sharing entries with other readers. -/
theorem shared {rq : Request} {id : Nat} (hc : Consistent t held) (hid : ∀ h ∈ held, h.id ≠ id)
    (htype : rq.type = .reader) (hA : t'.AddrOk) (hs : Shared rq.start rq.stop t.nodes t'.nodes)
    (hd : Detached t t' rq.start rq.stop)
    (hfree : ∀ m ∈ t.nodes, Overlaps m.data rq.start rq.stop → ¬BlocksReader m.data) :
    Consistent t' (⟨id, rq, none⟩ :: held) := by
  refine ⟨⟨hA, hs.ordered, ?_, ?_⟩, ?_, ?_, ?_, ?_, ?_, ?_, ?_⟩
  · intro m hm
    rcases hs.pieces m hm with ⟨hm, _⟩ | hp
    · exact hc.ok.entry m hm
    · exact hp.shareable.entryOk
  · intro m hm
    rcases (hd m).mp hm with hm | ⟨n, _, _, _, rfl⟩
    · exact hc.ok.detached m hm
    · rfl
  · exact List.nodup_cons.mpr ⟨fun hm => hid _ hm rfl, hc.nodup⟩
  · intro x
    rw [hs.weight x, hc.weight x, cover_cons_int]
  · intro h hm m hmem
    rcases List.mem_cons.mp hm with rfl | hm
    · rcases hs.pieces m hmem with ⟨_, hno⟩ | hp
      · exact .inr hno
      · exact hp.uncut
    · rcases hs.pieces m hmem with ⟨hmem, _⟩ | hp
      · exact hc.uncut h hm m hmem
      · rcases hp.origin with ⟨n, hn, hin⟩ | hno
        · -- a piece of an old entry is where that entry was
          rcases hc.uncut h hm n hn with hnin | hnno
          · exact .inl ⟨hnin.1.trans hin.1, hin.2.trans hnin.2⟩
          · exact .inr fun ho => hnno ⟨hin.1.trans_lt ho.1, ho.2.trans_le hin.2⟩
        · exact .inr (hc.free hm (hs.ordered.lt hmem) hno)
  · intro h hm a hp
    rcases List.mem_cons.mp hm with rfl | hm
    · simp at hp
    · rcases hc.linked h hm a hp with ⟨n, hn, rfl, hown⟩ | ⟨hr, m, hm', rfl⟩
      · by_cases ho : Overlaps n.data rq.start rq.stop
        · -- the entry of the handle has become a proxy
          have hnw : h.rq.type ≠ .writer := fun hw => hfree n hn ho (.inl (hown.type.mpr hw))
          refine .inr ⟨?_, detach n, (hd _).mpr (.inr ⟨n, hn, ho, hown.isProxy, rfl⟩), rfl⟩
          cases hq : h.rq.type
          · rfl
          · exact absurd hq hnw
        · exact .inl ⟨n, hs.kept n hn ho, rfl, hown⟩
      · exact .inr ⟨hr, m, (hd m).mpr (.inl hm'), rfl⟩
  · intro h hm hp
    rcases List.mem_cons.mp hm with rfl | hm
    · exact htype
    · exact hc.unlinked h hm hp
  · intro m hmem hp
    rcases hs.pieces m hmem with ⟨hmem, _⟩ | hpc
    · obtain ⟨h, hm, hhp⟩ := hc.owner m hmem hp
      exact ⟨h, List.mem_cons_of_mem _ hm, hhp⟩
    · rw [hpc.isProxy] at hp
      exact absurd hp (by simp)
  · intro h hm h' hm' b hp hp'
    rcases List.mem_cons.mp hm with rfl | hm <;> rcases List.mem_cons.mp hm' with rfl | hm'
    · rfl
    · simp at hp
    · simp at hp'
    · exact hc.ptrs h hm h' hm' b hp hp'

/-- An entry gets a flag: nothing else in the table changes. -/
theorem reflag {n' : Node} (hc : Consistent t held) (hn : t.nodes = L ++ n :: R) (hA : t'.AddrOk)
    (hr : t'.removed = t.removed) (hn' : t'.nodes = L ++ n' :: R) (ha : n'.addr = n.addr)
    (hs : n'.data.mStart = n.data.mStart) (he : n'.data.mEnd = n.data.mEnd)
    (ht : n'.data.mType = n.data.mType) (hrefs : n'.data.mRefs = n.data.mRefs)
    (hp : n'.data.mIsProxy = n.data.mIsProxy) (hok : EntryOk n'.data) :
    Consistent t' held := by
  have hmem : n ∈ t.nodes := by simp [hn]
  have hmem' : n' ∈ t'.nodes := by simp [hn']
  have hold : ∀ m ∈ t.nodes, m = n ∨ m ∈ t'.nodes := by
    intro m hm
    rw [hn, List.mem_append, List.mem_cons] at hm
    rw [hn', List.mem_append, List.mem_cons]
    tauto
  have hback : ∀ m ∈ t'.nodes, m = n' ∨ m ∈ t.nodes := by
    intro m hm
    rw [hn', List.mem_append, List.mem_cons] at hm
    rw [hn, List.mem_append, List.mem_cons]
    tauto
  refine ⟨⟨hA, ?_, ?_, fun m hm => hc.ok.detached m (hr ▸ hm)⟩, hc.nodup, ?_, ?_, ?_, hc.unlinked,
    ?_, hc.ptrs⟩
  · rw [hn']
    exact (hn ▸ hc.ok.ordered).replace hs he
  · intro m hm
    rcases hback m hm with rfl | hm
    · exact hok
    · exact hc.ok.entry m hm
  · intro x
    rw [← hc.weight x, hn, hn']
    simp only [weightAt, Intervals.weightAt_append, Intervals.weightAt, hs, he, hrefs]
  · intro h hm m hmm
    rcases hback m hmm with rfl | hmm
    · simp only [Overlaps, hs, he]
      exact hc.uncut h hm n hmem
    · exact hc.uncut h hm m hmm
  · intro h hm a hpa
    rcases hc.linked h hm a hpa with ⟨m, hmm, rfl, hown⟩ | hrest
    · rcases hold m hmm with rfl | hmm
      · exact .inl ⟨n', hmem', ha, ⟨hs.trans hown.start, he.trans hown.stop, hp.trans hown.isProxy,
          by rw [ht]; exact hown.type⟩⟩
      · exact .inl ⟨m, hmm, rfl, hown⟩
    · exact .inr (hr ▸ hrest)
  · intro m hmm hnp
    rcases hback m hmm with rfl | hmm
    · rw [ha]
      exact hc.owner n hmem (hp ▸ hnp)
    · exact hc.owner m hmm hnp

/-- The handle is released with its own entry. -/
theorem releaseOwn (hc : Consistent t held) (hm : h ∈ held) (hptr : h.ptr = some n.addr)
    (hn : t.nodes = L ++ n :: R) (hA : t'.AddrOk) (hr : t'.removed = t.removed)
    (hn' : t'.nodes = L ++ R) : Consistent t' (held.erase h) := by
  have hmem : n ∈ t.nodes := by simp [hn]
  have hown := hc.own hm hmem hptr
  have hback : ∀ m ∈ t'.nodes, m ∈ t.nodes := by
    intro m hmm
    rw [hn', List.mem_append] at hmm
    rw [hn, List.mem_append, List.mem_cons]
    tauto
  have hheld : ∀ h' ∈ held.erase h, h' ∈ held ∧ h' ≠ h := fun h' hm' =>
    ((List.Nodup.mem_erase_iff hc.nodup).mp hm').symm
  have hO := hn ▸ hc.ok.ordered
  refine ⟨⟨hA, ?_, fun m hmm => hc.ok.entry m (hback m hmm), fun m hmm => hc.ok.detached m (hr ▸ hmm)⟩,
    hc.nodup.erase _, ?_, ?_, ?_, ?_, ?_, ?_⟩
  · obtain ⟨hOL, hOR, hcross⟩ := ordered_append.mp hO
    rw [hn']
    exact ordered_append.mpr ⟨hOL, (ordered_cons.mp hOR).2.2,
      fun a ha b hb => hcross a ha b (List.mem_cons_of_mem _ hb)⟩
  · intro x
    have hw := hc.weight x
    have hcov : (cover held x : Int) = cover (h :: held.erase h) x := by
      rw [cover_erase hm, cover_cons]
    have hone := (hc.ok.entry n hmem).refs_one hown.isProxy
    rw [hcov, cover_cons_int, hn, ← hown.start, ← hown.stop] at hw
    rw [hn']
    simp only [weightAt, Intervals.weightAt_append, Intervals.weightAt, hone] at hw ⊢
    omega
  · exact fun h' hm' m hmm => hc.uncut h' (hheld h' hm').1 m (hback m hmm)
  · intro h' hm' a hp
    obtain ⟨hm', hne⟩ := hheld h' hm'
    rcases hc.linked h' hm' a hp with ⟨m, hmm, rfl, hown'⟩ | hrest
    · refine .inl ⟨m, ?_, rfl, hown'⟩
      rw [hn, List.mem_append, List.mem_cons] at hmm
      rw [hn', List.mem_append]
      rcases hmm with hmm | rfl | hmm
      · exact .inl hmm
      · exact absurd (hc.ptrs h' hm' h hm _ hp hptr) hne
      · exact .inr hmm
    · exact .inr (hr ▸ hrest)
  · exact fun h' hm' => hc.unlinked h' (hheld h' hm').1
  · intro m hmm hp
    obtain ⟨h', hm', hp'⟩ := hc.owner m (hback m hmm) hp
    refine ⟨h', (List.Nodup.mem_erase_iff hc.nodup).mpr ⟨?_, hm'⟩, hp'⟩
    rintro rfl
    have hnm : m.addr = n.addr := by simpa [hp'] using hptr
    have hmL : m.addr ∈ addrs L ∨ m.addr ∈ addrs R := by
      rw [hn', List.mem_append] at hmm
      exact hmm.imp mem_addrs mem_addrs
    obtain ⟨hL, hR⟩ := hc.ok.addr.around hn
    rw [hnm] at hmL
    exact hmL.elim hL hR
  · exact fun h₁ hm₁ h₂ hm₂ => hc.ptrs h₁ (hheld h₁ hm₁).1 h₂ (hheld h₂ hm₂).1

/-- The handle is released through the proxies of its range. -/
theorem releaseProxies (hc : Consistent t held) (hm : h ∈ held)
    (hptr : ∀ n ∈ t.nodes, h.ptr ≠ some n.addr) (hn : t.nodes = L ++ M ++ R)
    (ht : Tiles h.rq.start h.rq.stop M) (hM : ∀ m ∈ M, m.data.mIsProxy = true) (hA : t'.AddrOk)
    (hr : ∀ m, m ∈ t'.removed ↔ m ∈ t.removed ∧ h.ptr ≠ some m.addr)
    (hn' : t'.nodes = L ++ released M ++ R) : Consistent t' (held.erase h) := by
  have hheld : ∀ h' ∈ held.erase h, h' ∈ held ∧ h' ≠ h := fun h' hm' =>
    ((List.Nodup.mem_erase_iff hc.nodup).mp hm').symm
  have hmem : ∀ m, m ∈ t.nodes ↔ m ∈ L ∨ m ∈ M ∨ m ∈ R := fun m => by
    rw [hn]
    simp only [List.mem_append, or_assoc]
  have hmem' : ∀ m, m ∈ t'.nodes ↔ m ∈ L ∨ m ∈ released M ∨ m ∈ R := fun m => by
    rw [hn']
    simp only [List.mem_append, or_assoc]
  -- every entry that is left is an old one or a proxy that had a reference more
  have hback : ∀ m ∈ t'.nodes, m ∈ t.nodes ∨ ∃ k ∈ M, k.data.mRefs ≠ 1 ∧
      m = ⟨k.addr, { k.data with mRefs := k.data.mRefs - 1 }⟩ := by
    intro m hmm
    rcases (hmem' m).mp hmm with hmm | hmm | hmm
    · exact .inl ((hmem m).mpr (.inl hmm))
    · exact .inr (mem_released.mp hmm)
    · exact .inl ((hmem m).mpr (.inr (.inr hmm)))
  have hkeep : ∀ m ∈ t.nodes, m.data.mIsProxy = false → m ∈ t'.nodes := by
    intro m hmm hp
    rcases (hmem m).mp hmm with hmm | hmm | hmm
    · exact (hmem' m).mpr (.inl hmm)
    · rw [hM m hmm] at hp
      exact absurd hp (by simp)
    · exact (hmem' m).mpr (.inr (.inr hmm))
  refine ⟨⟨hA, ?_, ?_, fun m hmm => hc.ok.detached m ((hr m).mp hmm).1⟩, hc.nodup.erase _, ?_, ?_,
    ?_, ?_, ?_, ?_⟩
  · rw [hn']
    exact ordered_released (hn ▸ hc.ok.ordered)
  · intro m hmm
    rcases hback m hmm with hmm | ⟨k, hk, hne, rfl⟩
    · exact hc.ok.entry m hmm
    · have hok := hc.ok.entry k ((hmem k).mpr (.inr (.inl hk)))
      have hkp := hM k hk
      refine ⟨.inr ?_, hok.readWanted⟩
      rcases hok.kind with ⟨_, _, hp⟩ | ⟨hrd, hpos, _⟩
      · rw [hkp] at hp
        exact absurd hp (by simp)
      · exact ⟨hrd, by simp only; omega, fun hp => by simp [hkp] at hp⟩
  · intro x
    have hw := hc.weight x
    have hcov : (cover held x : Int) = cover (h :: held.erase h) x := by
      rw [cover_erase hm, cover_cons]
    have hrel := weightAt_released ht x
    rw [hcov, cover_cons_int, hn] at hw
    rw [hn']
    simp only [weightAt, Intervals.weightAt_append] at hw hrel ⊢
    omega
  · intro h' hm' m hmm
    rcases hback m hmm with hmm | ⟨k, hk, _, rfl⟩
    · exact hc.uncut h' (hheld h' hm').1 m hmm
    · exact hc.uncut h' (hheld h' hm').1 k ((hmem k).mpr (.inr (.inl hk)))
  · intro h' hm' a hp
    obtain ⟨hm', hne⟩ := hheld h' hm'
    rcases hc.linked h' hm' a hp with ⟨m, hmm, ha, hown⟩ | ⟨htype, m, hmr, rfl⟩
    · exact .inl ⟨m, hkeep m hmm hown.isProxy, ha, hown⟩
    · refine .inr ⟨htype, m, (hr m).mpr ⟨hmr, fun hhp => hne ?_⟩, rfl⟩
      exact hc.ptrs h' hm' h hm _ hp hhp
  · exact fun h' hm' => hc.unlinked h' (hheld h' hm').1
  · intro m hmm hp
    rcases hback m hmm with hmm | ⟨k, hk, _, rfl⟩
    · obtain ⟨h', hm', hp'⟩ := hc.owner m hmm hp
      refine ⟨h', (List.Nodup.mem_erase_iff hc.nodup).mpr ⟨?_, hm'⟩, hp'⟩
      rintro rfl
      exact hptr m hmm hp'
    · simp [hM k hk] at hp
  · exact fun h₁ hm₁ h₂ hm₂ => hc.ptrs h₁ (hheld h₁ hm₁).1 h₂ (hheld h₂ hm₂).1

/-- A granted request keeps the table and the handles together. -/
theorem granted {rq : Request} {id : Nat} {ptr : Ptr} (hc : Consistent t held)
    (hid : ∀ h ∈ held, h.id ≠ id) (hstep : LockStep rq t (.granted t' ptr)) :
    Consistent t' (⟨id, rq, ptr⟩ :: held) := by
  cases hstep with
  | alone hn hL hR htype hA hr hn' => exact hc.alone hid hn hL hR htype hA hr hn'
  | shared htype hA hs hd hfree => exact hc.shared hid htype hA hs hd hfree

theorem released {signals : List Signal} (hc : Consistent t held) (hm : h ∈ held)
    (hstep : UnlockStep h t (t', signals)) : Consistent t' (held.erase h) := by
  cases hstep with
  | own hptr hn hA hr hn' => exact hc.releaseOwn hm hptr hn hA hr hn'
  | proxies hptr hn ht hM hA hr hn' => exact hc.releaseProxies hm hptr hn ht hM hA hr hn'

end Consistent
end EchoFs.RangeLock
