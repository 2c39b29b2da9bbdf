import EchoFs.Nvml.Visits

/-! The regions that `fetch_storage` gives for a request: when they are the memory of the
request, byte by byte, and nothing else. -/

namespace EchoFs.Nvml
open Checked IntervalMap

namespace File
variable {f f' g : File} {a b k x d offset size : Int} {id : Nat} {rs : List Region}

/-- The address of byte `i` of the regions one after the other. -/
def byteAt : List Region → Int → Option (Nat × Int)
  | [], _ => none
  | q :: rs, i =>
    if i < q.size then q.addr.map fun p => (p.1, p.2 + i) else byteAt rs (i - q.size)

theorem Gives.byteAt (h : Gives f a b rs) : ∀ {i : Int}, 0 ≤ i → i < b - a →
    ∃ id d, byteAt rs i = some (id, d) ∧ Stored f (a + i) id d := by
  induction h with
  | nil =>
    intro i hi hlt
    omega
  | @cons a b d id q rs hpos haddr hst h ih =>
    intro i hi hlt
    unfold File.byteAt
    by_cases hq : i < q.size
    · rw [if_pos hq, haddr]
      have hx := hst (a + i) (by omega) (by omega)
      rw [add_sub_cancel_left] at hx
      exact ⟨id, d + i, rfl, hx⟩
    · rw [if_neg hq]
      obtain ⟨id', d', he, hx⟩ := ih (i := i - q.size) (by omega) (by omega)
      rw [show a + q.size + (i - q.size) = a + i by omega] at hx
      exact ⟨id', d', he, hx⟩

/-- The first and the last byte of a region are in its segment. -/
theorem Gives.within (h : Gives f a b rs) : ∀ q ∈ rs, ∃ id d s, q.addr = some (id, d) ∧
    f.segments[id]? = some s ∧ 0 ≤ d ∧ d + q.size ≤ s.mSize := by
  induction h with
  | nil => simp
  | @cons a b d id q rs hpos haddr hst h ih =>
    intro p hp
    rcases List.mem_cons.mp hp with rfl | hp
    · obtain ⟨_, s, -, hs, -, hle, -, hd⟩ := hst a le_rfl (by omega)
      obtain ⟨_, s', -, hs', -, -, hlt, hd'⟩ := hst (a + p.size - 1) (by omega) (by omega)
      obtain rfl := Option.some.inj (hs.symm.trans hs')
      exact ⟨id, d, s, haddr, hs, by omega, by omega⟩
    · exact ih p hp

/-- A lookup of one byte, whether or not it gives memory to gaps. -/
theorem Stored.lookup (h : Stored f x id d) (cfg : Config) (g : Bool) :
    f.lookupHelper cfg x (x + 1) g = .ok (f, [⟨some (id, d), 1, false⟩]) := by
  obtain ⟨k, s, hsearch, hs, hgap, hle, hlt, rfl⟩ := h
  have hone : min (x + 1 - x) (s.mSize - (x - s.mOffset)) = 1 := by omega
  unfold lookupHelper
  rw [if_neg (by omega), hsearch]
  simp only [lookupLoop, segment_eq hs, ok_bind, check_ok (show x - s.mOffset ≠ s.mSize by omega),
    hgap, Bool.false_eq_true, and_false, if_false, pure_eq_ok, hone, List.nil_append]
  exact if_pos (by omega)

theorem Stored.grows (h : Stored f x id d) (hg : Grows f g) (hL : g.Layout) :
    Stored g x id d := by
  obtain ⟨k, s, hsearch, hs, hgap, hle, hlt, rfl⟩ := h
  obtain ⟨hm, hkx⟩ := mem_of_search hsearch
  exact hL.stored (hg.leaves _ hm (Option.some_ne_none _)) (hg.segs _ _ hs) hgap hkx hlt

theorem Stored.withSegmentSize {m : Nat} (hst : Stored g x id d) :
    Stored { g with mSegmentSize := m } x id d := hst

/-- The regions are the memory of `size` bytes from `offset` on, where a later lookup finds
each of them. -/
structure CoversRequest (cfg : Config) (f : File) (offset size : Int) (rs : List Region) :
    Prop where
  total : (rs.map Region.size).sum = size
  bytes : ∀ i, 0 ≤ i → i < size → ∃ addr, byteAt rs i = some addr ∧ ∀ g,
    f.lookupHelper cfg (offset + i) (offset + i + 1) g = .ok (f, [⟨some addr, 1, false⟩])
  within : ∀ q ∈ rs, ∃ id d s, q.addr = some (id, d) ∧ f.segments[id]? = some s ∧
    0 ≤ d ∧ d + q.size ≤ s.mSize

theorem Gives.coversRequest (cfg : Config) (h : Gives f offset (offset + size) rs) :
    CoversRequest cfg f offset size rs where
  total := by
    rw [h.sum]
    omega
  bytes := by
    intro i hi hlt
    obtain ⟨id, d, he, hst⟩ := h.byteAt hi (by omega)
    exact ⟨(id, d), he, hst.lookup cfg⟩
  within := h.within

/-- The request gets its memory. -/
def Fetches (cfg : Config) (f : File) (offset size : Int) : Prop :=
  ∃ f' rs, f.fetchStorage cfg offset size = .ok (f', rs) ∧ CoversRequest cfg f' offset size rs

section
variable (h : f.Layout) (cfg : Config) (hz : f.SizeOk)
include h

theorem Layout.grow_stored {n : Int} (hn : 0 < n) (hx : f.mAllocOffset ≤ x)
    (hxn : x < f.mAllocOffset + n) :
    Stored (f.grow n false) x f.segments.length (x - f.mAllocOffset) := by
  have hm : (⟨f.mAllocOffset, some f.segments.length⟩ : Leaf) ∈ (f.grow n false).mSegments := by
    simp [File.grow]
  exact (h.grow hn false).1.stored (s := .new f.mAllocOffset n false) hm
    List.getElem?_concat_length rfl hx hxn

include cfg hz

/-- The allocated part is followed by the segment for the rest. -/
theorem Layout.extendAlloc_gives {o : Int} (hgives : Gives f o f.mAllocOffset rs)
    (hoff : offset ≤ f.mAllocOffset) (hgt : f.mAllocOffset < offset + size) :
    ∃ g rs', f.extendAlloc cfg offset size rs = .ok (g, rs') ∧
      Gives g o (offset + size) rs' := by
  obtain ⟨hpos, -⟩ := nextSize_ok cfg hz
  have hx := lt_xalign (n := offset + size) hpos
  have hn : 0 < xalign (offset + size) (f.nextSize cfg) - f.mAllocOffset := by omega
  obtain ⟨hL, hg⟩ := h.grow hn false
  refine ⟨_, _, h.extendAlloc_eq cfg hn rfl (.inl hoff) rs, ?_⟩
  refine (hgives.mono fun x i d _ hst => hst.grows (hg.withSegmentSize _)
    (hL.withSegmentSize _)).append (gives_one ?_ rfl ?_ fun x hx hxb => ?_)
  · simp only
    omega
  · simp only
    omega
  · rw [if_pos hoff, zero_add]
    exact (h.grow_stored hn hx (by omega)).withSegmentSize

/-- A request behind the allocated part gets a segment that starts with its block. -/
theorem Layout.extendAlloc_gap_gives (hgt : f.mAllocOffset < offset) (hsize : 0 < size)
    (hal : align offset (f.nextSize cfg) = offset) :
    ∃ g rs', f.extendAlloc cfg offset size [] = .ok (g, rs') ∧
      Gives g offset (offset + size) rs' := by
  obtain ⟨hpos, -⟩ := nextSize_ok cfg hz
  have hx := lt_xalign (n := offset + size) hpos
  obtain ⟨m, hm⟩ : ∃ m, f.mAllocOffset + m = offset := ⟨offset - f.mAllocOffset, by omega⟩
  have hmpos : 0 < m := by omega
  have hn : 0 < xalign (offset + size) (f.nextSize cfg) - (f.mAllocOffset + m) := by omega
  have hL := (h.grow hmpos true).1
  refine ⟨_, _, h.extendAlloc_gap cfg hmpos hn hgt (hal.trans hm.symm) rfl [],
    gives_one ?_ rfl ?_ fun x hx hxb => ?_⟩
  · simp only
    omega
  · simp only
    omega
  · have halloc : (f.grow m true).mAllocOffset = f.mAllocOffset + m := rfl
    have hlen : (f.grow m true).segments.length = f.segments.length + 1 := by
      simp [File.grow]
    have hst := hL.grow_stored (x := x) hn (by omega) (by omega)
    rw [hlen, halloc] at hst
    rw [show offset - (f.mAllocOffset + m) + (x - offset) = x - (f.mAllocOffset + m) by omega]
    exact hst.withSegmentSize

end

/-- The last region reaches from the start of the new segment to the end of the request. -/
theorem extendAlloc_total {cfg : Config} {regions : List Region}
    (h : f.extendAlloc cfg offset size regions = .ok (f', rs)) :
    (rs.map Region.size).sum = (regions.map Region.size).sum + (offset + size -
      if offset ≤ f.mAllocOffset then f.mAllocOffset else align offset (f.nextSize cfg)) := by
  unfold extendAlloc at h
  obtain ⟨-, -, h⟩ := bind_eq_ok.mp h
  dsimp only at h
  obtain ⟨-, -, h⟩ := bind_eq_ok.mp h
  obtain ⟨g, -, h⟩ := bind_eq_ok.mp h
  obtain ⟨-, rfl⟩ := Prod.mk.inj (Except.ok.inj h)
  simp only [List.map_append, List.sum_append, List.map_cons, List.map_nil, List.sum_singleton]
  rfl

/-- Behind the allocated part, the region has the size of the request only if it starts
with the segment. -/
theorem Fetches.align_eq {cfg : Config} (h : Fetches cfg f offset size) (hsize : 0 < size)
    (hgt : f.mAllocOffset < offset) : align offset (f.nextSize cfg) = offset := by
  obtain ⟨f', rs, he, hcovers⟩ := h
  rw [fetchStorage_append cfg hsize.le (by omega), lookupAllocated, if_neg (by omega)] at he
  have hsum := extendAlloc_total (f := f) he
  have htotal := hcovers.total
  rw [if_neg (by omega), List.map_nil, List.sum_nil] at hsum
  omega

section
variable (h : f.Layout) (ht : f.Tight) (cfg : Config) (ho : 0 ≤ offset)
  (hlt : f.mAllocOffset < 2 ^ 63)
include h ht ho hlt

theorem Layout.lookupAllocated_given (hle : offset ≤ f.mAllocOffset)
    (hno : ¬SplitsGap cfg f offset f.mAllocOffset) :
    ∃ f' rs, f.lookupAllocated cfg offset = .ok (f', rs) ∧
      Given f offset f.mAllocOffset f' rs := by
  unfold lookupAllocated
  rcases hle.eq_or_lt with rfl | hlt'
  · rw [if_neg (lt_irrefl _)]
    exact ⟨f, [], rfl, ⟨rfl, rfl, rfl, rfl⟩, .nil, fun _ => h⟩
  · rw [if_pos hlt']
    exact h.lookup_given ht cfg ho le_rfl hlt hle hno

theorem SplitsGap.fetch_fails (hsize : 0 < size)
    (hsplit : SplitsGap cfg f offset (min (offset + size) f.mAllocOffset)) :
    f.fetchStorage cfg offset size = .error .assertion := by
  have hlook := hsplit.lookup_fails h ht ho (min_le_right _ _) hlt
  by_cases hin : offset + size ≤ f.mAllocOffset
  · rw [min_eq_left hin] at hlook
    unfold fetchStorage
    rw [if_pos hin, hlook]
  · obtain ⟨_, _, _, _, _, _, _, hae, heb⟩ := hsplit
    rw [min_eq_right (by omega)] at hlook heb
    rw [fetchStorage_append cfg hsize.le (not_le.mp hin), lookupAllocated, if_pos (hae.trans heb),
      hlook]
    rfl

end

end File
end EchoFs.Nvml
