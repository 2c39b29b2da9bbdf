import EchoFs.Nvml.Pieces
import EchoFs.Nvml.Shrink

/-! Bounds on the values of a file that hold in every run, whether or not the storage of
its calls fits, and what they say about reads that start at the end of the file or beyond. -/

namespace EchoFs.Nvml
open Checked IntervalMap Transition

/-- No segment ends before the file starts, and none counts a negative number of bytes. -/
structure Segment.InRange (s : Segment) : Prop where
  bytes : 0 ≤ s.mBytes
  end_nonneg : 0 ≤ s.mOffset + s.mSize

theorem align_nonneg {n : Int} (hn : 0 ≤ n) (b : Nat) : 0 ≤ align n b := by
  have hand : toSize n &&& toSize ((b : Int) - 1) ≤ toSize n := Nat.and_le_left
  have hle : (toSize n : Int) ≤ n := by
    unfold toSize
    omega
  unfold align
  omega

theorem xalign_nonneg {n : Int} (hn : 0 ≤ n) (b : Nat) : 0 ≤ xalign n b :=
  align_nonneg (by omega) b

theorem new_inRange {o n : Int} (g : Bool) (h : 0 ≤ o + n) : (Segment.new o n g).InRange :=
  ⟨le_rfl, h⟩

theorem Segment.InRange.shrunk {s : Segment} (h : s.InRange) (endOffset size : Int) (cut : Bool) :
    (s.shrunk endOffset size cut).InRange := by
  refine ⟨?_, ?_⟩
  · have hbytes := h.bytes
    unfold Segment.shrunk
    split_ifs
    · simp only
      omega
    · exact hbytes
    · exact hbytes
  · rw [shrunk_mOffset, shrunk_mSize]
    exact h.end_nonneg

namespace File
variable {f f' : File} {a b r q : Int} {id : Nat} {s : Segment}

/-- What holds in every run. -/
structure Bounded (f : File) : Prop where
  segs : ∀ s ∈ f.segments, s.InRange
  used : 0 ≤ f.mUsedOffset
  size : 0 ≤ f.stSize

theorem Bounded.get (h : f.Bounded) (hs : f.segment id = .ok s) : s.InRange := by
  unfold segment at hs
  split at hs
  · rename_i hget
    rw [← Except.ok.inj hs]
    exact h.segs _ (List.mem_of_getElem? hget)
  · cases hs

theorem Bounded.set (h : f.Bounded) {s' : Segment} (hs' : s'.InRange) :
    (f.setSegment id s').Bounded := by
  refine ⟨?_, h.used, h.size⟩
  intro u hu
  rcases List.mem_or_eq_of_mem_set hu with hu | rfl
  · exact h.segs u hu
  · exact hs'

theorem Bounded.append (h : f.Bounded) {N : List Segment} (hN : ∀ u ∈ N, u.InRange)
    (hs : f'.segments = f.segments ++ N) (hu : f'.mUsedOffset = f.mUsedOffset)
    (hz : f'.stSize = f.stSize) : f'.Bounded := by
  refine ⟨?_, by rw [hu]; exact h.used, by rw [hz]; exact h.size⟩
  intro u hu
  rw [hs] at hu
  rcases List.mem_append.mp hu with hu | hu
  · exact h.segs u hu
  · exact hN u hu

theorem linkSegments_same {sl : List Nat} : ∀ {f : File}, f.linkSegments sl = .ok f' →
    SameMeta f f' := by
  induction sl with
  | nil =>
    intro f h
    cases h
    exact ⟨rfl, rfl, rfl, rfl⟩
  | cons id sl ih =>
    intro f h
    simp only [linkSegments, List.foldlM_cons] at h
    obtain ⟨g, hg, h⟩ := bind_eq_ok.mp h
    obtain ⟨s, -, hg⟩ := bind_eq_ok.mp hg
    cases hg
    have hm := ih h
    exact ⟨hm.alloc, hm.used, hm.size, hm.segmentSize⟩

theorem Bounded.allocateGap (h : f.Bounded) (cfg : Config) {f₁ : File} {d : Int}
    (hs : s.InRange) (hr : 0 ≤ r) (hq : 0 ≤ q)
    (he : f.allocateGap cfg id s r q = .ok (f₁, d)) : f₁.Bounded := by
  obtain ⟨e, hor, hlink⟩ := allocateGap_ok cfg he
  have hsegs := linkSegments_segments hlink
  have hsame := linkSegments_same hlink
  have hx := xalign_nonneg (n := r + q) (by omega) cfg.segmentSize
  have hend := hs.end_nonneg
  have he0 : 0 ≤ e := by rcases hor with rfl | rfl <;> assumption
  have ho := align_nonneg hr cfg.segmentSize
  have hgap : ∀ {o n : Int}, 0 ≤ o + n → ∀ u ∈ newGap o n, u.InRange := by
    intro o n hon u hu
    unfold newGap at hu
    split_ifs at hu
    · cases hu
    · rw [List.mem_singleton.mp hu]
      exact new_inRange true hon
  have hset : (f.setSegment id (s.filled (align r cfg.segmentSize) e)).Bounded :=
    h.set ⟨hs.bytes, by simp only [Segment.filled]; omega⟩
  refine hset.append (N := newGap s.mOffset (align r cfg.segmentSize - s.mOffset) ++
    newGap e (s.mOffset + s.mSize - e)) ?_ (by simp [hsegs, filledSegments, setSegment])
    hsame.used hsame.size
  intro u hu
  rcases List.mem_append.mp hu with hu | hu
  · exact hgap (by omega) u hu
  · exact hgap (by omega) u hu

theorem Bounded.lookupLoop (cfg : Config) (g : Bool) (b : Int) (fuel : Nat) :
    ∀ {f : File} {leaf : Leaf} {r q : Int} {regions rs : List Region}, f.Bounded → 0 ≤ r →
    (g = true → 0 ≤ q) → lookupLoop cfg g b fuel f leaf r q regions = .ok (f', rs) →
    f'.Bounded := by
  induction fuel with
  | zero =>
    intro f leaf r q regions rs _ _ _ he
    cases he
  | succ fuel ih =>
    intro f leaf r q regions rs h hr hq he
    rcases lookupLoop_turn he with ⟨-, rfl, -⟩ | ⟨id, s, f₁, d, s₁, -, hs, hturn, -, he⟩
    · exact h
    have hsr := h.get hs
    have h₁ : f₁.Bounded := by
      cases hturn with
      | gap hg _ halloc => exact h.allocateGap cfg hsr hr (hq hg) halloc
      | segment _ => exact h
    rcases lookupRest_ok he with ⟨rfl, -⟩ | ⟨leaf', -, he⟩
    · exact h₁
    · refine ih h₁ hsr.end_nonneg (fun hg => ?_) he
      have := hq hg
      omega

theorem Bounded.lookupSegments (h : f.Bounded) (cfg : Config) {rs : List Region}
    (he : f.lookupSegments cfg a b = .ok (f', rs)) : f'.Bounded := by
  obtain ⟨_, ha, he⟩ := bind_eq_ok.mp he
  obtain ⟨_, hab, he⟩ := bind_eq_ok.mp he
  have ha := of_check ha
  have hab := of_check hab
  unfold lookupHelper at he
  split_ifs at he
  · cases he
    exact h
  · split at he
    · cases he
    · exact Bounded.lookupLoop cfg true b _ h ha (fun _ => by omega) he

theorem Bounded.extendAlloc (h : f.Bounded) (cfg : Config) {start size : Int}
    {regions rs : List Region} (hstart : 0 ≤ start) (hsize : 0 ≤ size)
    (he : f.extendAlloc cfg start size regions = .ok (f', rs)) : f'.Bounded := by
  unfold File.extendAlloc at he
  obtain ⟨-, -, he⟩ := bind_eq_ok.mp he
  dsimp only at he
  set m := min (f.mSegmentSize * 2 % 2 ^ 64) cfg.segmentSize with hm
  set o := if start ≤ f.mAllocOffset then f.mAllocOffset else align start m with ho
  have hx := xalign_nonneg (n := start + size) (by omega) m
  have hal := align_nonneg hstart m
  obtain ⟨-, -, he⟩ := bind_eq_ok.mp he
  obtain ⟨g, hlink, he⟩ := bind_eq_ok.mp he
  obtain ⟨rfl, -⟩ := Prod.mk.inj (Except.ok.inj he)
  have hsegs := linkSegments_segments hlink
  have hsame := linkSegments_same hlink
  -- wherever the new segment starts, it ends at the rounded end of the request
  have hnew : (Segment.new o (xalign (start + size) m - o) false).InRange :=
    new_inRange _ (by omega)
  have ho0 : o - f.mAllocOffset = 0 ∨ 0 ≤ o := by
    rw [ho]
    split_ifs
    · exact .inl (sub_self _)
    · exact .inr hal
  by_cases hgap : o - f.mAllocOffset = 0
  · simp only [hgap, ne_eq, not_true_eq_false, if_false, createSegment] at hsegs hsame
    refine h.append (N := [.new o (xalign (start + size) m - o) false]) ?_ hsegs hsame.used
      hsame.size
    intro u hu
    rw [List.mem_singleton.mp hu]
    exact hnew
  · have ho0 : 0 ≤ o := ho0.resolve_left hgap
    simp only [hgap, ne_eq, not_false_eq_true, if_true, createSegment, List.append_assoc]
      at hsegs hsame
    refine h.append (N := [.new f.mAllocOffset (o - f.mAllocOffset) true,
      .new o (xalign (start + size) m - o) false]) ?_ hsegs hsame.used hsame.size
    intro u hu
    rcases List.mem_cons.mp hu with rfl | hu
    · exact new_inRange _ (by omega)
    · rw [List.mem_singleton.mp hu]
      exact hnew

theorem Bounded.fetchStorage (h : f.Bounded) (cfg : Config) {start size : Int}
    {rs : List Region} (hstart : 0 ≤ start) (hsize : 0 ≤ size)
    (he : f.fetchStorage cfg start size = .ok (f', rs)) : f'.Bounded := by
  by_cases hin : start + size ≤ f.mAllocOffset
  · unfold File.fetchStorage at he
    rw [if_pos hin] at he
    exact h.lookupSegments cfg he
  rw [fetchStorage_append cfg hsize (not_le.mp hin)] at he
  obtain ⟨⟨f₁, rs₁⟩, hlook, he⟩ := bind_eq_ok.mp he
  refine Bounded.extendAlloc ?_ cfg hstart hsize he
  unfold lookupAllocated at hlook
  split_ifs at hlook
  · exact h.lookupSegments cfg hlook
  · cases hlook
    exact h

theorem Bounded.store (h : f.Bounded) {addr : Option (Nat × Int)} {bytes : List UInt8}
    (he : f.store addr bytes = .ok f') : f'.Bounded := by
  unfold File.store at he
  split at he
  · cases he
    exact h
  · cases he
  · obtain ⟨s, hs, he⟩ := bind_eq_ok.mp he
    split at he
    · cases he
    · split_ifs at he
      cases he
      exact h.set ⟨(h.get hs).bytes, (h.get hs).end_nonneg⟩

theorem Bounded.copyIn {rs : List Region} : ∀ {f : File} {buffer : List UInt8},
    f.Bounded → f.copyIn rs buffer = .ok f' → f'.Bounded := by
  induction rs with
  | nil =>
    intro f buffer h he
    cases he
    exact h
  | cons r rs ih =>
    intro f buffer h he
    obtain ⟨f₁, he₁, he⟩ := bind_eq_ok.mp he
    exact ih (h.store he₁) he

theorem Bounded.shrinkLoop {endOffset : Int} {leaves : List Leaf} :
    ∀ {f : File} {size : Int} {cut : Bool}, f.Bounded →
    shrinkLoop endOffset leaves size cut f = .ok f' → f'.Bounded := by
  induction leaves with
  | nil =>
    intro f size cut h he
    cases he
    exact h
  | cons leaf leaves ih =>
    intro f size cut h he
    obtain ⟨k, v⟩ := leaf
    cases v with
    | none => exact ih h he
    | some id =>
      cases hs : f.segments[id]? with
      | none => simp [File.shrinkLoop, segment, hs] at he
      | some s =>
        rw [shrinkLoop_some hs] at he
        have hset : (f.setSegment id (s.shrunk endOffset size cut)).Bounded :=
          h.set ((h.segs s (List.mem_of_getElem? hs)).shrunk _ _ _)
        have hshrunk : (f.shrinkSegment endOffset size cut id s).Bounded :=
          ⟨hset.segs, hset.used, hset.size⟩
        exact ih hshrunk he

theorem Bounded.updateSize (h : f.Bounded) {n : Int} (hn : 0 ≤ n) : (f.updateSize n).Bounded := by
  unfold File.updateSize
  split_ifs
  · exact ⟨h.segs, hn, hn⟩
  · exact h

theorem Bounded.write (h : f.Bounded) (cfg : Config) (op : Op) (hstart : 0 ≤ op.start)
    (hsize : 0 ≤ op.size) (he : op.run cfg f = .ok f') : f'.Bounded := by
  cases op with
  | putData start buffer =>
    obtain ⟨⟨f₁, rs⟩, he₁, he⟩ := bind_eq_ok.mp he
    obtain ⟨f₂, he₂, he⟩ := bind_eq_ok.mp he
    cases he
    exact ((h.fetchStorage cfg hstart hsize he₁).copyIn he₂).updateSize (Int.add_nonneg hstart hsize)
  | allocate start size =>
    obtain ⟨⟨f₁, rs⟩, he₁, he⟩ := bind_eq_ok.mp he
    cases he
    exact (h.fetchStorage cfg hstart hsize he₁).updateSize (Int.add_nonneg hstart hsize)

theorem Bounded.call (h : f.Bounded) (cfg : Config) {c : Call} (hv : c.Valid)
    (he : c.run cfg f = .ok f') : f'.Bounded := by
  cases c with
  | write op => exact h.write cfg op hv.1 hv.2.1 he
  | truncate endOffset =>
    simp only [Call.run, File.truncate] at he
    split_ifs at he
    · exact h.write cfg (.allocate 0 endOffset) le_rfl hv.1 he
    · obtain ⟨f₁, he₁, he⟩ := bind_eq_ok.mp he
      cases he
      exact ⟨(h.shrinkLoop he₁).segs, hv.1, hv.1⟩

theorem bounded_of_initial (h : Initial f) : f.Bounded := by
  obtain ⟨origin, -, he⟩ := h
  cases origin with
  | created =>
    cases he
    exact ⟨by simp [create], le_rfl, le_rfl⟩
  | preloaded content =>
    obtain ⟨f₁, he₁, he⟩ := bind_eq_ok.mp he
    obtain ⟨s, hs, he⟩ := bind_eq_ok.mp he
    cases he
    have hn := xalign_nonneg (n := content.length) (by omega) create.mSegmentSize
    have h₀ : create.Bounded := ⟨by simp [create], le_rfl, le_rfl⟩
    have hsame := linkSegments_same he₁
    have h₁ : f₁.Bounded := h₀.append (N := [.new 0 (xalign content.length create.mSegmentSize)
      false]) (by simpa using new_inRange false (by omega)) (linkSegments_segments he₁) hsame.used
      hsame.size
    have hend := (h₁.get hs).end_nonneg
    refine ⟨(h₁.set ?_).segs, Int.natCast_nonneg _, Int.natCast_nonneg _⟩
    exact ⟨Int.natCast_nonneg _, hend⟩

theorem bounded_of_reach {cfg : Config} (h : Reach Initial (Step cfg) f) : f.Bounded :=
  h.invariant (fun _ hf => bounded_of_initial hf) fun _ _ _ hf hstep => hf.call cfg hstep.1 hstep.2

theorem lookupLoop_prefix (cfg : Config) (g : Bool) (b : Int) (fuel : Nat) :
    ∀ {f : File} {leaf : Leaf} {r q : Int} {regions rs : List Region},
    lookupLoop cfg g b fuel f leaf r q regions = .ok (f', rs) → regions <+: rs := by
  induction fuel with
  | zero =>
    intro f leaf r q regions rs he
    cases he
  | succ fuel ih =>
    intro f leaf r q regions rs he
    rcases lookupLoop_turn he with ⟨-, -, rfl⟩ | ⟨id, s, f₁, d, s₁, -, -, -, -, he⟩
    · exact List.prefix_rfl
    rcases lookupRest_ok he with ⟨-, rfl⟩ | ⟨leaf', -, he⟩
    · exact List.prefix_append _ _
    · exact (List.prefix_append _ _).trans (ih he)

/-- A lookup with a negative size: the first region has a negative size too. -/
theorem Bounded.lookupHelper_negative (h : f.Bounded) (cfg : Config) {rs : List Region}
    (hlt : b < a) (hb : 0 ≤ b) (ha : a < 2 ^ 63)
    (hleaf : ∀ k, search f.mSegments a ≠ some ⟨k, none⟩)
    (he : f.lookupHelper cfg a b false = .ok (f', rs)) :
    ∃ p rs', rs = p :: rs' ∧ -2 ^ 63 < p.size ∧ p.size < 0 := by
  unfold lookupHelper at he
  rw [if_neg (by omega)] at he
  split at he
  · cases he
  rename_i leaf hsearch
  rcases lookupLoop_turn he with ⟨hval, -, -⟩ | ⟨id, s, f₁, d, s₁, -, hs, -, -, he⟩
  · obtain ⟨k, v⟩ := leaf
    obtain rfl : v = none := hval
    exact absurd hsearch (hleaf k)
  have hend := (h.get hs).end_nonneg
  have hpre : ∃ p rs', rs = p :: rs' ∧ p.size = min (b - a) (s.mSize - (a - s.mOffset)) := by
    rcases lookupRest_ok he with ⟨-, rfl⟩ | ⟨leaf', -, he⟩
    · exact ⟨_, [], rfl, rfl⟩
    · obtain ⟨rs', rfl⟩ := lookupLoop_prefix cfg false b _ he
      exact ⟨_, rs', rfl, rfl⟩
  obtain ⟨p, rs', rfl, hsize⟩ := hpre
  refine ⟨p, rs', rfl, ?_, ?_⟩ <;> omega

/-- The buffer for a region of negative size: no memory is large enough for it. -/
theorem copyOut_negative {p : Region} {rs : List Region} {room : Nat} (hroom : room < 2 ^ 63)
    (hlo : -2 ^ 63 < p.size) (hhi : p.size < 0) :
    f.copyOut (p :: rs) room = .error .badPointer := by
  have hsize : 2 ^ 63 ≤ toSize p.size := by
    unfold toSize
    omega
  unfold copyOut
  exact if_pos (by omega)

theorem lookupData_pastEnd (cfg : Config) {start size : Int} (h0 : 0 ≤ start)
    (hused : f.mUsedOffset ≤ start) (hpos : 0 < size) :
    f.lookupData cfg start (start + size) =
      (f.lookupHelper cfg start f.mUsedOffset false).map Prod.snd := by
  unfold lookupData
  rw [check_ok h0, ok_bind, check_ok (by omega), ok_bind, if_pos (by omega)]
  dsimp only
  cases f.lookupHelper cfg start f.mUsedOffset false <;> rfl

/-- In every run, a read that starts at the end of the file or beyond it is empty if and
only if it starts right at the end, or where the file has no segment. -/
theorem read_pastEnd_iff {cfg : Config} {f : File} {start size : Int}
    (h : Reach Initial (Step cfg) f) (hused : f.mUsedOffset ≤ start) (hpos : 0 < size)
    (hlt : start + size < 2 ^ 63) :
    f.getData cfg start size = .ok (.bytes []) ↔
      start = f.mUsedOffset ∨ ∃ k, search f.mSegments start = some ⟨k, none⟩ := by
  have hb := bounded_of_reach h
  have hu0 := hb.used
  unfold getData
  rw [check_ok (by omega), ok_bind, lookupData_pastEnd cfg (by omega) hused hpos]
  constructor
  · intro he
    by_contra hnot
    obtain ⟨hne, hleaf⟩ := not_or.mp hnot
    cases hx : f.lookupHelper cfg start f.mUsedOffset false with
    | error e =>
      rw [hx] at he
      cases he
    | ok p =>
      obtain ⟨f', rs⟩ := p
      obtain ⟨p, rs', rfl, hlo, hhi⟩ := hb.lookupHelper_negative cfg (by omega) hu0 (by omega)
        (fun k hk => hleaf ⟨k, hk⟩) hx
      rw [hx] at he
      simp only [Except.map, ok_bind, List.cons_ne_nil, if_false, pure_eq_ok] at he
      split_ifs at he with hroom
      · cases he
      · -- the size of the buffer for the first region wraps, and `get_data` fails
        rw [copyOut_negative (not_le.mp hroom) hlo hhi] at he
        cases he
  · rintro (rfl | ⟨k, hk⟩)
    · unfold lookupHelper
      rw [if_pos (sub_self _)]
      rfl
    · have hhelper : f.lookupHelper cfg start f.mUsedOffset false = .ok (f, []) := by
        unfold lookupHelper
        split_ifs
        · rfl
        · rw [hk]
          rfl
      rw [hhelper]
      rfl

/-- Where storage fits, that is beyond the allocated part. -/
theorem Layout.search_null_iff (h : f.Layout) (h0 : 0 ≤ a) :
    (∃ k, search f.mSegments a = some ⟨k, none⟩) ↔ f.mAllocOffset ≤ a := by
  constructor
  · rintro ⟨k, hk⟩
    by_contra hlt
    obtain ⟨k', id, s, hm, hs, hka, has⟩ := h.exists_leaf h0 (not_le.mp hlt)
    rw [h.search_leaf hm hs hka has] at hk
    cases hk
  · intro ha
    exact ⟨f.mAllocOffset, h.search_beyond ha⟩

/-- A read right at the end of a file of one byte. -/
theorem read_pastEnd_oneByte : ∃ f, create.putData .default 0 [1] = .ok f ∧
    f.getData .default 1 10 = .ok (.bytes []) := by
  have h₀ : Reach Initial (Step .default) create := .start ⟨.created, by decide, rfl⟩
  have h₁ := Step.reach h₀ (.write (.putData 0 [1])) (by decide) rfl
  exact ⟨_, rfl, (read_pastEnd_iff h₁ (by decide) (by decide) (by decide)).mpr (.inl rfl)⟩

/-- A read in the unused part of the segment of that file. -/
theorem read_pastEnd_fails : ¬∀ (cfg : Config) (f : File) (start size : Int),
    Reach Initial (Step cfg) f → f.mUsedOffset ≤ start → 0 < size → start + size < 2 ^ 63 →
    f.getData cfg start size = .ok (.bytes []) := by
  intro hclaim
  have h₀ : Reach Initial (Step .default) create := .start ⟨.created, by decide, rfl⟩
  have h₁ := Step.reach h₀ (.write (.putData 0 [1])) (by decide) rfl
  have hread := hclaim _ _ 100 10 h₁ (by decide) (by decide) (by decide)
  cases hread

end File
end EchoFs.Nvml
