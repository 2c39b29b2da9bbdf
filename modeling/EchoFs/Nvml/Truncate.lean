import EchoFs.Nvml.Appends
import EchoFs.Nvml.Bounds

/-! The size and the data of a file after `truncate`, in runs whose storage fits, and
what a later extension of the file can bring back of the data that was cut off. -/

namespace EchoFs.Nvml
open Checked IntervalMap Memory Transition

namespace File
variable {f f' : File} {endOffset x : Int}

/-- What `truncate(endOffset)` is for: both sizes are `endOffset`, everything below is
backed by a segment, and an extension leaves the data as it is. -/
structure Truncated (f : File) (endOffset : Int) (f' : File) : Prop where
  size : f'.stSize = endOffset
  used : f'.mUsedOffset = endOffset
  alloc : endOffset ≤ f'.mAllocOffset
  backed : ∀ x, 0 ≤ x → x < endOffset → ∃ k id s, ⟨k, some id⟩ ∈ f'.mSegments ∧
    f'.segments[id]? = some s ∧ k ≤ x ∧ x < s.mOffset + s.mSize
  cells : f.stSize ≤ endOffset → ∀ x, 0 ≤ x → x < f.stSize → f'.cell x = f.cell x

/-- The branch that is taken gives the file its new size: it is the growing one and the
file does not shrink, or it is the other one, the size is allocated already and, unless
the file shrinks, none of its data is dropped. -/
def BranchOk (f : File) (endOffset : Int) : Prop :=
  if endOffset % 2 ^ 32 > f.stSize % 2 ^ 32 then f.stSize ≤ endOffset
  else endOffset ≤ f.mAllocOffset ∧ (f.stSize ≤ endOffset →
    ∀ x, f.keptEnd endOffset ≤ x → x < f.stSize → f.cell x = 0)

/-- What holds between the calls of a run whose truncates take the right branch. -/
structure Backed (f : File) : Prop where
  sound : f.Sound
  bounded : f.Bounded
  size_le : f.stSize ≤ f.mAllocOffset
  high : ∀ x, 2 ^ 63 - 1 ≤ x → f.cell x = 0

theorem Bounded.bytes (h : f.Bounded) : ∀ id ∈ treeIds f.mSegments, ∀ s,
    f.segments[id]? = some s → 0 ≤ s.mBytes :=
  fun _ _ _ hs => (h.segs _ (List.mem_of_getElem? hs)).bytes

/-- The growing branch is an `allocate` from the start of the file. -/
theorem Sound.truncate_grow (h : f.Sound) {cfg : Config} (hv : (Call.truncate endOffset).Valid)
    (hfits : (Call.truncate endOffset).Fits cfg f)
    (hgt : endOffset % 2 ^ 32 > f.stSize % 2 ^ 32) (he : f.truncate cfg endOffset = .ok f') :
    f'.cell = f.cell ∧ f'.stSize = max f.stSize endOffset ∧
      f.mAllocOffset ≤ f'.mAllocOffset ∧ endOffset ≤ f'.mAllocOffset := by
  have hgrow : f.truncate cfg endOffset = (Op.allocate 0 endOffset).run cfg f := if_pos hgt
  have hop : (Call.write (.allocate 0 endOffset)).Valid :=
    ⟨le_rfl, hv.1, by simpa [Op.start, Op.size] using hv.2⟩
  obtain ⟨hcell, hrest⟩ := h.run_spec cfg hop (hfits hgt) (hgrow.symm.trans he)
  exact ⟨hcell, by simpa only [Op.start, Op.size, zero_add] using hrest⟩

/-- The cells and sizes after the shrinking branch, whatever the new size is. -/
theorem Layout.truncate_shrink (h : f.Layout) (hb : f.Bounded) {cfg : Config}
    (hle : ¬endOffset % 2 ^ 32 > f.stSize % 2 ^ 32) (he : f.truncate cfg endOffset = .ok f') :
    f'.stSize = endOffset ∧ f'.mUsedOffset = endOffset ∧ f'.mAllocOffset = f.mAllocOffset ∧
      ∀ x, f'.cell x = if x < f.keptEnd endOffset then f.cell x else 0 := by
  obtain ⟨f₁, hloop, -, hm, hcell⟩ := h.shrinkLoop_cell endOffset hb.bytes
  unfold File.truncate at he
  rw [if_neg hle, hloop, ok_bind, pure_eq_ok] at he
  obtain rfl := Except.ok.inj he
  exact ⟨rfl, rfl, hm.alloc, hcell⟩

theorem Backed.truncated_iff (h : f.Backed) {cfg : Config} (hv : (Call.truncate endOffset).Valid)
    (hfits : (Call.truncate endOffset).Fits cfg f) (he : f.truncate cfg endOffset = .ok f') :
    Truncated f endOffset f' ↔ f.BranchOk endOffset := by
  have hs' : f'.Sound := h.sound.call cfg hv hfits he
  have hle := h.size_le
  unfold BranchOk
  by_cases hgt : endOffset % 2 ^ 32 > f.stSize % 2 ^ 32
  · rw [if_pos hgt]
    obtain ⟨hcell, hsize, -, halloc⟩ := h.sound.truncate_grow hv hfits hgt he
    constructor
    · -- this branch never makes a file smaller
      intro ht
      rw [← ht.size, hsize]
      exact le_max_left _ _
    · intro hz
      rw [max_eq_right hz] at hsize
      refine ⟨hsize, hs'.used.trans hsize, halloc, ?_, ?_⟩
      · intro x hx hxe
        exact hs'.layout.exists_leaf hx (hxe.trans_le halloc)
      · intro _ x _ _
        rw [hcell]
  · rw [if_neg hgt]
    obtain ⟨hsize, hused, halloc, hcell⟩ := h.sound.layout.truncate_shrink h.bounded hgt he
    constructor
    · intro ht
      refine ⟨halloc ▸ ht.alloc, fun hz x hx hxz => ?_⟩
      by_cases hx0 : 0 ≤ x
      · rw [← ht.cells hz x hx0 hxz, hcell, if_neg (not_lt.mpr hx)]
      · exact h.sound.layout.cell_neg (not_le.mp hx0)
    · -- the leaves stay, so what has been allocated is backed as before
      rintro ⟨ha, hdrop⟩
      refine ⟨hsize, hused, halloc ▸ ha, ?_, ?_⟩
      · intro x hx hxe
        exact hs'.layout.exists_leaf hx (by omega)
      · intro hz x _ hxz
        rw [hcell]
        split_ifs with hk
        · rfl
        · exact (hdrop hz x (not_lt.mp hk) hxz).symm

/-- A call whose storage fits and, if it is a `truncate`, whose branch is right. -/
def Proper (cfg : Config) (f : File) (c : Call) : Prop :=
  c.Fits cfg f ∧ ∀ endOffset, c = .truncate endOffset → f.BranchOk endOffset

/-- The call stores something at `x`. -/
def Call.writes : Call → Int → Prop
  | .write (.putData start buffer), x => start ≤ x ∧ x < start + buffer.length
  | _, _ => False

theorem Op.write_outside {op : Op} (m : Int → UInt8) (hx : ¬(Call.write op).writes x) :
    op.write m x = m x := by
  cases op with
  | allocate start size => rfl
  | putData start buffer =>
    rcases lt_or_ge x start with hlt | hge
    · exact overwrite_before hlt
    · exact overwrite_after (not_lt.mp fun hlt => hx ⟨hge, hlt⟩)

/-- A call changes nothing but the bytes it writes, and drops others. -/
theorem Sound.call_cell (h : f.Sound) (hb : f.Bounded) (cfg : Config) {c : Call} (hv : c.Valid)
    (hfits : c.Fits cfg f) (he : c.run cfg f = .ok f') (hx : ¬c.writes x) :
    f'.cell x = f.cell x ∨ f'.cell x = 0 := by
  cases c with
  | write op =>
    obtain ⟨hcell, -⟩ := h.run_spec cfg hv hfits he
    exact .inl (by rw [hcell, Op.write_outside _ hx])
  | truncate endOffset =>
    change f.truncate cfg endOffset = .ok f' at he
    by_cases hgt : endOffset % 2 ^ 32 > f.stSize % 2 ^ 32
    · obtain ⟨hcell, -⟩ := h.truncate_grow hv hfits hgt he
      exact .inl (congrFun hcell x)
    · obtain ⟨-, -, -, hcell⟩ := h.layout.truncate_shrink hb hgt he
      rw [hcell]
      split_ifs
      · exact .inl rfl
      · exact .inr rfl

theorem Call.not_writes_high {c : Call} (hv : c.Valid) (hx : 2 ^ 63 - 1 ≤ x) : ¬c.writes x := by
  rcases c with (⟨start, buffer⟩ | _) | _
  · have hlt := hv.2.2
    simp only [Op.start, Op.size] at hlt
    rintro ⟨-, hxe⟩
    omega
  · exact id
  · exact id

theorem Backed.call (h : f.Backed) (cfg : Config) {c : Call} (hv : c.Valid)
    (hp : Proper cfg f c) (he : c.run cfg f = .ok f') : f'.Backed := by
  refine ⟨h.sound.call cfg hv hp.1 he, h.bounded.call cfg hv he, ?_, ?_⟩
  · cases c with
    | write op =>
      obtain ⟨-, hsize, halloc, hend⟩ := h.sound.run_spec cfg hv hp.1 he
      have hle := h.size_le
      omega
    | truncate endOffset =>
      have ht := (h.truncated_iff hv hp.1 he).mpr (hp.2 endOffset rfl)
      rw [ht.size]
      exact ht.alloc
  · intro x hx
    rcases h.sound.call_cell h.bounded cfg hv hp.1 he (Call.not_writes_high hv hx) with hc | hc
    · rw [hc]
      exact h.high x hx
    · exact hc

theorem backed_of_initial (h : Initial f) : f.Backed := by
  refine ⟨sound_of_initial h, bounded_of_initial h, (held_of_initial h).size_le, fun x hx => ?_⟩
  have hlt := (sound_of_initial h).size_lt
  exact (held_of_initial h).zero x (by omega)

theorem backed_of_reach {cfg : Config}
    (h : Reach Initial (Guarded (Step cfg) (Proper cfg)) f) : f.Backed :=
  h.invariant (fun _ hf => backed_of_initial hf)
    fun _ _ _ hf hstep => hf.call cfg hstep.2.1 hstep.1 hstep.2.2

theorem branchOk_grow (hgt : endOffset % 2 ^ 32 > f.stSize % 2 ^ 32) (hle : f.stSize ≤ endOffset) :
    f.BranchOk endOffset := by
  unfold BranchOk
  rwa [if_pos hgt]

theorem branchOk_cut (hle : ¬endOffset % 2 ^ 32 > f.stSize % 2 ^ 32)
    (ha : endOffset ≤ f.mAllocOffset) (hlt : endOffset < f.stSize) : f.BranchOk endOffset := by
  unfold BranchOk
  rw [if_neg hle]
  exact ⟨ha, fun hz => absurd hlt (not_lt.mpr hz)⟩

theorem Proper.write {cfg : Config} {op : Op} (h : (Call.write op).Fits cfg f) :
    Proper cfg f (.write op) := ⟨h, fun _ he => nomatch he⟩

theorem Proper.truncate {cfg : Config} (h : (Call.truncate endOffset).Fits cfg f)
    (hb : f.BranchOk endOffset) : Proper cfg f (.truncate endOffset) := by
  refine ⟨h, fun e he => ?_⟩
  obtain rfl := Call.truncate.inj he
  exact hb

theorem Proper.reach {cfg : Config} (h : Reach Initial (Guarded (Step cfg) (Proper cfg)) f)
    (c : Call) (hp : Proper cfg f c) (hv : c.Valid) (he : c.run cfg f = .ok f') :
    Reach Initial (Guarded (Step cfg) (Proper cfg)) f' := h.next (e := c) ⟨hp, hv, he⟩

/-- In every run of proper calls after the file was cut at `a`, the bytes from `a` on that
no call has written read as zero. -/
def StaysZero (cfg : Config) (a : Int) (f : File) : Prop :=
  ∀ (calls : List Call) (g : File), Run (Guarded (Step cfg) (Proper cfg)) f calls g →
    ∀ o n : Int, 0 ≤ o → 0 < n → o < g.stSize → ∃ bytes, g.getData cfg o n = .ok (.bytes bytes) ∧
      (bytes.length : Int) = min n (g.stSize - o) ∧ ∀ i < bytes.length, a ≤ o + i →
        (∀ c ∈ calls, ¬c.writes (o + i)) → bytes[i]? = some 0

/-- A `truncate` to `a` leaves no data behind: the bytes from `a` on are zero already, up
to where it drops the segments if it takes the shrinking branch. -/
def CutClean (f : File) (a : Int) : Prop :=
  ∀ x, a ≤ x → (¬a % 2 ^ 32 > f.stSize % 2 ^ 32 → x < f.keptEnd a) → f.cell x = 0

theorem Backed.cutClean_iff {a : Int} (h : f.Backed) {cfg : Config}
    (hv : (Call.truncate a).Valid) (hfits : (Call.truncate a).Fits cfg f)
    (he : f.truncate cfg a = .ok f') : (∀ x, a ≤ x → f'.cell x = 0) ↔ f.CutClean a := by
  refine forall_congr' fun x => forall_congr' fun hx => ?_
  by_cases hgt : a % 2 ^ 32 > f.stSize % 2 ^ 32
  · obtain ⟨hcell, -⟩ := h.sound.truncate_grow hv hfits hgt he
    rw [congrFun hcell x]
    exact ⟨fun hc _ => hc, fun hc => hc fun hn => absurd hgt hn⟩
  · obtain ⟨-, -, -, hcell⟩ := h.sound.layout.truncate_shrink h.bounded hgt he
    rw [hcell]
    constructor
    · intro hc hk
      rwa [if_pos (hk hgt)] at hc
    · intro hc
      split_ifs with hk
      · exact hc fun _ => hk
      · rfl

/-- Allocating a byte that has memory already changes nothing but the size. -/
theorem Backed.allocate_byte (h : f.Backed) (cfg : Config) (hx : 0 ≤ x) (hc : f.cell x ≠ 0) :
    (Call.write (.allocate x 1)).Valid ∧ Fits cfg f x 1 ∧
      f.allocate cfg x 1 = .ok (f.updateSize (x + 1)) := by
  have hxa : x < f.mAllocOffset := by
    by_contra hge
    exact hc (h.sound.layout.cell_beyond (not_lt.mp hge))
  have hhigh : x < 2 ^ 63 - 1 := by
    by_contra hge
    exact hc (h.high x (not_lt.mp hge))
  obtain ⟨L, k, id, s, R, ht, hL, hs, hk, hlt, hR, hlook⟩ :=
    h.sound.layout.lookupSegments_eq cfg hx (lt_add_one x) hxa
  have hm : (⟨k, some id⟩ : Leaf) ∈ f.mSegments := by simp [ht]
  -- a byte that is not zero lies in no gap
  have hgap : s.mIsGap = false := by
    by_contra hg
    apply hc
    rw [h.sound.layout.cell_eq hm hs.seg hk hlt, hs.ok.gap (by simpa using hg)]
    rfl
  refine ⟨⟨hx, by simp [Op.size], by simp only [Op.start, Op.size]; omega⟩, ⟨?_, ?_⟩, ?_⟩
  · intro hlt'
    omega
  · -- the only segment at `x` is no gap
    rintro - l hl id' hid' s' hs' hg' hkey hend
    rw [min_eq_left (by omega)] at hkey
    have hm' : (⟨l.key, some id'⟩ : Leaf) ∈ f.mSegments := by
      rw [← show l.val = some id' from hid']
      exact hl
    obtain ⟨-, -, rfl⟩ := h.sound.layout.leaf_unique hm hs.seg hk hlt hm' hs' (by omega) hend
    rw [hgap] at hg'
    cases hg'
  · have hfetch : f.fetchStorage cfg x 1 =
        .ok (f, [⟨some (id, x - s.mOffset), 1, false⟩]) := by
      have hoff := hs.offset_le
      unfold File.fetchStorage
      rw [if_pos (by omega), hlook]
      simp only [lookupLoop, segment_eq hs.seg, ok_bind, hgap, Bool.false_eq_true, and_false,
        if_false, pure_eq_ok, check_ok (show x - s.mOffset ≠ s.mSize by omega)]
      rw [if_pos (by omega), show min (x + 1 - x) (s.mSize - (x - s.mOffset)) = 1 by omega]
      rfl
    unfold File.allocate
    rw [hfetch]
    rfl

theorem Backed.stays_zero (h : f.Backed) {cfg : Config} {a : Int}
    (hz : ∀ x, a ≤ x → f.cell x = 0) : f.StaysZero cfg a := by
  intro calls g hr o n ho hn hlt
  -- along the run, the bytes that no call so far has written are zero
  obtain ⟨hg, hcells⟩ : g.Backed ∧ ∀ x, a ≤ x → (∀ c ∈ calls, ¬c.writes x) → g.cell x = 0 := by
    refine hr.invariant (I := fun calls g => g.Backed ∧ ∀ x, a ≤ x →
      (∀ c ∈ calls, ¬Call.writes c x) → g.cell x = 0) ⟨h, fun x hx _ => hz x hx⟩ ?_
    rintro l g c g' ⟨hg, hcells⟩ ⟨hp, hv, he⟩
    refine ⟨hg.call cfg hv hp he, fun x hx hnot => ?_⟩
    have hnot' : ∀ c' ∈ l, ¬Call.writes c' x := fun c' hc' => hnot c' (List.mem_append_left _ hc')
    rcases hg.sound.call_cell hg.bounded cfg hv hp.1 he
      (hnot c (List.mem_append_right _ List.mem_cons_self)) with hc | hc
    · rw [hc]
      exact hcells x hx hnot'
    · exact hc
  refine ⟨_, hg.sound.getData_eq hg.size_le cfg ho hn hlt, ?_, ?_⟩
  · rw [cells, window_length]
    omega
  · intro i hi hai hnot
    rw [cells, window_length] at hi
    unfold cells window
    rw [List.getElem?_map, List.getElem?_range hi]
    simp only [Option.map_some, hcells _ hai hnot]

/-- Data left behind at `x` comes back when the file is extended to `x + 1`. -/
theorem Backed.zero_of_staysZero (h : f.Backed) {cfg : Config} {a : Int} (ha : 0 ≤ a)
    (hz : f.StaysZero cfg a) : ∀ x, a ≤ x → f.cell x = 0 := by
  intro x hx
  by_contra hc
  obtain ⟨hv, hfits, he⟩ := h.allocate_byte cfg (ha.trans hx) hc
  have hp : Proper cfg f (.write (.allocate x 1)) := .write hfits
  have hg := h.call cfg hv hp he
  have hsize := f.updateSize_stSize (x + 1)
  obtain ⟨bytes, hread, hlen, hzero⟩ := hz [.write (.allocate x 1)] _
    (.snoc .nil ⟨hp, hv, he⟩) x 1 (ha.trans hx) Int.one_pos (by omega)
  rw [hg.sound.getData_eq hg.size_le cfg (ha.trans hx) Int.one_pos (by omega)] at hread
  have h0 := hzero 0 (by omega) (by simpa using hx) (by simp [Call.writes])
  obtain rfl : cells _ _ _ = bytes := by simpa using hread
  unfold cells window at h0
  rw [List.getElem?_map, List.getElem?_range (by omega), updateSize_cell] at h0
  simp only [Option.map_some, Nat.cast_zero, add_zero, Option.some.injEq] at h0
  exact hc h0

end File
end EchoFs.Nvml
