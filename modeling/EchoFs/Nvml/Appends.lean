import EchoFs.Nvml.Pieces

/-! Runs of `put_data` and `allocate` whose storage fits: a call changes the cells of its
range only, and a call that starts beyond the allocated part leaves zeros in between. -/

namespace EchoFs.Nvml
open Checked IntervalMap Memory Transition

namespace File
variable {f f' : File} {a b x : Int}

/-- What holds between the calls of such a run. -/
structure Held (f : File) : Prop where
  sound : f.Sound
  size_le : f.stSize ≤ f.mAllocOffset
  zero : ∀ x, f.stSize ≤ x → f.cell x = 0

theorem Sound.fetch_within (h : f.Sound) (cfg : Config) {start size : Int} {rs : List Region}
    (hstart : 0 ≤ start) (hsize : 0 ≤ size) (hlt : start + size < 2 ^ 63)
    (hfits : Fits cfg f start size) (hle : start ≤ f.mAllocOffset)
    (he : f.fetchStorage cfg start size = .ok (f', rs)) :
    f'.Sound ∧ f'.stSize = f.stSize ∧ f'.cell = f.cell ∧ f.mAllocOffset ≤ f'.mAllocOffset ∧
      start + size ≤ f'.mAllocOffset ∧ Maps f' start (start + size) rs ∧ ∀ q ∈ rs, q.addr ≠ none := by
  have hst := h.fetchStorage cfg hstart hsize hlt hfits
  rw [he] at hst
  refine ⟨hst.1, hst.2, ?_⟩
  by_cases hin : start + size ≤ f.mAllocOffset
  · have hgaps := hfits.gaps
    rw [min_eq_left hin] at hgaps
    obtain ⟨k, hk⟩ := lookupSegments_serves h cfg hstart (by omega) hin fun hpos =>
      hgaps (by omega)
    unfold File.fetchStorage at he
    rw [if_pos hin] at he
    rw [he] at hk
    obtain ⟨rs', hrs, hmaps, haddr⟩ := Served.maps hk
    rw [List.nil_append] at hrs
    obtain rfl := hrs
    have halloc := (Served.same hk).alloc
    exact ⟨Served.cell hk, halloc.ge, hin.trans halloc.ge, hmaps, haddr⟩
  · obtain ⟨hpos, -⟩ := nextSize_ok cfg h.sizeOk
    have hx := lt_xalign (n := start + size) hpos
    rw [fetchStorage_append cfg hsize (not_le.mp hin)] at he
    obtain ⟨k, hk⟩ := h.lookupAllocated_serves cfg hstart hfits hle (not_le.mp hin)
    cases hlook : f.lookupAllocated cfg start with
    | error e =>
      rw [hlook] at he
      cases he
    | ok p =>
      obtain ⟨f₁, rs₁⟩ := p
      rw [hlook] at he hk
      have hsame := Served.same hk
      obtain ⟨rs', hrs, hmaps, haddr⟩ := Served.maps hk
      rw [List.nil_append] at hrs
      obtain rfl := hrs
      have hL₁ := Served.layout hk
      have hnext := hsame.nextSize cfg
      have hn : 0 < xalign (start + size) (f₁.nextSize cfg) - f₁.mAllocOffset := by
        rw [hnext, hsame.alloc]
        omega
      have hle₁ : start ≤ f₁.mAllocOffset := by rw [hsame.alloc]; exact hle
      obtain ⟨hL', hg⟩ := hL₁.grow hn false
      simp only [Except.bind, hL₁.extendAlloc_eq cfg hn rfl (.inl hle₁) rs₁, if_pos hle₁] at he
      obtain ⟨rfl, rfl⟩ := Prod.mk.inj (Except.ok.inj he)
      refine ⟨?_, hsame.alloc.ge.trans hg.alloc, ?_, ?_, ?_⟩
      · rw [← Served.cell hk]
        exact funext ((hg.withSegmentSize _).cell_eq hL₁ (hL'.withSegmentSize _))
      · simp only [File.grow]
        rw [hnext]
        omega
      · have hnew := f₁.grow_maps
          (n := xalign (start + size) (f₁.nextSize cfg) - f₁.mAllocOffset)
          (m := start + size - f₁.mAllocOffset)
          (r := ⟨some (f₁.segments.length, 0), start + size - f₁.mAllocOffset, false⟩)
          (by rw [hsame.alloc]; omega) (by rw [hnext]; omega) rfl rfl
        rw [add_sub_cancel] at hnew
        rw [← hsame.alloc] at hmaps
        exact ((hmaps.grows hg).append hnew).grows ((Grows.refl hL').withSegmentSize _)
      · intro q hq
        rcases List.mem_append.mp hq with hq | hq
        · exact haddr q hq
        · rw [List.mem_singleton.mp hq]
          exact Option.some_ne_none _

theorem Layout.grow_below (h : f.Layout) (n : Int) (g : Bool) {c : Int} (hc : c ≤ f.mAllocOffset)
    (hn : 0 ≤ n) : (f.grow n g).mSegments.filter (fun l => l.key < c) =
      f.mSegments.filter fun l => l.key < c := by
  conv_rhs => rw [h.chain.eq_dropLast]
  have hnew : ∀ l ∈ ([⟨f.mAllocOffset, some f.segments.length⟩, ⟨f.mAllocOffset + n, none⟩] :
      List Leaf), ¬(decide (l.key < c)) = true := by
    intro l hl
    have hor : l = ⟨f.mAllocOffset, some f.segments.length⟩ ∨ l = ⟨f.mAllocOffset + n, none⟩ := by
      simpa using hl
    rcases hor with rfl | rfl
    · simpa using hc
    · simp only [decide_eq_true_eq, not_lt]
      omega
  simp only [File.grow, List.filter_append]
  rw [List.filter_eq_nil_iff.mpr hnew]
  have hold : ([⟨f.mAllocOffset, none⟩] : List Leaf).filter (fun l => l.key < c) = [] := by
    simpa using hc
  rw [hold]

/-- The sizes of the new segments are as computed. -/
def NewSizes (f f' : File) : Prop :=
  ∀ (i : Nat) (u : Segment), f.segments.length ≤ i → f'.segments[i]? = some u → 0 ≤ u.mSize

theorem Layout.fetch_beyond (h : f.Layout) (cfg : Config) (hz : f.SizeOk) {start size : Int}
    (hsize : 0 ≤ size) (hgt : f.mAllocOffset < start)
    (hfit : f.mAllocOffset ≤ align start (f.nextSize cfg)) :
    ∃ f' o n id, f.fetchStorage cfg start size =
        .ok (f', [⟨some (id, start - o), start + size - o, false⟩]) ∧ f'.Layout ∧ Grows f f' ∧
      ⟨o, some id⟩ ∈ f'.mSegments ∧ f'.segments[id]? = some (.new o n false) ∧
      f.mAllocOffset ≤ o ∧ o ≤ start ∧ start + size ≤ o + n ∧ start + size ≤ f'.mAllocOffset ∧
      f'.mSegments.filter (fun l => l.key < f.mAllocOffset) =
        f.mSegments.filter (fun l => l.key < f.mAllocOffset) ∧ NewSizes f f' := by
  obtain ⟨hpos, -⟩ := nextSize_ok cfg hz
  have hx := lt_xalign (n := start + size) hpos
  have hal := align_le start (f.nextSize cfg)
  have hlook : f.fetchStorage cfg start size = f.extendAlloc cfg start size [] := by
    rw [fetchStorage_append cfg hsize (by omega)]
    unfold lookupAllocated
    rw [if_neg (by omega)]
    rfl
  rw [hlook]
  by_cases hone : align start (f.nextSize cfg) = f.mAllocOffset
  · have hn : 0 < xalign (start + size) (f.nextSize cfg) - f.mAllocOffset := by omega
    obtain ⟨hL, hg⟩ := h.grow hn false
    have hrun := h.extendAlloc_eq cfg hn rfl (.inr hone) []
    rw [if_neg (by omega), List.nil_append] at hrun
    refine ⟨_, f.mAllocOffset, _, f.segments.length, hrun, hL.withSegmentSize _,
      hg.withSegmentSize _, by simp [File.grow], List.getElem?_concat_length, le_rfl, hgt.le,
      by omega, ?_, h.grow_below _ false le_rfl hn.le, ?_⟩
    · simp only [File.grow]
      omega
    · intro i u hi hu
      simp only [File.grow] at hu
      rw [List.getElem?_append_right hi] at hu
      rw [List.mem_singleton.mp (List.mem_of_getElem? hu)]
      exact hn.le
  · have hm : 0 < align start (f.nextSize cfg) - f.mAllocOffset := by omega
    have hn : 0 < xalign (start + size) (f.nextSize cfg) -
        (f.mAllocOffset + (align start (f.nextSize cfg) - f.mAllocOffset)) := by omega
    obtain ⟨hL, hg⟩ := h.grow hm true
    obtain ⟨hL', hg'⟩ := hL.grow hn false
    have hrun := h.extendAlloc_gap cfg hm hn hgt (by omega) rfl []
    rw [List.nil_append] at hrun
    refine ⟨_, f.mAllocOffset + (align start (f.nextSize cfg) - f.mAllocOffset),
      xalign (start + size) (f.nextSize cfg) -
        (f.mAllocOffset + (align start (f.nextSize cfg) - f.mAllocOffset)), f.segments.length + 1,
      hrun, hL'.withSegmentSize _, (hg.trans hg' hL hL').withSegmentSize _,
      by simp [File.grow], ?_, by omega, by omega, by omega, ?_, ?_, ?_⟩
    · simp [File.grow]
    · simp only [File.grow]
      omega
    · have hbelow := hL.grow_below (xalign (start + size) (f.nextSize cfg) -
        (f.mAllocOffset + (align start (f.nextSize cfg) - f.mAllocOffset))) false hg.alloc hn.le
      exact hbelow.trans (h.grow_below _ true le_rfl hm.le)
    · intro i u hi hu
      simp only [File.grow, List.append_assoc] at hu
      rw [List.getElem?_append_right hi] at hu
      have hor := List.mem_of_getElem? hu
      simp only [List.singleton_append, List.mem_cons, List.not_mem_nil, or_false] at hor
      rcases hor with rfl | rfl
      · exact hm.le
      · exact hn.le

theorem store_sizes {addr : Option (Nat × Int)} {bytes : List UInt8}
    (he : f.store addr bytes = .ok f') :
    f'.segments.map Segment.mSize = f.segments.map Segment.mSize := by
  rcases bytes with _ | ⟨c, bytes⟩
  · obtain rfl := Except.ok.inj he
    rfl
  rcases addr with _ | ⟨id, delta⟩
  · cases he
  obtain ⟨s, hs, he⟩ := bind_eq_ok.mp he
  unfold segment at hs
  split at hs
  · rename_i s' hget
    obtain rfl := Except.ok.inj hs
    split at he
    · cases he
    · split_ifs at he
      obtain rfl := Except.ok.inj he
      apply List.ext_getElem?
      intro j
      by_cases hj : j = id
      · rw [hj, List.getElem?_map, setSegment_self hget, List.getElem?_map, hget]
        rfl
      · rw [List.getElem?_map, setSegment_ne hj, List.getElem?_map]
  · cases hs

theorem copyIn_sizes {rs : List Region} : ∀ {f : File} {buffer : List UInt8},
    f.copyIn rs buffer = .ok f' →
    f'.segments.map Segment.mSize = f.segments.map Segment.mSize := by
  induction rs with
  | nil =>
    intro f buffer he
    obtain rfl := Except.ok.inj he
    rfl
  | cons r rs ih =>
    intro f buffer he
    obtain ⟨f₁, he₁, he₂⟩ := bind_eq_ok.mp he
    exact (ih he₂).trans (store_sizes he₁)

theorem NewSizes.congr {g g' : File} (h : NewSizes f g)
    (hs : g'.segments.map Segment.mSize = g.segments.map Segment.mSize) : NewSizes f g' := by
  intro i u hi hu
  have hmap : (g.segments.map Segment.mSize)[i]? = some u.mSize := by
    rw [← hs, List.getElem?_map, hu]
    rfl
  rw [List.getElem?_map] at hmap
  obtain ⟨u', hu', he⟩ := Option.map_eq_some_iff.mp hmap
  rw [← he]
  exact h i u' hi hu'

theorem Sound.run_within (h : f.Sound) (cfg : Config) {op : Op} (hv : (Call.write op).Valid)
    (hfits : Fits cfg f op.start op.size) (hle : op.start ≤ f.mAllocOffset)
    (he : op.run cfg f = .ok f') :
    f'.cell = op.write f.cell ∧ f'.stSize = max f.stSize (op.start + op.size) ∧
      f.mAllocOffset ≤ f'.mAllocOffset ∧ op.start + op.size ≤ f'.mAllocOffset := by
  obtain ⟨h0, hsize, hlt⟩ := hv
  cases op with
  | putData start buffer =>
    simp only [Op.start, Op.size] at h0 hsize hlt hle hfits ⊢
    obtain ⟨⟨f₁, rs⟩, he₁, he⟩ := bind_eq_ok.mp he
    obtain ⟨f₂, he₂, he⟩ := bind_eq_ok.mp he
    obtain rfl := Except.ok.inj he
    obtain ⟨h₁, hz, hcell, halloc, hend, hmaps, haddr⟩ :=
      h.fetch_within cfg h0 hsize hlt hfits hle he₁
    obtain ⟨f₃, he₃, hL, hsh, hcell₂⟩ := h₁.layout.copyIn_eq hmaps haddr
      (show (buffer.length : Int) = start + buffer.length - start by omega) (by omega)
    obtain rfl := Except.ok.inj (he₂.symm.trans he₃)
    obtain ⟨-, -, ha, -⟩ := f₂.updateSize_tree (start + buffer.length)
    refine ⟨?_, ?_, ?_, ?_⟩
    · rw [updateSize_cell, hcell₂, hcell]
      rfl
    · rw [updateSize_stSize, hsh.size, hz]
    · rw [ha, hsh.alloc]
      exact halloc
    · rw [ha, hsh.alloc]
      exact hend
  | allocate start size =>
    simp only [Op.start, Op.size] at h0 hsize hlt hle hfits ⊢
    obtain ⟨⟨f₁, rs⟩, he₁, he⟩ := bind_eq_ok.mp he
    obtain rfl := Except.ok.inj he
    obtain ⟨h₁, hz, hcell, halloc, hend, -, -⟩ :=
      h.fetch_within cfg h0 hsize hlt hfits hle he₁
    obtain ⟨-, -, ha, -⟩ := f₁.updateSize_tree (start + size)
    refine ⟨?_, ?_, ?_, ?_⟩
    · rw [updateSize_cell, hcell]
      rfl
    · rw [updateSize_stSize, hz]
    · rw [ha]
      exact halloc
    · rw [ha]
      exact hend

/-- A call that starts beyond the allocated part returns and writes its range. -/
theorem Sound.run_beyond (h : f.Sound) (cfg : Config) {op : Op} (hv : (Call.write op).Valid)
    (hgt : f.mAllocOffset < op.start)
    (hfit : f.mAllocOffset ≤ align op.start (f.nextSize cfg)) :
    ∃ f', op.run cfg f = .ok f' ∧ f'.cell = op.write f.cell ∧
      f'.stSize = max f.stSize (op.start + op.size) ∧ f.mAllocOffset ≤ f'.mAllocOffset ∧
      op.start + op.size ≤ f'.mAllocOffset ∧
      f'.mSegments.filter (fun l => l.key < f.mAllocOffset) =
        f.mSegments.filter (fun l => l.key < f.mAllocOffset) ∧ NewSizes f f' := by
  obtain ⟨h0, hsize, hlt⟩ := hv
  obtain ⟨f₁, o, n, id, he₁, hL, hg, hm, hs, hao, ho, hn, hend, hbelow, hnew⟩ :=
    h.layout.fetch_beyond cfg h.sizeOk hsize hgt hfit
  have hcell : f₁.cell = f.cell := funext (hg.cell_eq h.layout hL)
  have hao' := h.layout.chain.le
  cases op with
  | putData start buffer =>
    simp only [Op.start, Op.size] at h0 hsize hlt he₁ ho hn hend ⊢
    have htake : buffer.take (toSize (start + buffer.length - o)) = buffer := by
      rw [toSize_of_nonneg (by omega) (by omega)]
      exact List.take_of_length_le (by omega)
    have hdrop : buffer.drop (toSize (start + buffer.length - o)) = [] := by
      rw [toSize_of_nonneg (by omega) (by omega)]
      exact List.drop_of_length_le (by omega)
    obtain ⟨f₂, he₂, hL₂, hsh, hcell₂⟩ := hL.store_eq buffer hm hs rfl ho hn
    have hcopy : f₁.copyIn [⟨some (id, start - o), start + buffer.length - o, false⟩] buffer =
        .ok f₂ := by
      unfold File.copyIn
      rw [htake, hdrop]
      change f₁.store (some (id, start - o)) buffer = .ok f₂ at he₂
      simp only [he₂, ok_bind, File.copyIn, pure_eq_ok]
    obtain ⟨ht, hsegs, ha, -⟩ := f₂.updateSize_tree (start + buffer.length)
    refine ⟨f₂.updateSize (start + buffer.length), ?_, ?_, ?_, ?_, ?_, ?_, ?_⟩
    · simp only [Op.run, File.putData, he₁, ok_bind, hcopy, pure_eq_ok]
    · rw [updateSize_cell, hcell₂, hcell]
      rfl
    · rw [updateSize_stSize, hsh.size, hg.size]
    · rw [ha, hsh.alloc]
      exact hg.alloc
    · rw [ha, hsh.alloc]
      exact hend
    · rw [ht, hsh.tree]
      exact hbelow
    · refine hnew.congr ?_
      rw [hsegs]
      exact copyIn_sizes hcopy
  | allocate start size =>
    simp only [Op.start, Op.size] at h0 hsize hlt he₁ hend ⊢
    obtain ⟨ht, hsegs, ha, -⟩ := f₁.updateSize_tree (start + size)
    refine ⟨f₁.updateSize (start + size), ?_, ?_, ?_, ?_, ?_, ?_, ?_⟩
    · simp only [Op.run, File.allocate, he₁, ok_bind, pure_eq_ok]
    · rw [updateSize_cell, hcell]
      rfl
    · rw [updateSize_stSize, hg.size]
    · rw [ha]
      exact hg.alloc
    · rw [ha]
      exact hend
    · rw [ht]
      exact hbelow
    · refine hnew.congr ?_
      rw [hsegs]

theorem Op.write_after {op : Op} {m : Int → UInt8} (hx : op.start + op.size ≤ x) :
    op.write m x = m x := by
  cases op with
  | putData start buffer => exact overwrite_after hx
  | allocate start size => rfl

theorem Op.write_before {op : Op} {m : Int → UInt8} (hx : x < op.start) : op.write m x = m x := by
  cases op with
  | putData start buffer => exact overwrite_before hx
  | allocate start size => rfl

/-- What a call does to the cells and sizes of a file. -/
theorem Sound.run_spec (h : f.Sound) (cfg : Config) {op : Op} (hv : (Call.write op).Valid)
    (hfits : Fits cfg f op.start op.size) (he : op.run cfg f = .ok f') :
    f'.cell = op.write f.cell ∧ f'.stSize = max f.stSize (op.start + op.size) ∧
      f.mAllocOffset ≤ f'.mAllocOffset ∧ op.start + op.size ≤ f'.mAllocOffset := by
  by_cases hle : op.start ≤ f.mAllocOffset
  · exact h.run_within cfg hv hfits hle he
  · obtain ⟨f₁, he₁, hcell, hz, ha, hend, -, -⟩ :=
      h.run_beyond cfg hv (not_le.mp hle) (hfits.append (not_le.mp hle))
    obtain rfl := Except.ok.inj (he.symm.trans he₁)
    exact ⟨hcell, hz, ha, hend⟩

theorem Held.run (h : f.Held) (cfg : Config) {op : Op} (hv : (Call.write op).Valid)
    (hfits : Fits cfg f op.start op.size) (he : op.run cfg f = .ok f') : f'.Held := by
  obtain ⟨hcell, hz, ha, hend⟩ := h.sound.run_spec cfg hv hfits he
  have hle := h.size_le
  refine ⟨h.sound.write cfg op hv.1 hv.2.1 hv.2.2 hfits he, by omega, ?_⟩
  intro x hx
  rw [hcell, Op.write_after (by omega)]
  exact h.zero x (by omega)

theorem held_of_initial (h : Initial f) : f.Held := by
  have hsound := sound_of_initial h
  obtain ⟨origin, hlt, he⟩ := h
  obtain ⟨f₀, he₀, h₀, hcell, hsize, -⟩ := origin.file_spec hlt
  obtain rfl := Except.ok.inj (he₀.symm.trans he)
  refine ⟨hsound, h₀.size_le, ?_⟩
  intro x hx
  rw [hcell, overwrite_after (by omega)]

/-- The call at `start` beyond the allocated part has kept the data of `f`: its sizes do
not wrap, the leaves below the old end are the same, a read that returned bytes returns
them again, and what lies between the old end of the file and `start` reads as zero. -/
structure AppendKeeps (cfg : Config) (f : File) (start : Int) (f' : File) : Prop where
  sizes : NewSizes f f'
  leaves : f'.mSegments.filter (fun l => l.key < f.mAllocOffset) =
    f.mSegments.filter fun l => l.key < f.mAllocOffset
  reads : ∀ o n : Int, 0 ≤ o → 0 < n → o < f.stSize → ∃ bytes bytes',
    f.getData cfg o n = .ok (.bytes bytes) ∧ f'.getData cfg o n = .ok (.bytes bytes') ∧
      bytes <+: bytes'
  zeros : ∀ o n : Int, 0 ≤ o → 0 < n → o < f'.stSize → ∃ bytes,
    f'.getData cfg o n = .ok (.bytes bytes) ∧ (bytes.length : Int) = min n (f'.stSize - o) ∧
      ∀ i < bytes.length, f.stSize ≤ o + i → o + i < start → bytes[i]? = some 0

theorem Sound.getData_eq (h : f.Sound) (hle : f.stSize ≤ f.mAllocOffset) (cfg : Config) {o n : Int}
    (ho : 0 ≤ o) (hn : 0 < n) (hlt : o < f.stSize) :
    f.getData cfg o n = .ok (.bytes (f.cells o (min (o + n) f.stSize))) := by
  have hused := h.used
  have hread := h.layout.getData_eq cfg ho hn (by omega) (by rw [hused]; exact h.size_lt)
  rwa [hused, min_eq_left (show min (o + n) f.stSize ≤ f.mAllocOffset by omega)] at hread

theorem Held.appendKeeps (h : f.Held) (cfg : Config) {op : Op} (hv : op.Valid)
    (hgt : f.mAllocOffset < op.start)
    (hfit : f.mAllocOffset ≤ align op.start (f.nextSize cfg)) :
    ∃ f', op.run cfg f = .ok f' ∧ AppendKeeps cfg f op.start f' := by
  have hv' : (Call.write op).Valid := ⟨hv.1, hv.2.1.le, hv.2.2⟩
  have hfits : Fits cfg f op.start op.size := by
    refine ⟨fun _ => hfit, fun _ l hl id hid s hs _ hkey hlt => ?_⟩
    -- no gap of the allocated part reaches the range
    have hm : (⟨l.key, some id⟩ : Leaf) ∈ f.mSegments := by
      rw [← show l.val = some id from hid]
      exact hl
    obtain ⟨L, s', R, -, -, hs', hR⟩ := h.sound.layout.chain.split hm
    obtain rfl := Option.some.inj (hs'.seg.symm.trans hs)
    exact absurd hlt (not_lt.mpr (hR.le.trans hgt.le))
  obtain ⟨f', he, hcell, hz, ha, hend, hleaves, hsizes⟩ := h.sound.run_beyond cfg hv' hgt hfit
  have h' := h.run cfg hv' hfits he
  have hle := h.size_le
  refine ⟨f', he, hsizes, hleaves, ?_, ?_⟩
  · intro o n ho hn hlt
    refine ⟨_, _, h.sound.getData_eq hle cfg ho hn hlt, h'.sound.getData_eq h'.size_le cfg ho hn (by omega), ?_⟩
    have hsame : f.cells o (min (o + n) f.stSize) = f'.cells o (min (o + n) f.stSize) := by
      refine window_congr fun x hx hx' => ?_
      rw [hcell, Op.write_before (by omega)]
    rw [hsame]
    unfold cells
    rw [window_append f'.cell (b := min (o + n) f.stSize) (c := min (o + n) f'.stSize) (by omega)
      (by omega)]
    exact List.prefix_append _ _
  · intro o n ho hn hlt
    refine ⟨_, h'.sound.getData_eq h'.size_le cfg ho hn hlt, ?_, ?_⟩
    · rw [cells, window_length]
      omega
    · intro i hi hlo hhi
      rw [cells, window_length] at hi
      unfold cells window
      rw [List.getElem?_map, List.getElem?_range hi]
      simp only [Option.map_some, hcell, Op.write_before hhi, h.zero _ hlo]

theorem extendAlloc_gapSize (cfg : Config) {start size : Int} {regions rs : List Region}
    (hgt : f.mAllocOffset < start) (hne : align start (f.nextSize cfg) ≠ f.mAllocOffset)
    (he : f.extendAlloc cfg start size regions = .ok (f', rs)) :
    (f'.segments.map Segment.mSize)[f.segments.length]? =
      some (align start (f.nextSize cfg) - f.mAllocOffset) := by
  unfold extendAlloc at he
  obtain ⟨-, -, he⟩ := bind_eq_ok.mp he
  have hsub : align start (f.nextSize cfg) - f.mAllocOffset ≠ 0 := by omega
  unfold nextSize at hsub ⊢
  simp only [if_neg (not_le.mpr hgt), ne_eq, hsub, not_false_eq_true, if_true] at he
  obtain ⟨-, -, he⟩ := bind_eq_ok.mp he
  obtain ⟨g, hlink, he⟩ := bind_eq_ok.mp he
  obtain ⟨rfl, -⟩ := Prod.mk.inj (Except.ok.inj he)
  have hsegs := linkSegments_segments hlink
  rw [hsegs]
  simp [createSegment, Segment.new]

/-- A call that keeps the data has found the new segment beyond the allocated part. -/
theorem fits_of_newSizes (cfg : Config) {op : Op} (hsize : 0 ≤ op.size)
    (hgt : f.mAllocOffset < op.start) (he : op.run cfg f = .ok f') (hs : NewSizes f f') :
    f.mAllocOffset ≤ align op.start (f.nextSize cfg) := by
  by_contra hlt
  obtain ⟨f₁, rs, he₁, hmap⟩ : ∃ f₁ rs, f.fetchStorage cfg op.start op.size = .ok (f₁, rs) ∧
      f'.segments.map Segment.mSize = f₁.segments.map Segment.mSize := by
    cases op with
    | putData start buffer =>
      obtain ⟨⟨f₁, rs⟩, he₁, he⟩ := bind_eq_ok.mp he
      obtain ⟨f₂, he₂, he⟩ := bind_eq_ok.mp he
      obtain rfl := Except.ok.inj he
      obtain ⟨-, hsegs, -, -⟩ := f₂.updateSize_tree (start + buffer.length)
      exact ⟨f₁, rs, he₁, by rw [hsegs]; exact copyIn_sizes he₂⟩
    | allocate start size =>
      obtain ⟨⟨f₁, rs⟩, he₁, he⟩ := bind_eq_ok.mp he
      obtain rfl := Except.ok.inj he
      obtain ⟨-, hsegs, -, -⟩ := f₁.updateSize_tree (start + size)
      exact ⟨f₁, rs, he₁, by rw [hsegs]⟩
  rw [fetchStorage_append cfg hsize (by omega), lookupAllocated, if_neg (by omega)] at he₁
  have hgap := extendAlloc_gapSize cfg hgt (by omega) he₁
  rw [← hmap, List.getElem?_map] at hgap
  obtain ⟨u, hu, hsz⟩ := Option.map_eq_some_iff.mp hgap
  have := hs _ u le_rfl hu
  omega

/-- A step of a run of `put_data` and `allocate` calls. -/
def WriteStep (cfg : Config) (f : File) (op : Op) (f' : File) : Prop := Step cfg f (.write op) f'

end File
end EchoFs.Nvml
