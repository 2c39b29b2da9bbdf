import EchoFs.Nvml.BufCopy
import EchoFs.Nvml.Segments

/-! The copy loop of `put_data` on the addresses of the regions: it leaves in the mapped
memory of the segments what the loop over the bytes of the request leaves in the file. -/

namespace EchoFs.Nvml.BufCopy
open Checked Memory

variable {κ : Type}

/-- `FUSE_BUFVEC_INIT` with the flags and the address that `put_data` sets. -/
def bufvecInit (size : Nat) (mem : Int) : FuseBufvec where
  idx := 0
  off := 0
  buf := [⟨size, false, true, true, mem, -1, 0⟩]

/-- The loop over the regions, with their addresses and sizes. -/
def copyRegions (K : Kernel κ) (haveSplice : Bool) : World κ → FuseBufvec → List (Int × Nat) →
    Int → Result (Int × World κ × FuseBufvec)
  | w, fuseBuffer, [], n => return (n, w, fuseBuffer)
  | w, fuseBuffer, (address, size) :: regions, n => do
    let (res, w, _, fuseBuffer) ← fuseBufCopyPmem K haveSplice w (bufvecInit size address)
      fuseBuffer ⟨false, false, true, false⟩
    copyRegions K haveSplice w fuseBuffer regions (n + res)

/-- The segments of the file are mapped at `base`, apart from each other. -/
structure Mapped (base : Nat → Int) (m : Int → UInt8) (f : File) : Prop where
  agree : ∀ {id s d}, f.segments[id]? = some s → s.mData = some d →
    ∀ x, 0 ≤ x → x < s.mLength.getD 0 → m (base id + x) = d x
  apart : ∀ {id id' s s'}, f.segments[id]? = some s → f.segments[id']? = some s' → id ≠ id' →
    ∀ x y, 0 ≤ x → x < s.mLength.getD 0 → 0 ≤ y → y < s'.mLength.getD 0 →
      base id + x ≠ base id' + y

/-- The address and the size of a region; the address of a gap is null. -/
def place (base : Nat → Int) (r : Region) : Int × Nat :=
  (match r.addr with
    | some (id, delta) => base id + delta
    | none => 0, toSize r.size)

variable {base : Nat → Int} {m : Int → UInt8} {f f' : File} {K : Kernel κ} {haveSplice : Bool}
  {w : World κ} {srcv : FuseBufvec}

@[simp] theorem bufvecInit_cells (size : Nat) (a : Int) :
    (bufvecInit size a).cells = span a size := by
  simp [bufvecInit, FuseBufvec.cells_start]

@[simp] theorem bufvecInit_remaining (size : Nat) (a : Int) :
    (bufvecInit size a).remaining = size := by
  rw [FuseBufvec.remaining, bufvecInit_cells, span_length]

theorem bufvecInit_valid (size : Nat) (a : Int) : (bufvecInit size a).Valid :=
  ⟨Nat.zero_le _, fun _ _ => Nat.zero_le _⟩

theorem bufvecInit_isMem (size : Nat) (a : Int) : (bufvecInit size a).IsMem := by
  intro b hb
  rw [List.mem_singleton.mp hb]

/-- What a store changes in a file. -/
theorem store_cases {r : Region} {bytes : List UInt8} (h : f.store r.addr bytes = .ok f') :
    bytes = [] ∧ f' = f ∨ ∃ id delta s d, r.addr = some (id, delta) ∧
      f.segments[id]? = some s ∧ s.mData = some d ∧ 0 ≤ delta ∧
      delta + bytes.length ≤ s.mLength.getD 0 ∧
      f' = f.setSegment id { s with mData := some (overwrite d delta bytes) } := by
  unfold File.store at h
  split at h
  · exact .inl ⟨rfl, (Except.ok.inj h).symm⟩
  · cases h
  · rename_i id delta _ haddr
    obtain ⟨s, hs, h⟩ := bind_eq_ok.mp h
    have hseg : f.segments[id]? = some s := by
      unfold File.segment at hs
      split at hs
      · rename_i hseg
        rw [hseg, Except.ok.inj hs]
      · cases hs
    split at h
    · cases h
    · rename_i d hd
      split_ifs at h with hin
      exact .inr ⟨id, delta, s, d, haddr, hseg, hd, hin.1, hin.2, (Except.ok.inj h).symm⟩

/-- Bytes stored in the file are bytes written at their address. -/
theorem Mapped.store (h : Mapped base m f) {r : Region} {bytes : List UInt8}
    (hstore : f.store r.addr bytes = .ok f') :
    Mapped base (overwrite m (place base r).1 bytes) f' := by
  rcases store_cases hstore with ⟨rfl, rfl⟩ | ⟨id, delta, s, d, haddr, hs, hd, hlo, hhi, rfl⟩
  · rw [overwrite_nil]
    exact h
  have hplace : (place base r).1 = base id + delta := by
    unfold place
    rw [haddr]
  have hid : id < f.segments.length := (List.getElem?_eq_some_iff.mp hs).1
  -- a segment of the new file, and what it was before
  have hold : ∀ {id' s'},
      (f.segments.set id { s with mData := some (overwrite d delta bytes) })[id']? = some s' →
        ∃ s₀, f.segments[id']? = some s₀ ∧ s'.mLength = s₀.mLength ∧
        (id' ≠ id → s' = s₀) ∧ (id' = id → s'.mData = some (overwrite d delta bytes)) := by
    intro id' s' hs'
    by_cases heq : id' = id
    · subst heq
      rw [List.getElem?_set_self hid] at hs'
      obtain rfl := Option.some.inj hs'
      exact ⟨s, hs, rfl, fun hne => absurd rfl hne, fun _ => rfl⟩
    · rw [List.getElem?_set_ne (Ne.symm heq)] at hs'
      exact ⟨s', hs', rfl, fun _ => rfl, fun h => absurd h heq⟩
  refine ⟨fun {id' s' d'} hs' hd' x hx hx' => ?_, fun {i j s₁ s₂} h₁ h₂ hne x y hx hx' hy hy' => ?_⟩
  · obtain ⟨s₀, hs₀, hlen, hother, hself⟩ := hold hs'
    rw [hlen] at hx'
    by_cases heq : id' = id
    · subst heq
      obtain rfl := Option.some.inj ((hself rfl).symm.trans hd')
      obtain rfl := Option.some.inj (hs.symm.trans hs₀)
      have hsub : base id' + x - (base id' + delta) = x - delta := by omega
      have hle : base id' + delta ≤ base id' + x ↔ delta ≤ x := by omega
      simp only [overwrite, hplace, hsub, hle, h.agree hs hd x hx hx']
    · rw [hother heq] at hd'
      rw [← h.agree hs₀ hd' x hx hx', hplace]
      by_cases hin : base id + delta ≤ base id' + x ∧ base id' + x < base id + delta + bytes.length
      · have happ := h.apart hs₀ hs heq x (base id' + x - base id) hx hx' (by omega) (by omega)
        exact absurd (by omega) happ
      · rcases not_and_or.mp hin with hin | hin
        · exact overwrite_before (not_le.mp hin)
        · exact overwrite_after (not_lt.mp hin)
  · obtain ⟨t₁, ht₁, hl₁, -⟩ := hold h₁
    obtain ⟨t₂, ht₂, hl₂, -⟩ := hold h₂
    exact h.apart ht₁ ht₂ hne x y hx (hl₁ ▸ hx') hy (hl₂ ▸ hy')

/-- Nothing is copied where the source is used up or the region is empty. -/
theorem copy_nothing (K : Kernel κ) (haveSplice : Bool) (w : World κ) (flags : CopyFlags)
    (hs : srcv.Valid) (hsm : srcv.IsMem) (size : Nat) (a : Int) (h : srcv.cells = [] ∨ size = 0) :
    ∃ dstv' srcv', fuseBufCopyPmem K haveSplice w (bufvecInit size a) srcv flags =
      .ok (0, w, dstv', srcv') ∧ srcv'.Valid ∧ srcv'.buf = srcv.buf ∧ srcv'.cells = srcv.cells := by
  have hdisj : ∀ b ∈ srcv.cells, b ∉ (bufvecInit size a).cells := by
    intro b hb
    rcases h with h | rfl
    · rw [h] at hb
      cases hb
    · rw [bufvecInit_cells]
      exact List.not_mem_nil
  obtain ⟨dstv', srcv', hrun, hadv⟩ := fuseBufCopyPmem_mem K haveSplice w flags
    (bufvecInit_valid size a) hs (bufvecInit_isMem size a) hsm hdisj
  have hmin : min srcv.remaining (bufvecInit size a).remaining = 0 := by
    rcases h with h | rfl
    · rw [FuseBufvec.remaining, h, List.length_nil, Nat.zero_min]
    · rw [bufvecInit_remaining, Nat.min_zero]
  have hput : put w.mem (bufvecInit size a).cells (srcv.cells.map w.mem) = w.mem := by
    rcases h with h | rfl
    · rw [h, List.map_nil, put_nil_right]
    · rw [bufvecInit_cells]
      rfl
  rw [hmin, hput] at hrun
  rw [hmin] at hadv
  exact ⟨dstv', srcv', hrun, hadv.src, hadv.srcBuf, hadv.srcCells⟩

/-- One region: the bytes at the front of the source are at its address afterwards. -/
theorem copy_region (K : Kernel κ) (haveSplice : Bool) (flags : CopyFlags) (hs : srcv.Valid)
    (hsm : srcv.IsMem) {r : Region}
    (hstore : f.store r.addr ((srcv.cells.map w.mem).take (toSize r.size)) = .ok f')
    (hapart : ∀ p, r.addr = some p → ∀ a ∈ srcv.cells,
      a ∉ span (place base r).1 (toSize r.size)) :
    ∃ m' dstv' srcv',
      fuseBufCopyPmem K haveSplice w (bufvecInit (toSize r.size) (place base r).1) srcv flags =
        .ok ((min srcv.remaining (toSize r.size) : Nat), ⟨m', w.kernel⟩, dstv', srcv') ∧
      srcv'.Valid ∧ srcv'.buf = srcv.buf ∧ srcv'.cells = srcv.cells.drop (toSize r.size) ∧
      m' = overwrite w.mem (place base r).1 ((srcv.cells.map w.mem).take (toSize r.size)) ∧
      ∀ a ∈ srcv.cells, m' a = w.mem a := by
  generalize hsize : toSize r.size = size at *
  by_cases hnone : srcv.cells = [] ∨ size = 0
  · obtain ⟨dstv', srcv', hrun, hval, hbuf, hcells⟩ :=
      copy_nothing K haveSplice w flags hs hsm size (place base r).1 hnone
    have htake : (srcv.cells.map w.mem).take size = [] := by
      rcases hnone with h | rfl
      · rw [h, List.map_nil, List.take_nil]
      · rfl
    have hmin : min srcv.remaining size = 0 := by
      rcases hnone with h | rfl
      · rw [FuseBufvec.remaining, h, List.length_nil, Nat.zero_min]
      · rw [Nat.min_zero]
    have hdrop : srcv.cells.drop size = srcv.cells := by
      rcases hnone with h | rfl
      · rw [h, List.drop_nil]
      · rfl
    rw [hmin, htake, overwrite_nil, hdrop]
    exact ⟨w.mem, dstv', srcv', hrun, hval, hbuf, hcells, rfl, fun _ _ => rfl⟩
  · obtain ⟨hne, hzero⟩ := not_or.mp hnone
    obtain ⟨p, haddr⟩ : ∃ p, r.addr = some p := by
      rcases store_cases hstore with ⟨h, -⟩ | ⟨id, delta, -, -, haddr, -⟩
      · rcases List.take_eq_nil_iff.mp h with h | h
        · exact absurd h hzero
        · exact absurd (List.map_eq_nil_iff.mp h) hne
      · exact ⟨_, haddr⟩
    have hdisj : ∀ a ∈ srcv.cells, a ∉ (bufvecInit size (place base r).1).cells := by
      rw [bufvecInit_cells]
      exact hapart p haddr
    obtain ⟨dstv', srcv', hrun, hadv⟩ := fuseBufCopyPmem_mem K haveSplice w flags
      (bufvecInit_valid size _) hs (bufvecInit_isMem size _) hsm hdisj
    rw [bufvecInit_remaining, bufvecInit_cells] at hrun
    rw [bufvecInit_remaining] at hadv
    refine ⟨_, dstv', srcv', hrun, hadv.src, hadv.srcBuf, ?_, ?_, fun a ha => ?_⟩
    · rw [hadv.srcCells]
      unfold FuseBufvec.remaining
      rcases Nat.le_total srcv.cells.length size with hle | hle
      · rw [min_eq_left hle, List.drop_length, List.drop_eq_nil_of_le hle]
      · rw [min_eq_right hle]
    · rw [← put_span,
        ← put_take_right _ _ (show (span (place base r).1 size).length ≤ size by simp)]
      rw [← put_take_left _ (span (place base r).1 size) le_rfl, span_take]
      rw [List.length_take]
      exact min_le_left _ _
    · exact put_of_notMem (hapart p haddr a ha)

/-- The copy loop of `put_data`, for a request whose bytes are in memory apart from the
regions: it copies what the regions have room for, and the mapped segments hold what the
file holds after the loop over the bytes. -/
theorem copyRegions_refines (K : Kernel κ) (haveSplice : Bool) (regions : List Region) (n : Int)
    (hs : srcv.Valid) (hsm : srcv.IsMem) (hmap : Mapped base w.mem f)
    (hcopy : f.copyIn regions (srcv.cells.map w.mem) = .ok f')
    (hapart : ∀ r ∈ regions, ∀ p, r.addr = some p → ∀ a ∈ srcv.cells,
      a ∉ span (place base r).1 (toSize r.size)) :
    ∃ m' srcv', copyRegions K haveSplice w srcv (regions.map (place base)) n =
        .ok (n + (min srcv.remaining (regions.map fun r => toSize r.size).sum : Nat),
          ⟨m', w.kernel⟩, srcv') ∧ Mapped base m' f' := by
  induction regions generalizing w srcv f n with
  | nil =>
    cases hcopy
    refine ⟨w.mem, srcv, ?_, hmap⟩
    rw [List.map_nil, copyRegions, List.map_nil, List.sum_nil, Nat.min_zero, Nat.cast_zero,
      Int.add_zero]
    rfl
  | cons r regions ih =>
    obtain ⟨f₁, hstore, hrest⟩ := bind_eq_ok.mp hcopy
    obtain ⟨m', dstv', srcv', hrun, hval, hbuf, hcells, hm', hframe⟩ :=
      copy_region K haveSplice ⟨false, false, true, false⟩ hs hsm hstore
        (hapart r List.mem_cons_self)
    have hsub : ∀ a ∈ srcv'.cells, a ∈ srcv.cells := by
      intro a ha
      rw [hcells] at ha
      exact List.mem_of_mem_drop ha
    have hbytes : (srcv.cells.map w.mem).drop (toSize r.size) = srcv'.cells.map m' := by
      rw [← List.map_drop, ← hcells]
      exact List.map_congr_left fun a ha => (hframe a (hsub a ha)).symm
    rw [hbytes] at hrest
    have hmap' : Mapped base m' f₁ := hm' ▸ hmap.store hstore
    obtain ⟨m'', srcv'', hrun', hmap''⟩ := ih (w := ⟨m', w.kernel⟩)
      (n + (min srcv.remaining (toSize r.size) : Nat)) hval (hsm.of_buf hbuf) hmap' hrest
      fun q hq p hp a ha => hapart q (List.mem_cons_of_mem _ hq) p hp a (hsub a ha)
    refine ⟨m'', srcv'', ?_, hmap''⟩
    have hrem := FuseBufvec.remaining_drop hcells
    have hsum : min srcv.remaining (toSize r.size) +
        min srcv'.remaining (regions.map fun r => toSize r.size).sum =
        min srcv.remaining (toSize r.size + (regions.map fun r => toSize r.size).sum) := by
      omega
    rw [List.map_cons, List.map_cons, List.sum_cons, ← hsum]
    change (fuseBufCopyPmem K haveSplice w (bufvecInit (toSize r.size) (place base r).1) srcv _ >>=
      _) = _
    rw [hrun, ok_bind]
    dsimp only
    rw [hrun', Int.add_assoc, ← Nat.cast_add]

/-- A file of one segment, which is mapped at address 0, and four bytes beyond it. -/
def oneSegment : File := { File.create with segments := [.new 0 4096 false] }

def memory₅₀₀₀ : FuseBufvec := ⟨0, 0, [⟨4, false, false, false, 5000, -1, 0⟩]⟩

theorem oneSegment_mapped :
    Mapped (fun _ => 0) (fun a => if a < 4096 then 0 else 7) oneSegment where
  agree {id s d} hs hd x hx hx' := by
    cases id with
    | zero =>
      obtain rfl := Option.some.inj hs
      obtain rfl := Option.some.inj hd
      have hlt : (0 : Int) + x < 4096 := (Int.zero_add x).trans_lt hx'
      exact if_pos hlt
    | succ id => cases hs
  apart {id id' s s'} hs hs' hne := by
    cases id with
    | zero =>
      cases id' with
      | zero => exact absurd rfl hne
      | succ id' => cases hs'
    | succ id => cases hs

theorem copyRegions_refines_oneSegment : ∃ f' m' srcv',
    oneSegment.copyIn [⟨some (0, 1), 4, false⟩] [7, 7, 7, 7] = .ok f' ∧
      copyRegions zeroKernel true ⟨fun a => if a < 4096 then 0 else 7, ()⟩ memory₅₀₀₀
        ([⟨some (0, 1), 4, false⟩].map (place fun _ => 0)) 0 = .ok (4, ⟨m', ()⟩, srcv') ∧
      Mapped (fun _ => 0) m' f' := by
  obtain ⟨f', hcopy⟩ : ∃ f', oneSegment.copyIn [⟨some (0, 1), 4, false⟩] [7, 7, 7, 7] = .ok f' :=
    ⟨_, rfl⟩
  have hcells : memory₅₀₀₀.cells = span 5000 4 := by
    simp [memory₅₀₀₀, FuseBufvec.cells_start]
  have hbytes : memory₅₀₀₀.cells.map (fun a => if a < 4096 then (0 : UInt8) else 7) =
      [7, 7, 7, 7] := by
    rw [hcells]
    rfl
  have hapart : ∀ r ∈ [(⟨some (0, 1), 4, false⟩ : Region)], ∀ p, r.addr = some p →
      ∀ a ∈ memory₅₀₀₀.cells, a ∉ span (place (fun _ => 0) r).1 (toSize r.size) := by
    intro r hr p _ a ha hmem
    obtain rfl := List.mem_singleton.mp hr
    have hlt : a < (0 + 1) + (4 : Nat) := (mem_span.mp hmem).2
    have hge := (mem_span.mp (hcells ▸ ha)).1
    omega
  obtain ⟨m', srcv', hrun, hmap⟩ := copyRegions_refines zeroKernel true
    (w := ⟨fun a => if a < 4096 then 0 else 7, ()⟩) [⟨some (0, 1), 4, false⟩] 0
    ⟨by decide, fun _ _ => Nat.zero_le _⟩ (by unfold FuseBufvec.IsMem; decide) oneSegment_mapped
    (hbytes ▸ hcopy) hapart
  exact ⟨f', m', srcv', hcopy, hrun, hmap⟩

end EchoFs.Nvml.BufCopy
