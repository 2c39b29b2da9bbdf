import EchoFs.Nvml.Partition
import EchoFs.Nvml.Pieces

/-! `unload`, which writes a file out of NVRAM, against `get_data`: both look up the same
regions, but only one of them knows about the null address of a gap. -/

namespace EchoFs.Nvml
open Checked IntervalMap Memory Transition

/-- `file::type`. -/
inductive FileType where
  | temporary
  | persistent
deriving DecidableEq, Repr

namespace File
variable {f : File} {a b x : Int}

/-- `output.write` of a region. The null address of a gap is no array of `r.size` bytes. -/
def writeRegion (f : File) (r : Region) : Result (List UInt8) :=
  if r.addr ≠ none ∨ toSize r.size = 0 then f.load r else .error .badPointer

/-- The loop of `unload`. -/
def writeRegions : File → List Region → List UInt8 → Result (List UInt8)
  | _, [], output => return output
  | f, r :: regions, output => do
    let bytes ← f.writeRegion r
    f.writeRegions regions (output ++ bytes)

/-- What `unload` returns and what it has written. -/
def unload (cfg : Config) (f : File) (type : FileType) : Result (Int × List UInt8) :=
  if type = .temporary then return (-1, []) else do
    let regions ← f.lookupData cfg 0 f.stSize
    let output ← f.writeRegions regions []
    return (0, output)

/-- The regions of a range have memory if no gap meets the range. -/
theorem Maps.region_at {rs : List Region} (h : Maps f a b rs) (hx : a ≤ x) (hxb : x < b) :
    ∃ q ∈ rs, ∃ k id s, ⟨k, some id⟩ ∈ f.mSegments ∧ f.segments[id]? = some s ∧ k ≤ x ∧
      x < s.mOffset + s.mSize ∧ (s.mIsGap = true → q.addr = none) := by
  induction h with
  | nil => omega
  | @cons a b k id s r rs hm hs hlo hhi hpos haddr hrest ih =>
    by_cases hin : x < a + r.size
    · refine ⟨r, List.mem_cons_self, k, id, s, hm, hs, by omega, by omega, fun hg => ?_⟩
      rw [haddr, if_pos hg]
    · obtain ⟨q, hq, hrest⟩ := ih (not_lt.mp hin) hxb
      exact ⟨q, List.mem_cons_of_mem _ hq, hrest⟩

theorem Maps.addr_ne_none {rs : List Region} (h : Maps f a b rs)
    (hng : ∀ k id s, ⟨k, some id⟩ ∈ f.mSegments → f.segments[id]? = some s → k < b →
      s.mIsGap = false) : ∀ q ∈ rs, q.addr ≠ none := by
  induction h with
  | nil => simp
  | @cons a b k id s r rs hm hs hlo hhi hpos haddr hrest ih =>
    have hle := hrest.le
    intro q hq
    rcases List.mem_cons.mp hq with rfl | hq
    · rw [haddr, hng k id s hm hs (by omega)]
      exact Option.some_ne_none _
    · exact ih hng q hq

theorem Layout.writeRegions_eq (h : f.Layout) {rs : List Region} (hmaps : Maps f a b rs)
    (hrs : ∀ q ∈ rs, q.addr ≠ none) (hlt : b - a < 2 ^ 63) : ∀ output : List UInt8,
    f.writeRegions rs output = .ok (output ++ f.cells a b) := by
  induction hmaps with
  | nil =>
    intro output
    simp [writeRegions, cells, window]
  | @cons a b k id s r rs hm hs hlo hhi hpos haddr hrest ih =>
    intro output
    have hle := hrest.le
    unfold writeRegions writeRegion
    rw [if_pos (.inl (hrs r List.mem_cons_self)), h.load_eq hm hs hlo hhi hpos haddr (by omega),
      ok_bind, ih (fun q hq => hrs q (List.mem_cons_of_mem _ hq)) (by omega), List.append_assoc,
      cells, cells, ← window_append f.cell (by omega) hle, cells]

/-- The first gap ends the loop. -/
theorem Maps.addr_of_writeRegions {rs : List Region} (h : Maps f a b rs) (hlt : b - a < 2 ^ 63) :
    ∀ {output output' : List UInt8}, f.writeRegions rs output = .ok output' →
    ∀ q ∈ rs, q.addr ≠ none := by
  induction h with
  | nil => simp
  | @cons a b k id s r rs hm hs hlo hhi hpos haddr hrest ih =>
    intro output output' he q hq
    have hle := hrest.le
    obtain ⟨bytes, hbytes, he⟩ := bind_eq_ok.mp he
    rcases List.mem_cons.mp hq with rfl | hq
    · unfold writeRegion at hbytes
      split_ifs at hbytes with hor
      refine hor.resolve_right ?_
      rw [toSize_of_nonneg hpos.le (by omega)]
      omega
    · exact ih (by omega) he q hq

/-- The file is written out completely, with the bytes that `get_data` returns. -/
def Exports (cfg : Config) (f : File) : Prop :=
  ∃ output, f.unload cfg .persistent = .ok (0, output) ∧ (output.length : Int) = f.stSize ∧
    (0 < f.stSize → f.getData cfg 0 f.stSize = .ok (.bytes output))

/-- Everything below the size of the file has memory. -/
def DataBacked (f : File) : Prop :=
  f.stSize ≤ f.mAllocOffset ∧ ∀ k id s, ⟨k, some id⟩ ∈ f.mSegments → f.segments[id]? = some s →
    k < f.stSize → s.mIsGap = false

theorem Sound.unload_eq (h : f.Sound) (cfg : Config) : ∃ rs,
    Maps f 0 (min f.stSize f.mAllocOffset) rs ∧
      f.unload cfg .persistent = (f.writeRegions rs []).map ((0 : Int), ·) := by
  have hused := h.used
  have hsize := h.size_nonneg
  have halloc := h.layout.chain.le
  have hunload : ∀ rs f', f.lookupHelper cfg 0 f.stSize false = .ok (f', rs) →
      f.unload cfg .persistent = (f.writeRegions rs []).map ((0 : Int), ·) := by
    intro rs f' he
    unfold unload lookupData
    -- the range ends at `st_size`, so it is not clipped to `m_used_offset`
    rw [if_neg (by decide), check_ok le_rfl, ok_bind, check_ok hsize, ok_bind,
      if_neg (by omega)]
    dsimp only
    rw [he]
    simp only [ok_bind, pure_eq_ok]
    cases f.writeRegions rs [] <;> rfl
  by_cases hz : f.stSize = 0
  · refine ⟨[], ?_, hunload [] f ?_⟩
    · rw [hz, min_eq_left halloc]
      exact .nil
    · unfold lookupHelper
      rw [hz]
      rfl
  by_cases ha : 0 < f.mAllocOffset
  · obtain ⟨rs, he, hmaps⟩ := h.layout.lookupHelper_read cfg le_rfl ha
      (show 0 < f.stSize by omega)
    exact ⟨rs, hmaps, hunload rs f he⟩
  · refine ⟨[], ?_, hunload [] f (h.layout.lookupHelper_beyond cfg (not_lt.mp ha) (Ne.symm hz))⟩
    rw [show f.mAllocOffset = 0 by omega, min_eq_right hsize]
    exact .nil

theorem Sound.exports_iff (h : f.Sound) (cfg : Config) : f.Exports cfg ↔ f.DataBacked := by
  have hused := h.used
  have hlt := h.size_lt
  have hsize := h.size_nonneg
  have halloc := h.layout.chain.le
  obtain ⟨rs, hmaps, hunload⟩ := h.unload_eq cfg
  constructor
  · rintro ⟨output, he, hlen, -⟩
    rw [hunload] at he
    cases hw : f.writeRegions rs [] with
    | error e =>
      rw [hw] at he
      cases he
    | ok output' =>
      rw [hw] at he
      obtain rfl : output' = output := (Prod.mk.inj (Except.ok.inj he)).2
      have hrs := hmaps.addr_of_writeRegions (by omega) hw
      rw [h.layout.writeRegions_eq hmaps hrs (by omega), List.nil_append] at hw
      obtain rfl := Except.ok.inj hw
      rw [cells, window_length] at hlen
      have hle : f.stSize ≤ f.mAllocOffset := by omega
      refine ⟨hle, fun k id s hm hs hk => ?_⟩
      -- a gap below the size would be under a region without an address
      by_contra hg
      have hleaf := h.layout.leafOk hm hs
      have hk0 : 0 ≤ k := h.layout.chain.key_ge _ hm
      obtain ⟨q, hq, k', id', s', hm', hs', hk', hx', hnone⟩ :=
        hmaps.region_at hk0 (show k < min f.stSize f.mAllocOffset by omega)
      obtain ⟨-, -, rfl⟩ := h.layout.leaf_unique hm' hs' hk' hx' hm hs le_rfl hleaf.lt_end
      exact hrs q hq (hnone (by simpa using hg))
  · rintro ⟨hle, hng⟩
    rw [min_eq_left hle] at hmaps
    have hrs := hmaps.addr_ne_none hng
    have hout := h.layout.writeRegions_eq hmaps hrs (by omega) []
    rw [List.nil_append] at hout
    refine ⟨f.cells 0 f.stSize, ?_, ?_, fun hpos => ?_⟩
    · rw [hunload, hout]
      rfl
    · rw [cells, window_length]
      omega
    · rw [h.layout.getData_eq cfg le_rfl hpos (by omega) (by omega)]
      congr 3
      omega

/-- After a run whose storage fits, a file is written out as it reads if and only if
everything below its size has memory. -/
theorem unload_reads_iff {cfg : Config} {f : File}
    (h : Reach Initial (Guarded (Step cfg) fun f c => c.Fits cfg f) f) :
    f.Exports cfg ↔ f.DataBacked :=
  (sound_of_reach h).exports_iff cfg

/-- A file of one segment. -/
theorem unload_reads_oneSegment : ∃ f, create.putData .default 0 [1, 2] = .ok f ∧
    f.Exports .default := by
  have h₀ : Reach Initial (Guarded (Step .default) fun f c => c.Fits .default f) create :=
    .start ⟨.created, by decide, rfl⟩
  have h₁ := Step.reach_fits h₀ (.write (.putData 0 [1, 2])) (by decide) (by decide) rfl
  refine ⟨_, rfl, (unload_reads_iff h₁).mpr ⟨by decide, fun k id s hm hs _ => ?_⟩⟩
  have hor : (⟨k, some id⟩ : Leaf) = ⟨0, some 0⟩ ∨ (⟨k, some id⟩ : Leaf) = ⟨8192, none⟩ := by
    simpa using (show (⟨k, some id⟩ : Leaf) ∈ ([⟨0, some 0⟩, ⟨8192, none⟩] : List Leaf) from hm)
  rcases hor with he | he
  · cases he
    obtain rfl := Option.some.inj hs
    rfl
  · cases he

/-- A file with a hole: the null address of the gap is handed to `output.write`. -/
theorem unload_fails : ¬∀ (cfg : Config) (f : File), Reach Initial (Step cfg) f →
    f.Exports cfg := by
  intro hclaim
  have h₀ : Reach Initial (Step .default) create := .start ⟨.created, by decide, rfl⟩
  have h₁ := Step.reach h₀ (.write (.putData 100000 [2])) (by decide) rfl
  obtain ⟨output, he, -⟩ := hclaim _ _ h₁
  cases he

end File
end EchoFs.Nvml
