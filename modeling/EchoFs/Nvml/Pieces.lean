import EchoFs.Library.Transition
import EchoFs.Nvml.Gaps
import EchoFs.Nvml.ReadWrite

/-! Reading in pieces: in every run of `put_data`, `allocate` and `truncate` calls
whose storage fits between its neighbours, a read of two adjacent ranges returns
what the reads of the ranges return. -/

namespace EchoFs.Nvml
open Checked IntervalMap Memory Transition

namespace File
variable {f f' : File} {a b : Int}

/-- The memory of a gap that a request for `[start, b)` meets stays inside the gap. -/
def LeafFits (cfg : Config) (f : File) (start b : Int) (l : Leaf) : Prop :=
  ∀ id ∈ l.val, ∀ s ∈ f.segments[id]?, s.mIsGap = true → l.key < b →
    start < s.mOffset + s.mSize → GapFits cfg start b l.key s

/-- The storage for `[start, start + size)` fits: new segments start at the end of
the allocated part or beyond it, and the memory of gaps stays inside the gaps. -/
structure Fits (cfg : Config) (f : File) (start size : Int) : Prop where
  append : f.mAllocOffset < start → f.mAllocOffset ≤ align start (f.nextSize cfg)
  gaps : 0 < size → ∀ l ∈ f.mSegments, LeafFits cfg f start (min (start + size) f.mAllocOffset) l

instance (cfg : Config) (start b k : Int) (s : Segment) : Decidable (GapFits cfg start b k s) :=
  decidable_of_iff ((s.mOffset = k ∨ align (max start k) cfg.segmentSize ≤ s.mOffset) ∧
    (b < s.mOffset + s.mSize → xalign b cfg.segmentSize ≤ s.mOffset + s.mSize))
    ⟨fun h => ⟨h.1, h.2⟩, fun h => ⟨h.front, h.back⟩⟩

instance (cfg : Config) (f : File) (start b : Int) : DecidablePred (LeafFits cfg f start b) :=
  fun l => inferInstanceAs (Decidable (∀ id ∈ l.val, ∀ s ∈ f.segments[id]?, s.mIsGap = true →
    l.key < b → start < s.mOffset + s.mSize → GapFits cfg start b l.key s))

instance (cfg : Config) (f : File) (start size : Int) : Decidable (Fits cfg f start size) :=
  decidable_of_iff ((f.mAllocOffset < start → f.mAllocOffset ≤ align start (f.nextSize cfg)) ∧
    (0 < size → ∀ l ∈ f.mSegments, LeafFits cfg f start (min (start + size) f.mAllocOffset) l))
    ⟨fun h => ⟨h.1, h.2⟩, fun h => ⟨h.append, h.gaps⟩⟩

/-- What holds between the calls of a run. -/
structure Sound (f : File) : Prop where
  layout : f.Layout
  sizeOk : f.SizeOk
  alloc_lt : f.mAllocOffset < 2 ^ 64
  used : f.mUsedOffset = f.stSize
  size_nonneg : 0 ≤ f.stSize
  size_lt : f.stSize < 2 ^ 63

theorem lookupSegments_serves (h : f.Sound) (cfg : Config) (ha : 0 ≤ a) (hab : a ≤ b)
    (hb : b ≤ f.mAllocOffset)
    (hfits : a < b → ∀ l ∈ f.mSegments, LeafFits cfg f a b l) :
    ∃ k, Serves f k a b [] (f.lookupSegments cfg a b) := by
  unfold lookupSegments
  rw [check_ok ha, ok_bind, check_ok hab, ok_bind]
  unfold lookupHelper
  by_cases hz : b - a = 0
  · obtain rfl : b = a := by omega
    rw [if_pos hz]
    exact ⟨0, h.layout, ⟨rfl, rfl, rfl, rfl⟩, rfl, fun _ _ hj _ => ⟨hj, rfl⟩, [], rfl, .nil,
      by simp⟩
  obtain ⟨L, k, id, s, R, ht, hL, hs, hk, hlt, hR⟩ :=
    h.layout.chain.locate ha (show a < f.mAllocOffset by omega)
  have hsearch := h.layout.search_leaf (show ⟨k, some id⟩ ∈ f.mSegments by simp [ht]) hs.seg hk hlt
  have hfuel : R.length + 1 < 2 * f.mSegments.length + 2 := by
    rw [ht, List.length_append, List.length_cons]
    omega
  rw [if_neg hz, hsearch]
  refine ⟨k, lookupLoop_alloc cfg b _ [] h.layout ht hL hs hR hk hlt (by omega) hb h.alloc_lt hfuel
    ?_⟩
  intro k' id' s' hm hs' hg hk'
  have hmem : (⟨k', some id'⟩ : Leaf) ∈ f.mSegments := by
    rw [ht]
    exact List.mem_append_right _ hm
  refine hfits (by omega) ⟨k', some id'⟩ hmem id' rfl s' hs' hg hk' ?_
  have hend := (h.layout.leafOk hmem hs').lt_end
  rcases List.mem_cons.mp hm with he | hm
  · obtain ⟨rfl, rfl⟩ : k' = k ∧ id' = id := by simpa using he
    obtain rfl : s' = s := by simpa [hs.seg] using hs'.symm
    exact hlt
  · have := hR.key_ge _ hm
    simp only at this
    omega

theorem lookupSegments_keeps (h : f.Sound) (cfg : Config) (ha : 0 ≤ a) (hab : a ≤ b)
    (hb : b ≤ f.mAllocOffset) (hfits : a < b → ∀ l ∈ f.mSegments, LeafFits cfg f a b l) :
    Keeps f (f.lookupSegments cfg a b) := by
  obtain ⟨k, hk⟩ := lookupSegments_serves h cfg ha hab hb hfits
  exact hk.keeps

/-- Storage that fits keeps the file sound. -/
def Stores (f : File) : Result (File × List Region) → Prop
  | .ok (f', _) => f'.Sound ∧ f'.stSize = f.stSize
  | .error e => e = .assertion

theorem Sound.sameMeta (h : f.Sound) (hL : f'.Layout) (hm : SameMeta f f') : f'.Sound where
  layout := hL
  sizeOk := by
    unfold SizeOk
    rw [hm.segmentSize]
    exact h.sizeOk
  alloc_lt := by rw [hm.alloc]; exact h.alloc_lt
  used := by rw [hm.used, hm.size, h.used]
  size_nonneg := by rw [hm.size]; exact h.size_nonneg
  size_lt := by rw [hm.size]; exact h.size_lt

theorem Keeps.stores {x : Result (File × List Region)} (h : f.Sound) (hx : Keeps f x) :
    Stores f x := by
  cases x with
  | error e => exact hx
  | ok p => exact ⟨h.sameMeta hx.1 hx.2, hx.2.size⟩

theorem Sound.extendAlloc (h : f.Sound) (cfg : Config) {start size : Int} (hsize : 0 ≤ size)
    (hlt : start + size < 2 ^ 63) (hgt : f.mAllocOffset < start + size)
    (hgap : f.mAllocOffset < start → f.mAllocOffset ≤ align start (f.nextSize cfg))
    (regions : List Region) : Stores f (f.extendAlloc cfg start size regions) := by
  obtain ⟨hpos, hnlt⟩ := nextSize_ok cfg h.sizeOk
  obtain ⟨f', rs, he, hL, hg, hz, ha⟩ :=
    h.layout.extendAlloc_spec cfg h.sizeOk hsize hgt hgap regions
  have hx := xalign_le (start + size) (f.nextSize cfg)
  have hu := hg.used
  have hs := hg.size
  rw [he]
  refine ⟨⟨hL, ?_, ?_, ?_, ?_, ?_⟩, hs⟩
  · unfold SizeOk
    rw [hz]
    exact ⟨hpos, hnlt⟩
  · omega
  · rw [hu, hs, h.used]
  · rw [hs]
    exact h.size_nonneg
  · rw [hs]
    exact h.size_lt

theorem SameMeta.nextSize {f₁ : File} (h : SameMeta f f₁) (cfg : Config) :
    f₁.nextSize cfg = f.nextSize cfg := by
  unfold File.nextSize
  rw [h.segmentSize]

/-- The lookup before an append covers the allocated part of the range. -/
theorem Sound.lookupAllocated_serves (h : f.Sound) (cfg : Config) {start size : Int}
    (hstart : 0 ≤ start) (hfits : Fits cfg f start size) (hle : start ≤ f.mAllocOffset)
    (hend : f.mAllocOffset < start + size) :
    ∃ k, Serves f k start f.mAllocOffset [] (f.lookupAllocated cfg start) := by
  unfold lookupAllocated
  by_cases hs : start < f.mAllocOffset
  · rw [if_pos hs]
    have hgaps := hfits.gaps (by omega)
    rw [min_eq_right (by omega)] at hgaps
    exact lookupSegments_serves h cfg hstart hs.le le_rfl fun _ => hgaps
  · obtain rfl : start = f.mAllocOffset := by omega
    rw [if_neg hs]
    exact ⟨0, h.layout, ⟨rfl, rfl, rfl, rfl⟩, rfl, fun _ _ hj _ => ⟨hj, rfl⟩, [], rfl, .nil,
      by simp⟩

theorem Sound.fetchStorage (h : f.Sound) (cfg : Config) {start size : Int} (hstart : 0 ≤ start)
    (hsize : 0 ≤ size) (hlt : start + size < 2 ^ 63) (hfits : Fits cfg f start size) :
    Stores f (f.fetchStorage cfg start size) := by
  by_cases hin : start + size ≤ f.mAllocOffset
  · have hgaps := hfits.gaps
    rw [min_eq_left hin] at hgaps
    unfold File.fetchStorage
    rw [if_pos hin]
    exact (lookupSegments_keeps h cfg hstart (by omega) hin fun hpos => hgaps (by omega)).stores h
  rw [fetchStorage_append cfg hsize (not_le.mp hin)]
  have hlook : Keeps f (f.lookupAllocated cfg start) := by
    by_cases hle : start ≤ f.mAllocOffset
    · obtain ⟨k, hk⟩ := h.lookupAllocated_serves cfg hstart hfits hle (not_le.mp hin)
      exact hk.keeps
    · unfold lookupAllocated
      rw [if_neg (by omega)]
      exact ⟨h.layout, rfl, rfl, rfl, rfl⟩
  cases hx : f.lookupAllocated cfg start with
  | error e =>
    rw [hx] at hlook
    exact hlook
  | ok p =>
    obtain ⟨f₁, rs⟩ := p
    rw [hx] at hlook
    have h₁ := h.sameMeta hlook.1 hlook.2
    have hnext := hlook.2.nextSize cfg
    have hst : Stores f₁ (f₁.extendAlloc cfg start size rs) := h₁.extendAlloc cfg hsize hlt
      (by rw [hlook.2.alloc]; omega) (by rw [hlook.2.alloc, hnext]; exact hfits.append) rs
    simp only [Except.bind]
    cases hy : f₁.extendAlloc cfg start size rs with
    | error e =>
      rw [hy] at hst
      exact hst
    | ok q =>
      rw [hy] at hst
      exact ⟨hst.1, hst.2.trans hlook.2.size⟩

theorem Sound.store (h : f.Sound) {addr : Option (Nat × Int)} {bytes : List UInt8}
    (he : f.store addr bytes = .ok f') : f'.Sound ∧ f'.stSize = f.stSize := by
  rcases bytes with _ | ⟨c, bytes⟩
  · obtain rfl := Except.ok.inj he
    exact ⟨h, rfl⟩
  rcases addr with _ | ⟨id, delta⟩
  · cases he
  cases hs : f.segments[id]? with
  | none => simp [File.store, segment, hs] at he
  | some s =>
    simp only [File.store, segment_eq hs, ok_bind] at he
    cases hd : s.mData with
    | none => simp [hd] at he
    | some d =>
      simp only [hd] at he
      split_ifs at he
      obtain rfl := Except.ok.inj he
      refine ⟨h.sameMeta (h.layout.setSegment hs rfl rfl fun hok => ?_) ⟨rfl, rfl, rfl, rfl⟩, rfl⟩
      have hgap : s.mIsGap = false := by
        by_contra hg
        have := hok.gap (by simpa using hg)
        simp [hd] at this
      obtain ⟨_, _, hlen⟩ := hok.data hgap
      exact ⟨fun hg => absurd (hg.symm.trans hgap) (by simp), fun _ => ⟨_, rfl, hlen⟩⟩

theorem Sound.copyIn {rs : List Region} : ∀ {f : File} {buffer : List UInt8}, f.Sound →
    f.copyIn rs buffer = .ok f' → f'.Sound ∧ f'.stSize = f.stSize := by
  induction rs with
  | nil =>
    intro f buffer h he
    obtain rfl := Except.ok.inj he
    exact ⟨h, rfl⟩
  | cons r rs ih =>
    intro f buffer h he
    obtain ⟨f₁, he₁, he₂⟩ := bind_eq_ok.mp he
    obtain ⟨h₁, hz₁⟩ := h.store he₁
    obtain ⟨h₂, hz₂⟩ := ih h₁ he₂
    exact ⟨h₂, hz₂.trans hz₁⟩

theorem Sound.updateSize (h : f.Sound) {n : Int} (hn : n < 2 ^ 63) : (f.updateSize n).Sound := by
  obtain ⟨_, _, ha, hz⟩ := f.updateSize_tree n
  have hst := f.updateSize_stSize n
  have h0 := h.size_nonneg
  have hlt := h.size_lt
  refine ⟨updateSize_layout h.layout n, ?_, ?_, updateSize_used h.used n, ?_, ?_⟩
  · unfold SizeOk
    rw [hz]
    exact h.sizeOk
  · rw [ha]
    exact h.alloc_lt
  · omega
  · omega

theorem Sound.write (h : f.Sound) (cfg : Config) (op : Op) (hstart : 0 ≤ op.start)
    (hsize : 0 ≤ op.size) (hlt : op.start + op.size < 2 ^ 63)
    (hfits : Fits cfg f op.start op.size) (he : op.run cfg f = .ok f') : f'.Sound := by
  have hst := h.fetchStorage cfg hstart hsize hlt hfits
  cases op with
  | putData start buffer =>
    obtain ⟨⟨f₁, rs⟩, he₁, he⟩ := bind_eq_ok.mp he
    obtain ⟨f₂, he₂, he⟩ := bind_eq_ok.mp he
    obtain rfl := Except.ok.inj he
    simp only [Op.start, Op.size] at hst hlt
    rw [he₁] at hst
    exact (hst.1.copyIn he₂).1.updateSize hlt
  | allocate start size =>
    obtain ⟨⟨f₁, rs⟩, he₁, he⟩ := bind_eq_ok.mp he
    obtain rfl := Except.ok.inj he
    simp only [Op.start, Op.size] at hst hlt
    rw [he₁] at hst
    exact hst.1.updateSize hlt

theorem Sound.shrinkLoop (endOffset : Int) (leaves : List Leaf) : ∀ {f : File} {size : Int}
    {cut : Bool}, f.Sound → shrinkLoop endOffset leaves size cut f = .ok f' → f'.Sound := by
  induction leaves with
  | nil =>
    intro f size cut h he
    obtain rfl := Except.ok.inj he
    exact h
  | cons leaf leaves ih =>
    intro f size cut h he
    unfold File.shrinkLoop at he
    cases hv : leaf.val with
    | none =>
      rw [hv] at he
      exact ih h he
    | some id =>
      simp only [hv] at he
      obtain ⟨s, hs, he⟩ := bind_eq_ok.mp he
      have hs : f.segments[id]? = some s := by
        unfold segment at hs
        split at hs
        · rename_i hget
          rw [hget, Except.ok.inj hs]
        · cases hs
      have hcut : ∀ n : Int, (f.setSegment id { s with mBytes := n }).Sound := fun n =>
        h.sameMeta (h.layout.setSegment hs rfl rfl fun hok => ⟨hok.gap, hok.data⟩)
          ⟨rfl, rfl, rfl, rfl⟩
      have hlayout : (f.setSegment id { s with mData := none, mIsGap := true }).Layout :=
        h.layout.setSegment hs rfl rfl fun _ => ⟨fun _ => rfl, fun hg => absurd hg (by simp)⟩
      have hdrop : ((f.pmemUnmap id s).setSegment id { s with mData := none, mIsGap := true }).Sound :=
        h.sameMeta ⟨hlayout.chain⟩ ⟨rfl, rfl, rfl, rfl⟩
      generalize size + (if s.mBytes ≠ 0 then s.mBytes else s.mSize) = n at he
      split_ifs at he
      · exact ih (hcut _) he
      · exact ih hdrop he
      · exact ih h he

/-- The calls that change the data of a file. -/
inductive Call where
  | write (op : Op)
  | truncate (endOffset : Int)

namespace Call

def run (cfg : Config) (f : File) : Call → Result File
  | write op => op.run cfg f
  | truncate endOffset => f.truncate cfg endOffset

/-- The offsets of a call are values of `off_t`, none of them negative. -/
def Valid : Call → Prop
  | write op => 0 ≤ op.start ∧ 0 ≤ op.size ∧ op.start + op.size < 2 ^ 63
  | truncate endOffset => 0 ≤ endOffset ∧ endOffset < 2 ^ 63

def Fits (cfg : Config) (f : File) : Call → Prop
  | write op => File.Fits cfg f op.start op.size
  | truncate endOffset => endOffset % 2 ^ 32 > f.stSize % 2 ^ 32 → File.Fits cfg f 0 endOffset

instance : DecidablePred Valid
  | write _ => inferInstanceAs (Decidable (_ ∧ _ ∧ _))
  | truncate _ => inferInstanceAs (Decidable (_ ∧ _))

instance (cfg : Config) (f : File) : DecidablePred (Fits cfg f)
  | write op => inferInstanceAs (Decidable (File.Fits cfg f op.start op.size))
  | truncate endOffset => inferInstanceAs (Decidable (_ → File.Fits cfg f 0 endOffset))

end Call

theorem Sound.call (h : f.Sound) (cfg : Config) {c : Call} (hv : c.Valid) (hfits : c.Fits cfg f)
    (he : c.run cfg f = .ok f') : f'.Sound := by
  cases c with
  | write op => exact h.write cfg op hv.1 hv.2.1 hv.2.2 hfits he
  | truncate endOffset =>
    simp only [Call.run, File.truncate] at he
    split_ifs at he with hgt
    · exact h.write cfg (.allocate 0 endOffset) le_rfl hv.1 (by simpa [Op.start, Op.size]
        using hv.2) (hfits hgt) he
    · obtain ⟨f₁, he₁, he⟩ := bind_eq_ok.mp he
      obtain rfl := Except.ok.inj he
      have h₁ := h.shrinkLoop endOffset _ he₁
      exact ⟨⟨h₁.layout.chain⟩, h₁.sizeOk, h₁.alloc_lt, rfl, hv.1, hv.2⟩

theorem segment_finishes (f : File) (id : Nat) : Finishes (f.segment id) := by
  unfold segment
  split
  · exact finishes_ok _
  · exact fun h => nomatch h

theorem store_finishes (f : File) (addr : Option (Nat × Int)) (bytes : List UInt8) :
    Finishes (f.store addr bytes) := by
  unfold File.store
  split
  · exact finishes_ok _
  · exact fun h => nomatch h
  · refine (f.segment_finishes _).bind fun s _ => ?_
    split
    · exact fun h => nomatch h
    · split_ifs
      · exact finishes_ok _
      · exact fun h => nomatch h

theorem copyIn_finishes (rs : List Region) : ∀ (f : File) (buffer : List UInt8),
    Finishes (f.copyIn rs buffer) := by
  induction rs with
  | nil => exact fun _ _ => finishes_ok _
  | cons r rs ih => exact fun f buffer => (f.store_finishes _ _).bind fun f' _ => ih f' _

theorem shrinkLoop_finishes (endOffset : Int) (leaves : List Leaf) : ∀ (size : Int) (cut : Bool)
    (f : File), Finishes (shrinkLoop endOffset leaves size cut f) := by
  induction leaves with
  | nil => exact fun _ _ _ => finishes_ok _
  | cons leaf leaves ih =>
    intro size cut f
    unfold File.shrinkLoop
    split
    · exact ih _ _ _
    · refine (f.segment_finishes _).bind fun s _ => ?_
      simp only
      generalize size + (if s.mBytes ≠ 0 then s.mBytes else s.mSize) = n
      split_ifs <;> exact ih _ _ _

theorem Stores.finishes {x : Result (File × List Region)} (h : Stores f x) : Finishes x := by
  rintro rfl
  cases (show Fault.unfinished = .assertion from h)

/-- The bound on the lookup loop is never reached, so a call of a run that does not
return has failed an assertion or followed a bad address. -/
theorem Sound.call_finishes (h : f.Sound) (cfg : Config) {c : Call} (hv : c.Valid)
    (hfits : c.Fits cfg f) : Finishes (c.run cfg f) := by
  have hfetch : ∀ {start size : Int}, 0 ≤ start → 0 ≤ size → start + size < 2 ^ 63 →
      File.Fits cfg f start size → Finishes (f.fetchStorage cfg start size) :=
    fun h₁ h₂ h₃ h₄ => (h.fetchStorage cfg h₁ h₂ h₃ h₄).finishes
  cases c with
  | write op =>
    cases op with
    | putData start buffer =>
      refine (hfetch hv.1 hv.2.1 hv.2.2 hfits).bind fun p _ => ?_
      exact (copyIn_finishes _ _ _).bind fun _ _ => finishes_ok _
    | allocate start size =>
      exact (hfetch hv.1 hv.2.1 hv.2.2 hfits).bind fun _ _ => finishes_ok _
  | truncate endOffset =>
    simp only [Call.run, File.truncate]
    split_ifs with hgt
    · exact (hfetch le_rfl hv.1 (by simpa using hv.2) (hfits hgt)).bind fun _ _ => finishes_ok _
    · exact (shrinkLoop_finishes _ _ _ _ _).bind fun _ _ => finishes_ok _

/-- A file that was just created or preloaded. -/
def Initial (f : File) : Prop :=
  ∃ origin : Origin, (origin.content.length : Int) < 2 ^ 63 ∧ origin.file = .ok f

/-- A call that returns. -/
def Step (cfg : Config) (f : File) (c : Call) (f' : File) : Prop :=
  c.Valid ∧ c.run cfg f = .ok f'

/-- A read of two adjacent ranges returns what the reads of the ranges return. -/
def ReadsSplit (cfg : Config) (f : File) : Prop :=
  ∀ o n m : Int, 0 ≤ o → 0 < n → 0 < m → o + n < f.stSize →
    ∃ left right, f.getData cfg o n = .ok (.bytes left) ∧
      f.getData cfg (o + n) m = .ok (.bytes right) ∧
      f.getData cfg o (n + m) = .ok (.bytes (left ++ right))

theorem Sound.readsSplit (h : f.Sound) (cfg : Config) : f.ReadsSplit cfg := by
  intro o n m ho hn hm hlt
  have hused := h.used
  have hsize := h.size_lt
  refine ⟨_, _, h.layout.getData_eq cfg ho hn (by omega) (by omega),
    h.layout.getData_eq cfg (by omega) hm (by omega) (by omega), ?_⟩
  rw [h.layout.getData_eq cfg ho (by omega) (by omega) (by omega)]
  refine congrArg (fun bytes => Except.ok (ReadResult.bytes bytes)) ?_
  unfold cells
  by_cases hin : o + n ≤ f.mAllocOffset
  · rw [show min (min (o + n) f.mUsedOffset) f.mAllocOffset = o + n by omega, ← add_assoc]
    exact window_append f.cell (by omega) (by omega)
  · -- both reads end where the allocated part ends
    have hempty : window f.cell (o + n)
        (min (min (o + n + m) f.mUsedOffset) f.mAllocOffset) = [] := by
      refine List.length_eq_zero_iff.mp ?_
      rw [window_length]
      omega
    rw [hempty, List.append_nil]
    congr 1
    omega

theorem sound_of_initial (h : Initial f) : f.Sound := by
  obtain ⟨origin, hlt, he⟩ := h
  obtain ⟨f₀, he₀, h₀, _, _, halloc⟩ := origin.file_spec hlt
  obtain rfl := Except.ok.inj (he₀.symm.trans he)
  exact ⟨h₀.layout, h₀.sizeOk, by omega, h₀.used, h₀.size_nonneg, h₀.size_lt⟩

theorem sound_of_reach {cfg : Config}
    (h : Reach Initial (Guarded (Step cfg) fun f c => c.Fits cfg f) f) : f.Sound :=
  h.invariant (fun _ hf => sound_of_initial hf)
    fun _ _ _ hf hstep => hf.call cfg hstep.2.1 hstep.1 hstep.2.2

theorem Step.reach {cfg : Config} {f f' : File} (h : Reach Initial (Step cfg) f) (c : Call)
    (hv : c.Valid) (he : c.run cfg f = .ok f') : Reach Initial (Step cfg) f' :=
  h.next (e := c) ⟨hv, he⟩

theorem Step.reach_fits {cfg : Config} {f f' : File}
    (h : Reach Initial (Guarded (Step cfg) fun f c => c.Fits cfg f) f) (c : Call) (hv : c.Valid)
    (hfits : c.Fits cfg f) (he : c.run cfg f = .ok f') :
    Reach Initial (Guarded (Step cfg) fun f c => c.Fits cfg f) f' :=
  h.next (e := c) ⟨hfits, hv, he⟩

def pageConfig : Config := ⟨4096, by decide, by decide⟩

end File
end EchoFs.Nvml
