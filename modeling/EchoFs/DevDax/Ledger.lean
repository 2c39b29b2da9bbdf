import Mathlib.Data.UInt
import EchoFs.DevDax.Files

/-! Slots against pools: the bits of the allocator stand for the slots of the
pools that hold memory, whatever the files do, as long as `truncate` makes no
gap of a segment that holds memory. -/

namespace EchoFs.DevDax
open Checked Nvml Bitmap Transition

section Lists
variable {α γ : Type}

/-- A list of resources collected from a list of owners, one of which changes. -/
theorem perm_flatMap_set (g : α → List γ) {l : List α} {i : Nat} {a : α} (h : l[i]? = some a) :
    ∃ rest, (l.flatMap g).Perm (g a ++ rest) ∧
      ∀ b, ((l.set i b).flatMap g).Perm (g b ++ rest) := by
  obtain ⟨hlt, rfl⟩ := List.getElem?_eq_some_iff.mp h
  refine ⟨(l.take i).flatMap g ++ (l.drop (i + 1)).flatMap g, ?_, fun b => ?_⟩
  · conv_lhs => rw [← List.take_append_drop i l, List.drop_eq_getElem_cons hlt]
    rw [List.flatMap_append, List.flatMap_cons]
    exact List.perm_append_comm_assoc _ _ _
  · rw [List.set_eq_take_append_cons_drop, if_pos hlt, List.flatMap_append, List.flatMap_cons]
    exact List.perm_append_comm_assoc _ _ _

end Lists

def Segment.grants (s : Segment) : List (Nat × Nat) :=
  (s.mData.map fun data => (data, s.mLength)).toList

def File.grants (f : File) : List (Nat × Nat) := f.segments.flatMap Segment.grants

def System.grants {β : Type} (sys : System β) : List (Nat × Nat) :=
  sys.files.flatMap fun o => o.elim [] File.grants

/-- The bits account for the grants of a mapping that has a slot. -/
structure Ledger (p : BigPool) (live : List (Nat × Nat)) : Prop where
  accounts : p.Accounts live
  slot : 0 < p.mNvmlMappings

variable {p p' : BigPool} {live live' other : List (Nat × Nat)} {s s' : Segment} {f f' : File}

theorem Ledger.perm (h : Ledger p live) (hp : live.Perm live') : Ledger p live' :=
  ⟨h.accounts.perm hp, h.slot⟩

theorem Ledger.allocate {size : Nat} {r : Option Nat} (h : Ledger p other)
    (ha : p.allocate size = .ok (p', r)) :
    Ledger p' ((r.map fun data => (data, size)).toList ++ other) := by
  have hslot : 0 < p'.mNvmlMappings := by
    obtain ⟨bits, k, rfl⟩ := BigPool.allocate_eq ha
    exact h.slot
  cases r with
  | none => exact ⟨h.accounts.full ha, hslot⟩
  | some data => exact ⟨h.accounts.allocate h.slot ha, hslot⟩

theorem Ledger.new {offset size : Int} (h : Ledger p other)
    (hn : Segment.new p offset size = .ok (p', s)) : Ledger p' (s.grants ++ other) := by
  obtain ⟨⟨q, data⟩, ha, hn⟩ := bind_eq_ok.mp hn
  obtain ⟨rfl, rfl⟩ := Prod.mk.inj (Except.ok.inj hn)
  exact h.allocate ha

theorem Ledger.segmentAllocate {offset size : Int} (h : Ledger p (s.grants ++ other))
    (ha : s.allocate p offset size = .ok (p', s')) : Ledger p' (s'.grants ++ other) := by
  obtain ⟨_, hnone, ha⟩ := bind_eq_ok.mp ha
  obtain ⟨⟨q, data⟩, hgrant, hs⟩ := bind_eq_ok.mp ha
  obtain ⟨rfl, rfl⟩ := Prod.mk.inj (Except.ok.inj hs)
  have hempty : s.grants = [] := by simp [Segment.grants, of_check hnone]
  rw [hempty, List.nil_append] at h
  exact h.allocate hgrant

theorem Ledger.destroy (h : Ledger p (s.grants ++ other)) (hd : s.destroy p = .ok (p', s')) :
    Ledger p' other ∧ s'.grants = [] := by
  unfold Segment.destroy at hd
  cases hdata : s.mData with
  | none =>
    rw [hdata] at hd
    obtain ⟨rfl, rfl⟩ := Prod.mk.inj (Except.ok.inj hd)
    have hempty : s.grants = [] := by simp [Segment.grants, hdata]
    rw [hempty, List.nil_append] at h
    exact ⟨h, hempty⟩
  | some data =>
    rw [hdata] at hd
    obtain ⟨q, hq, hd⟩ := bind_eq_ok.mp hd
    obtain ⟨rfl, rfl⟩ := Prod.mk.inj (Except.ok.inj hd)
    have hone : s.grants = [(data, s.mLength)] := by simp [Segment.grants, hdata]
    rw [hone] at h
    have hacc := BigPool.Accounts.deallocate (g := (data, s.mLength)) h.accounts hq
    have hslot := h.slot
    obtain ⟨bits, rfl⟩ := BigPool.deallocate_eq hq
    exact ⟨⟨hacc, hslot⟩, rfl⟩

theorem Ledger.destroySegments {keep : Nat → Bool} : ∀ {segs segs' : List Segment} {i : Nat}
    {p p' : BigPool} {other : List (Nat × Nat)},
    Ledger p (segs.flatMap Segment.grants ++ other) →
    DevDax.destroySegments keep i p segs = .ok (p', segs') →
    Ledger p' (segs'.flatMap Segment.grants ++ other) ∧
      ((∀ i, keep i = false) → segs'.flatMap Segment.grants = []) := by
  intro segs
  induction segs with
  | nil =>
    intro segs' i p p' other h hd
    obtain ⟨rfl, rfl⟩ := Prod.mk.inj (Except.ok.inj hd)
    exact ⟨h, fun _ => rfl⟩
  | cons s segs ih =>
    intro segs' i p p' other h hd
    unfold DevDax.destroySegments at hd
    obtain ⟨⟨q, t⟩, ht, hd⟩ := bind_eq_ok.mp hd
    obtain ⟨⟨q', segs''⟩, hrest, hd⟩ := bind_eq_ok.mp hd
    obtain ⟨rfl, rfl⟩ := Prod.mk.inj (Except.ok.inj hd)
    rw [List.flatMap_cons, List.append_assoc] at h
    have hhead : Ledger q (t.grants ++ (segs.flatMap Segment.grants ++ other)) ∧
        (keep i = false → t.grants = []) := by
      unfold Segment.destroyUnless at ht
      by_cases hk : keep i = true
      · rw [if_pos hk] at ht
        obtain ⟨rfl, rfl⟩ := Prod.mk.inj (Except.ok.inj ht)
        exact ⟨h, fun hf => absurd (hk.symm.trans hf) (by simp)⟩
      · rw [if_neg hk] at ht
        obtain ⟨hl, hempty⟩ := h.destroy ht
        rw [hempty]
        exact ⟨hl, fun _ => rfl⟩
    obtain ⟨hl, hempty⟩ := hhead
    have hswap := hl.perm (List.perm_append_comm_assoc _ _ _)
    obtain ⟨hl', hempty'⟩ := ih hswap hrest
    rw [List.flatMap_cons, List.append_assoc]
    refine ⟨hl'.perm (List.perm_append_comm_assoc _ _ _), fun hk => ?_⟩
    rw [hempty (hk i), hempty' hk, List.nil_append]

theorem Ledger.release (h : Ledger p (f.grants ++ other)) (hr : f.release p = .ok (p', f')) :
    Ledger p' (f'.grants ++ other) := by
  obtain ⟨⟨q, segs⟩, hd, hr⟩ := bind_eq_ok.mp hr
  obtain ⟨rfl, rfl⟩ := Prod.mk.inj (Except.ok.inj hr)
  exact (h.destroySegments hd).1

theorem segment_ok {id : Nat} (h : f.segment id = .ok s) : f.segments[id]? = some s := by
  unfold File.segment at h
  cases hs : f.segments[id]? with
  | none =>
    rw [hs] at h
    cases h
  | some t =>
    rw [hs] at h
    rw [Except.ok.inj h]

theorem linkSegments_keeps {sl : List Nat} : ∀ {f : File}, f.linkSegments sl = .ok f' →
    f'.segments = f.segments := by
  induction sl with
  | nil =>
    intro f h
    obtain rfl := Except.ok.inj h
    rfl
  | cons id sl ih =>
    intro f h
    unfold File.linkSegments at h
    rw [List.foldlM_cons] at h
    obtain ⟨g, hg, h⟩ := bind_eq_ok.mp h
    obtain ⟨s, hs, hg⟩ := bind_eq_ok.mp hg
    obtain rfl := Except.ok.inj hg
    have hsegs := ih h
    exact hsegs

theorem linkSegments_grants {sl : List Nat} (h : f.linkSegments sl = .ok f') :
    f'.grants = f.grants := congrArg (List.flatMap Segment.grants) (linkSegments_keeps h)

theorem addSegment_grants (f : File) (s : Segment) :
    (f.addSegment s).1.grants = f.grants ++ s.grants := by
  simp [File.addSegment, File.grants]

/-- A gap holds no memory. -/
theorem addGap_grants (cfg : Settings) (f : File) (offset size : Int) :
    (f.addGap cfg offset size).1.grants = f.grants := by
  unfold File.addGap
  split_ifs
  · rw [addSegment_grants]
    exact List.append_nil _
  · rfl

section Calls
variable {cfg : Settings} {allocGaps : Bool} {rangeStart rangeEnd reqSize offset size : Int}
  {regions regions' : List Region}

theorem Ledger.allocateGap {id : Nat} {delta : Int} (h : Ledger p (f.grants ++ other))
    (hs : f.segments[id]? = some s)
    (ha : f.allocateGap cfg p id s rangeStart reqSize = .ok (p', f', s', delta)) :
    Ledger p' (f'.grants ++ other) := by
  obtain ⟨⟨q, t⟩, ht, ha⟩ := bind_eq_ok.mp ha
  dsimp only at ha
  obtain ⟨g, hg, ha⟩ := bind_eq_ok.mp ha
  obtain ⟨⟨q', g'⟩, hr, ha⟩ := bind_eq_ok.mp ha
  simp only [pure_eq_ok, Except.ok.injEq, Prod.mk.injEq] at ha
  obtain ⟨rfl, rfl, _⟩ := ha
  obtain ⟨rest, hold, hnew⟩ := perm_flatMap_set Segment.grants hs
  have hl := h.perm (hold.append_right other)
  rw [List.append_assoc] at hl
  have hl' := hl.segmentAllocate ht
  rw [← List.append_assoc] at hl'
  have hset : Ledger q ((f.setSegment id t).grants ++ other) :=
    hl'.perm ((hnew t).symm.append_right other)
  refine Ledger.release ?_ hr
  rw [linkSegments_grants hg, addGap_grants, addGap_grants]
  exact hset

theorem Ledger.segmentFor {id : Nat} {delta : Int} (h : Ledger p (f.grants ++ other))
    (hs : f.segments[id]? = some s)
    (ha : f.segmentFor cfg allocGaps p id s rangeStart reqSize = .ok (p', f', s', delta)) :
    Ledger p' (f'.grants ++ other) := by
  unfold File.segmentFor at ha
  split_ifs at ha
  · exact h.allocateGap hs ha
  · simp only [pure_eq_ok, Except.ok.injEq, Prod.mk.injEq] at ha
    obtain ⟨rfl, rfl, _⟩ := ha
    exact h

/-- Induction over the rounds of the lookup. -/
theorem Ledger.lookupLoop : ∀ {fuel : Nat} {p : BigPool} {f : File} {leaf : Leaf}
    {rangeStart reqSize : Int} {regions : List Region}, Ledger p (f.grants ++ other) →
    f.lookupLoop cfg allocGaps rangeEnd fuel p leaf rangeStart reqSize regions =
      .ok (p', f', regions') → Ledger p' (f'.grants ++ other) := by
  intro fuel
  induction fuel with
  | zero =>
    intro p f leaf rangeStart reqSize regions _ h
    cases h
  | succ fuel ih =>
    intro p f leaf rangeStart reqSize regions hl h
    unfold File.lookupLoop at h
    cases hv : leaf.val with
    | none =>
      rw [hv] at h
      simp only [pure_eq_ok, Except.ok.injEq, Prod.mk.injEq] at h
      obtain ⟨rfl, rfl, _⟩ := h
      exact hl
    | some id =>
      rw [hv] at h
      obtain ⟨s, hs, h⟩ := bind_eq_ok.mp h
      obtain ⟨_, _, h⟩ := bind_eq_ok.mp h
      obtain ⟨⟨q, g, t, delta⟩, hseg, h⟩ := bind_eq_ok.mp h
      have hl' := hl.segmentFor (segment_ok hs) hseg
      dsimp only at h
      split at h
      · simp only [pure_eq_ok, Except.ok.injEq, Prod.mk.injEq] at h
        obtain ⟨rfl, rfl, _⟩ := h
        exact hl'
      · split at h
        · cases h
        · exact ih hl' h

theorem Ledger.lookupSegments (h : Ledger p (f.grants ++ other))
    (hk : f.lookupSegments cfg p rangeStart rangeEnd = .ok (p', f', regions')) :
    Ledger p' (f'.grants ++ other) := by
  obtain ⟨_, _, hk⟩ := bind_eq_ok.mp hk
  obtain ⟨_, _, hk⟩ := bind_eq_ok.mp hk
  unfold File.lookupHelper at hk
  split_ifs at hk
  · simp only [pure_eq_ok, Except.ok.injEq, Prod.mk.injEq] at hk
    obtain ⟨rfl, rfl, _⟩ := hk
    exact h
  · split at hk
    · cases hk
    · exact h.lookupLoop hk

theorem Ledger.extendAlloc (h : Ledger p (f.grants ++ other))
    (he : f.extendAlloc cfg p offset size regions = .ok (p', f', regions')) :
    Ledger p' (f'.grants ++ other) := by
  obtain ⟨_, _, he⟩ := bind_eq_ok.mp he
  obtain ⟨_, _, he⟩ := bind_eq_ok.mp he
  dsimp only at he
  obtain ⟨⟨q, t⟩, ht, he⟩ := bind_eq_ok.mp he
  dsimp only at he
  obtain ⟨g, hg, he⟩ := bind_eq_ok.mp he
  obtain ⟨⟨q', g'⟩, hr, he⟩ := bind_eq_ok.mp he
  simp only [pure_eq_ok, Except.ok.injEq, Prod.mk.injEq] at he
  obtain ⟨rfl, rfl, _⟩ := he
  have hnew := h.new ht
  have hgrants : g.grants = f.grants ++ t.grants := by
    rw [linkSegments_grants hg, addSegment_grants, addGap_grants]
    rfl
  have hlink : Ledger q (g.grants ++ other) := by
    rw [hgrants, List.append_assoc]
    exact hnew.perm (List.perm_append_comm_assoc _ _ _)
  have hrel := hlink.release hr
  exact hrel

theorem Ledger.fetchStorage (h : Ledger p (f.grants ++ other))
    (hf : f.fetchStorage cfg p offset size = .ok (p', f', regions')) :
    Ledger p' (f'.grants ++ other) := by
  unfold File.fetchStorage at hf
  split_ifs at hf
  · exact h.lookupSegments hf
  · obtain ⟨_, _, hf⟩ := bind_eq_ok.mp hf
    obtain ⟨⟨q, g, rs⟩, hg, hf⟩ := bind_eq_ok.mp hf
    refine Ledger.extendAlloc ?_ hf
    unfold File.lookupAllocated at hg
    split_ifs at hg
    · exact h.lookupSegments hg
    · simp only [pure_eq_ok, Except.ok.injEq, Prod.mk.injEq] at hg
      obtain ⟨rfl, rfl, _⟩ := hg
      exact h

theorem updateSize_grants (f : File) (n : Int) : (f.updateSize n).grants = f.grants := by
  unfold File.updateSize
  split_ifs <;> rfl

theorem Ledger.fileAllocate (h : Ledger p (f.grants ++ other))
    (ha : f.allocate cfg p offset size = .ok (p', f')) : Ledger p' (f'.grants ++ other) := by
  obtain ⟨⟨q, g, rs⟩, hg, ha⟩ := bind_eq_ok.mp ha
  obtain ⟨rfl, rfl⟩ := Prod.mk.inj (Except.ok.inj ha)
  rw [updateSize_grants]
  exact h.fetchStorage hg

end Calls

section Device
variable {β : Type} {d d' : Device β}

theorem store_mBpool {addr : Option Int} {bytes : List β} (h : d.store addr bytes = .ok d') :
    d'.mBpool = d.mBpool := by
  unfold Device.store at h
  split at h
  · rw [← Except.ok.inj h]
  · cases h
  · split_ifs at h
    rw [← Except.ok.inj h]

theorem copyIn_mBpool {regions : List Region} : ∀ {d : Device β} {buffer : List β},
    d.copyIn regions buffer = .ok d' → d'.mBpool = d.mBpool := by
  induction regions with
  | nil =>
    intro d buffer h
    rw [← Except.ok.inj h]
  | cons r regions ih =>
    intro d buffer h
    unfold Device.copyIn at h
    obtain ⟨e, he, h⟩ := bind_eq_ok.mp h
    rw [ih h, store_mBpool he]

theorem Ledger.putData {cfg : Settings} {start : Int} {buffer : List β}
    (h : Ledger d.mBpool (f.grants ++ other))
    (hp : f.putData cfg d start buffer = .ok (d', f')) :
    Ledger d'.mBpool (f'.grants ++ other) := by
  obtain ⟨⟨q, g, rs⟩, hg, hp⟩ := bind_eq_ok.mp hp
  obtain ⟨e, he, hp⟩ := bind_eq_ok.mp hp
  obtain ⟨rfl, rfl⟩ := Prod.mk.inj (Except.ok.inj hp)
  rw [updateSize_grants, copyIn_mBpool he]
  exact h.fetchStorage hg

theorem setSegment_grants {id : Nat} (hs : f.segments[id]? = some s)
    (hg : s'.grants = s.grants) : (f.setSegment id s').grants.Perm f.grants := by
  obtain ⟨rest, hold, hnew⟩ := perm_flatMap_set Segment.grants hs
  have hset := hnew s'
  rw [hg] at hset
  exact hset.trans hold.symm

/-- The loop of `truncate` meets no segment with memory behind the one it cuts. -/
def DropsNoMemory (endOffset : Int) : List Leaf → Int → Bool → File → Prop
  | [], _, _, _ => True
  | leaf :: rest, size, cut, f =>
    match leaf.val with
    | none => DropsNoMemory endOffset rest size cut f
    | some id => ∀ s, f.segments[id]? = some s →
      let size := size + if s.mBytes ≠ 0 then s.mBytes else s.mSize
      if size > endOffset then
        if cut = false then
          DropsNoMemory endOffset rest size true (f.setSegment id { s with mBytes := size - endOffset })
        else
          s.mData = none ∧ DropsNoMemory endOffset rest size cut
            (f.setSegment id { s with mData := none, mIsGap := true })
      else
        DropsNoMemory endOffset rest size cut f

theorem pmemUnmap_mBpool (taskSize : Nat) (d : Device β) (addr : Option Nat) (length : Nat) :
    (d.pmemUnmap taskSize addr length).mBpool = d.mBpool := by
  unfold Device.pmemUnmap
  dsimp only
  split_ifs <;> rfl

theorem shrinkLoop_grants {cfg : Settings} {endOffset : Int} {leaves : List Leaf} :
    ∀ {size : Int} {cut : Bool} {d : Device β} {f : File}, DropsNoMemory endOffset leaves size cut f →
    f.shrinkLoop cfg endOffset leaves size cut d = .ok (d', f') →
    d'.mBpool = d.mBpool ∧ f'.grants.Perm f.grants := by
  induction leaves with
  | nil =>
    intro size cut d f _ h
    obtain ⟨rfl, rfl⟩ := Prod.mk.inj (Except.ok.inj h)
    exact ⟨rfl, .refl _⟩
  | cons leaf rest ih =>
    intro size cut d f hk h
    unfold File.shrinkLoop at h
    unfold DropsNoMemory at hk
    cases hv : leaf.val with
    | none =>
      rw [hv] at h hk
      exact ih hk h
    | some id =>
      rw [hv] at h hk
      obtain ⟨s, hs, h⟩ := bind_eq_ok.mp h
      have hs := segment_ok hs
      have hk := hk s hs
      dsimp only at hk h
      generalize (size + if s.mBytes ≠ 0 then s.mBytes else s.mSize) = total at hk h
      split_ifs at hk h with hgt hcut
      · obtain ⟨hpool, hperm⟩ := ih hk h
        exact ⟨hpool, hperm.trans (setSegment_grants hs rfl)⟩
      · obtain ⟨hpool, hperm⟩ := ih hk.2 h
        refine ⟨hpool.trans (pmemUnmap_mBpool _ _ _ _), hperm.trans (setSegment_grants hs ?_)⟩
        simp [Segment.grants, hk.1]
      · exact ih hk h

theorem Ledger.truncate {cfg : Settings} {endOffset : Int}
    (h : Ledger d.mBpool (f.grants ++ other))
    (hk : endOffset % 2 ^ 32 ≤ f.stSize % 2 ^ 32 → DropsNoMemory endOffset f.mSegments 0 false f)
    (ht : f.truncate cfg d endOffset = .ok (d', f')) : Ledger d'.mBpool (f'.grants ++ other) := by
  unfold File.truncate at ht
  split_ifs at ht with hgt
  · obtain ⟨⟨q, g⟩, hg, ht⟩ := bind_eq_ok.mp ht
    obtain ⟨rfl, rfl⟩ := Prod.mk.inj (Except.ok.inj ht)
    exact h.fileAllocate hg
  · obtain ⟨⟨e, g⟩, hg, ht⟩ := bind_eq_ok.mp ht
    obtain ⟨rfl, rfl⟩ := Prod.mk.inj (Except.ok.inj ht)
    obtain ⟨hpool, hperm⟩ := shrinkLoop_grants (hk (not_lt.mp hgt)) hg
    rw [hpool]
    exact h.perm (hperm.symm.append_right other)

theorem Ledger.preload [Zero β] {content : List β} (h : Ledger d.mBpool other)
    (hp : File.preload d content = .ok (d', f')) : Ledger d'.mBpool (f'.grants ++ other) := by
  obtain ⟨⟨q, s⟩, hs, hp⟩ := bind_eq_ok.mp hp
  dsimp only at hp
  obtain ⟨g, hg, hp⟩ := bind_eq_ok.mp hp
  obtain ⟨e, he, hp⟩ := bind_eq_ok.mp hp
  obtain ⟨e', he', hp⟩ := bind_eq_ok.mp hp
  obtain ⟨rfl, rfl⟩ := Prod.mk.inj (Except.ok.inj hp)
  have hsegs : g.segments = [s] := linkSegments_keeps hg
  have hseg : g.segments[0]? = some s := by rw [hsegs]; rfl
  have hperm : (g.setSegment 0 { s with mBytes := content.length }).grants.Perm g.grants :=
    setSegment_grants hseg rfl
  have hgrants : g.grants = s.grants := by
    unfold File.grants
    rw [hsegs]
    exact List.append_nil _
  rw [hgrants] at hperm
  rw [store_mBpool he', store_mBpool he]
  exact (h.new hs).perm (hperm.symm.append_right other)

theorem Ledger.fileDestroy (h : Ledger p (f.grants ++ other)) (hd : f.destroy p = .ok p') :
    Ledger p' other := by
  obtain ⟨⟨q, segs⟩, hs, hd⟩ := bind_eq_ok.mp hd
  obtain rfl := Except.ok.inj hd
  obtain ⟨hl, hempty⟩ := h.destroySegments hs
  rwa [hempty fun _ => rfl, List.nil_append] at hl

end Device

/-! Runs of the backend. -/

section Runs
variable {β : Type} [Zero β] {cfg : Settings} {sys sys' : System β} {op : Op β}

/-- The state after the allocator mapped the device; the memory is what it was. -/
def System.Init (cfg : Settings) (sys : System β) : Prop :=
  sys.files = [] ∧ (∃ address length,
    BigPool.init address length cfg.segmentSize = .ok sys.device.mBpool) ∧
    ∀ x, sys.device.unmapped x = false

def System.Step (cfg : Settings) (sys : System β) (op : Op β) (sys' : System β) : Prop :=
  ∃ out, sys.exec cfg op = .ok (sys', out)

/-- The set bits are the slots granted to the live pools that hold memory, and no
bit is set once all files are gone. -/
def System.SlotsAccounted (sys : System β) : Prop :=
  (∀ pos, sys.device.mBpool.mBitset pos = true ↔
    ∃ g ∈ sys.grants, (sys.device.mBpool.slots g).contains pos = true) ∧
  ((∀ o ∈ sys.files, o = none) → ∀ pos, sys.device.mBpool.mBitset pos = false)

/-- The mapping has a slot, and a truncate to a smaller size meets no segment with
memory behind the one it cuts. -/
def KeepsSlots (sys : System β) (op : Op β) : Prop :=
  sys.device.mBpool.mSizeOfSegment ≤ sys.device.mBpool.mLength ∧
    ∀ i endOffset f, op = .truncate i endOffset → sys.file i = .ok f →
      endOffset % 2 ^ 32 ≤ f.stSize % 2 ^ 32 → DropsNoMemory endOffset f.mSegments 0 false f

omit [Zero β] in
theorem file_ok {i : Nat} (h : sys.file i = .ok f) : sys.files[i]? = some (some f) := by
  unfold System.file at h
  split at h
  · next g hg => rw [hg, Except.ok.inj h]
  · cases h

omit [Zero β] in
theorem exists_others {i : Nat} (h : sys.file i = .ok f) :
    ∃ other, sys.grants.Perm (f.grants ++ other) ∧ ∀ (d : Device β) (o : Option File),
      (System.grants ⟨d, sys.files.set i o⟩).Perm (o.elim [] File.grants ++ other) := by
  obtain ⟨other, hold, hnew⟩ :=
    perm_flatMap_set (fun o : Option File => o.elim [] File.grants) (file_ok h)
  exact ⟨other, hold, fun _ o => hnew o⟩

omit [Zero β] in
theorem grants_add (d : Device β) (files : List (Option File)) (f : File) :
    System.grants ⟨d, files ++ [some f]⟩ = System.grants ⟨d, files⟩ ++ f.grants := by
  simp [System.grants]

theorem Ledger.exec {out : Option (Nat × ReadResult β)} (h : Ledger sys.device.mBpool sys.grants)
    (hk : ∀ i endOffset f, op = .truncate i endOffset → sys.file i = .ok f →
      endOffset % 2 ^ 32 ≤ f.stSize % 2 ^ 32 → DropsNoMemory endOffset f.mSegments 0 false f)
    (he : sys.exec cfg op = .ok (sys', out)) : Ledger sys'.device.mBpool sys'.grants := by
  cases op with
  | create i =>
    obtain ⟨_, _, he⟩ := bind_eq_ok.mp he
    obtain ⟨rfl, _⟩ := Prod.mk.inj (Except.ok.inj he)
    rw [grants_add]
    exact h.perm (by simp [File.grants, File.create, System.grants])
  | preload i content =>
    obtain ⟨_, _, he⟩ := bind_eq_ok.mp he
    obtain ⟨⟨d, f⟩, hf, he⟩ := bind_eq_ok.mp he
    obtain ⟨rfl, _⟩ := Prod.mk.inj (Except.ok.inj he)
    rw [grants_add]
    exact (h.preload hf).perm List.perm_append_comm
  | putData i start buffer =>
    obtain ⟨f, hf, he⟩ := bind_eq_ok.mp he
    obtain ⟨⟨d, g⟩, hg, he⟩ := bind_eq_ok.mp he
    obtain ⟨rfl, _⟩ := Prod.mk.inj (Except.ok.inj he)
    obtain ⟨other, hold, hnew⟩ := exists_others hf
    exact ((h.perm hold).putData hg).perm (hnew d (some g)).symm
  | allocate i start size =>
    obtain ⟨f, hf, he⟩ := bind_eq_ok.mp he
    obtain ⟨⟨q, g⟩, hg, he⟩ := bind_eq_ok.mp he
    obtain ⟨rfl, _⟩ := Prod.mk.inj (Except.ok.inj he)
    obtain ⟨other, hold, hnew⟩ := exists_others hf
    exact ((h.perm hold).fileAllocate hg).perm (hnew _ (some g)).symm
  | truncate i endOffset =>
    obtain ⟨f, hf, he⟩ := bind_eq_ok.mp he
    obtain ⟨⟨d, g⟩, hg, he⟩ := bind_eq_ok.mp he
    obtain ⟨rfl, _⟩ := Prod.mk.inj (Except.ok.inj he)
    obtain ⟨other, hold, hnew⟩ := exists_others hf
    exact ((h.perm hold).truncate (hk i endOffset f rfl hf) hg).perm (hnew d (some g)).symm
  | getData i start size =>
    obtain ⟨f, hf, he⟩ := bind_eq_ok.mp he
    obtain ⟨r, hr, he⟩ := bind_eq_ok.mp he
    obtain ⟨rfl, _⟩ := Prod.mk.inj (Except.ok.inj he)
    exact h
  | destroy i =>
    obtain ⟨f, hf, he⟩ := bind_eq_ok.mp he
    obtain ⟨q, hq, he⟩ := bind_eq_ok.mp he
    obtain ⟨rfl, _⟩ := Prod.mk.inj (Except.ok.inj he)
    obtain ⟨other, hold, hnew⟩ := exists_others hf
    exact ((h.perm hold).fileDestroy hq).perm (hnew _ none).symm

theorem accounts_step (h : sys.device.mBpool.Accounts sys.grants)
    (hs : Guarded (System.Step cfg) KeepsSlots sys op sys') :
    sys'.device.mBpool.Accounts sys'.grants := by
  obtain ⟨⟨hle, hk⟩, out, he⟩ := hs
  have hslot : 0 < sys.device.mBpool.mNvmlMappings := by
    rw [h.mappings]
    exact Nat.div_pos hle h.pos
  exact (Ledger.exec ⟨h, hslot⟩ hk he).accounts

omit [Zero β] in
theorem slotsAccounted_of_accounts (h : sys.device.mBpool.Accounts sys.grants) :
    sys.SlotsAccounted := by
  have hbits : ∀ pos, sys.device.mBpool.mBitset pos = true ↔
      ∃ g ∈ sys.grants, (sys.device.mBpool.slots g).contains pos = true := by
    intro pos
    rw [h.covers.bit_iff]
    simp
  refine ⟨hbits, fun hnone pos => ?_⟩
  have hempty : sys.grants = [] := by
    unfold System.grants
    rw [List.flatMap_eq_nil_iff]
    intro o ho
    rw [hnone o ho]
    rfl
  by_contra hset
  obtain ⟨g, hg, _⟩ := (hbits pos).mp (by simpa using hset)
  rw [hempty] at hg
  cases hg

theorem slots_accounted (h : Reach (System.Init cfg) (Guarded (System.Step cfg) KeepsSlots) sys) :
    sys.SlotsAccounted := by
  refine slotsAccounted_of_accounts (h.invariant
    (I := fun sys => sys.device.mBpool.Accounts sys.grants) (fun s hs => ?_)
    fun _ _ _ hs hstep => accounts_step hs hstep)
  obtain ⟨hfiles, ⟨_, _, hinit⟩, _⟩ := hs
  have hempty : s.grants = [] := by
    unfold System.grants
    rw [hfiles]
    rfl
  rw [hempty]
  exact BigPool.accounts_init hinit

end Runs

def Settings.default : Settings := ⟨.default, 100, fun _ => 0, 2 ^ 47 - 4096⟩

def emptySystem : System UInt8 :=
  ⟨⟨⟨fun _ => false, 0, 2 ^ 40, 600 * 2 ^ 30, 2 ^ 27, 4800⟩, fun _ => 0, fun _ => false⟩, []⟩

theorem emptySystem_init : emptySystem.Init .default :=
  ⟨rfl, ⟨2 ^ 40, 600 * 2 ^ 30, rfl⟩, fun _ => rfl⟩

theorem keepsSlots_of_ne {op : Op UInt8} {sys : System UInt8}
    (hle : sys.device.mBpool.mSizeOfSegment ≤ sys.device.mBpool.mLength)
    (hop : ∀ i endOffset, op ≠ .truncate i endOffset) : KeepsSlots sys op :=
  ⟨hle, fun i endOffset _ he => absurd he (hop i endOffset)⟩

/-- A file of one segment is cut to size 0 and destroyed. -/
theorem slots_accounted_cut : ∃ sys : System UInt8, sys.files = [none] ∧ sys.SlotsAccounted := by
  refine ⟨_, ?_, slots_accounted
    (.next (e := .destroy 0) (.next (e := .truncate 0 0)
      (.next (e := .allocate 0 0 (2 ^ 27)) (.next (e := .create 0) (.start emptySystem_init)
        ⟨keepsSlots_of_ne (by decide) (by simp), none, rfl⟩)
      ⟨keepsSlots_of_ne (by decide) (by simp), none, rfl⟩)
      ⟨⟨by decide, fun i endOffset f hop hf _ => ?_⟩, none, rfl⟩)
      ⟨keepsSlots_of_ne (by decide) (by simp), none, rfl⟩)⟩
  · rfl
  · obtain ⟨rfl, rfl⟩ := Op.truncate.inj hop
    obtain rfl := Except.ok.inj hf
    intro s hs
    obtain rfl := Option.some.inj hs
    trivial

/-- A truncate that drops a segment with memory leaves its slot taken for good. -/
theorem truncate_leaks_slot : ∃ sys : System UInt8,
    Reach (System.Init .default) (System.Step .default) sys ∧ sys.files = [none] ∧
      sys.device.mBpool.mBitset 2 = true ∧ ¬ sys.SlotsAccounted := by
  refine ⟨_, .next (e := .destroy 0) (.next (e := .truncate 0 0)
    (.next (e := .allocate 0 0 (300 * 2 ^ 20)) (.next (e := .allocate 0 0 (2 ^ 27))
    (.next (e := .create 0) (.start emptySystem_init)
    ⟨none, rfl⟩) ⟨none, rfl⟩) ⟨none, rfl⟩) ⟨none, rfl⟩) ⟨none, rfl⟩, rfl, rfl, fun h => ?_⟩
  have hclear := h.2 (fun o ho => List.mem_singleton.mp ho) 2
  cases hclear

end EchoFs.DevDax
