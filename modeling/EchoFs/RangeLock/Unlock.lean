import EchoFs.RangeLock.Lock

/-! One call of `unlock_range`: the entry of the handle is removed, or every
proxy of its range loses a reference. -/

namespace EchoFs.RangeLock
open Checked Slots

abbrev Tiles (a b : Int) (l : List Node) : Prop :=
  Intervals.Tiles (fun n : Node => n.data.mStart) (fun n => n.data.mEnd) a b l

theorem tiles_cons {a b : Int} {n : Node} {l : List Node} :
    Tiles a b (n :: l) ↔ n.data.mStart = a ∧ a < n.data.mEnd ∧ Tiles n.data.mEnd b l := Iff.rfl

/-- The proxies that stay after their last-but-one reference is given back. -/
def released (M : List Node) : List Node :=
  (M.filter fun n => n.data.mRefs ≠ 1).map fun n =>
    ⟨n.addr, { n.data with mRefs := n.data.mRefs - 1 }⟩

/-- The notifications for the proxies that are removed. -/
def releaseSignals (M : List Node) : List Signal :=
  (M.filter fun n => n.data.mRefs = 1).flatMap fun n => wakeUps n.addr n.data

/-- The proxies that are removed. -/
def freed (M : List Node) : Nat := M.countP fun n => n.data.mRefs = 1

/-- `remove_node` finds a positive counter each time, when it takes out `k` of `n` entries. -/
def CountsDown (n k : Nat) : Prop := ∀ j < k, (n - j) % 2 ^ 32 ≠ 0

instance (n k : Nat) : Decidable (CountsDown n k) :=
  inferInstanceAs (Decidable (∀ j < k, (n - j) % 2 ^ 32 ≠ 0))

/-- What a call of `unlock_range` may do. -/
inductive UnlockStep (h : Handle) (t : Table) : Table × List Signal → Prop
  | own {t' : Table} {L R : List Node} {n : Node} (hptr : h.ptr = some n.addr)
      (hn : t.nodes = L ++ n :: R) (hA : t'.AddrOk) (hr : t'.removed = t.removed)
      (hn' : t'.nodes = L ++ R) : UnlockStep h t (t', wakeUps n.addr n.data)
  | proxies {t' : Table} {L M R : List Node} (hptr : ∀ n ∈ t.nodes, h.ptr ≠ some n.addr)
      (hn : t.nodes = L ++ M ++ R) (ht : Tiles h.rq.start h.rq.stop M)
      (hM : ∀ m ∈ M, m.data.mIsProxy = true) (hA : t'.AddrOk)
      (hr : ∀ m, m ∈ t'.removed ↔ m ∈ t.removed ∧ h.ptr ≠ some m.addr)
      (hn' : t'.nodes = L ++ released M ++ R) : UnlockStep h t (t', releaseSignals M)

section Unlock
variable {t : Table} {L R M : List Node} {n : Node}

theorem countsDown_succ {n k : Nat} :
    CountsDown n (k + 1) ↔ n % 2 ^ 32 ≠ 0 ∧ CountsDown (n - 1) k := by
  constructor
  · refine fun h => ⟨h 0 (Nat.succ_pos k), fun j hj => ?_⟩
    rw [Nat.sub_sub, Nat.add_comm]
    exact h (j + 1) (Nat.succ_lt_succ hj)
  · rintro ⟨h₀, h⟩ j hj
    rcases j with _ | j
    · exact h₀
    · rw [Nat.add_comm, ← Nat.sub_sub]
      exact h j (Nat.lt_of_succ_lt_succ hj)

theorem countsDown_one {n : Nat} : CountsDown n 1 ↔ n % 2 ^ 32 ≠ 0 :=
  countsDown_succ.trans (and_iff_left fun _ hj => absurd hj (Nat.not_lt_zero _))

theorem freed_cons (n : Node) (M : List Node) :
    freed (n :: M) = freed M + if n.data.mRefs = 1 then 1 else 0 := by
  simp [freed, List.countP_cons]

theorem dropEntry_spec (hA : t.AddrOk) (hn : t.nodes = L ++ n :: R) (r : Range)
    (hc : t.nodes.length % 2 ^ 32 ≠ 0) :
    ∃ t', dropEntry t n.addr r = .ok (t', wakeUps n.addr r) ∧ t'.AddrOk ∧
      t'.removed = t.removed ∧ t'.nodes = L ++ R := by
  have hno := hA.notMem_removed (show n ∈ t.nodes by simp [hn])
  have hA' := (hA.removeNode hn).delete n.addr
  simp only [dropEntry, Table.removeNode_node hA hn hc, ok_bind, pure_eq_ok]
  refine ⟨_, rfl, hA', ?_, rfl⟩
  have hcons : erase (n :: t.removed) n.addr = erase t.removed n.addr := by simp [erase]
  simp only [Table.delete]
  rw [hcons, erase_of_notMem hno]

theorem dropEntry_wrapped (hc : t.nodes.length % 2 ^ 32 = 0) (a : Nat) (r : Range) :
    dropEntry t a r = .error .assertion := by
  simp only [dropEntry, Table.removeNode_wrapped hc, error_bind]

theorem mem_delete_removed {a : Nat} {m : Node} :
    m ∈ (t.delete a).removed ↔ m ∈ t.removed ∧ m.addr ≠ a := by
  simp [Table.delete, erase]

/-- The counter of `unlock_range_reader` holds the distance to the end. -/
theorem toSize_step {a b c : Int} :
    toSize ((toSize (a - c) : Nat) - (a - b)) = toSize (b - c) := by
  have h0 : 0 ≤ (a - c) % 2 ^ 64 := Int.emod_nonneg _ (by norm_num)
  simp only [toSize, Int.toNat_of_nonneg h0]
  congr 1
  rw [Int.emod_sub_emod]
  congr 1
  omega

theorem toSize_eq_zero {a b : Int} (h₁ : a ≤ b) (h₂ : b - a < 2 ^ 64) :
    toSize (a - b) = 0 ↔ a = b := by
  simp only [toSize]
  omega

theorem released_cons (n : Node) (M : List Node) :
    released (n :: M) = (if n.data.mRefs = 1 then [] else
      [⟨n.addr, { n.data with mRefs := n.data.mRefs - 1 }⟩]) ++ released M := by
  by_cases h : n.data.mRefs = 1 <;> simp [released, h]

theorem releaseSignals_cons (n : Node) (M : List Node) :
    releaseSignals (n :: M) =
      (if n.data.mRefs = 1 then wakeUps n.addr n.data else []) ++ releaseSignals M := by
  by_cases h : n.data.mRefs = 1 <;> simp [releaseSignals, h]

theorem mem_released {m : Node} : m ∈ released M ↔ ∃ n ∈ M, n.data.mRefs ≠ 1 ∧
    m = ⟨n.addr, { n.data with mRefs := n.data.mRefs - 1 }⟩ := by
  simp only [released, List.mem_map, List.mem_filter, decide_eq_true_eq, and_assoc]
  exact exists_congr fun n => and_congr_right fun _ => and_congr_right fun _ => eq_comm

theorem ordered_released (hO : Ordered (L ++ M ++ R)) : Ordered (L ++ released M ++ R) := by
  refine hO.of_sublist ?_
  simp only [List.map_append, released, List.map_map]
  exact ((List.filter_sublist.map _).append_left _).append_right _

theorem weightAt_released {a b : Int} (ht : Tiles a b M) (x : Int) :
    weightAt M x = weightAt (released M) x + if a ≤ x ∧ x < b then 1 else 0 := by
  induction M generalizing a with
  | nil =>
    have hab : a = b := ht
    rw [if_neg (by omega), add_zero]
    rfl
  | cons n M ih =>
    obtain ⟨hs, hlt, ht'⟩ := tiles_cons.mp ht
    have hle : n.data.mEnd ≤ b := Intervals.Tiles.le ht'
    have hrec := ih ht'
    rw [released_cons]
    simp only [weightAt, Intervals.weightAt_append, Intervals.weightAt] at hrec ⊢
    rw [hrec, hs]
    by_cases hone : n.data.mRefs = 1
    · rw [if_pos hone, hone]
      simp only [Intervals.weightAt]
      split_ifs <;> omega
    · rw [if_neg hone]
      simp only [Intervals.weightAt]
      split_ifs <;> omega

theorem Request.length_lt (rq : Request) : rq.stop - rq.start < 2 ^ 64 := by
  have h₁ := rq.lower
  have h₂ := rq.upper
  norm_num at h₁ h₂ ⊢
  omega

/-- The next proxy is looked up before this one can go away. -/
theorem nextRange_spec {b : Int} (hA : t.AddrOk) (hn : t.nodes = L ++ n :: (M ++ R))
    (ht : Tiles n.data.mEnd b M) (hlt : b - n.data.mEnd < 2 ^ 64)
    (hM : ∀ m ∈ M, m.data.mType = .reader ∧ 0 < m.data.mRefs) :
    nextRange t n.addr n.data (toSize (n.data.mEnd - b)) = .ok (M.head?.map Slot.addr) := by
  simp only [nextRange, Table.next_node hA hn]
  rcases M with _ | ⟨m, M⟩
  · have hab : n.data.mEnd = b := ht
    rw [if_pos (by simp [toSize, hab])]
    rfl
  · obtain ⟨hm, hmlen, ht'⟩ := tiles_cons.mp ht
    have hle : m.data.mEnd ≤ b := Intervals.Tiles.le ht'
    have hne : toSize (n.data.mEnd - b) ≠ 0 := fun h => by
      have := (toSize_eq_zero (by omega) hlt).mp h
      omega
    have hget : t.get m.addr = .ok m.data := Table.get_node hA (by simp [hn])
    obtain ⟨hmr, hmp⟩ := hM m List.mem_cons_self
    simp only [if_neg hne, List.cons_append, List.head?_cons, Option.map_some, hget, ok_bind,
      check_ok hm.symm, check_ok (show m.data.mRefs ≠ 0 by omega), check_ok hmr, pure_eq_ok]

/-- What one round of the loop finds at the first entry of the rest of the range. -/
theorem releaseRound {a b : Int} (hA : t.AddrOk) (hn : t.nodes = L ++ n :: (M ++ R))
    (ht : Tiles a b (n :: M)) (hlt : b - a < 2 ^ 64)
    (hM : ∀ m ∈ n :: M, m.data.mType = .reader ∧ 0 < m.data.mRefs) :
    t.get n.addr = .ok n.data ∧ ∃ k : Nat, toSize (a - b) = k + 1 ∧
      toSize ((k + 1 : Nat) - (n.data.mStart - n.data.mEnd)) = toSize (n.data.mEnd - b) ∧
      nextRange t n.addr n.data (toSize (n.data.mEnd - b)) = .ok (M.head?.map Slot.addr) ∧
      Tiles n.data.mEnd b M ∧ b - n.data.mEnd < 2 ^ 64 := by
  obtain ⟨hstart, hlen, ht'⟩ := tiles_cons.mp ht
  have hle : n.data.mEnd ≤ b := Intervals.Tiles.le ht'
  obtain ⟨k, hk⟩ : ∃ k, toSize (a - b) = k + 1 := by
    have hne : toSize (a - b) ≠ 0 := fun h => by
      have := (toSize_eq_zero (by omega) hlt).mp h
      omega
    exact ⟨toSize (a - b) - 1, by omega⟩
  have hstep : toSize (((k + 1 : Nat) : Int) - (n.data.mStart - n.data.mEnd)) =
      toSize (n.data.mEnd - b) := by
    rw [← hk, hstart]
    exact toSize_step
  have hnext := nextRange_spec hA hn ht' (by omega) fun m hm => hM m (List.mem_cons_of_mem _ hm)
  exact ⟨Table.get_node hA (by simp [hn]), k, hk, hstep, hnext, ht', by omega⟩

/-- The tables a round may go on with: the proxy stays, or it is gone. -/
theorem releaseNext (hA : t.AddrOk) (hn : t.nodes = L ++ n :: (M ++ R)) :
    let t₁ := t.modify n.addr fun r => { r with mRefs := r.mRefs - 1 }
    (t₁.AddrOk ∧ t₁.removed = t.removed ∧
      t₁.nodes = L ++ [⟨n.addr, { n.data with mRefs := n.data.mRefs - 1 }⟩] ++ M ++ R ∧
      t₁.nodes.length = t.nodes.length) ∧
    (t.nodes.length % 2 ^ 32 ≠ 0 → ∃ t₂, dropEntry t₁ n.addr n.data =
        .ok (t₂, wakeUps n.addr n.data) ∧ t₂.AddrOk ∧ t₂.removed = t.removed ∧
      t₂.nodes = L ++ M ++ R ∧ t₂.nodes.length = t.nodes.length - 1) ∧
    (t.nodes.length % 2 ^ 32 = 0 → dropEntry t₁ n.addr n.data = .error .assertion) := by
  obtain ⟨hA₁, hr₁, hn₁⟩ := Table.modify_spec hA (a := n.addr) (r := n.data) hn
    (fun r => { r with mRefs := r.mRefs - 1 })
  intro t₁
  have hlen : t₁.nodes.length = t.nodes.length := by
    rw [hn₁, hn]
    simp
  refine ⟨⟨hA₁, hr₁, by simp [t₁, hn₁], hlen⟩, fun hc => ?_, fun hc =>
    dropEntry_wrapped (by rw [hlen, hc]) _ _⟩
  obtain ⟨t₂, he, hA₂, hr₂, hn₂⟩ := dropEntry_spec hA₁ hn₁ n.data (by rwa [← hlen] at hc)
  refine ⟨t₂, he, hA₂, hr₂.trans hr₁, by rw [hn₂, List.append_assoc], ?_⟩
  rw [hn₂, hn]
  simp

/-- The loop of `unlock_range_reader` on the rest `M` of the range, from `a` to `b`. It ends in
the assertion of `remove_node` when the counter is zero at an entry that is freed. -/
theorem releaseLoop_spec {b : Int} (R : List Node) : ∀ (M : List Node) (fuel : Nat)
    (signals : List Signal) {a : Int} {L : List Node} {t : Table}, t.AddrOk → t.nodes = L ++ M ++ R →
    M.length < fuel → Tiles a b M → b - a < 2 ^ 64 →
    (∀ n ∈ M, n.data.mType = .reader ∧ 0 < n.data.mRefs) →
    (CountsDown t.nodes.length (freed M) →
      ∃ t', releaseLoop fuel t (toSize (a - b)) (M.head?.map Slot.addr) signals =
          .ok (t', signals ++ releaseSignals M) ∧ t'.AddrOk ∧ t'.removed = t.removed ∧
        t'.nodes = L ++ released M ++ R) ∧
    (¬CountsDown t.nodes.length (freed M) →
      releaseLoop fuel t (toSize (a - b)) (M.head?.map Slot.addr) signals =
        .error .assertion) := by
  intro M
  induction M with
  | nil =>
    intro fuel signals a L t hA hn hf ht _ _
    obtain ⟨f, rfl⟩ : ∃ f, fuel = f + 1 := ⟨fuel - 1, by simp at hf; omega⟩
    have hab : a = b := ht
    have hzero : toSize (a - b) = 0 := by simp [toSize, hab]
    refine ⟨fun _ => ⟨t, ?_, hA, rfl, by simpa [released] using hn⟩, fun hc =>
      absurd (fun j hj => absurd hj (Nat.not_lt_zero j)) hc⟩
    rw [hzero]
    simp [releaseLoop, releaseSignals]
  | cons n M ih =>
    intro fuel signals a L t hA hn hf ht hlt hM
    obtain ⟨f, rfl⟩ : ∃ f, fuel = f + 1 := ⟨fuel - 1, by simp at hf; omega⟩
    have hn' : t.nodes = L ++ n :: (M ++ R) := by simpa using hn
    obtain ⟨hget, k, hk, hstep, hnext, ht', hlt'⟩ := releaseRound hA hn' ht hlt hM
    have hM' : ∀ m ∈ M, m.data.mType = .reader ∧ 0 < m.data.mRefs := fun m hm =>
      hM m (List.mem_cons_of_mem _ hm)
    obtain ⟨⟨hA₁, hr₁, hn₁, hlen₁⟩, hdrop, hwrapped⟩ := releaseNext hA hn'
    have hf' : M.length < f := by
      rw [List.length_cons] at hf
      omega
    rw [hk]
    simp only [List.head?_cons, Option.map_some, releaseLoop, hget, ok_bind, hstep, hnext]
    rw [released_cons, releaseSignals_cons, freed_cons]
    by_cases hone : n.data.mRefs = 1
    · have hzero : n.data.mRefs - 1 = 0 := by omega
      rw [if_pos hzero, if_pos hone, if_pos hone, if_pos hone, countsDown_succ]
      by_cases hc : t.nodes.length % 2 ^ 32 = 0
      · exact ⟨fun hcount => absurd hc hcount.1, fun _ => by rw [hwrapped hc, error_bind]⟩
      · obtain ⟨t₂, hd, hA₂, hr₂, hn₂, hlen₂⟩ := hdrop hc
        obtain ⟨hok, hfails⟩ := ih f (signals ++ wakeUps n.addr n.data) hA₂ hn₂ hf' ht' hlt' hM'
        rw [hlen₂] at hok hfails
        simp only [hd, ok_bind]
        refine ⟨fun hcount => ?_, fun hcount => hfails fun hrest => hcount ⟨hc, hrest⟩⟩
        obtain ⟨t', he, hA', hr', hn'⟩ := hok hcount.2
        exact ⟨t', by simpa using he, hA', hr'.trans hr₂, by simpa using hn'⟩
    · have hpos := (hM n List.mem_cons_self).2
      have hne : ¬n.data.mRefs - 1 = 0 := by omega
      rw [if_neg hne, if_neg hone, if_neg hone, if_neg hone, Nat.add_zero]
      obtain ⟨hok, hfails⟩ := ih f signals hA₁ hn₁ hf' ht' hlt' hM'
      rw [hlen₁] at hok hfails
      refine ⟨fun hcount => ?_, hfails⟩
      obtain ⟨t', he, hA', hr', hn'⟩ := hok hcount
      exact ⟨t', by simpa using he, hA', hr'.trans hr₁, by simpa using hn'⟩

theorem unlockRange_own {h : Handle} (hOk : t.Ok) (hn : n ∈ t.nodes) (hptr : h.ptr = some n.addr) :
    (CountsDown t.nodes.length 1 → ∃ r, unlockRange t h = .ok r ∧ UnlockStep h t r) ∧
    (¬CountsDown t.nodes.length 1 → unlockRange t h = .error .assertion) := by
  obtain ⟨L, R, hLR⟩ := List.append_of_mem hn
  have hne : n.data.mRefs ≠ 0 := (hOk.entry n hn).refs_pos.ne'
  have hdrop : unlockRange t h = dropEntry t n.addr n.data := by
    simp only [unlockRange]
    cases h.rq.type
    · simp only [unlockRangeReader, hptr, Table.get_node hOk.addr hn, ok_bind, if_pos hne]
    · simp only [unlockRangeWriter, hptr, Table.get_node hOk.addr hn, ok_bind, check_ok hne]
  rw [countsDown_one, hdrop]
  refine ⟨fun hc => ?_, fun hc => dropEntry_wrapped (not_not.mp hc) _ _⟩
  obtain ⟨t', he, hA, hr, hn'⟩ := dropEntry_spec hOk.addr hLR n.data hc
  exact ⟨_, he, .own hptr hLR hA hr hn'⟩

theorem unlockProxies_spec {h : Handle} (hOk : t.Ok)
    (hptr : ∀ a, h.ptr = some a → ∃ m ∈ t.removed, m.addr = a) (hn : t.nodes = L ++ M ++ R)
    (ht : Tiles h.rq.start h.rq.stop M)
    (hM : ∀ m ∈ M, m.data.mType = .reader ∧ m.data.mIsProxy = true) :
    (CountsDown t.nodes.length (freed M) → ∃ r, unlockProxies t h = .ok r ∧ UnlockStep h t r) ∧
    (¬CountsDown t.nodes.length (freed M) → unlockProxies t h = .error .assertion) := by
  have hrefs : ∀ m ∈ M, m.data.mType = .reader ∧ 0 < m.data.mRefs := fun m hm =>
    ⟨(hM m hm).1, (hOk.entry m (by simp [hn, hm])).refs_pos⟩
  have hout : ∀ n ∈ t.nodes, h.ptr ≠ some n.addr := by
    intro n hmem he
    obtain ⟨m, hm, hmn⟩ := hptr _ he
    exact hOk.addr.notMem_removed hmem (hmn ▸ mem_addrs hm)
  rcases M with _ | ⟨n, M⟩
  · have hab : h.rq.start = h.rq.stop := ht
    exact absurd hab h.rq.lt.ne
  · obtain ⟨hstart, hlen, _⟩ := tiles_cons.mp ht
    have hn' : t.nodes = L ++ n :: (M ++ R) := by simpa using hn
    have hget : t.get n.addr = .ok n.data := Table.get_node hOk.addr (by simp [hn'])
    obtain ⟨hL, _⟩ := starts_lt_of_ordered (hn' ▸ hOk.ordered)
    have hfind := Table.find_at hn' fun m hm => (hL m hm).ne
    rw [hstart] at hfind
    obtain ⟨hok, hfails⟩ := releaseLoop_spec R (n :: M) (t.nodes.length + 1)
      [] hOk.addr hn
      (by rw [hn, List.length_append, List.length_append]; omega) ht h.rq.length_lt hrefs
    obtain ⟨hreader, hpos⟩ := hrefs n List.mem_cons_self
    simp only [List.head?_cons, Option.map_some, List.nil_append] at hok hfails
    simp only [unlockProxies, hfind, hget, ok_bind, check_ok hpos.ne', check_ok hreader,
      check_ok (hM n List.mem_cons_self).2]
    refine ⟨fun hc => ?_, fun hc => by rw [hfails hc, error_bind]⟩
    obtain ⟨t', he, hA', hr', hnodes'⟩ := hok hc
    simp only [he, ok_bind]
    cases hp : h.ptr with
    | none =>
      refine ⟨_, rfl, .proxies hout hn ht (fun m hm => (hM m hm).2) hA' (fun m => ?_) hnodes'⟩
      simp [hr', hp]
    | some a =>
      refine ⟨_, rfl, .proxies hout hn ht (fun m hm => (hM m hm).2) (hA'.delete a) (fun m => ?_) hnodes'⟩
      rw [mem_delete_removed, hr', hp]
      simp [eq_comm]

theorem unlockRange_proxies {h : Handle} (hOk : t.Ok) (htype : h.rq.type = .reader)
    (hptr : ∀ a, h.ptr = some a → ∃ m ∈ t.removed, m.addr = a) (hn : t.nodes = L ++ M ++ R)
    (ht : Tiles h.rq.start h.rq.stop M)
    (hM : ∀ m ∈ M, m.data.mType = .reader ∧ m.data.mIsProxy = true) :
    (CountsDown t.nodes.length (freed M) → ∃ r, unlockRange t h = .ok r ∧ UnlockStep h t r) ∧
    (¬CountsDown t.nodes.length (freed M) → unlockRange t h = .error .assertion) := by
  simp only [unlockRange, htype, unlockRangeReader]
  cases hp : h.ptr with
  | none => exact unlockProxies_spec hOk hptr hn ht hM
  | some a =>
    obtain ⟨m, hm, rfl⟩ := hptr a hp
    simp only [Table.get_removed hOk.addr hm, ok_bind, hOk.detached m hm, ne_eq, not_true_eq_false,
      if_false]
    exact unlockProxies_spec hOk hptr hn ht hM

end Unlock
end EchoFs.RangeLock
