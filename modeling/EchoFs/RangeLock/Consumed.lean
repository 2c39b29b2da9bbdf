import EchoFs.RangeLock.Manager

/-! What `unlock_range` leaves in `m_ptr`, which the destructor of the handle reads. A
descriptor that proxies have replaced is deleted at the end, whether or not a proxy of the
range was freed on the way, and only then is the pointer cleared. -/

namespace EchoFs.RangeLock
open Checked Slots Transition

/-- `rl.m_ptr` in the `while` loop of `unlock_range_reader`. -/
def releasePtr : Nat → Table → Nat → Ptr → Ptr → Result Ptr
  | 0, _, _, _, _ => .error .unfinished
  | _ + 1, _, 0, _, mPtr => return mPtr
  | _ + 1, _, _ + 1, none, _ => .error .badPointer
  | fuel + 1, t, len + 1, some pr, mPtr => do
    let p ← t.get pr
    let len := toSize ((len + 1 : Nat) - (p.mStart - p.mEnd))
    let next ← nextRange t pr p len
    let t := t.modify pr fun r => { r with mRefs := r.mRefs - 1 }
    if p.mRefs - 1 = 0 then
      let (t, _) ← dropEntry t pr p
      releasePtr fuel t len next none
    else
      releasePtr fuel t len next mPtr

def unlockProxiesPtr (t : Table) (h : Handle) : Result Ptr :=
  match (t.find h.rq.start).1 with
  | none => .error .assertion
  | some pr => do
    let p ← t.get pr
    check (p.mRefs ≠ 0)
    check (p.mType = .reader)
    check (p.mIsProxy = true)
    releasePtr (t.nodes.length + 1) t (toSize (h.rq.start - h.rq.stop)) (some pr) h.ptr

/-- `rl.m_ptr` after `unlock_range`; `unlockRange` has the table it leaves. -/
def unlockRangePtr (t : Table) (h : Handle) : Result Ptr :=
  match h.rq.type, h.ptr with
  | .writer, none => .error .assertion
  | .writer, some a => do
    let r ← t.get a
    check (r.mRefs ≠ 0)
    let _ ← dropEntry t a r
    return none
  | .reader, none => unlockProxiesPtr t h
  | .reader, some a => do
    let r ← t.get a
    if r.mRefs ≠ 0 then
      let _ ← dropEntry t a r
      return none
    else
      unlockProxiesPtr t h

/-- `~range_lock`. -/
def destroy (t : Table) (mPtr : Ptr) : Result Table :=
  match mPtr with
  | none => return t
  | some a => do
    let r ← t.get a
    if r.mRefs = 0 then
      return t.delete a
    else
      return t

section
variable {t : Table} {L M R : List Node} {n : Node} {h : Handle} {s : State}

/-- The loop clears the pointer just when it frees a proxy. It ends in the assertion of
`remove_node` when the counter is zero at one. -/
theorem releasePtr_spec {b : Int} (R : List Node) : ∀ (M : List Node) (fuel : Nat) (mPtr : Ptr)
    {a : Int} {L : List Node} {t : Table}, t.AddrOk → t.nodes = L ++ M ++ R →
    M.length < fuel → Tiles a b M → b - a < 2 ^ 64 →
    (∀ n ∈ M, n.data.mType = .reader ∧ 0 < n.data.mRefs) →
    (CountsDown t.nodes.length (freed M) →
      ∃ mPtr', releasePtr fuel t (toSize (a - b)) (M.head?.map Slot.addr) mPtr = .ok mPtr' ∧
        (mPtr' = none ↔ mPtr = none ∨ ∃ n ∈ M, n.data.mRefs = 1) ∧
        (mPtr' = none ∨ mPtr' = mPtr)) ∧
    (¬CountsDown t.nodes.length (freed M) →
      releasePtr fuel t (toSize (a - b)) (M.head?.map Slot.addr) mPtr = .error .assertion) := by
  intro M
  induction M with
  | nil =>
    intro fuel mPtr a L t _ _ hf ht _ _
    obtain ⟨f, rfl⟩ : ∃ f, fuel = f + 1 := ⟨fuel - 1, by simp at hf; omega⟩
    have hab : a = b := ht
    have hzero : toSize (a - b) = 0 := by simp [toSize, hab]
    rw [hzero]
    exact ⟨fun _ => ⟨mPtr, rfl, by simp, .inr rfl⟩, fun hc =>
      absurd (fun j hj => absurd hj (Nat.not_lt_zero j)) hc⟩
  | cons n M ih =>
    intro fuel mPtr a L t hA hn hf ht hlt hM
    obtain ⟨f, rfl⟩ : ∃ f, fuel = f + 1 := ⟨fuel - 1, by simp at hf; omega⟩
    have hn' : t.nodes = L ++ n :: (M ++ R) := by simpa using hn
    obtain ⟨hget, k, hk, hstep, hnext, ht', hlt'⟩ := releaseRound hA hn' ht hlt hM
    have hM' : ∀ m ∈ M, m.data.mType = .reader ∧ 0 < m.data.mRefs := fun m hm =>
      hM m (List.mem_cons_of_mem _ hm)
    have hf' : M.length < f := by
      rw [List.length_cons] at hf
      omega
    obtain ⟨⟨hA₁, -, hn₁, hlen₁⟩, hdrop, hwrapped⟩ := releaseNext hA hn'
    rw [hk]
    simp only [List.head?_cons, Option.map_some, releasePtr, hget, ok_bind, hstep, hnext,
      List.exists_mem_cons_iff]
    rw [freed_cons]
    by_cases hone : n.data.mRefs = 1
    · have hzero : n.data.mRefs - 1 = 0 := by omega
      rw [if_pos hzero, if_pos hone, countsDown_succ]
      by_cases hc : t.nodes.length % 2 ^ 32 = 0
      · exact ⟨fun hcount => absurd hc hcount.1, fun _ => by rw [hwrapped hc, error_bind]⟩
      · obtain ⟨t₂, hd, hA₂, -, hn₂, hlen₂⟩ := hdrop hc
        obtain ⟨hok, hfails⟩ := ih f none hA₂ hn₂ hf' ht' hlt' hM'
        rw [hlen₂] at hok hfails
        rw [hd, ok_bind]
        refine ⟨fun hcount => ?_, fun hcount => hfails fun hrest => hcount ⟨hc, hrest⟩⟩
        obtain ⟨mPtr', he, hnone, hsame⟩ := hok hcount.2
        have hclear : mPtr' = none := hsame.elim id id
        exact ⟨mPtr', he, iff_of_true hclear (.inr (.inl hone)), .inl hclear⟩
    · have hpos := (hM n List.mem_cons_self).2
      have hne : ¬n.data.mRefs - 1 = 0 := by omega
      rw [if_neg hne, if_neg hone, Nat.add_zero]
      obtain ⟨hok, hfails⟩ := ih f mPtr hA₁ hn₁ hf' ht' hlt' hM'
      rw [hlen₁] at hok hfails
      refine ⟨fun hcount => ?_, hfails⟩
      obtain ⟨mPtr', he, hnone, hsame⟩ := hok hcount
      refine ⟨mPtr', he, ?_, hsame⟩
      rw [hnone]
      simp [hone]

theorem unlockProxiesPtr_spec (hOk : t.Ok) (hn : t.nodes = L ++ M ++ R)
    (ht : Tiles h.rq.start h.rq.stop M)
    (hM : ∀ m ∈ M, m.data.mType = .reader ∧ m.data.mIsProxy = true) :
    (CountsDown t.nodes.length (freed M) → ∃ mPtr, unlockProxiesPtr t h = .ok mPtr ∧
      (mPtr = none ↔ h.ptr = none ∨ ∃ n ∈ M, n.data.mRefs = 1) ∧
      (mPtr = none ∨ mPtr = h.ptr)) ∧
    (¬CountsDown t.nodes.length (freed M) → unlockProxiesPtr t h = .error .assertion) := by
  have hrefs : ∀ m ∈ M, m.data.mType = .reader ∧ 0 < m.data.mRefs := fun m hm =>
    ⟨(hM m hm).1, (hOk.entry m (by simp [hn, hm])).refs_pos⟩
  rcases M with _ | ⟨n, M⟩
  · have hab : h.rq.start = h.rq.stop := ht
    exact absurd hab h.rq.lt.ne
  · obtain ⟨hstart, hlen, _⟩ := tiles_cons.mp ht
    have hn' : t.nodes = L ++ n :: (M ++ R) := by simpa using hn
    have hget : t.get n.addr = .ok n.data := Table.get_node hOk.addr (by simp [hn'])
    obtain ⟨hL, _⟩ := starts_lt_of_ordered (hn' ▸ hOk.ordered)
    have hfind := Table.find_at hn' fun m hm => (hL m hm).ne
    rw [hstart] at hfind
    have hrun := releasePtr_spec R (n :: M) (t.nodes.length + 1) h.ptr hOk.addr hn
      (by rw [hn, List.length_append, List.length_append]; omega) ht h.rq.length_lt hrefs
    obtain ⟨hreader, hpos⟩ := hrefs n List.mem_cons_self
    simp only [unlockProxiesPtr, hfind, hget, ok_bind, check_ok hpos.ne', check_ok hreader,
      check_ok (hM n List.mem_cons_self).2]
    exact hrun

theorem cover_eq_one_iff {held : List Handle} (hnd : held.Nodup) (hm : h ∈ held) {x : Int}
    (hx : h.Contains x) : cover held x = 1 ↔ ∀ h' ∈ held, h'.Contains x → h' = h := by
  constructor
  · intro hone h' hm' hx'
    by_contra hne
    have htwo := two_le_cover hm' hm hne hx' hx
    omega
  · intro halone
    have hrest : cover (held.erase h) x = 0 := by
      refine List.countP_eq_zero.mpr fun h' hm' hx' => ?_
      obtain ⟨hne, hmem⟩ := (hnd.mem_erase_iff).mp hm'
      exact hne (halone h' hmem (by simpa using hx'))
    rw [cover_erase hm, hrest, if_pos hx]

/-- Some offset of the range is locked by this handle alone. -/
def Alone (held : List Handle) (h : Handle) : Prop :=
  ∃ x, h.Contains x ∧ ∀ h' ∈ held, h'.Contains x → h' = h

variable {held : List Handle}

/-- An entry with one reference is an offset of a single handle. -/
theorem Consistent.alone_iff (hc : Consistent t held) (hm : h ∈ held)
    (hn : t.nodes = L ++ M ++ R) (ht : Tiles h.rq.start h.rq.stop M) :
    Alone held h ↔ ∃ n ∈ M, n.data.mRefs = 1 := by
  have hmem : ∀ m ∈ M, m ∈ t.nodes := fun m hm => by simp [hn, hm]
  constructor
  · rintro ⟨x, hx, halone⟩
    obtain ⟨n, hnM, hnx⟩ := Intervals.Tiles.exists_mem ht hx.1 hx.2
    refine ⟨n, hnM, ?_⟩
    rw [hc.refs_eq (hmem n hnM) hnx, (cover_eq_one_iff hc.nodup hm hx).mpr halone]
    rfl
  · rintro ⟨n, hnM, hone⟩
    obtain ⟨hlo, hlt, hhi⟩ := Intervals.Tiles.mem_bounds ht n hnM
    have hx : h.Contains n.data.mStart := ⟨hlo, by omega⟩
    have hrefs := hc.refs_eq (hmem n hnM) (x := n.data.mStart) ⟨le_rfl, hlt⟩
    exact ⟨n.data.mStart, hx, (cover_eq_one_iff hc.nodup hm hx).mp (by omega)⟩

/-- A handle whose entry is in the tree shares no offset. -/
theorem Consistent.alone_own (hc : Consistent t held) (hm : h ∈ held) (hn : n ∈ t.nodes)
    (hp : h.ptr = some n.addr) : Alone held h := by
  have hown := hc.own hm hn hp
  have hlt := hc.ok.ordered.lt hn
  have hx : h.Contains n.data.mStart := ⟨hown.start.ge, hown.stop ▸ hlt⟩
  have hrefs := hc.refs_eq hn (x := n.data.mStart) ⟨le_rfl, hlt⟩
  rw [(hc.ok.entry n hn).refs_one hown.isProxy] at hrefs
  exact ⟨n.data.mStart, hx, (cover_eq_one_iff hc.nodup hm hx).mp (by omega)⟩

theorem unlockRangePtr_own (hOk : t.Ok) (hn : n ∈ t.nodes) (hp : h.ptr = some n.addr) :
    (CountsDown t.nodes.length 1 → unlockRangePtr t h = .ok none) ∧
    (¬CountsDown t.nodes.length 1 → unlockRangePtr t h = .error .assertion) := by
  obtain ⟨L, R, hLR⟩ := List.append_of_mem hn
  have hne : n.data.mRefs ≠ 0 := (hOk.entry n hn).refs_pos.ne'
  have hdrop : unlockRangePtr t h = (do
      let _ ← dropEntry t n.addr n.data
      return none) := by
    unfold unlockRangePtr
    cases htype : h.rq.type with
    | reader => simp only [hp, Table.get_node hOk.addr hn, ok_bind, if_pos hne]
    | writer => simp only [hp, Table.get_node hOk.addr hn, ok_bind, check_ok hne]
  rw [countsDown_one, hdrop]
  refine ⟨fun hc => ?_, fun hc => by rw [dropEntry_wrapped (not_not.mp hc), error_bind]⟩
  obtain ⟨t', he, -⟩ := dropEntry_spec hOk.addr hLR n.data hc
  rw [he]
  rfl

theorem unlockRangePtr_proxies (hOk : t.Ok) (htype : h.rq.type = .reader)
    (hptr : ∀ a, h.ptr = some a → ∃ m ∈ t.removed, m.addr = a) :
    unlockRangePtr t h = unlockProxiesPtr t h := by
  unfold unlockRangePtr
  rw [htype]
  cases hp : h.ptr with
  | none => rfl
  | some a =>
    obtain ⟨m, hm, rfl⟩ := hptr a hp
    simp only [Table.get_removed hOk.addr hm, ok_bind, hOk.detached m hm, ne_eq, not_true_eq_false,
      if_false]

/-- After the call nothing is stored at the descriptor of the handle. -/
theorem UnlockStep.get_ptr {t' : Table} {signals : List Signal} {a : Nat}
    (hstep : UnlockStep h t (t', signals)) (hout : ∀ n ∈ t.nodes, h.ptr ≠ some n.addr)
    (hp : h.ptr = some a) : t'.get a = .error .badPointer := by
  cases hstep with
  | @own _ L R n hptr hn _ _ _ => exact absurd hptr (hout n (by simp [hn]))
  | @proxies _ L M R _ hn _ _ _ hr hn' =>
    have hnone : a ∉ addrs (t'.nodes ++ t'.removed) := by
      intro hmem
      obtain ⟨m, hm, rfl⟩ := exists_of_mem_addrs hmem
      rcases List.mem_append.mp hm with hm | hm
      · have hold : ∃ n ∈ t.nodes, n.addr = m.addr := by
          simp only [hn', List.mem_append, mem_released] at hm
          rcases hm with (hm | ⟨n, hnM, -, rfl⟩) | hm
          · exact ⟨m, by simp [hn, hm], rfl⟩
          · exact ⟨n, by simp [hn, hnM], rfl⟩
          · exact ⟨m, by simp [hn, hm], rfl⟩
        obtain ⟨n, hnmem, hna⟩ := hold
        exact hout n hnmem (hna ▸ hp)
      · exact ((hr m).mp hm).2 hp
    unfold Table.get
    rw [get?_eq_none hnone]

/-- Where `unlock_range` returns, so does the assignment to `m_ptr`, and the destructor then
finds no dead descriptor if and only if the pointer was cleared. -/
structure Consumes (t : Table) (h : Handle) (mPtr : Ptr) : Prop where
  ptr : unlockRangePtr t h = .ok mPtr
  destroyed : ∃ t' signals, unlockRange t h = .ok (t', signals) ∧
    (destroy t' mPtr = .ok t' ↔ mPtr = none)

/-- How a release ends: with the pointer cleared or left, or in the assertion of `remove_node`. -/
theorem Consistent.unlock_cases (hc : Consistent t held) (hh : h ∈ held) :
    (t.Releasable h → ∃ mPtr, Consumes t h mPtr ∧ (mPtr = none ↔ h.ptr = none ∨ Alone held h)) ∧
    (¬t.Releasable h → unlockRangePtr t h = .error .assertion) := by
  have hspec := hc.unlockRange_spec hh
  by_cases hin : ∃ n ∈ t.nodes, h.ptr = some n.addr
  · obtain ⟨n, hn, hp⟩ := hin
    have hown : t.Releasable h ↔ CountsDown t.nodes.length 1 := by
      rw [Table.Releasable, hc.freedBy_own hh hn hp]
    obtain ⟨hok, hfails⟩ := unlockRangePtr_own hc.ok hn hp
    refine ⟨fun hrel => ?_, fun hrel => hfails fun hcount => hrel (hown.mpr hcount)⟩
    obtain ⟨⟨t', signals⟩, hrun, -⟩ := hspec.1 hrel
    exact ⟨none, ⟨hok (hown.mp hrel), t', signals, hrun, iff_of_true rfl rfl⟩,
      iff_of_true rfl (.inr (hc.alone_own hh hn hp))⟩
  · have hout : ∀ n ∈ t.nodes, h.ptr ≠ some n.addr := fun n hn hp => hin ⟨n, hn, hp⟩
    obtain ⟨htype, L, M, R, hn, ht, hM⟩ := hc.exists_proxies hh hout
    have hptr : ∀ a, h.ptr = some a → ∃ m ∈ t.removed, m.addr = a := by
      intro a hp
      rcases hc.linked h hh a hp with ⟨n, hn, rfl, -⟩ | ⟨-, hm⟩
      · exact absurd hp (hout n hn)
      · exact hm
    have htiles : t.Releasable h ↔ CountsDown t.nodes.length (freed M) := by
      rw [Table.Releasable, hc.freedBy_tiles hn ht]
    obtain ⟨hok, hfails⟩ := unlockProxiesPtr_spec hc.ok hn ht hM
    rw [← unlockRangePtr_proxies hc.ok htype hptr] at hok hfails
    refine ⟨fun hrel => ?_, fun hrel => hfails fun hcount => hrel (htiles.mpr hcount)⟩
    obtain ⟨⟨t', signals⟩, hrun, hstep⟩ := hspec.1 hrel
    obtain ⟨mPtr, hmPtr, hnone, hsame⟩ := hok (htiles.mp hrel)
    refine ⟨mPtr, ⟨hmPtr, t', signals, hrun, fun hdestroy => ?_, ?_⟩, ?_⟩
    · by_contra hne
      obtain ⟨a, ha⟩ := Option.ne_none_iff_exists'.mp hne
      have hp : h.ptr = some a := (hsame.resolve_left hne).symm.trans ha
      rw [ha, destroy, hstep.get_ptr hout hp] at hdestroy
      cases hdestroy
    · rintro rfl
      rfl
    · rw [hnone, hc.alone_iff hh hn ht]

/-- Two readers of the same range: the first has a descriptor that a proxy replaced. -/
def twoReaders : State :=
  (State.initial.call ⟨3, 7, .reader, by decide, by decide, by decide⟩).call
    ⟨3, 7, .reader, by decide, by decide, by decide⟩

theorem twoReaders_counts : Counts twoReaders := by
  refine .next (e := .call _) (.next (e := .call _) (.start rfl) ⟨⟨?_, ?_⟩, .call _ rfl⟩)
    ⟨⟨?_, ?_⟩, .call _ rfl⟩
  all_goals decide

def replacedReader : Handle := ⟨0, ⟨3, 7, .reader, by decide, by decide, by decide⟩, some 1⟩

def secondReader : Handle := ⟨1, ⟨3, 7, .reader, by decide, by decide, by decide⟩, none⟩

end
end EchoFs.RangeLock
