import EchoFs.DevDax.BigPool

/-! Which free slots `big_pool::allocate` finds. After a taken slot the search goes on
two slots further, as the loop over `j` steps once more, and the last slot of the
mapping is never given out. -/

namespace EchoFs.DevDax
open Checked Bitmap

/-- The number of taken slots right before a slot. -/
def setBefore (bits : Nat → Bool) : Nat → Nat
  | 0 => 0
  | q + 1 => if bits q then setBefore bits q + 1 else 0

/-- The search comes to this slot unless it ends before it. -/
def Lands (bits : Nat → Bool) (q : Nat) : Prop := q = 0 ∨ setBefore bits (q - 1) % 2 = 1

variable {bits : Nat → Bool} {j c : Nat}

theorem lands_zero : Lands bits 0 := .inl rfl

theorem setBefore_of_clear (h : bits c = false) : setBefore bits (c + 1) = 0 := by
  simp [setBefore, h]

theorem setBefore_of_set (h : bits c = true) : setBefore bits (c + 1) = setBefore bits c + 1 := by
  simp [setBefore, h]

theorem Lands.even (h : Lands bits j) : setBefore bits j % 2 = 0 := by
  cases j with
  | zero => rfl
  | succ q =>
    have hodd : setBefore bits q % 2 = 1 := h.resolve_left (by omega)
    cases hq : bits q with
    | false => rw [setBefore_of_clear hq]
    | true => rw [setBefore_of_set hq]; omega

theorem Lands.even_of_clear (h : Lands bits j) (hjc : j ≤ c)
    (hclear : ∀ pos, j ≤ pos → pos < c → bits pos = false) : setBefore bits c % 2 = 0 := by
  rcases Nat.eq_or_lt_of_le hjc with rfl | hlt
  · exact h.even
  · obtain ⟨q, rfl⟩ : ∃ q, c = q + 1 := ⟨c - 1, by omega⟩
    rw [setBefore_of_clear (hclear q (by omega) (by omega))]

/-- After the taken slot `c` the search passes over the next slot. -/
theorem Lands.collision (h : Lands bits j) (hjc : j ≤ c)
    (hclear : ∀ pos, j ≤ pos → pos < c → bits pos = false) (hset : bits c = true) :
    Lands bits (c + 2) ∧ ¬ Lands bits (c + 1) := by
  have heven := h.even_of_clear hjc hclear
  constructor
  · refine .inr ?_
    show setBefore bits (c + 1) % 2 = 1
    rw [setBefore_of_set hset]
    omega
  · rintro (h0 | hodd)
    · omega
    · rw [Nat.add_sub_cancel] at hodd
      omega

namespace BigPool

/-- `n` slots from `q` on can be given out. -/
structure Free (p : BigPool) (n q : Nat) : Prop where
  bound : q + n < p.mNvmlMappings
  held : q + n ≤ nvmlMappings
  clear : ∀ pos, q ≤ pos → pos < q + n → p.mBitset pos = false

/-- The loop over `i` comes to the end of `m_bitset` from `q` on, and throws there. -/
structure Overruns (p : BigPool) (n q : Nat) : Prop where
  bound : q + n < p.mNvmlMappings
  beyond : nvmlMappings < q + n
  clear : ∀ pos, q ≤ pos → pos < nvmlMappings → p.mBitset pos = false

variable {p : BigPool} {n q : Nat}

theorem Free.not_overruns (h : p.Free n q) : ¬ p.Overruns n q := fun ho =>
  Nat.not_lt.mpr h.held ho.beyond

/-- What the loop over `i` comes to. -/
inductive Scanned (p : BigPool) (start n i : Nat) : Result (Option Nat) → Prop
  | clear : n = 0 ∨ i + n + start ≤ nvmlMappings →
      (∀ pos, i + start ≤ pos → pos < i + n + start → p.mBitset pos = false) →
      Scanned p start n i (.ok none)
  | taken {m : Nat} : i ≤ m → m < i + n → m + start < nvmlMappings →
      p.mBitset (m + start) = true →
      (∀ pos, i + start ≤ pos → pos < m + start → p.mBitset pos = false) →
      Scanned p start n i (.ok (some m))
  | beyond : nvmlMappings < i + n + start →
      (∀ pos, i + start ≤ pos → pos < nvmlMappings → p.mBitset pos = false) →
      Scanned p start n i (.error .assertion)

theorem Scanned.cons {start i : Nat} {r : Result (Option Nat)}
    (hlt : i + start < nvmlMappings) (hbit : p.mBitset (i + start) = false)
    (h : Scanned p start n (i + 1) r) : Scanned p start (n + 1) i r := by
  have hhead : ∀ {pos hi : Nat}, (i + 1 + start ≤ pos → pos < hi → p.mBitset pos = false) →
      i + start ≤ pos → pos < hi → p.mBitset pos = false := by
    intro pos hi htail hle hpos
    rcases Nat.eq_or_lt_of_le hle with rfl | hgt
    · exact hbit
    · exact htail (by omega) hpos
  cases h with
  | clear hn hclear =>
    exact .clear (.inr (by omega)) fun pos hle hpos => hhead (hclear pos) hle (by omega)
  | taken hle hm hheld hset hclear =>
    exact .taken (by omega) (by omega) hheld hset fun pos hle hpos => hhead (hclear pos) hle hpos
  | beyond hb hclear =>
    exact .beyond (by omega) fun pos hle hpos => hhead (hclear pos) hle hpos

theorem firstSet_spec (p : BigPool) (start : Nat) :
    ∀ n i, Scanned p start n i (p.firstSet start n i) := by
  intro n
  induction n with
  | zero => exact fun i => .clear (.inl rfl) fun pos hle hpos => by omega
  | succ n ih =>
    intro i
    unfold firstSet test
    by_cases hlt : i + start < nvmlMappings
    · rw [check_ok hlt]
      cases hbit : p.mBitset (i + start) with
      | true =>
        exact .taken (Nat.le_refl i) (by omega) hlt hbit fun pos hle hpos => by omega
      | false => exact .cons hlt hbit (ih (i + 1))
    · rw [check, if_neg hlt]
      exact .beyond (by omega) fun pos hle hpos => by omega

/-- What the search from `j` on comes to. -/
inductive Searched (p : BigPool) (n j : Nat) : Result (Option Nat) → Prop
  | found {q : Nat} : j ≤ q → Lands p.mBitset q → p.Free n q → Searched p n j (.ok (some q))
  | full : (∀ q, j ≤ q → Lands p.mBitset q → ¬ p.Free n q ∧ ¬ p.Overruns n q) →
      Searched p n j (.ok none)
  | beyond {q : Nat} : j ≤ q → Lands p.mBitset q → p.Overruns n q →
      (∀ q, j ≤ q → Lands p.mBitset q → ¬ p.Free n q) → Searched p n j (.error .assertion)

/-- No slot up to the one after a taken slot can be the answer. -/
theorem Searched.skip {r : Result (Option Nat)} (hl : Lands p.mBitset j) (hjc : j ≤ c)
    (hcn : c < j + n) (hheld : c < nvmlMappings) (hset : p.mBitset c = true)
    (hclear : ∀ pos, j ≤ pos → pos < c → p.mBitset pos = false)
    (h : Searched p n (c + 2) r) : Searched p n j r := by
  have hno := (hl.collision hjc hclear hset).2
  have hpass : ∀ q, j ≤ q → Lands p.mBitset q → q < c + 2 →
      ¬ p.Free n q ∧ ¬ p.Overruns n q := by
    intro q hle hq hlt
    have hqc : q ≤ c := by
      by_contra hgt
      obtain rfl : q = c + 1 := by omega
      exact hno hq
    constructor
    · intro hf
      have := hf.clear c hqc (by omega)
      rw [hset] at this
      cases this
    · intro ho
      have := ho.clear c hqc hheld
      rw [hset] at this
      cases this
  cases h with
  | found hle hq hf => exact .found (by omega) hq hf
  | full hall =>
    refine .full fun q hle hq => ?_
    rcases Nat.lt_or_ge q (c + 2) with hlt | hge
    · exact hpass q hle hq hlt
    · exact hall q hge hq
  | beyond hle hq ho hall =>
    refine .beyond (by omega) hq ho fun q hle hq => ?_
    rcases Nat.lt_or_ge q (c + 2) with hlt | hge
    · exact (hpass q hle hq hlt).1
    · exact hall q hge hq

theorem search_spec (p : BigPool) (hn : 0 < n) : ∀ {fuel j : Nat} {found : Option Nat},
    0 < fuel → p.mNvmlMappings < fuel + j → Lands p.mBitset j →
    j < p.mNvmlMappings ∨ found = none → Searched p n j (p.search n fuel j found) := by
  intro fuel
  induction fuel with
  | zero =>
    intro j found hfuel
    omega
  | succ fuel ih =>
    intro j found _ hfuel hl hfound
    have hfull : p.mNvmlMappings ≤ n + j → Searched p n j (.ok none) := fun hge =>
      .full fun q hle _ => ⟨fun hf => by have := hf.bound; omega,
        fun ho => by have := ho.bound; omega⟩
    unfold search
    split_ifs with hj hnj
    · have hscan := firstSet_spec p j n 0
      revert hscan
      generalize p.firstSet j n 0 = r
      intro hscan
      cases hscan with
      | clear hn0 hclear =>
        refine .found (Nat.le_refl j) hl ⟨by omega, by omega, fun pos hle hpos => ?_⟩
        exact hclear pos (by omega) (by omega)
      | @taken m _ hm hheld hset hclear =>
        have hclear' : ∀ pos, j ≤ pos → pos < m + j → p.mBitset pos = false :=
          fun pos hle hpos => hclear pos (by omega) hpos
        have hnext := (hl.collision (by omega) hclear' hset).1
        refine .skip hl (by omega) (by omega) hheld hset hclear' ?_
        have hrec : Searched p n (m + j + 2) (p.search n fuel (m + j + 2) none) :=
          ih (by omega) (by omega) hnext (.inr rfl)
        rwa [Nat.add_comm m j] at hrec ⊢
      | beyond hb hclear =>
        have hclear' : ∀ pos, j ≤ pos → pos < nvmlMappings → p.mBitset pos = false :=
          fun pos hle hpos => hclear pos (by omega) hpos
        refine .beyond (Nat.le_refl j) hl ⟨by omega, by omega, hclear'⟩ fun q hle _ hf => ?_
        have := hf.held
        omega
    · exact hfull (by omega)
    · rw [hfound.resolve_left hj]
      exact hfull (by omega)

/-- What the choice of the slots comes to: those behind the last grant, or the search. -/
inductive Placed (p : BigPool) (n : Nat) : Result (Option Nat) → Prop
  | next : p.Free n p.mOffset → Placed p n (.ok (some p.mOffset))
  | found {q : Nat} : ¬ p.Overruns n p.mOffset → Lands p.mBitset q → p.Free n q →
      Placed p n (.ok (some q))
  | full : (∀ q, q = p.mOffset ∨ Lands p.mBitset q → ¬ p.Free n q ∧ ¬ p.Overruns n q) →
      Placed p n (.ok none)
  | beyond {q : Nat} : q = p.mOffset ∨ Lands p.mBitset q → p.Overruns n q →
      ¬ p.Free n p.mOffset →
      p.Overruns n p.mOffset ∨ (∀ q, Lands p.mBitset q → ¬ p.Free n q) →
      Placed p n (.error .assertion)

theorem Searched.placed {r : Result (Option Nat)} (h : Searched p n 0 r)
    (hf : ¬ p.Free n p.mOffset) (ho : ¬ p.Overruns n p.mOffset) : Placed p n r := by
  cases h with
  | found _ hq hfree => exact .found ho hq hfree
  | full hall =>
    refine .full fun q hq => ?_
    rcases hq with rfl | hq
    · exact ⟨hf, ho⟩
    · exact hall q (Nat.zero_le q) hq
  | beyond _ hq hover hall =>
    exact .beyond (.inr hq) hover hf (.inr fun q hq => hall q (Nat.zero_le q) hq)

theorem place_spec (p : BigPool) (hn : 0 < n) (hM : 0 < p.mNvmlMappings) :
    Placed p n (p.place n) := by
  have hsearch : Searched p n 0 (p.search n (p.mNvmlMappings + 1) 0 (some 0)) :=
    search_spec p hn (by omega) (by omega) lands_zero (.inl hM)
  unfold place nextFit
  split_ifs with hfit
  · have hscan := firstSet_spec p p.mOffset n 0
    revert hscan
    generalize p.firstSet p.mOffset n 0 = r
    intro hscan
    cases hscan with
    | clear hn0 hclear =>
      exact .next ⟨by omega, by omega, fun pos hle hpos => hclear pos (by omega) (by omega)⟩
    | @taken m _ hm hheld hset hclear =>
      refine hsearch.placed (fun hf => ?_) fun ho => ?_
      · have := hf.clear (m + p.mOffset) (by omega) (by omega)
        rw [hset] at this
        cases this
      · have := ho.clear (m + p.mOffset) (by omega) hheld
        rw [hset] at this
        cases this
    | beyond hb hclear =>
      have ho : p.Overruns n p.mOffset :=
        ⟨by omega, by omega, fun pos hle hpos => hclear pos (by omega) hpos⟩
      exact .beyond (.inl rfl) ho (fun hf => hf.not_overruns ho) (.inl ho)
  · refine hsearch.placed (fun hf => ?_) fun ho => ?_
    · have := hf.bound
      omega
    · have := ho.bound
      omega

/-- A run of `k` free slots of the mapping, starting at `s`. -/
def Run (p : BigPool) (k s : Nat) : Prop :=
  s + k ≤ p.mNvmlMappings ∧ ∀ i < k, s + i < nvmlMappings ∧ p.mBitset (s + i) = false

/-- A request for `k` slots gets a run of free slots if there is one, and takes just
these; else it gets a null pointer and takes none. -/
def FindsSpace (p : BigPool) (k : Nat) : Prop :=
  ∃ p' r, p.allocate (k * p.mSizeOfSegment) = .ok (p', r) ∧
    ((∃ s, p.Run k s) → ∃ s, p.Run k s ∧ r = some (p.mAddress + s * p.mSizeOfSegment) ∧
      p'.mBitset = assign p.mBitset ⟨s, k⟩ true) ∧
    ((¬ ∃ s, p.Run k s) → r = none ∧ p'.mBitset = p.mBitset)

theorem Free.run {k : Nat} (h : p.Free k q) : p.Run k q :=
  ⟨Nat.le_of_lt h.bound, fun i hi => ⟨by have := h.held; omega, h.clear _ (by omega) (by omega)⟩⟩

theorem Run.lt {k s : Nat} (h : p.Run k s) : k < 2 ^ 32 := by
  by_contra hge
  have hlast := (h.2 (k - 1) (by omega)).1
  unfold nvmlMappings at hlast
  omega

theorem put_ok {pos : Nat} {v : Bool} (h : pos < nvmlMappings) :
    p.put pos v = .ok { p with mBitset := fun q => if q = pos then v else p.mBitset q } := by
  unfold put
  rw [check_ok h]
  rfl

theorem foldlM_put_ok (start : Nat) (v : Bool) : ∀ {n : Nat} (p : BigPool),
    start + n ≤ nvmlMappings →
    ∃ p', (List.range n).foldlM (fun q i => q.put (i + start) v) p = .ok p' := by
  intro n
  induction n with
  | zero => exact fun p _ => ⟨p, rfl⟩
  | succ n ih =>
    intro p hle
    obtain ⟨p', hp'⟩ := ih p (by omega)
    rw [List.range_succ, List.foldlM_append, hp', ok_bind, List.foldlM_cons,
      put_ok (by omega : n + start < nvmlMappings)]
    exact ⟨_, rfl⟩

variable {k : Nat}

theorem nSegments_slots (hseg : 0 < p.mSizeOfSegment) :
    p.nSegments (k * p.mSizeOfSegment) = k % 2 ^ 32 := by
  rw [nSegments, Nat.mul_div_cancel _ hseg]

theorem allocate_place_some (hseg : 0 < p.mSizeOfSegment) (hk : k < 2 ^ 32)
    (h : p.place k = .ok (some q)) (hf : p.Free k q) :
    ∃ p', p.allocate (k * p.mSizeOfSegment) =
      .ok (p', some (p.mAddress + q * p.mSizeOfSegment)) ∧
      p'.mBitset = assign p.mBitset ⟨q, k⟩ true := by
  have hn : p.nSegments (k * p.mSizeOfSegment) = k := by
    rw [nSegments_slots hseg, Nat.mod_eq_of_lt hk]
  obtain ⟨p1, hput⟩ := foldlM_put_ok q true p (n := k) hf.held
  obtain ⟨rfl, _⟩ := foldlM_put (f := fun i => i + q) (fun _ _ => rfl) hput
  obtain ⟨o, ho⟩ := startOver_eq { p with
    mBitset := assign p.mBitset ⟨q, k⟩ true
    mOffset := k + q + 1 }
  refine ⟨_, ?_, congrArg mBitset ho⟩
  unfold allocate
  simp only [hn, h, hput, ok_bind]
  rfl

theorem allocate_place_none (hseg : 0 < p.mSizeOfSegment)
    (h : p.place (k % 2 ^ 32) = .ok none) :
    p.allocate (k * p.mSizeOfSegment) = .ok (p.startOver, none) := by
  unfold allocate
  simp only [nSegments_slots hseg, h, ok_bind]
  rfl

theorem allocate_place_error (hseg : 0 < p.mSizeOfSegment) {e : Fault}
    (h : p.place (k % 2 ^ 32) = .error e) :
    p.allocate (k * p.mSizeOfSegment) = .error e := by
  unfold allocate
  simp only [nSegments_slots hseg, h, error_bind]

/-- The cursor or the search comes to `n` slots that can be given out, before it throws. -/
def Reaches (p : BigPool) (n : Nat) : Prop :=
  p.Free n p.mOffset ∨ ¬ p.Overruns n p.mOffset ∧ ∃ q, Lands p.mBitset q ∧ p.Free n q

/-- Neither the cursor nor the search gives out `n` slots or throws. -/
def PassesOver (p : BigPool) (n : Nat) : Prop :=
  0 < p.mNvmlMappings ∧
    ∀ q, q = p.mOffset ∨ Lands p.mBitset q → ¬ p.Free n q ∧ ¬ p.Overruns n q

theorem not_passesOver_zero : ¬ p.PassesOver 0 := fun h =>
  (h.2 0 (.inr lands_zero)).1
    ⟨by rw [Nat.add_zero]; exact h.1, Nat.zero_le _, fun pos _ hpos => by omega⟩

theorem Reaches.free (h : p.Reaches n) :
    ∃ q, (q = p.mOffset ∨ Lands p.mBitset q) ∧ p.Free n q := by
  rcases h with hf | ⟨_, q, hq, hf⟩
  · exact ⟨p.mOffset, .inl rfl, hf⟩
  · exact ⟨q, .inr hq, hf⟩

theorem Reaches.not_passesOver (h : p.Reaches n) : ¬ p.PassesOver n := by
  obtain ⟨q, hq, hf⟩ := h.free
  exact fun hpass => (hpass.2 q hq).1 hf

theorem Placed.some (h : Placed p n (.ok (some q))) : p.Free n q ∧ p.Reaches n := by
  cases h with
  | next hf => exact ⟨hf, .inl hf⟩
  | found ho hq hf => exact ⟨hf, .inr ⟨ho, q, hq, hf⟩⟩

theorem Placed.none (h : Placed p n (.ok none)) (hM : 0 < p.mNvmlMappings) : p.PassesOver n := by
  cases h with
  | full hall => exact ⟨hM, hall⟩

theorem Placed.error {e : Fault} (h : Placed p n (.error e)) :
    ¬ p.Reaches n ∧ ¬ p.PassesOver n := by
  cases h with
  | beyond hq ho hf hlater =>
    refine ⟨?_, fun hpass => (hpass.2 _ hq).2 ho⟩
    rintro (hnext | ⟨hno, q, hland, hfree⟩)
    · exact hf hnext
    · rcases hlater with hover | hnone
      · exact hno hover
      · exact hnone q hland hfree

theorem place_none (h : p.place n = .ok none) : 0 < p.mNvmlMappings ∧ 0 < n := by
  by_contra hzero
  have hsearch : p.search n (p.mNvmlMappings + 1) 0 (.some 0) = .ok (.some 0) := by
    unfold search
    by_cases hM : 0 < p.mNvmlMappings
    · obtain rfl : n = 0 := by omega
      rw [if_pos hM, if_pos (by omega)]
      rfl
    · rw [if_neg hM]
      rfl
  unfold place at h
  obtain ⟨found, _, h⟩ := bind_eq_ok.mp h
  cases found with
  | none =>
    rw [hsearch] at h
    cases h
  | some start => cases h

theorem allocate_none {size : Nat} {p' : BigPool} (h : p.allocate size = .ok (p', none)) :
    p.place (p.nSegments size) = .ok none := by
  unfold allocate at h
  obtain ⟨found, hfound, h⟩ := bind_eq_ok.mp h
  cases found with
  | none => exact hfound
  | some start =>
    obtain ⟨q, _, h⟩ := bind_eq_ok.mp h
    cases h

theorem FindsSpace.of_reaches (hseg : 0 < p.mSizeOfSegment) (hk : 0 < k) (h : p.Reaches k) :
    p.FindsSpace k := by
  obtain ⟨q, _, hf⟩ := h.free
  have hlt := hf.run.lt
  have hplaced := place_spec p hk (by have := hf.bound; omega)
  cases hplace : p.place k with
  | error e =>
    rw [hplace] at hplaced
    exact absurd h hplaced.error.1
  | ok found =>
    rw [hplace] at hplaced
    cases found with
    | none => exact absurd (hplaced.none (by have := hf.bound; omega)) h.not_passesOver
    | some start =>
      have hfree := hplaced.some.1
      obtain ⟨p', ha, hbits⟩ := allocate_place_some hseg hlt hplace hfree
      exact ⟨p', _, ha, fun _ => ⟨start, hfree.run, rfl, hbits⟩,
        fun hno => absurd ⟨start, hfree.run⟩ hno⟩

theorem FindsSpace.of_passesOver (hseg : 0 < p.mSizeOfSegment) (hno : ¬ ∃ s, p.Run k s)
    (h : p.PassesOver (k % 2 ^ 32)) : p.FindsSpace k := by
  have hn : 0 < k % 2 ^ 32 := by
    by_contra hzero
    rw [Nat.eq_zero_of_not_pos hzero] at h
    exact not_passesOver_zero h
  have hplaced := place_spec p hn h.1
  cases hplace : p.place (k % 2 ^ 32) with
  | error e =>
    rw [hplace] at hplaced
    exact absurd h hplaced.error.2
  | ok found =>
    rw [hplace] at hplaced
    cases found with
    | some start => exact absurd h hplaced.some.2.not_passesOver
    | none =>
      obtain ⟨o, ho⟩ := p.startOver_eq
      exact ⟨p.startOver, none, allocate_place_none hseg hplace, fun hrun => absurd hrun hno,
        fun _ => ⟨rfl, by rw [ho]⟩⟩

theorem FindsSpace.reaches (hseg : 0 < p.mSizeOfSegment) (hk : 0 < k) (h : p.FindsSpace k)
    (hrun : ∃ s, p.Run k s) : p.Reaches k := by
  obtain ⟨p', r, ha, hfinds, _⟩ := h
  obtain ⟨s, hs, rfl, _⟩ := hfinds hrun
  have hmod : k % 2 ^ 32 = k := Nat.mod_eq_of_lt hs.lt
  have hplaced := place_spec p hk (by have := hs.1; omega)
  cases hplace : p.place k with
  | error e =>
    rw [allocate_place_error hseg (by rwa [hmod])] at ha
    cases ha
  | ok found =>
    rw [hplace] at hplaced
    cases found with
    | some start => exact hplaced.some.2
    | none =>
      rw [allocate_place_none hseg (by rwa [hmod])] at ha
      cases ha

/-- The request finds space exactly when the cursor or the search comes to a run that can
be given out, or when there is none and they pass over the whole mapping. -/
theorem findsSpace_iff (hseg : 0 < p.mSizeOfSegment) (hk : 0 < k) :
    p.FindsSpace k ↔ p.Reaches k ∨ (¬ ∃ s, p.Run k s) ∧ p.PassesOver (k % 2 ^ 32) := by
  constructor
  · intro h
    by_cases hrun : ∃ s, p.Run k s
    · exact .inl (h.reaches hseg hk hrun)
    · obtain ⟨p', r, ha, _, hnone⟩ := h
      obtain ⟨rfl, _⟩ := hnone hrun
      have hplace := allocate_none ha
      rw [nSegments_slots hseg] at hplace
      obtain ⟨hM, hn⟩ := place_none hplace
      have hplaced := place_spec p hn hM
      rw [hplace] at hplaced
      exact .inr ⟨hrun, hplaced.none hM⟩
  · rintro (h | ⟨hno, h⟩)
    · exact .of_reaches hseg hk h
    · exact .of_passesOver hseg hno h

/-- The search comes to the first or the second slot of each clear stretch. -/
theorem exists_lands {bits : Nat → Bool} : ∀ {s : Nat},
    (∀ pos, s ≤ pos → pos < s + (k + 1) → bits pos = false) →
    ∃ q, q ≤ s + 1 ∧ Lands bits q ∧ ∀ pos, q ≤ pos → pos < q + k → bits pos = false := by
  intro s
  induction s with
  | zero =>
    intro h
    exact ⟨0, by omega, lands_zero, fun pos hle hpos => h pos hle (by omega)⟩
  | succ s ih =>
    intro h
    rcases Nat.mod_two_eq_zero_or_one (setBefore bits s) with heven | hodd
    · cases hbit : bits s with
      | true =>
        refine ⟨s + 2, Nat.le_refl _, .inr ?_, fun pos hle hpos => h pos (by omega) (by omega)⟩
        show setBefore bits (s + 1) % 2 = 1
        rw [setBefore_of_set hbit]
        omega
      | false =>
        -- the stretch begins at `s` or earlier
        obtain ⟨q, hle, hq, hclear⟩ := ih fun pos hle hpos => by
          rcases Nat.eq_or_lt_of_le hle with rfl | hlt
          · exact hbit
          · exact h pos hlt (by omega)
        exact ⟨q, by omega, hq, hclear⟩
    · exact ⟨s + 1, by omega, .inr hodd, fun pos hle hpos => h pos hle (by omega)⟩

/-- One more free slot than asked for, none of them the last of the mapping, is enough. -/
theorem FindsSpace.of_longer_run (hseg : 0 < p.mSizeOfSegment) (hk : 0 < k)
    (hheld : p.mNvmlMappings ≤ nvmlMappings) {s : Nat} (hs : p.Run (k + 1) s)
    (hlast : s + k + 1 < p.mNvmlMappings) : p.FindsSpace k := by
  refine .of_reaches hseg hk (.inr ⟨fun ho => ?_, ?_⟩)
  · have := ho.bound
    have := ho.beyond
    omega
  · have hbits : ∀ pos, s ≤ pos → pos < s + (k + 1) → p.mBitset pos = false := by
      intro pos hle hpos
      have hbit := (hs.2 (pos - s) (by omega)).2
      rwa [Nat.add_sub_cancel' hle] at hbit
    obtain ⟨q, hle, hq, hclear⟩ := exists_lands hbits
    exact ⟨q, hq, by omega, by omega, hclear⟩

/-- A mapping of 512 MiB with slots of 128 MiB, and the slots that are taken. -/
def fourSlotPool (bits : Nat → Bool) (offset : Nat) : BigPool :=
  ⟨bits, offset, 2 ^ 40, 2 ^ 29, 2 ^ 27, 4⟩

theorem findsSpace_empty : (fourSlotPool (fun _ => false) 0).FindsSpace 3 :=
  (findsSpace_iff (by decide) (by decide)).mpr
    (.inl (.inl ⟨by decide, by decide, fun _ _ _ => rfl⟩))

/-- Four slots of an empty mapping are not found; nor are two behind the first. -/
theorem allocate_misses :
    ¬ (fourSlotPool (fun _ => false) 0).FindsSpace 4 ∧
      ¬ (fourSlotPool (fun pos => pos == 0) 2).FindsSpace 2 := by
  have hmiss : ∀ {p p' : BigPool} {k s : Nat}, p.Run k s →
      p.allocate (k * p.mSizeOfSegment) = .ok (p', none) → ¬ p.FindsSpace k := by
    rintro p p' k s hs ha ⟨_, r, hb, hfinds, _⟩
    obtain ⟨_, _, rfl, _⟩ := hfinds ⟨s, hs⟩
    rw [ha] at hb
    cases hb
  constructor
  · exact hmiss (s := 0) ⟨by decide, by decide⟩ rfl
  · exact hmiss (s := 1) ⟨by decide, by decide⟩ rfl

end BigPool
end EchoFs.DevDax
