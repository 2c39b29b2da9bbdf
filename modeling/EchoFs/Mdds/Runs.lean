import EchoFs.Mdds.Tree

/-! Runs of `insert_front`, `insert_back` and `build_tree`: the leaves hold what was assigned
last to each key, in as few segments as there can be, and `search_tree` finds the segment of
a key until an insertion changes something. -/

namespace EchoFs.Mdds
open Checked Linked IntervalMap

inductive Op (β : Type) where
  | insertFront (startKey endKey : Int) (val : β)
  | insertBack (startKey endKey : Int) (val : β)
  | buildTree

variable {β : Type}

/-- What the keys hold after the operation. -/
def Op.write (f : Int → β) : Op β → Int → β
  | .insertFront lo hi val | .insertBack lo hi val => fun x => if lo ≤ x ∧ x < hi then val else f x
  | .buildTree => f

def contents (init : β) (ops : List (Op β)) : Int → β := ops.foldl Op.write fun _ => init

/-- A range that is not empty neither ends at the first key nor starts at the last one. -/
def Op.Allowed (minKey maxKey : Int) : Op β → Prop
  | .insertFront lo hi _ | .insertBack lo hi _ => lo < hi → hi ≠ minKey ∧ lo ≠ maxKey
  | .buildTree => True

/-- The operation changes no key of the tree. -/
def Op.Keeps (minKey maxKey : Int) (f : Int → β) (op : Op β) : Prop :=
  ∀ x, minKey ≤ x → x < maxKey → op.write f x = f x

/-- Nothing was changed since the last `build_tree`. -/
inductive Fresh (minKey maxKey : Int) (init : β) : List (Op β) → Prop
  | build (ops : List (Op β)) : Fresh minKey maxKey init (ops ++ [.buildTree])
  | keep {ops : List (Op β)} {op : Op β} : Fresh minKey maxKey init ops →
      op.Keeps minKey maxKey (contents init ops) → Fresh minKey maxKey init (ops ++ [op])

/-- The keys around `x` that hold the same value as it does, as far as they go. -/
structure IsSegment (minKey maxKey : Int) (f : Int → β) (x start stop : Int) (val : β) : Prop where
  mem : start ≤ x ∧ x < stop
  within : minKey ≤ start ∧ stop ≤ maxKey
  const : ∀ y, start ≤ y → y < stop → f y = val
  start : start = minKey ∨ f (start - 1) ≠ val
  stop : stop = maxKey ∨ f stop ≠ val

theorem contents_snoc (init : β) (ops : List (Op β)) (op : Op β) :
    contents init (ops ++ [op]) = op.write (contents init ops) := by
  unfold contents
  rw [List.foldl_append]
  rfl

theorem fresh_snoc {minKey maxKey : Int} {init : β} {ops : List (Op β)} {op : Op β} :
    Fresh minKey maxKey init (ops ++ [op]) ↔
      op = .buildTree ∨
        Fresh minKey maxKey init ops ∧ op.Keeps minKey maxKey (contents init ops) := by
  constructor
  · generalize hl : ops ++ [op] = l
    intro h
    cases h with
    | build ops' => exact .inl (List.singleton_inj.mp (List.append_inj' hl rfl).2)
    | keep hf hk =>
      obtain ⟨rfl, hop⟩ := List.append_inj' hl rfl
      obtain rfl := List.singleton_inj.mp hop
      exact .inr ⟨hf, hk⟩
  · rintro (rfl | ⟨hf, hk⟩)
    · exact .build ops
    · exact .keep hf hk

namespace FlatSegmentTree
variable [DecidableEq β]

def step (t : FlatSegmentTree β) : Op β → Result (FlatSegmentTree β)
  | .insertFront lo hi val => do
    let (t, _) ← t.insertFront lo hi val
    return t
  | .insertBack lo hi val => do
    let (t, _) ← t.insertBack lo hi val
    return t
  | .buildTree => t.buildTree

def run (t : FlatSegmentTree β) (ops : List (Op β)) : Result (FlatSegmentTree β) :=
  ops.foldlM step t

/-- The tree represents the contents `f` of its keys. -/
structure Represents (t : FlatSegmentTree β) (minKey maxKey : Int) (init : β) (f : Int → β)
    (l : List (Entry β)) (r : Entry β) : Prop where
  holds : Holds t minKey maxKey init l r
  minimal : Minimal (leaves l)
  value : ∀ x, minKey ≤ x → x < maxKey → value (leaves l) x = some (f x)
  built : t.mValidTree = true → Built t (l ++ [r])

variable {t t' : FlatSegmentTree β} {minKey maxKey lo hi x : Int} {init val : β} {f : Int → β}
  {l l' : List (Entry β)} {r : Entry β} {position : Option Nat} {changed : Bool} {op : Op β}
  {ops : List (Op β)}

omit [DecidableEq β] in
theorem Holds.sorted (h : Holds t minKey maxKey init l r) : Sorted (leaves l) := by
  have hs := h.listed.sorted
  rw [leaves, List.map_append] at hs
  exact (List.pairwise_append.mp hs).1

omit [DecidableEq β] in
theorem Holds.lt_maxKey (h : Holds t minKey maxKey init l r) : ∀ f ∈ leaves l, f.key < maxKey := by
  intro f hf
  obtain ⟨e, he, rfl⟩ := List.mem_map.mp hf
  have hlt := h.listed.keys e he r List.mem_cons_self
  rw [h.maxKey] at hlt
  exact hlt

omit [DecidableEq β] in
/-- The leaves before the end of the span are the first ones. -/
theorem below_split {s : List (Leaf β)} (h : Sorted s) (maxKey : Int) :
    ∃ R, s = below maxKey s ++ R ∧ ∀ f ∈ R, maxKey ≤ f.key := by
  obtain ⟨L, R, rfl, hL, hR⟩ := h.split maxKey
  exact ⟨R, by rw [below, filter_lt_append hL hR], hR⟩

/-- An assignment gives the range its value, and leaves the other keys. -/
theorem Holds.value_assign (h : Holds t minKey maxKey init l r) (hmin : minKey ≤ x)
    (hmax : x < maxKey) : IntervalMap.value (assign minKey maxKey (leaves l) lo hi val) x =
      if lo ≤ x ∧ x < hi then some val else IntervalMap.value (leaves l) x := by
  unfold assign
  by_cases hlt : max lo minKey < min hi maxKey
  · obtain ⟨L, M, R, w, hsplits⟩ := h.splits hlt (le_max_right lo minKey)
    obtain ⟨B, hB, hkey⟩ := below_split (sorted_insert (v := val) h.sorted hlt hsplits) maxKey
    have hbelow := value_append (L := below maxKey (insert (leaves l) (max lo minKey)
      (min hi maxKey) val)) (x := x) fun m hm => hmax.trans_le (hkey m hm)
    rw [← hbelow, ← hB, value_insert hlt hsplits]
    have hiff : max lo minKey ≤ x ∧ x < min hi maxKey ↔ lo ≤ x ∧ x < hi := by omega
    simp only [hiff]
  · unfold IntervalMap.insert
    rw [if_pos (not_lt.mp hlt), if_neg (by omega), below, List.filter_eq_self.mpr]
    intro f hf
    simpa using h.lt_maxKey f hf

theorem Holds.minimal_assign (h : Holds t minKey maxKey init l r) (hm : Minimal (leaves l)) :
    Minimal (assign minKey maxKey (leaves l) lo hi val) := by
  unfold assign
  by_cases hlt : max lo minKey < min hi maxKey
  · obtain ⟨L, M, R, w, hsplits⟩ := h.splits hlt (le_max_right lo minKey)
    obtain ⟨B, hB, -⟩ := below_split (sorted_insert (v := val) h.sorted hlt hsplits) maxKey
    have hins := minimal_insert (v := val) hm hlt hsplits
    rw [hB] at hins
    exact (List.isChain_append.mp hins).1
  · unfold IntervalMap.insert
    rw [if_pos (not_lt.mp hlt), below, List.filter_eq_self.mpr]
    · exact hm
    · intro f hf
      simpa using h.lt_maxKey f hf

/-- The insertion of a value, whichever end the position is searched for from. -/
theorem Represents.insert (val : β) (forward : Bool) (h : Represents t minKey maxKey init f l r)
    (hpre : lo < hi → hi ≠ minKey ∧ lo ≠ maxKey) :
    ∃ t' position changed l', t.insertSegmentImpl lo hi val forward = .ok (t', position, changed) ∧
      Represents t' minKey maxKey init (fun x => if lo ≤ x ∧ x < hi then val else f x) l' r ∧
      (changed = true ↔
        ∃ x, minKey ≤ x ∧ x < maxKey ∧ (if lo ≤ x ∧ x < hi then val else f x) ≠ f x) ∧
      t'.mValidTree = (if changed then false else t.mValidTree) ∧
      Assigned minKey maxKey l r lo hi val position changed l' := by
  obtain ⟨t', position, changed, l', hrun, hholds, hsame, hassigned, hunchanged⟩ :=
    insertSegmentImpl_spec val forward h.holds hpre
  have hvalue : ∀ x, minKey ≤ x → x < maxKey →
      IntervalMap.value (leaves l') x = some (if lo ≤ x ∧ x < hi then val else f x) := by
    intro x hx hx'
    rw [hassigned.assigned, h.holds.value_assign hx hx', h.value x hx hx']
    split_ifs <;> rfl
  have hminimal : Minimal (leaves l') := by
    rw [hassigned.assigned]
    exact h.holds.minimal_assign h.minimal
  have hchanged : changed = true ↔
      ∃ x, minKey ≤ x ∧ x < maxKey ∧ (if lo ≤ x ∧ x < hi then val else f x) ≠ f x := by
    rw [hassigned.changed, ← not_iff_not, not_not]
    constructor
    · rintro heq ⟨x, hx, hx', hne⟩
      have hv := hvalue x hx hx'
      rw [heq, h.value x hx hx'] at hv
      exact hne (Option.some.inj hv).symm
    · intro hnone
      refine Minimal.eq_of_value hholds.sorted hminimal h.holds.sorted h.minimal hholds.minKey
        h.holds.minKey hholds.lt_maxKey h.holds.lt_maxKey fun x hx hx' => ?_
      rw [hvalue x hx hx', h.value x hx hx']
      by_contra hne
      exact hnone ⟨x, hx, hx', fun heq => hne (congrArg some heq)⟩
  refine ⟨t', position, changed, l', hrun, ⟨hholds, hminimal, hvalue, fun hvalid => ?_⟩, hchanged,
    by rw [hsame], hassigned⟩
  rw [hsame] at hvalid
  cases changed with
  | true => cases hvalid
  | false =>
    rw [hunchanged rfl, Built, hsame]
    exact h.built hvalid

/-- What one operation does to the contents and to the validity of the tree. -/
theorem Represents.step (h : Represents t minKey maxKey init f l r)
    (hop : op.Allowed minKey maxKey) : ∃ t' l', t.step op = .ok t' ∧
      Represents t' minKey maxKey init (op.write f) l' r ∧
      (t'.mValidTree = true ↔
        op = .buildTree ∨ t.mValidTree = true ∧ op.Keeps minKey maxKey f) := by
  have hvalid : ∀ {t' : FlatSegmentTree β} {g : Int → β} {changed : Bool},
      (changed = true ↔ ∃ x, minKey ≤ x ∧ x < maxKey ∧ g x ≠ f x) →
      t'.mValidTree = (if changed then false else t.mValidTree) →
      (t'.mValidTree = true ↔
        t.mValidTree = true ∧ ∀ x, minKey ≤ x → x < maxKey → g x = f x) := by
    intro t' g changed hch hv
    rw [hv]
    cases changed with
    | true =>
      obtain ⟨x, hx, hx', hne⟩ := hch.mp rfl
      simp only [if_true, Bool.false_eq_true, false_iff, not_and]
      exact fun _ hall => hne (hall x hx hx')
    | false =>
      have hall : ∀ x, minKey ≤ x → x < maxKey → g x = f x := by
        intro x hx hx'
        by_contra hne
        exact Bool.false_ne_true (hch.mpr ⟨x, hx, hx', hne⟩)
      exact ⟨fun hv => ⟨hv, hall⟩, fun hv => hv.1⟩
  cases op with
  | insertFront lo hi val =>
    obtain ⟨t', position, changed, l', hrun, hrep, hch, hv, -⟩ := h.insert val true hop
    refine ⟨t', l', ?_, hrep, ?_⟩
    · unfold FlatSegmentTree.step insertFront
      dsimp only
      rw [hrun]
      rfl
    · rw [hvalid hch hv]
      simp [Op.Keeps, Op.write]
  | insertBack lo hi val =>
    obtain ⟨t', position, changed, l', hrun, hrep, hch, hv, -⟩ := h.insert val false hop
    refine ⟨t', l', ?_, hrep, ?_⟩
    · unfold FlatSegmentTree.step insertBack
      dsimp only
      rw [hrun]
      rfl
    · rw [hvalid hch hv]
      simp [Op.Keeps, Op.write]
  | buildTree =>
    obtain ⟨t', hrun, hholds, hbuilt, hsame⟩ := buildTree_spec h.holds
    have hv : t'.mValidTree = true := by rw [hsame]
    exact ⟨t', l, hrun, ⟨hholds, h.minimal, h.value, fun _ => hbuilt⟩,
      ⟨fun _ => .inl rfl, fun _ => hv⟩⟩

omit [DecidableEq β] in
theorem new_represents (init : β) (h : minKey < maxKey) :
    Represents (new minKey maxKey init) minKey maxKey init (fun _ => init)
      [(0, ⟨minKey, init⟩)] (1, ⟨maxKey, init⟩) where
  holds := {
    listed := {
      links := ⟨rfl, rfl, trivial⟩
      nodup := by simp
      lt := by simp [new]
      sorted := by simpa [Sorted] using h }
    left := rfl
    right := rfl
    minKey := rfl
    maxKey := rfl }
  minimal := .singleton _
  value x hx _ := value_cons (List.pairwise_singleton _ _) hx (by simp)
  built h := by cases h

/-- A run does not fault and the leaves represent what it assigned; the tree is valid as long
as nothing was changed since it was built. -/
theorem run_spec (init : β) (h : minKey < maxKey) (hops : ∀ op ∈ ops, op.Allowed minKey maxKey) :
    ∃ t l r, (new minKey maxKey init).run ops = .ok t ∧
      Represents t minKey maxKey init (contents init ops) l r ∧
      (t.mValidTree = true ↔ Fresh minKey maxKey init ops) := by
  induction ops using List.reverseRecOn with
  | nil =>
    refine ⟨_, _, _, rfl, new_represents init h, ?_⟩
    constructor
    · intro hv
      cases hv
    · generalize hl : ([] : List (Op β)) = l
      intro hf
      cases hf <;> simp at hl
  | append_singleton ops op ih =>
    obtain ⟨t, l, r, hrun, hrep, hvalid⟩ := ih fun op hop => hops op (List.mem_append_left _ hop)
    obtain ⟨t', l', hstep, hrep', hvalid'⟩ :=
      hrep.step (hops op (List.mem_append_right _ (List.mem_singleton_self op)))
    refine ⟨t', l', r, ?_, contents_snoc init ops op ▸ hrep', ?_⟩
    · unfold run at hrun ⊢
      rw [List.foldlM_append, hrun, ok_bind, List.foldlM_cons, hstep]
      rfl
    · rw [hvalid', hvalid, fresh_snoc]

omit [DecidableEq β] in
/-- The leaf around a key starts a segment of the contents, which the next leaf ends. -/
theorem Represents.segment {c d : Entry β} (h : Represents t minKey maxKey init f l r)
    (hcd : Neighbours (l ++ [r]) x c d) :
    IsSegment minKey maxKey f x c.2.key d.2.key c.2.val := by
  obtain ⟨P, Q, heq⟩ := hcd.split
  -- the leaf `c` is not the last one
  obtain ⟨Q', hQ', rfl⟩ : ∃ Q', d :: Q = Q' ++ [r] ∧ l = P ++ c :: Q' := by
    obtain ⟨Q', q, hq⟩ := (List.eq_nil_or_concat' (d :: Q)).resolve_left (List.cons_ne_nil d Q)
    rw [hq, show P ++ c :: (Q' ++ [q]) = (P ++ c :: Q') ++ [q] by simp] at heq
    obtain ⟨hl, hr⟩ := List.append_inj' heq rfl
    exact ⟨Q', by rw [hq, List.singleton_inj.mp hr], hl⟩
  have hl : leaves (P ++ c :: Q') = leaves P ++ c.2 :: leaves Q' := by simp
  have hs : Sorted (leaves P ++ c.2 :: leaves Q') := hl ▸ h.holds.sorted
  have hm : Minimal (leaves P ++ c.2 :: leaves Q') := hl ▸ h.minimal
  have hk := h.holds.minKey
  have hlt := h.holds.lt_maxKey
  have hvalue := h.value
  rw [hl] at hk hlt hvalue
  have hcmin : minKey ≤ c.2.key := hs.head_le hk c.2 (by simp)
  have hstart : c.2.key = minKey ∨ f (c.2.key - 1) ≠ c.2.val := by
    have hc := hlt c.2 (by simp)
    refine (hm.ne_before hs hk).imp_right fun hne hf => hne.2 ?_
    rw [hvalue _ (by omega) (by omega), hf]
  cases Q' with
  | nil =>
    obtain ⟨rfl, -⟩ := List.cons.inj hQ'
    have hd : d.2.key = maxKey := by rw [h.holds.maxKey]
    refine ⟨⟨hcd.le, hcd.lt⟩, ⟨hcmin, hd.le⟩, fun y hy hy' => ?_, hstart, .inl hd⟩
    have hv := hvalue y (hcmin.trans hy) (hy'.trans_eq hd)
    rw [IntervalMap.value_mid hs hy (by simp)] at hv
    exact (Option.some.inj hv).symm
  | cons q R =>
    obtain ⟨rfl, -⟩ := List.cons.inj hQ'
    have hd : d.2.key < maxKey := hlt d.2 (by simp)
    refine ⟨⟨hcd.le, hcd.lt⟩, ⟨hcmin, hd.le⟩, fun y hy hy' => ?_, hstart, .inr fun hf => ?_⟩
    · have hv := hvalue y (hcmin.trans hy) (hy'.trans hd)
      rw [IntervalMap.value_mid hs hy fun e he => Option.some.inj he ▸ hy'] at hv
      exact (Option.some.inj hv).symm
    · refine hm.ne_after hs ?_
      rw [← hf]
      exact hvalue d.2.key ((hcmin.trans hcd.le).trans hcd.lt.le) hd

/-- An iterator on the node stands on a segment, and the next one starts at its end. -/
def StandsOn (t : FlatSegmentTree β) (p : Nat) (start stop : Int) (val : β) : Prop :=
  ∃ n m, t.node (some p) = .ok n ∧ n.data = ⟨start, val⟩ ∧ t.node n.next = .ok m ∧
    m.data.key = stop

omit [DecidableEq β] in
theorem Listed.standsOn {c d : Entry β} (h : Listed t l) (hcd : Neighbours l x c d) :
    t.StandsOn c.1 c.2.key d.2.key c.2.val := by
  obtain ⟨P, Q, rfl⟩ := hcd.split
  have hcc := h.cell (L := P) (e := c) (M := d :: Q) rfl
  have hcd := h.cell (L := P ++ [c]) (e := d) (M := Q) (by simp)
  exact ⟨_, _, node_eq hcc, rfl, node_eq hcd, rfl⟩

omit [DecidableEq β] in
theorem Holds.neighbours (h : Holds t minKey maxKey init l r) (hmin : minKey ≤ x)
    (hmax : x < maxKey) : ∃ c d, Neighbours (l ++ [r]) x c d := by
  obtain ⟨X, Y, hXY, hX, hY⟩ := h.listed.sorted.split (x + 1)
  obtain ⟨L, R, hl, rfl, rfl⟩ := List.map_eq_append_iff.mp hXY
  rw [List.forall_mem_map] at hX hY
  obtain ⟨e, l₀, rfl, -, hkey, -⟩ := h.leftLeaf
  have hr : r.2.key = maxKey := by rw [h.maxKey]
  have he : e ∈ L := by
    have hmem : e ∈ L ++ R := hl ▸ List.mem_append_left [r] List.mem_cons_self
    refine (List.mem_append.mp hmem).resolve_right fun he => ?_
    have := hY e he
    omega
  have hrR : r ∈ R := by
    have hmem : r ∈ L ++ R := hl ▸ List.mem_append_right _ (List.mem_singleton_self r)
    refine (List.mem_append.mp hmem).resolve_left fun hr' => ?_
    have := hX r hr'
    omega
  obtain ⟨L, c, rfl⟩ := (List.eq_nil_or_concat' L).resolve_left (List.ne_nil_of_mem he)
  obtain ⟨d, R, rfl⟩ := List.exists_cons_of_ne_nil (List.ne_nil_of_mem hrR)
  have hc := hX c (by simp)
  have hd := hY d List.mem_cons_self
  exact ⟨c, d, ⟨L, R, by rw [hl, List.append_assoc]; rfl⟩, by omega, by omega⟩

omit [DecidableEq β] in
theorem Listed.eq_of_leaf {e c : Entry β} (h : Listed t l) (he : e ∈ l) (hc : c ∈ l)
    (heq : e.2 = c.2) : e = c := by
  have hnodup : (leaves l).Nodup :=
    h.sorted.imp fun hlt heq => hlt.ne (congrArg Leaf.key heq)
  exact List.inj_on_of_nodup_map hnodup he hc heq

/-- After any run, `search_tree` finds the segment of every key of the tree, if nothing was
changed since the tree was built, and nothing at all otherwise. -/
theorem searchTree_run (init : β) (ops : List (Op β)) (x : Int) (h : minKey < maxKey)
    (hops : ∀ op ∈ ops, op.Allowed minKey maxKey) :
    ∃ t, (new minKey maxKey init).run ops = .ok t ∧
      (Fresh minKey maxKey init ops → minKey ≤ x → x < maxKey → ∃ p start stop val,
        t.searchTree x = .ok (some ⟨p, val, start, stop⟩) ∧
        IsSegment minKey maxKey (contents init ops) x start stop val ∧
        t.StandsOn p start stop val) ∧
      (¬ Fresh minKey maxKey init ops ∨ x < minKey ∨ maxKey ≤ x → t.searchTree x = .ok none) := by
  obtain ⟨t, l, r, hrun, hrep, hvalid⟩ := run_spec init h hops
  refine ⟨t, hrun, fun hfresh hmin hmax => ?_, fun hnot => ?_⟩
  · have hv := hvalid.mpr hfresh
    obtain ⟨c, d, hcd, hsearch⟩ := searchTree_spec hrep.holds (hrep.built hv) hv hmin hmax
    exact ⟨c.1, c.2.key, d.2.key, c.2.val, hsearch, hrep.segment hcd,
      hrep.holds.listed.standsOn hcd⟩
  · rcases hnot with hnot | hkey
    · exact searchTree_invalid t (Bool.eq_false_iff.mpr fun hv => hnot (hvalid.mp hv))
    · exact searchTree_outside hrep.holds hkey

theorem searchTree_run_example : ∃ t,
    (new 0 8 false).run [.insertBack 2 5 true, .buildTree] = .ok t ∧
      ∃ p start stop val, t.searchTree 3 = .ok (some ⟨p, val, start, stop⟩) ∧
      IsSegment 0 8 (contents false [.insertBack 2 5 true, .buildTree]) 3 start stop val := by
  obtain ⟨t, hrun, hfound, -⟩ := searchTree_run false [.insertBack 2 5 true, .buildTree] 3
    (show (0 : Int) < 8 by decide) (by simp [Op.Allowed])
  obtain ⟨p, start, stop, val, hsearch, hsegment, -⟩ :=
    hfound (.build [.insertBack 2 5 true]) (by decide) (by decide)
  exact ⟨t, hrun, p, start, stop, val, hsearch, hsegment⟩

/-- An insertion after any run, from either end of the list, gives the range its value. Its
flag tells whether some key of the range held another one, and its iterator stands on the
segment of the first key of the range. A leaf that stays is still at its address. -/
theorem insert_run (init : β) (ops : List (Op β)) (lo hi : Int) (val : β) (forward : Bool)
    (h : minKey < maxKey) (hops : ∀ op ∈ ops, op.Allowed minKey maxKey)
    (hpre : lo < hi → hi ≠ minKey ∧ lo ≠ maxKey) :
    ∃ t t' position changed l l' r, (new minKey maxKey init).run ops = .ok t ∧
      t.insertSegmentImpl lo hi val forward = .ok (t', position, changed) ∧
      Represents t minKey maxKey init (contents init ops) l r ∧
      Represents t' minKey maxKey init
        (fun x => if lo ≤ x ∧ x < hi then val else contents init ops x) l' r ∧
      (∀ a ∈ l', Stays (l ++ [r]) a) ∧
      (changed = true ↔ ∃ x, minKey ≤ x ∧ x < maxKey ∧ lo ≤ x ∧ x < hi ∧
        contents init ops x ≠ val) ∧
      (max lo minKey < min hi maxKey → ∃ p start stop, position = some p ∧
        t'.StandsOn p start stop val ∧ start ≤ max lo minKey ∧ min hi maxKey ≤ stop) ∧
      (¬ max lo minKey < min hi maxKey → position = none) := by
  obtain ⟨t, l, r, hrun, hrep, -⟩ := run_spec init h hops
  obtain ⟨t', position, changed, l', hins, hrep', hch, -, hassigned⟩ := hrep.insert val forward hpre
  refine ⟨t, t', position, changed, l, l', r, hrun, hins, hrep, hrep', hassigned.stay, ?_,
    fun hlt => ?_, hassigned.missed⟩
  · rw [hch]
    constructor
    · rintro ⟨x, hx, hx', hne⟩
      by_cases hin : lo ≤ x ∧ x < hi
      · rw [if_pos hin] at hne
        exact ⟨x, hx, hx', hin.1, hin.2, hne.symm⟩
      · exact absurd (if_neg hin) hne
    · rintro ⟨x, hx, hx', hlo, hhi, hne⟩
      exact ⟨x, hx, hx', by rw [if_pos ⟨hlo, hhi⟩]; exact hne.symm⟩
  · obtain ⟨e, he, hpos, hsearch⟩ := hassigned.found hlt
    obtain ⟨c, d, hcd⟩ := hrep'.holds.neighbours (le_max_right lo minKey)
      (hlt.trans_le (min_le_right hi maxKey))
    have hseg := hrep'.segment hcd
    have hc : c ∈ l' ++ [r] := by
      obtain ⟨P, Q, heq⟩ := hcd.split
      rw [heq]
      exact List.mem_append_right P List.mem_cons_self
    have hcsearch := (hcd.search hrep'.holds.listed.sorted).1
    rw [leaves, List.map_append, search_append, hsearch] at hcsearch
    · obtain rfl := hrep'.holds.listed.eq_of_leaf (List.mem_append_left [r] he) hc
        (Option.some.inj hcsearch)
      have hval := hseg.const (max lo minKey) hseg.mem.1 hseg.mem.2
      rw [if_pos (by omega)] at hval
      refine ⟨e.1, e.2.key, d.2.key, hpos, hval ▸ hrep'.holds.listed.standsOn hcd, hseg.mem.1, ?_⟩
      by_contra hstop
      have hin : lo ≤ d.2.key ∧ d.2.key < hi := by
        have := hseg.mem.2
        omega
      rcases hseg.stop with hmax | hne
      · omega
      · rw [if_pos hin] at hne
        exact hne hval
    · intro m hm
      rw [List.mem_singleton.mp hm, hrep'.holds.maxKey]
      exact hlt.trans_le (min_le_right hi maxKey)

theorem insert_run_example : ∃ t t' position changed l r,
    (new 0 8 false).run [.insertBack 2 5 true] = .ok t ∧
      t.insertSegmentImpl 4 6 true true = .ok (t', position, changed) ∧
      Represents t' 0 8 false (fun x => if 4 ≤ x ∧ x < 6 then true else
        contents false [.insertBack 2 5 true] x) l r := by
  obtain ⟨t, t', position, changed, _, l', r, hrun, hins, -, hrep, -⟩ :=
    insert_run false [.insertBack 2 5 true] 4 6 true true (show (0 : Int) < 8 by decide)
      (by simp [Op.Allowed]) (by decide)
  exact ⟨t, t', position, changed, l', r, hrun, hins, hrep⟩

end FlatSegmentTree
end EchoFs.Mdds
