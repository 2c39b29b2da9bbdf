import EchoFs.Avl.Walk
import EchoFs.Library.Transition
import EchoFs.RangeLock.Ops

/-! The table of `lock_manager` and the tree that it stands for. The tree looks at the start
of a descriptor only, so it is here a tree of offsets, with the addresses of the table. -/

namespace EchoFs.RangeLock
open Avl Checked Slots Transition

/-- What the tree holds of a list of entries. -/
def view (l : List Node) : List (Addr × Int) := l.map fun n => (.heap n.addr, n.data.mStart)

/-- The tree holds the entries of the table, in the order of its keys. -/
structure Realises (t : AvlTree Int) (table : Table) : Prop where
  sound : Sound id t
  elements : t.elements = view table.nodes
  addr : table.AddrOk

def Direction.side : Direction → Side
  | .before => .left
  | .after => .right

/-- The calls of `lock_manager` that change the tree. Between them it writes to descriptors,
but never to their start. -/
inductive TreeOp where
  | add (r : Range)
  | insertHere (r : Range) (here : Nat)
  | removeNode (a : Nat)
  | modify (a : Nat) (f : Range → Range)

namespace TreeOp

def onTable (table : Table) : TreeOp → Result Table
  | add r => do
    let (table, _) ← table.add r
    return table
  | insertHere r here => do
    let (table, _) ← table.insertHere r here .after
    return table
  | removeNode a => table.removeNode a
  | modify a f => return table.modify a f

/-- The same call of the tree, where `new` returns the address `fresh`. -/
def onTree (t : AvlTree Int) (fresh : Nat) : TreeOp → Result (AvlTree Int)
  | add r => t.add id fresh r.mStart
  | insertHere r here => t.insertHere fresh r.mStart (.heap here) .right
  | removeNode a => t.removeNode (some (.heap a))
  | modify _ _ => return t

/-- An entry is put behind its neighbour, and what is removed is an entry. -/
def Allowed (table : Table) : TreeOp → Prop
  | add _ => True
  | insertHere r here => ∃ L n R, table.nodes = L ++ n :: R ∧ n.addr = here ∧
      n.data.mStart < r.mStart ∧ ∀ m ∈ R, r.mStart < m.data.mStart
  | removeNode a => a ∈ addrs table.nodes
  | modify _ f => ∀ r, (f r).mStart = r.mStart

/-- The address that `new` returns after the call. -/
def next (fresh : Nat) : TreeOp → Nat
  | add _ => fresh + 1
  | insertHere _ _ => fresh + 1
  | _ => fresh

/-- The tree and the address that `new` returns next. -/
def onTreeFrom (s : AvlTree Int × Nat) (op : TreeOp) : Result (AvlTree Int × Nat) := do
  let t ← op.onTree s.1 s.2
  return (t, op.next s.2)

end TreeOp

/-! ### Lists whose keys increase -/

theorem increasing_of_sound {t : AvlTree Int} (h : Sound id t) : Increasing id t.elements := by
  obtain ⟨w, x, hx, hinc⟩ := h
  rw [hx.elements]
  exact hinc

section Keys
variable {xs ys : List (Addr × Int)} {a : Addr} {k : Int}

theorem lt_of_increasing (h : Increasing id (xs ++ (a, k) :: ys)) : ∀ e ∈ xs, e.2 < k :=
  fun e he => (List.pairwise_append.mp h).2.2 e he (a, k) List.mem_cons_self

theorem gt_of_increasing (h : Increasing id (xs ++ (a, k) :: ys)) : ∀ e ∈ ys, k < e.2 :=
  (List.pairwise_cons.mp (List.pairwise_append.mp h).2.1).1

end Keys

section Views
variable {l L R : List Node} {n : Node} {t t' : AvlTree Int} {table : Table}

theorem view_append : view (L ++ R) = view L ++ view R := List.map_append

theorem view_cons : view (n :: l) = (.heap n.addr, n.data.mStart) :: view l := rfl

theorem mem_view {a : Addr} {k : Int} :
    (a, k) ∈ view l ↔ ∃ n ∈ l, a = .heap n.addr ∧ n.data.mStart = k := by
  unfold view
  rw [List.mem_map]
  constructor
  · rintro ⟨n, hn, he⟩
    cases he
    exact ⟨n, hn, rfl, rfl⟩
  · rintro ⟨n, hn, rfl, rfl⟩
    exact ⟨n, hn, rfl⟩

theorem forall_view {p : Int → Prop} (h : ∀ n ∈ l, p n.data.mStart) : ∀ e ∈ view l, p e.2 := by
  intro e he
  obtain ⟨n, hn, -, hk⟩ := mem_view.mp he
  exact hk ▸ h n hn

theorem fst_view : (view l).map Prod.fst = (addrs l).map Addr.heap := by
  unfold view addrs
  rw [List.map_map, List.map_map]
  rfl

theorem Realises.increasing (h : Realises t table) : Increasing id (view table.nodes) :=
  h.elements ▸ increasing_of_sound h.sound

/-- The address that `new` returns next is free. -/
theorem Realises.fresh (h : Realises t table) : t.mem (.heap table.fresh) = none := by
  obtain ⟨w, x, hx, -⟩ := h.sound
  refine hx.outside _ fun hmem => ?_
  have hnames : x.names = (view table.nodes).map Prod.fst := by
    rw [← h.elements, hx.elements]
    rfl
  rw [hnames, fst_view, List.mem_map] at hmem
  obtain ⟨a, ha, he⟩ := hmem
  cases he
  refine h.addr.fresh_notMem ?_
  rw [addrs_append]
  exact List.mem_append_left _ ha

/-- Where an element is added to the tree is settled by its key. -/
theorem eq_of_adds {l' : List (Addr × Int)} {a : Addr} {k : Int}
    (h : Op.Adds (view (L ++ R)) l' a k) (hinc : Increasing id l') (hL : ∀ m ∈ L, m.data.mStart < k)
    (hR : ∀ m ∈ R, k < m.data.mStart) : l' = view L ++ (a, k) :: view R := by
  obtain ⟨xs, ys, hl, rfl⟩ := h
  rw [view_append] at hl
  have hxs : ∀ e ∈ xs, e.2 < k := lt_of_increasing hinc
  have hys : ∀ e ∈ ys, k < e.2 := gt_of_increasing hinc
  have hvL : ∀ e ∈ view L, e.2 < k := forall_view (p := (· < k)) hL
  have hvR : ∀ e ∈ view R, k < e.2 := forall_view (p := (k < ·)) hR
  rcases List.append_eq_append_iff.mp hl with ⟨c, rfl, hc⟩ | ⟨c, hc, rfl⟩
  · cases c with
    | nil => rw [List.append_nil, ← List.nil_append ys, hc]
    | cons e c =>
      have he : e ∈ view R := hc ▸ List.mem_append_left _ List.mem_cons_self
      exact absurd (hxs e (by simp)) (hvR e he).not_gt
  · cases c with
    | nil => rw [hc, List.append_nil, List.nil_append]
    | cons e c =>
      have he : e ∈ view L := hc ▸ List.mem_append_right _ List.mem_cons_self
      exact absurd (hvL e he) (hys e (by simp)).not_gt

theorem exists_of_view {xs ys : List (Addr × Int)} (h : view l = xs ++ ys) :
    ∃ L R, l = L ++ R ∧ view L = xs ∧ view R = ys := List.map_eq_append_iff.mp h

theorem Realises.mem_nodes (h : Realises t table) {a : Nat} (ha : a ∈ addrs table.nodes) :
    Addr.heap a ∈ t.nodes := by
  unfold AvlTree.nodes
  rw [h.elements, fst_view]
  exact List.mem_map_of_mem ha

theorem Realises.pairwise (h : Realises t table) :
    table.nodes.Pairwise fun m n => m.data.mStart < n.data.mStart := by
  have hinc : (view table.nodes).Pairwise fun p q => p.2 < q.2 := h.increasing
  exact List.Pairwise.of_map (S := fun p q => p.2 < q.2)
    (fun n : Node => (Addr.heap n.addr, n.data.mStart)) (fun _ _ hlt => hlt) hinc

end Views

/-- What the calls that do not change the tree return. -/
structure Answers (t : AvlTree Int) (table : Table) : Prop where
  find : ∀ k, ∃ point, t.find id k = .ok ((table.find k).1.map .heap, point) ∧
    ((table.find k).1 = none → ∀ dir : Direction, t.nearest point dir.side =
      .ok ((table.nearest (table.find k).2 dir).map .heap))
  next : ∀ a ∈ addrs table.nodes, t.next (.heap a) = .ok ((table.next a).map .heap)

section Steps
variable {t : AvlTree Int} {table : Table} {op : TreeOp}

/-- The tree and the table do the same, or refuse the same. -/
def Simulates (t : AvlTree Int) (table : Table) (op : TreeOp) : Prop :=
  (∃ t' table', op.onTree t table.fresh = .ok t' ∧ op.onTable table = .ok table' ∧
    Realises t' table' ∧ table'.fresh = op.next table.fresh) ∨
  op.onTree t table.fresh = .error .assertion ∧ op.onTable table = .error .assertion

theorem Realises.add (h : Realises t table) (r : Range) : Simulates t table (.add r) := by
  rcases apply_spec h.sound (.add table.fresh r.mStart) h.fresh with
    ⟨t', he, hs, -, xs, ys, hl, hl'⟩ | ⟨⟨e, hmem, hkey⟩, he⟩
  · left
    rw [h.elements] at hl
    obtain ⟨L, R, hn, rfl, rfl⟩ := exists_of_view hl
    have hinc := increasing_of_sound hs
    rw [hl'] at hinc
    have hL : ∀ m ∈ L, m.data.mStart < r.mStart := fun m hm =>
      lt_of_increasing hinc _ (mem_view.mpr ⟨m, hm, rfl, rfl⟩)
    have hR : ∀ m ∈ R, r.mStart < m.data.mStart := fun m hm =>
      gt_of_increasing hinc _ (mem_view.mpr ⟨m, hm, rfl, rfl⟩)
    refine ⟨t', _, he, ?_, ⟨hs, ?_, h.addr.insert (r := r) hn⟩, rfl⟩
    · simp only [TreeOp.onTable, Table.add_between hn hL hR]
      rfl
    · rw [hl', view_append, view_cons]
  · right
    refine ⟨he, ?_⟩
    rw [h.elements] at hmem
    obtain ⟨n, hn, -, hk⟩ := mem_view.mp hmem
    cases hf : table.nodes.find? (fun n => n.data.mStart = r.mStart) with
    | none => exact absurd (hk.trans hkey) (by simpa using List.find?_eq_none.mp hf n hn)
    | some m =>
      simp only [TreeOp.onTable, Table.add, Table.find, hf]
      rfl

theorem Realises.insertHere (h : Realises t table) (r : Range) (here : Nat)
    (hop : (TreeOp.insertHere r here).Allowed table) :
    Simulates t table (.insertHere r here) := by
  obtain ⟨L, ⟨here, s⟩, R, hn, rfl, hlt, hR⟩ := hop
  have hpair := h.pairwise
  rw [hn] at hpair
  have hLn : ∀ m ∈ L, m.data.mStart < s.mStart := fun m hm =>
    (List.pairwise_append.mp hpair).2.2 m hm _ List.mem_cons_self
  have hmem : ⟨here, s⟩ ∈ table.nodes := by simp [hn]
  have hnext : NextTo id t.elements (.heap here) .right r.mStart := by
    rintro xs ys ⟨a, k⟩ hl rfl
    have hinc := h.increasing
    rw [h.elements] at hl
    have hk : k = s.mStart := by
      obtain ⟨m, hm, ha, rfl⟩ := mem_view.mp (hl ▸ List.mem_append_right xs List.mem_cons_self)
      cases ha
      rw [h.addr.eq_of_addr hm hmem rfl]
    refine ⟨hk ▸ hlt, fun e he => ?_⟩
    have hys : e ∈ ys := List.mem_of_mem_head? he
    rw [hl] at hinc
    have hlow : k < e.2 := gt_of_increasing hinc e hys
    have he : e ∈ view (L ++ ⟨here, s⟩ :: R) :=
      hn ▸ hl ▸ List.mem_append_right xs (List.mem_cons_of_mem _ hys)
    obtain ⟨m, hm, -, hstart⟩ := mem_view.mp he
    have habove : s.mStart < m.data.mStart := by
      rw [hstart, ← hk]
      exact hlow
    rw [← hstart]
    rcases List.mem_append.mp hm with hm | hm
    · exact absurd (hLn m hm) habove.not_gt
    · rcases List.mem_cons.mp hm with rfl | hm
      · exact absurd habove (lt_irrefl _)
      · exact hR m hm
  rcases apply_spec h.sound (.insertHere table.fresh r.mStart (.heap here) .right)
    ⟨h.fresh, h.mem_nodes (mem_addrs hmem), hnext⟩ with ⟨t', he, hs, hadds⟩ | ⟨hfalse, -⟩
  · left
    rw [h.elements, hn, List.append_cons] at hadds
    have hl' := eq_of_adds hadds (increasing_of_sound hs) (by
      intro m hm
      rcases List.mem_append.mp hm with hm | hm
      · exact (hLn m hm).trans hlt
      · exact List.mem_singleton.mp hm ▸ hlt) hR
    have haddr := h.addr.insert (L := L ++ [⟨here, s⟩]) (R := R) (r := r) (by simp [hn])
    refine ⟨t', _, he, ?_, ⟨hs, ?_, haddr⟩, rfl⟩
    · simp only [TreeOp.onTable, Table.insertHere_after h.addr hn]
      rfl
    · rw [hl', ← view_cons (n := ⟨table.fresh, r⟩)]
      exact view_append.symm
  · exact hfalse.elim

/-- Both count the entries in 32 bits. -/
theorem Realises.counts (h : Realises t table) : t.mNumNodes = table.size := by
  obtain ⟨w, x, hx, -⟩ := h.sound
  have hnum := hx.num
  rw [← hx.elements, h.elements, view, List.length_map] at hnum
  exact hnum

theorem Realises.removeNode (h : Realises t table) (a : Nat)
    (hop : (TreeOp.removeNode a).Allowed table) : Simulates t table (.removeNode a) := by
  have ha : a ∈ addrs table.nodes := hop
  have hmem := h.mem_nodes ha
  obtain ⟨w, x, hx, -⟩ := h.sound
  rcases removeNode_spec hx (hx.nodes ▸ hmem) with ⟨hpos, -⟩ | ⟨hzero, he⟩
  · left
    rcases apply_spec h.sound (.removeNode (some (.heap a))) (by
      rintro b hb
      exact Option.some.inj hb ▸ hmem) with
      ⟨t', he, hs, k, xs, ys, hl', hl⟩ | ⟨⟨hzero, -⟩, -⟩
    · rw [h.elements] at hl
      obtain ⟨L, R', hn, rfl, hR'⟩ := exists_of_view hl
      obtain ⟨n, R, rfl, hhead, rfl⟩ := List.map_eq_cons_iff.mp hR'
      cases hhead
      have hc : table.nodes.length % 2 ^ 32 ≠ 0 := (h.counts ▸ hpos).ne'
      refine ⟨t', _, he, Table.removeNode_node h.addr hn hc, ⟨hs, ?_, h.addr.removeNode hn⟩, rfl⟩
      rw [hl']
      exact view_append.symm
    · exact absurd hzero hpos.ne'
  · exact .inr ⟨he, Table.removeNode_wrapped (h.counts.symm.trans hzero) a⟩

theorem Realises.modify (h : Realises t table) (a : Nat) (f : Range → Range)
    (hop : (TreeOp.modify a f).Allowed table) : Simulates t table (.modify a f) := by
  refine .inl ⟨t, _, rfl, rfl, ⟨h.sound, ?_, h.addr.modify a f⟩, rfl⟩
  rw [h.elements]
  simp only [view, Table.modify, Slots.modify, List.map_map]
  refine List.map_congr_left fun n _ => ?_
  simp only [Function.comp_apply]
  split
  · rw [hop]
  · rfl

/-- What a call of the tree does is what the same call of the table does. -/
theorem Realises.step (h : Realises t table) (hop : op.Allowed table) :
    Simulates t table op := by
  cases op with
  | add r => exact h.add r
  | insertHere r here => exact h.insertHere r here hop
  | removeNode a => exact h.removeNode a hop
  | modify a f => exact h.modify a f hop

/-! ### Searching and walking -/

theorem PointsTo.unique {best : Set Int → Int → Prop} {l : List (Addr × Int)} {keys : Set Int}
    {p q : Option Addr} (hbest : ∀ x y, best keys x → best keys y → x = y)
    (hkeys : ∀ x, best keys x → x ∈ keys) (hinc : Increasing id l) (hp : PointsTo best id l keys p)
    (hq : PointsTo best id l keys q) : p = q := by
  cases p with
  | none =>
    cases q with
    | none => rfl
    | some b =>
      obtain ⟨d, -, hd⟩ := hq
      exact absurd (hkeys _ hd) (by simp [show keys = ∅ from hp])
  | some a =>
    obtain ⟨d, hmem, hd⟩ := hp
    cases q with
    | none => exact absurd (hkeys _ hd) (by simp [show keys = ∅ from hq])
    | some b =>
      obtain ⟨d', hmem', hd'⟩ := hq
      have he := hinc.eq_of_key hmem hmem' (hbest _ _ hd hd')
      exact congrArg some (congrArg Prod.fst he)

theorem keysOf_lt {l r : List (Addr × Int)} {k : Int} (hl : ∀ e ∈ l, e.2 < k)
    (hr : ∀ e ∈ r, k < e.2) : {x ∈ keysOf id (l ++ r) | x < id k} = keysOf id l := by
  ext x
  constructor
  · rintro ⟨⟨e, he, rfl⟩, hlt⟩
    exact ⟨e, (List.mem_append.mp he).resolve_right fun he => (hr e he).not_gt hlt, rfl⟩
  · rintro ⟨e, he, rfl⟩
    exact ⟨⟨e, List.mem_append_left _ he, rfl⟩, hl e he⟩

theorem lt_keysOf {l r : List (Addr × Int)} {k : Int} (hl : ∀ e ∈ l, e.2 < k)
    (hr : ∀ e ∈ r, k < e.2) : {x ∈ keysOf id (l ++ r) | id k < x} = keysOf id r := by
  ext x
  constructor
  · rintro ⟨⟨e, he, rfl⟩, hlt⟩
    exact ⟨e, (List.mem_append.mp he).resolve_left fun he => (hl e he).not_gt hlt, rfl⟩
  · rintro ⟨e, he, rfl⟩
    exact ⟨⟨e, List.mem_append_right _ he, rfl⟩, hr e he⟩

theorem exists_split {l : List Node} (h : l.Pairwise fun m n => m.data.mStart < n.data.mStart)
    (k : Int) : (∃ L n R, l = L ++ n :: R ∧ (∀ m ∈ L, m.data.mStart < k) ∧ n.data.mStart = k) ∨
      ∃ L R, l = L ++ R ∧ (∀ m ∈ L, m.data.mStart < k) ∧ ∀ m ∈ R, k < m.data.mStart := by
  induction l with
  | nil => exact .inr ⟨[], [], rfl, by simp, by simp⟩
  | cons n l ih =>
    obtain ⟨hn, hl⟩ := List.pairwise_cons.mp h
    rcases lt_trichotomy n.data.mStart k with hlt | heq | hgt
    · rcases ih hl with ⟨L, m, R, rfl, hL, hm⟩ | ⟨L, R, rfl, hL, hR⟩
      · exact .inl ⟨n :: L, m, R, rfl, List.forall_mem_cons.mpr ⟨hlt, hL⟩, hm⟩
      · exact .inr ⟨n :: L, R, rfl, List.forall_mem_cons.mpr ⟨hlt, hL⟩, hR⟩
    · exact .inl ⟨[], n, l, rfl, by simp, heq⟩
    · exact .inr ⟨[], n :: l, rfl, by simp,
        List.forall_mem_cons.mpr ⟨hgt, fun m hm => hgt.trans (hn m hm)⟩⟩

/-- The tree finds what the table finds, and moves to the same neighbours. -/
theorem Realises.answers (h : Realises t table) (hne : table.nodes ≠ []) : Answers t table := by
  have hinc := h.increasing
  have hnav : Navigates id t := navigation_correct h.sound (by
    rw [h.elements]
    simpa [view] using hne)
  refine ⟨fun k => ?_, fun a ha => ?_⟩
  · obtain ⟨p, point, he, hp, hnear⟩ := hnav.find k
    rw [h.elements] at hp hnear
    refine ⟨point, ?_⟩
    rcases exists_split h.pairwise k with ⟨L, n, R, hn, hL, rfl⟩ | ⟨L, R, hn, hL, hR⟩
    · have hfind := Table.find_at hn fun m hm => (hL m hm).ne
      have hpn : p = some (.heap n.addr) :=
        (hp _).mpr ⟨n.data.mStart, mem_view.mpr ⟨n, by simp [hn], rfl, rfl⟩, rfl⟩
      rw [he, hfind, hpn]
      exact ⟨rfl, fun hnone => by cases hnone⟩
    · have hpn : p = none := by
        cases p with
        | none => rfl
        | some a =>
          obtain ⟨d, hmem, hd⟩ := (hp a).mp rfl
          obtain ⟨m, hm, -, hm'⟩ := mem_view.mp hmem
          have hmk : m.data.mStart = k := hm'.trans hd
          rcases List.mem_append.mp (hn ▸ hm) with hm | hm
          · exact absurd hmk (hL m hm).ne
          · exact absurd hmk (hR m hm).ne'
      subst hpn
      rw [Table.find_between hn hL hR]
      refine ⟨he, fun _ dir => ?_⟩
      obtain ⟨⟨q, hq, hbelow⟩, q', hq', habove⟩ := hnear rfl
      have hview : view table.nodes = view L ++ view R := by rw [hn, view_append]
      rw [hview] at hinc hbelow habove
      have hincL : Increasing id (view L) := (List.pairwise_append.mp hinc).1
      have hincR : Increasing id (view R) := (List.pairwise_append.mp hinc).2.1
      have hvL : ∀ e ∈ view L, e.2 < k := forall_view (p := (· < k)) hL
      have hvR : ∀ e ∈ view R, k < e.2 := forall_view (p := (k < ·)) hR
      cases dir with
      | before =>
        rw [keysOf_lt hvL hvR] at hbelow
        have hlast := pointsTo_getLast hincL (m := view L ++ view R)
          fun e hmem => List.mem_append_left _ hmem
        rw [PointsTo.unique (fun x y hx hy => hx.unique hy) (fun x hx => hx.1) hinc hbelow hlast]
          at hq
        rw [Table.nearest_before hn hne]
        refine hq.trans ?_
        simp [view, List.getLast?_map, Function.comp_def]
      | after =>
        rw [lt_keysOf hvL hvR] at habove
        have hhead := pointsTo_head hincR (m := view L ++ view R)
          fun e hmem => List.mem_append_right _ hmem
        rw [PointsTo.unique (fun x y hx hy => hx.unique hy) (fun x hx => hx.1) hinc habove hhead]
          at hq'
        rw [Table.nearest_after hn hne]
        refine hq'.trans ?_
        simp [view, List.head?_map, Function.comp_def]
  · obtain ⟨n, hn, rfl⟩ := exists_of_mem_addrs ha
    obtain ⟨xs, ys, hl, -, hnext⟩ := hnav.inOrder (.heap n.addr, n.data.mStart)
      (h.elements ▸ mem_view.mpr ⟨n, hn, rfl, rfl⟩)
    rw [h.elements] at hl
    obtain ⟨L, R', hsplit, rfl, hR'⟩ := exists_of_view hl
    obtain ⟨m, R, rfl, hm, rfl⟩ := List.map_eq_cons_iff.mp hR'
    have hmem : m ∈ table.nodes := by simp [hsplit]
    have haddr : m.addr = n.addr := Addr.heap.inj (congrArg Prod.fst hm)
    obtain rfl := h.addr.eq_of_addr hmem hn haddr
    rw [hnext, Table.next_node h.addr hsplit]
    simp [List.head?_map, Function.comp_def]

/-! ### Whole runs -/

/-- One allowed call of `lock_manager` on its table. -/
def TreeOp.Step (table : Table) (op : TreeOp) (table' : Table) : Prop :=
  op.Allowed table ∧ op.onTable table = .ok table'

theorem realises_empty : Realises .empty .empty where
  sound := sound_empty
  elements := rfl
  addr := ⟨List.nodup_nil, by simp [Table.empty], by simp [Table.empty], Nat.lt_succ_self _⟩

/-- Any sequence of calls that the table can make, the tree makes too: it holds the entries of
the table in their order and counts as many, gives every search and every move to a neighbour
the same answer, refuses the same range, and fails where the table does for want of a count. -/
theorem tree_keeps_table {ops : List TreeOp} (h : Run TreeOp.Step .empty ops table) :
    ∃ t, ops.foldlM TreeOp.onTreeFrom (.empty, Table.empty.fresh) = .ok (t, table.fresh) ∧
      t.elements = view table.nodes ∧ t.mNumNodes = table.size ∧
      (table.nodes ≠ [] → Answers t table) ∧
      (∀ r, table.add r = .error .assertion ↔
        t.add id table.fresh r.mStart = .error .assertion) ∧
      ∀ a ∈ addrs table.nodes, table.removeNode a = .error .assertion ↔
        t.removeNode (some (.heap a)) = .error .assertion := by
  have hrun : ∃ t, ops.foldlM TreeOp.onTreeFrom (.empty, Table.empty.fresh) =
      .ok (t, table.fresh) ∧ Realises t table := by
    refine h.invariant (I := fun ops table => ∃ t, ops.foldlM TreeOp.onTreeFrom
      (.empty, Table.empty.fresh) = .ok (t, table.fresh) ∧ Realises t table)
      ⟨.empty, rfl, realises_empty⟩ ?_
    rintro ops table op table' ⟨t, hfold, hreal⟩ ⟨hop, htable⟩
    rcases hreal.step hop with ⟨t', table'', ht', htable', hreal', hfresh⟩ | ⟨-, hrefused⟩
    · obtain rfl := Except.ok.inj (htable'.symm.trans htable)
      refine ⟨t', ?_, hreal'⟩
      rw [List.foldlM_append, hfold]
      simp only [List.foldlM_cons, List.foldlM_nil, TreeOp.onTreeFrom, ht', hfresh, ok_bind]
      rfl
    · cases hrefused.symm.trans htable
  obtain ⟨t, hfold, hreal⟩ := hrun
  refine ⟨t, hfold, hreal.elements, hreal.counts, hreal.answers, fun r => ?_, fun a ha => ?_⟩
  on_goal 2 =>
    rcases hreal.removeNode a ha with ⟨t', table', ht', htable', -⟩ | ⟨ht, htable⟩
    · exact iff_of_false (fun hrefused => by cases hrefused.symm.trans htable')
        fun hrefused => by cases hrefused.symm.trans ht'
    · exact iff_of_true htable ht
  rcases hreal.add r with ⟨t', table', ht', htable', -⟩ | ⟨ht, htable⟩
  · constructor
    · intro hrefused
      simp only [TreeOp.onTable, hrefused] at htable'
      cases htable'
    · intro hrefused
      cases ht'.symm.trans hrefused
  · refine ⟨fun _ => ht, fun _ => ?_⟩
    simp only [TreeOp.onTable] at htable
    cases hadd : table.add r with
    | error e =>
      rw [hadd] at htable
      obtain rfl := Except.error.inj htable
      rfl
    | ok x =>
      rw [hadd] at htable
      cases htable

/-- Two entries are added, and the first of them is removed. -/
def addAddRemove : List TreeOp :=
  [.add (Range.new 205 209 .writer), .add (Range.new 201 203 .writer), .removeNode 1]

def oneLeft : Table :=
  ⟨[⟨2, Range.new 201 203 .writer⟩], [⟨1, Range.new 205 209 .writer⟩], 3⟩

theorem tree_keeps_table_oneLeft : Run TreeOp.Step .empty addAddRemove oneLeft ∧
    ∃ t, addAddRemove.foldlM TreeOp.onTreeFrom (.empty, 1) = .ok (t, 3) ∧
      t.elements = [(.heap 2, 201)] ∧ t.mNumNodes = 1 ∧
      (oneLeft.nodes ≠ [] → Answers t oneLeft) ∧
      (∀ r, oneLeft.add r = .error .assertion ↔ t.add id 3 r.mStart = .error .assertion) ∧
      ∀ a ∈ addrs oneLeft.nodes, oneLeft.removeNode a = .error .assertion ↔
        t.removeNode (some (.heap a)) = .error .assertion := by
  have h₁ : Run TreeOp.Step .empty ([] ++ [.add (Range.new 205 209 .writer)]) _ :=
    .snoc .nil ⟨trivial, rfl⟩
  have h₂ : Run TreeOp.Step .empty (_ ++ [.add (Range.new 201 203 .writer)]) _ :=
    h₁.snoc ⟨trivial, rfl⟩
  have h₃ : Run TreeOp.Step .empty (_ ++ [.removeNode 1]) oneLeft :=
    h₂.snoc ⟨show 1 ∈ addrs _ by decide, rfl⟩
  exact ⟨h₃, tree_keeps_table h₃⟩

end Steps
end EchoFs.RangeLock
