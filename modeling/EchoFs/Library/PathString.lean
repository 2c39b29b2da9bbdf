import Mathlib.Data.List.Induction

/-! Paths as lists of characters with `/` between the names. A normal path is a
slash before each of its names; the operations that cut strings at slashes are
evaluated at such paths. -/

namespace PathString

structure Name (c : List Char) : Prop where
  ne : c ≠ []
  noSlash : '/' ∉ c

def Names (cs : List (List Char)) : Prop := ∀ c ∈ cs, Name c

/-- A slash before every name. -/
def join (cs : List (List Char)) : List Char := cs.flatMap fun c => '/' :: c

/-- The same with a slash at the end. -/
def key (cs : List (List Char)) : List Char := join cs ++ ['/']

/-- `p` up to its last slash, which is kept. -/
def upToSlash (p : List Char) : List Char := (p.reverse.dropWhile (· ≠ '/')).reverse

/-- What follows the last slash of `p`. -/
def afterSlash (p : List Char) : List Char := (p.reverse.takeWhile (· ≠ '/')).reverse

/-- The parts of a path: the root, the names, and a dot for a slash at the end. -/
def parts (p : List Char) : List (List Char) :=
  (if p.head? = some '/' then [['/']] else []) ++ (p.splitOn '/').filter (· ≠ []) ++
    if p.getLast? = some '/' ∧ p ≠ ['/'] then [['.']] else []

/-- What `p` has before the last place where `s` occurs in it. -/
def beforeLast (s : List Char) : List Char → Option (List Char)
  | [] => if s = [] then some [] else none
  | a :: p =>
    match beforeLast s p with
    | some q => some (a :: q)
    | none => if s.isPrefixOf (a :: p) then some [] else none

/-- The first position at which `s` occurs. -/
def find (s : List Char) : List Char → Option Nat
  | [] => if s = [] then some 0 else none
  | a :: p => if s.isPrefixOf (a :: p) then some 0 else (find s p).map (· + 1)

/-- The names of a path, however many slashes stand between them. -/
def names (p : List Char) : List (List Char) := (p.splitOn '/').filter (· ≠ [])

/-- What a path leads to: whether it starts at the root, and its names. -/
def place (p : List Char) : Bool × List (List Char) := (p.head? = some '/', names p)

/-- A normal absolute path of at least one name. -/
def Normal (p : List Char) : Prop := ∃ cs c, Names cs ∧ Name c ∧ p = join (cs ++ [c])

variable {u v s c : List Char} {cs ds : List (List Char)}

theorem Names.append (hcs : Names cs) (hds : Names ds) : Names (cs ++ ds) := fun c hc =>
  (List.mem_append.mp hc).elim (hcs c) (hds c)

theorem Names.concat (hcs : Names cs) (hc : Name c) : Names (cs ++ [c]) :=
  hcs.append fun _ hd => List.mem_singleton.mp hd ▸ hc

theorem join_concat (cs : List (List Char)) (c : List Char) :
    join (cs ++ [c]) = join cs ++ '/' :: c := by
  simp [join]

theorem join_append_cons (cs ds : List (List Char)) (c : List Char) :
    join (cs ++ c :: ds) = join cs ++ '/' :: (c ++ join ds) := by
  simp [join]

theorem key_concat (cs : List (List Char)) (c : List Char) :
    key (cs ++ [c]) = key cs ++ c ++ ['/'] := by
  simp [key, join_concat]

theorem takeWhile_slash (h : '/' ∉ u) : (u ++ '/' :: v).takeWhile (· ≠ '/') = u := by
  rw [List.takeWhile_append_of_pos fun a ha => by simpa using fun he : a = '/' => h (he ▸ ha)]
  simp

theorem dropWhile_slash (h : '/' ∉ u) : (u ++ '/' :: v).dropWhile (· ≠ '/') = '/' :: v := by
  rw [List.dropWhile_append_of_pos fun a ha => by simpa using fun he : a = '/' => h (he ▸ ha)]
  simp

theorem upToSlash_append (h : '/' ∉ v) : upToSlash (u ++ '/' :: v) = u ++ ['/'] := by
  unfold upToSlash
  rw [List.reverse_append, List.reverse_cons, List.append_assoc, List.singleton_append,
    dropWhile_slash (by simpa using h)]
  simp

theorem afterSlash_append (h : '/' ∉ v) : afterSlash (u ++ '/' :: v) = v := by
  unfold afterSlash
  rw [List.reverse_append, List.reverse_cons, List.append_assoc, List.singleton_append,
    takeWhile_slash (by simpa using h)]
  simp

@[simp] theorem upToSlash_join (hc : Name c) : upToSlash (join (cs ++ [c])) = key cs := by
  rw [join_concat, upToSlash_append hc.noSlash]
  rfl

@[simp] theorem afterSlash_join (hc : Name c) : afterSlash (join (cs ++ [c])) = c := by
  rw [join_concat, afterSlash_append hc.noSlash]

@[simp] theorem dropLast_key (cs : List (List Char)) : (key cs).dropLast = join cs :=
  List.dropLast_concat

theorem key_injective (h : key cs = key ds) : join cs = join ds := List.append_cancel_right h

theorem join_injective (hcs : Names cs) : ∀ {ds}, Names ds → join cs = join ds → cs = ds := by
  induction cs using List.reverseRecOn with
  | nil =>
    intro ds _ h
    cases ds with
    | nil => rfl
    | cons d ds => simp [join] at h
  | append_singleton cs c ih =>
    intro ds hds h
    induction ds using List.reverseRecOn with
    | nil => simp [join] at h
    | append_singleton ds d _ =>
      have hc : Name c := hcs c (by simp)
      have hd : Name d := hds d (by simp)
      have hname := congrArg afterSlash h
      have hdir := congrArg upToSlash h
      rw [afterSlash_join hc, afterSlash_join hd] at hname
      rw [upToSlash_join hc, upToSlash_join hd] at hdir
      rw [ih (fun e he => hcs e (by simp [he])) (fun e he => hds e (by simp [he]))
        (key_injective hdir), hname]

/-- What follows a slash in a normal path starts a name. -/
theorem join_suffix (hcs : Names cs) (h : join cs = u ++ '/' :: v) :
    ∃ as bs, cs = as ++ bs ∧ u = join as ∧ '/' :: v = join bs := by
  induction cs generalizing u with
  | nil => simp [join] at h
  | cons c cs ih =>
    have hc : Name c := hcs c List.mem_cons_self
    have hjoin : join (c :: cs) = '/' :: (c ++ join cs) := by simp [join]
    rw [hjoin] at h
    cases u with
    | nil =>
      refine ⟨[], c :: cs, rfl, rfl, ?_⟩
      rw [hjoin, h]
      rfl
    | cons a u =>
      rw [List.cons_append] at h
      obtain ⟨rfl, htail⟩ := List.cons.inj h
      -- the slash lies behind the first name
      obtain ⟨w, rfl, hw⟩ : ∃ w, u = c ++ w ∧ join cs = w ++ '/' :: v := by
        rcases List.append_eq_append_iff.mp htail with ⟨w, hu, hw⟩ | ⟨w, hu, hw⟩
        · exact ⟨w, hu, hw⟩
        · cases w with
          | nil => exact ⟨[], by simpa using hu.symm, by simpa using hw.symm⟩
          | cons b w =>
            obtain ⟨rfl, _⟩ := List.cons.inj hw
            exact absurd (hu ▸ by simp) hc.noSlash
      obtain ⟨as, bs, rfl, rfl, hv⟩ := ih (fun e he => hcs e (List.mem_cons_of_mem _ he)) hw
      exact ⟨c :: as, bs, rfl, by simp [join], hv⟩

theorem splitOn_join (hcs : Names cs) : (join cs).splitOn '/' = [] :: cs := by
  have hinter : join cs = ['/'].intercalate ([] :: cs) := by
    induction cs with
    | nil => rfl
    | cons c cs ih =>
      have ih := ih fun e he => hcs e (List.mem_cons_of_mem _ he)
      have hjoin : join (c :: cs) = '/' :: (c ++ join cs) := by simp [join]
      rw [hjoin, ih]
      cases cs <;> simp
  rw [hinter, List.splitOn_intercalate]
  · intro l hl
    rcases List.mem_cons.mp hl with rfl | hl
    · simp
    · exact (hcs l hl).noSlash
  · simp

theorem getLast_join (cs : List (List Char)) (hc : Name c) :
    (join (cs ++ [c])).getLast? ≠ some '/' := by
  obtain ⟨u, a, rfl⟩ := (List.eq_nil_or_concat c).resolve_left hc.ne
  rw [List.concat_eq_append] at hc
  rw [join_concat, List.concat_eq_append, ← List.cons_append, ← List.append_assoc,
    List.getLast?_concat]
  exact fun h => hc.noSlash (by simp [Option.some.inj h])

theorem parts_join (hcs : Names cs) (hc : Name c) :
    parts (join (cs ++ [c])) = ['/'] :: (cs ++ [c]) := by
  have hhead : (join (cs ++ [c])).head? = some '/' := by
    cases cs <;> simp [join]
  have hfilter : (cs ++ [c]).filter (· ≠ []) = cs ++ [c] :=
    List.filter_eq_self.mpr fun d hd => by simpa using (hcs.concat hc d hd).ne
  unfold parts
  rw [if_pos hhead, if_neg fun h => getLast_join cs hc h.1, splitOn_join (hcs.concat hc),
    List.filter_cons_of_neg (by simp), hfilter, List.append_nil]
  rfl

theorem beforeLast_none {p : List Char} (h : ∀ t, t <:+ p → ¬ s <+: t) :
    beforeLast s p = none := by
  induction p with
  | nil =>
    unfold beforeLast
    refine if_neg fun hs => ?_
    subst hs
    exact h [] (List.suffix_refl _) (List.prefix_refl _)
  | cons a p ih =>
    unfold beforeLast
    rw [ih fun t ht => h t (ht.trans (List.suffix_cons a p))]
    dsimp only
    rw [if_neg]
    rw [List.isPrefixOf_iff_prefix]
    exact h _ (List.suffix_refl _)

theorem beforeLast_append (u : List Char) (hc : Name c) :
    beforeLast c (u ++ c ++ ['/']) = some u := by
  induction u with
  | nil =>
    obtain ⟨a, d, rfl⟩ := List.exists_cons_of_ne_nil hc.ne
    have hnone : beforeLast (a :: d) (d ++ ['/']) = none := by
      apply beforeLast_none
      intro t ht hpre
      have hlen : (a :: d).length = (d ++ ['/']).length := by simp
      have heq : t = d ++ ['/'] := ht.eq_of_length_le (hlen ▸ hpre.length_le)
      have hd : a :: d = d ++ ['/'] := (heq ▸ hpre).eq_of_length hlen
      exact hc.noSlash (hd ▸ by simp)
    rw [List.nil_append, List.cons_append]
    unfold beforeLast
    rw [hnone]
    dsimp only
    rw [if_pos]
    rw [List.isPrefixOf_iff_prefix, ← List.cons_append]
    exact List.prefix_append _ _
  | cons a u ih =>
    simp only [List.cons_append] at ih ⊢
    unfold beforeLast
    rw [ih]

theorem find_spec {p : List Char} : ∀ {i : Nat}, find s p = some i →
    ∃ u v, p = u ++ s ++ v ∧ u.length = i := by
  induction p with
  | nil =>
    intro i h
    unfold find at h
    split_ifs at h with hs
    exact ⟨[], [], by simp [hs], Option.some.inj h⟩
  | cons a p ih =>
    intro i h
    unfold find at h
    split_ifs at h with hs
    · obtain ⟨v, hv⟩ := List.isPrefixOf_iff_prefix.mp hs
      exact ⟨[], v, by simp [hv], Option.some.inj h⟩
    · obtain ⟨j, hj, rfl⟩ := Option.map_eq_some_iff.mp h
      obtain ⟨u, v, rfl, rfl⟩ := ih hj
      exact ⟨a :: u, v, by simp, by simp⟩

theorem find_eq_none_iff {p : List Char} : find s p = none ↔ ¬ s <:+: p := by
  induction p with
  | nil =>
    unfold find
    split_ifs with hs
    · simp [hs]
    · simpa using hs
  | cons a p ih =>
    rw [List.infix_cons_iff, ← List.isPrefixOf_iff_prefix]
    unfold find
    split_ifs with hs
    · simp [hs]
    · simp [hs, ih]

/-- No place at which `s` occurs comes before the one found. -/
theorem find_le (s u v : List Char) : ∃ i ≤ u.length, find s (u ++ s ++ v) = some i := by
  induction u with
  | nil =>
    refine ⟨0, Nat.le_refl _, ?_⟩
    rw [List.nil_append]
    cases hp : s ++ v with
    | nil =>
      obtain ⟨rfl, -⟩ := List.append_eq_nil_iff.mp hp
      rfl
    | cons a p =>
      unfold find
      rw [if_pos (List.isPrefixOf_iff_prefix.mpr (hp ▸ List.prefix_append s v))]
  | cons a u ih =>
    obtain ⟨i, hi, hfind⟩ := ih
    simp only [List.cons_append]
    unfold find
    split_ifs
    · exact ⟨0, Nat.zero_le _, rfl⟩
    · exact ⟨i + 1, Nat.succ_le_succ hi, by rw [hfind]; rfl⟩

/-- What does not have the first character of `s` is passed over. -/
theorem find_append {a : Char} {p q : List Char} (h : a ∉ p) :
    find (a :: s) (p ++ q) = (find (a :: s) q).map (· + p.length) := by
  induction p with
  | nil => simp
  | cons b p ih =>
    have hb : a ≠ b := fun hab => h (hab ▸ List.mem_cons_self)
    have hp : a ∉ p := fun hp => h (List.mem_cons_of_mem _ hp)
    rw [List.cons_append, find, if_neg (by simp [List.isPrefixOf, hb]), ih hp, Option.map_map]
    rfl

/-- A normal path from a slash on is normal. -/
theorem Normal.suffix {p : List Char} (h : Normal p) (hp : p = u ++ '/' :: v) :
    Normal ('/' :: v) := by
  obtain ⟨cs, c, hcs, hc, rfl⟩ := h
  obtain ⟨as, bs, hsplit, _, hv⟩ := join_suffix (hcs.concat hc) hp
  have hbs : Names bs := fun d hd => hcs.concat hc d (hsplit ▸ List.mem_append_right _ hd)
  obtain ⟨ds, d, rfl⟩ := (List.eq_nil_or_concat bs).resolve_left (by rintro rfl; simp [join] at hv)
  rw [List.concat_eq_append] at hbs hv
  rw [hv]
  exact ⟨ds, d, fun e he => hbs e (by simp [he]), hbs d (by simp), rfl⟩

theorem names_append_slash (u v : List Char) : names (u ++ '/' :: v) = names u ++ names v := by
  unfold names
  rw [List.splitOn_append_cons_self, List.filter_append]

@[simp] theorem names_slash (v : List Char) : names ('/' :: v) = names v :=
  names_append_slash [] v

theorem names_join (hcs : Names cs) : names (join cs) = cs := by
  unfold names
  rw [splitOn_join hcs, List.filter_cons_of_neg (by simp)]
  exact List.filter_eq_self.mpr fun d hd => by simpa using (hcs d hd).ne

theorem names_cons (hcs : Names (c :: cs)) : names (c ++ join cs) = c :: cs := by
  rw [← names_slash, ← names_join hcs]
  simp [join]

theorem upToSlash_concat {a : Char} (h : a ≠ '/') (u : List Char) :
    upToSlash (u ++ [a]) = upToSlash u := by
  unfold upToSlash
  rw [List.reverse_append, List.reverse_singleton, List.singleton_append,
    List.dropWhile_cons_of_pos (by simpa using h)]

theorem upToSlash_slash (u : List Char) : upToSlash (u ++ ['/']) = u ++ ['/'] :=
  upToSlash_append List.not_mem_nil

/-- A slash at the end leads nowhere else. -/
theorem place_slash (h : u ≠ []) : place (u ++ ['/']) = place u := by
  obtain ⟨a, u, rfl⟩ := List.exists_cons_of_ne_nil h
  have hnil : names [] = [] := rfl
  unfold place
  rw [names_append_slash, hnil, List.append_nil]
  rfl

/-- A path that does not end with a slash ends with a name. -/
theorem exists_last_name (h : u ≠ []) (hlast : u.getLast? ≠ some '/') :
    ∃ v, Name v ∧ (u = v ∨ ∃ w, u = w ++ '/' :: v) := by
  induction u using List.reverseRecOn with
  | nil => exact absurd rfl h
  | append_singleton u a ih =>
    have ha : a ≠ '/' := by simpa using hlast
    by_cases hu : u = []
    · subst hu
      exact ⟨[a], ⟨by simp, by simpa using ha.symm⟩, .inl rfl⟩
    by_cases hslash : u.getLast? = some '/'
    · obtain ⟨w, rfl⟩ := List.getLast?_eq_some_iff.mp hslash
      exact ⟨[a], ⟨by simp, by simpa using ha.symm⟩, .inr ⟨w, by simp⟩⟩
    · obtain ⟨v, hv, huv⟩ := ih hu hslash
      refine ⟨v ++ [a], ⟨by simp, by simpa using ⟨hv.noSlash, ha.symm⟩⟩, ?_⟩
      rcases huv with rfl | ⟨w, rfl⟩
      · exact .inl rfl
      · exact .inr ⟨w, by simp⟩

/-- The names that follow directly melt with the last one. -/
theorem length_names_append (h : u ≠ []) (hlast : u.getLast? ≠ some '/') (hcs : Names (c :: cs)) :
    (names (u ++ (c ++ join cs))).length = (names u).length + cs.length := by
  have hglue : ∀ v, Name v → names (v ++ (c ++ join cs)) = (v ++ c) :: cs ∧ names v = [v] := by
    intro v hv
    have hvc : Names ((v ++ c) :: cs) := by
      intro d hd
      rcases List.mem_cons.mp hd with rfl | hd
      · have hc := hcs c List.mem_cons_self
        exact ⟨by simp [hv.ne], by simp [hv.noSlash, hc.noSlash]⟩
      · exact hcs d (List.mem_cons_of_mem c hd)
    have hone : Names [v] := fun d hd => List.mem_singleton.mp hd ▸ hv
    rw [← List.append_assoc]
    exact ⟨names_cons hvc, by simpa [join] using names_cons hone⟩
  obtain ⟨v, hv, rfl | ⟨w, rfl⟩⟩ := exists_last_name h hlast
  · rw [(hglue u hv).1, (hglue u hv).2]
    simp [Nat.add_comm]
  · rw [List.append_assoc, List.cons_append, names_append_slash, names_append_slash,
      (hglue v hv).1, (hglue v hv).2]
    simp
    omega

theorem normal_name (hc : Name c) : Normal ('/' :: c) :=
  ⟨[], c, fun _ h => absurd h List.not_mem_nil, hc, by simp [join]⟩

end PathString
