import Mathlib.Data.List.AList
import EchoFs.Settings.Sizes

/-! Configuration files and the schema they are parsed with. A document is a tree of
sections, entries and pairs of a key and a text; the sections have the form that the
schema gives them. -/

namespace EchoFs.Settings
open Strtod

/-- `std::map` with texts for keys. -/
abbrev Map (α : Type) := AList fun _ : Text => α

/-- `std::map::emplace`: a key that is there keeps its value. -/
def Map.emplace {α : Type} (m : Map α) (k : Text) (a : α) : Map α := m ∪ AList.singleton k a

/-- `boost::any`, with the text itself where there is no converter. -/
inductive Any (α : Type) where
  | text (t : Text)
  | typed (a : α)
deriving DecidableEq

inductive Failure where
  | std (e : Exception)
  | yaml
deriving DecidableEq

def invalidArgument (what : Text) : Failure := .std (.invalid_argument what)

/-- `option_schema` with the members of its `typed_value`. -/
structure OptionSchema (α : Type) where
  mandatory : Bool
  default : Option α
  converter : Option (Text → Text → Except Exception α)

/-- The two alternatives of `SchemaType`. -/
inductive Kind where
  | group
  | list
deriving DecidableEq, Repr

structure SectionSchema (α : Type) where
  mandatory : Bool
  kind : Kind
  options : Map (OptionSchema α)

abbrev FileSchema (α : Type) := Map (SectionSchema α)

abbrev Pair := Text × Text

/-- A section of a document: entries of pairs, or entries of subentries of pairs. -/
inductive Section where
  | group (entries : List (List Pair))
  | list (entries : List (List (List Pair)))

def Section.kind : Section → Kind
  | .group _ => .group
  | .list _ => .list

structure Document {α : Type} (schema : FileSchema α) where
  sections : List (Text × Section)
  fits : ∀ name s t, schema.lookup name = some s → sections.lookup name = some t → t.kind = s.kind

def matchAny : Text := ".*".toList

inductive Parsed (α : Type) where
  | group (g : Map (Any α))
  | list (gs : List (Map (Any α)))

variable {α : Type}

/-- The schema that `list_schema` has for a key. -/
def findOption (opts : Map (OptionSchema α)) : Kind → Text → Option (OptionSchema α)
  | .group, key => opts.lookup key
  | .list, key => (opts.lookup key).or (opts.lookup matchAny)

def convert (o : OptionSchema α) (key text : Text) : Except Failure (Any α) :=
  match o.converter with
  | some f => ((f key text).map .typed).mapError .std
  | none => .ok (.text text)

/-- What both visitors do with a pair. -/
def parsePair (name : Text) (find : Text → Option (OptionSchema α)) (parsed : Map (Any α))
    (kv : Pair) : Except Failure (Map (Any α)) :=
  match find kv.1 with
  | none =>
    .error (invalidArgument ("Invalid argument '".toList ++ kv.1 ++ "' in '".toList ++ name ++
      "'".toList))
  | some o => do
    let value ← convert o kv.1 kv.2
    return parsed.emplace kv.1 value

def parsePairs (name : Text) (find : Text → Option (OptionSchema α)) (pairs : List Pair) :
    Except Failure (Map (Any α)) :=
  pairs.foldlM (parsePair name find) ∅

/-- The options not given get their default values. -/
def addDefaults (opts : List (Sigma fun _ : Text => OptionSchema α)) (parsed : Map (Any α)) :
    Map (Any α) :=
  opts.foldl (fun parsed o =>
    match o.2.default with
    | some d => parsed.emplace o.1 (.typed d)
    | none => parsed) parsed

/-- `operator()(group_schema&)` -/
def visitGroup (name : Text) (opts : Map (OptionSchema α)) (entries : List (List Pair)) :
    Except Failure (Parsed α) := do
  let parsed ← parsePairs name (findOption opts .group) entries.flatten
  match opts.entries.find? fun o => o.2.mandatory && !decide (o.1 ∈ parsed) with
  | some o =>
    .error (invalidArgument ("Missing mandatory option '".toList ++ o.1 ++ "'".toList))
  | none =>
    return .group (addDefaults opts.entries parsed)

/-- `operator()(list_schema&)` -/
def visitList (name : Text) (opts : Map (OptionSchema α)) (entries : List (List (List Pair))) :
    Except Failure (Parsed α) := do
  let groups ← entries.mapM fun entry => parsePairs name (findOption opts .list) entry.flatten
  return .list groups

/-- `boost::apply_visitor`; no document has a section of the other kind. -/
def visit (name : Text) (s : SectionSchema α) (t : Section) : Except Failure (Parsed α) :=
  match s.kind, t with
  | .group, .group entries => visitGroup name s.options entries
  | .list, .list entries => visitList name s.options entries
  | _, _ => .error .yaml

def parseSection (sections : List (Text × Section)) (optMap : Map (Parsed α))
    (opt : Sigma fun _ : Text => SectionSchema α) : Except Failure (Map (Parsed α)) :=
  match sections.lookup opt.1 with
  | none =>
    if opt.2.mandatory then
      .error (invalidArgument ("Missing mandatory '".toList ++ opt.1 ++
        "' block from configuration file".toList))
    else .ok optMap
  | some t => do
    let parsed ← visit opt.1 opt.2 t
    return optMap.emplace opt.1 parsed

/-- `parse_yaml_file` on an empty `opt_map` -/
def parseYamlFile (schema : FileSchema α) (config : Document schema) :
    Except Failure (Map (Parsed α)) :=
  schema.entries.foldlM (parseSection config.sections) ∅

/-- The pairs have a pair with this key. -/
def Given (pairs : List Pair) (key : Text) : Prop := ∃ text, (key, text) ∈ pairs

/-- Every key is declared and its converter accepts the text. -/
def Accepted (find : Text → Option (OptionSchema α)) (pairs : List Pair) : Prop :=
  ∀ kv ∈ pairs, ∃ o, find kv.1 = some o ∧ ∃ value, convert o kv.1 kv.2 = .ok value

/-- Every mandatory option is given. -/
def Complete (opts : Map (OptionSchema α)) (pairs : List Pair) : Prop :=
  ∀ o s, opts.lookup o = some s → s.mandatory = true → Given pairs o

variable {opts : Map (OptionSchema α)} {find : Text → Option (OptionSchema α)} {name key : Text}
  {pairs : List Pair} {m g : Map (Any α)}

section Emplace
variable {β : Type} {m : Map β} {k k' : Text} {b : β}

@[simp] theorem mem_emplace : k' ∈ m.emplace k b ↔ k' ∈ m ∨ k' = k := by
  unfold Map.emplace
  rw [AList.mem_union, ← AList.insert_empty, AList.mem_insert]
  simp

theorem lookup_emplace_of_mem (h : k' ∈ m) : (m.emplace k b).lookup k' = m.lookup k' :=
  AList.lookup_union_left h

theorem lookup_emplace_new (h : k ∉ m) : (m.emplace k b).lookup k = some b := by
  unfold Map.emplace
  rw [AList.lookup_union_right h, ← AList.insert_empty, AList.lookup_insert]

theorem lookup_emplace_ne (h : k' ≠ k) : (m.emplace k b).lookup k' = m.lookup k' := by
  by_cases hk : k' ∈ m
  · exact lookup_emplace_of_mem hk
  · unfold Map.emplace
    rw [AList.lookup_union_right hk, ← AList.insert_empty, AList.lookup_insert_ne h,
      AList.lookup_empty, AList.lookup_eq_none.mpr hk]

end Emplace

theorem parsePair_cases (name : Text) (find : Text → Option (OptionSchema α)) (m : Map (Any α))
    (kv : Pair) :
    (∃ o value, find kv.1 = some o ∧ convert o kv.1 kv.2 = .ok value ∧
        parsePair name find m kv = .ok (m.emplace kv.1 value)) ∨
      (∃ e, parsePair name find m kv = .error e) ∧
        ¬ ∃ o, find kv.1 = some o ∧ ∃ value, convert o kv.1 kv.2 = .ok value := by
  unfold parsePair
  cases hfind : find kv.1 with
  | none => exact .inr ⟨⟨_, rfl⟩, by simp⟩
  | some o =>
    cases hvalue : convert o kv.1 kv.2 with
    | error e => exact .inr ⟨⟨e, by simp [hvalue, bind, Except.bind]⟩, by simp [hvalue]⟩
    | ok value => exact .inl ⟨o, value, rfl, hvalue, by simp [hvalue, bind, Except.bind, pure, Except.pure]⟩

/-- Pairs are parsed exactly when all are accepted; their keys join the map. -/
theorem foldlM_parsePair (name : Text) (find : Text → Option (OptionSchema α)) :
    ∀ (pairs : List Pair) (m : Map (Any α)),
      (Accepted find pairs ∧ ∃ g, pairs.foldlM (parsePair name find) m = .ok g ∧
          ∀ key, key ∈ g ↔ key ∈ m ∨ Given pairs key) ∨
        ¬ Accepted find pairs ∧ ∃ e, pairs.foldlM (parsePair name find) m = .error e := by
  intro pairs
  induction pairs with
  | nil => exact fun m => .inl ⟨by simp [Accepted], m, rfl, by simp [Given]⟩
  | cons kv pairs ih =>
    intro m
    rw [List.foldlM_cons]
    rcases parsePair_cases name find m kv with ⟨o, value, ho, hv, hpair⟩ | ⟨⟨e, hpair⟩, hno⟩
    · rw [hpair]
      rcases ih (m.emplace kv.1 value) with ⟨hrest, g, hg, hkeys⟩ | ⟨hrest, e, he⟩
      · refine .inl ⟨List.forall_mem_cons.mpr ⟨⟨o, ho, value, hv⟩, hrest⟩, g, hg, fun key => ?_⟩
        obtain ⟨k, t⟩ := kv
        rw [hkeys, mem_emplace, or_assoc]
        simp only [Given, List.mem_cons, Prod.mk.injEq, exists_or, exists_and_left, exists_eq,
          and_true]
      · exact .inr ⟨fun h => hrest (List.forall_mem_cons.mp h).2, e, he⟩
    · rw [hpair]
      exact .inr ⟨fun h => hno (List.forall_mem_cons.mp h).1, e, rfl⟩

theorem parsePairs_cases (name : Text) (find : Text → Option (OptionSchema α))
    (pairs : List Pair) :
    (Accepted find pairs ∧ ∃ g, parsePairs name find pairs = .ok g ∧
        ∀ key, key ∈ g ↔ Given pairs key) ∨
      ¬ Accepted find pairs ∧ ∃ e, parsePairs name find pairs = .error e := by
  have h := foldlM_parsePair name find pairs ∅
  simp only [AList.notMem_empty, false_or] at h
  exact h

/-- A key in the map keeps its value when defaults are added. -/
theorem addDefaults_of_mem : ∀ (l : List (Sigma fun _ : Text => OptionSchema α)) (m : Map (Any α)),
    key ∈ m → (addDefaults l m).lookup key = m.lookup key := by
  intro l
  induction l with
  | nil => exact fun m _ => rfl
  | cons o l ih =>
    intro m hkey
    rw [addDefaults, List.foldl_cons]
    cases hd : o.2.default with
    | none => exact ih m hkey
    | some d =>
      rw [← lookup_emplace_of_mem (k := o.1) (b := .typed d) hkey]
      exact ih _ (mem_emplace.mpr (.inl hkey))

theorem addDefaults_lookup {s : OptionSchema α} {d : α} (hd : s.default = some d) :
    ∀ (l : List (Sigma fun _ : Text => OptionSchema α)) (m : Map (Any α)), l.NodupKeys →
      ⟨key, s⟩ ∈ l → key ∉ m → (addDefaults l m).lookup key = some (.typed d) := by
  intro l
  induction l with
  | nil => exact fun m _ h => absurd h List.not_mem_nil
  | cons o l ih =>
    intro m hnodup hmem hkey
    obtain ⟨hfresh, hnodup⟩ := List.nodupKeys_cons.mp hnodup
    rw [addDefaults, List.foldl_cons]
    rcases List.mem_cons.mp hmem with rfl | hmem
    · dsimp only
      rw [hd]
      refine (addDefaults_of_mem l _ (mem_emplace.mpr (.inr rfl))).trans ?_
      exact lookup_emplace_new hkey
    · have hne : key ≠ o.1 := fun h => hfresh (h ▸ List.mem_keys_of_mem hmem)
      apply ih _ hnodup hmem
      cases o.2.default with
      | none => exact hkey
      | some d' => exact fun h => (mem_emplace.mp h).elim hkey hne

/-- A group section passes when its pairs are accepted and nothing mandatory is missing. -/
theorem visitGroup_cases (name : Text) (opts : Map (OptionSchema α)) (es : List (List Pair)) :
    ((Accepted (findOption opts .group) es.flatten ∧ Complete opts es.flatten) ∧
        ∃ g, visitGroup name opts es = .ok (.group g) ∧ ∀ o s d, opts.lookup o = some s →
          s.default = some d → ¬ Given es.flatten o → g.lookup o = some (.typed d)) ∨
      ¬ (Accepted (findOption opts .group) es.flatten ∧ Complete opts es.flatten) ∧
        ∃ e, visitGroup name opts es = .error e := by
  unfold visitGroup
  rcases parsePairs_cases name (findOption opts .group) es.flatten with
    ⟨hacc, parsed, hparsed, hkeys⟩ | ⟨hacc, e, he⟩
  · rw [hparsed]
    dsimp only [bind, Except.bind]
    cases hfind : opts.entries.find? fun o => o.2.mandatory && !decide (o.1 ∈ parsed) with
    | some o =>
      obtain ⟨key, s⟩ := o
      have hmissing := List.find?_some hfind
      have hlookup : opts.lookup key = some s :=
        AList.mem_lookup_iff.mpr (List.mem_of_find?_eq_some hfind)
      simp only [Bool.and_eq_true, Bool.not_eq_true', decide_eq_false_iff_not] at hmissing
      refine .inr ⟨fun h => hmissing.2 ?_, _, rfl⟩
      exact (hkeys key).mpr (h.2 key s hlookup hmissing.1)
    | none =>
      refine .inl ⟨⟨hacc, fun key s hlookup hmand => ?_⟩, _, rfl, fun o s d hs hd hno => ?_⟩
      · have hall := List.find?_eq_none.mp hfind _ (AList.mem_lookup_iff.mp hlookup)
        simp only [hmand, Bool.true_and, Bool.not_eq_true', decide_eq_false_iff_not,
          not_not] at hall
        exact (hkeys key).mp hall
      · exact addDefaults_lookup hd _ _ opts.nodupKeys (AList.mem_lookup_iff.mp hs)
          (mt (hkeys o).mp hno)
  · rw [he]
    exact .inr ⟨fun h => hacc h.1, e, rfl⟩

/-- A list section passes when the pairs of every entry are accepted; an entry has what is
given in it. -/
theorem visitList_cases (name : Text) (opts : Map (OptionSchema α))
    (es : List (List (List Pair))) :
    ((∀ e ∈ es, Accepted (findOption opts .list) e.flatten) ∧
        ∃ gs, visitList name opts es = .ok (.list gs) ∧
          List.Forall₂ (fun e g => ∀ key, key ∈ g ↔ Given e.flatten key) es gs) ∨
      ¬ (∀ e ∈ es, Accepted (findOption opts .list) e.flatten) ∧
        ∃ e, visitList name opts es = .error e := by
  unfold visitList
  induction es with
  | nil => exact .inl ⟨fun _ h => absurd h List.not_mem_nil, [], rfl, .nil⟩
  | cons e es ih =>
    rw [List.mapM_cons]
    rcases parsePairs_cases name (findOption opts .list) e.flatten with
      ⟨hacc, g, hg, hkeys⟩ | ⟨hacc, err, herr⟩
    · rw [hg]
      rcases ih with ⟨hrest, gs, hgs, hall⟩ | ⟨hrest, err, herr⟩
      · cases hmap : es.mapM fun entry =>
            parsePairs name (findOption opts .list) entry.flatten with
        | error err => rw [hmap] at hgs; cases hgs
        | ok l =>
          rw [hmap] at hgs
          cases hgs
          exact .inl ⟨List.forall_mem_cons.mpr ⟨hacc, hrest⟩, g :: gs, rfl, .cons hkeys hall⟩
      · cases hmap : es.mapM fun entry =>
            parsePairs name (findOption opts .list) entry.flatten with
        | error err => exact .inr ⟨fun h => hrest (List.forall_mem_cons.mp h).2, err, rfl⟩
        | ok l => rw [hmap] at herr; cases herr
    · rw [herr]
      exact .inr ⟨fun h => hacc (List.forall_mem_cons.mp h).1, err, rfl⟩

/-- What the visitors check of a section. -/
def SectionChecked (s : SectionSchema α) : Section → Prop
  | .group es => Accepted (findOption s.options .group) es.flatten ∧ Complete s.options es.flatten
  | .list es => ∀ e ∈ es, Accepted (findOption s.options .list) e.flatten

/-- The same with the mandatory options of every entry of a list. -/
def SectionValid (s : SectionSchema α) : Section → Prop
  | .group es => Accepted (findOption s.options .group) es.flatten ∧ Complete s.options es.flatten
  | .list es => ∀ e ∈ es,
    Accepted (findOption s.options .list) e.flatten ∧ Complete s.options e.flatten

theorem visit_ok_iff {s : SectionSchema α} {t : Section} (h : t.kind = s.kind) :
    (∃ p, visit name s t = .ok p) ↔ SectionChecked s t := by
  unfold visit
  rw [← h]
  cases t with
  | group es =>
    dsimp only [Section.kind, SectionChecked]
    rcases visitGroup_cases name s.options es with ⟨hc, g, hg, -⟩ | ⟨hc, e, he⟩
    · exact iff_of_true ⟨_, hg⟩ hc
    · exact iff_of_false (fun ⟨p, hp⟩ => by rw [he] at hp; cases hp) hc
  | list es =>
    dsimp only [Section.kind, SectionChecked]
    rcases visitList_cases name s.options es with ⟨hc, g, hg, -⟩ | ⟨hc, e, he⟩
    · exact iff_of_true ⟨_, hg⟩ hc
    · exact iff_of_false (fun ⟨p, hp⟩ => by rw [he] at hp; cases hp) hc

/-- Mandatory sections are present and every section present meets `valid`. -/
structure Meets (valid : SectionSchema α → Section → Prop) (schema : FileSchema α)
    (doc : Document schema) : Prop where
  sections : ∀ name s, schema.lookup name = some s → s.mandatory = true →
    doc.sections.lookup name ≠ none
  contents : ∀ name s t, schema.lookup name = some s → doc.sections.lookup name = some t → valid s t

/-- The section named by an entry of the schema goes through. -/
def Passes (sections : List (Text × Section)) (opt : Sigma fun _ : Text => SectionSchema α) : Prop :=
  match sections.lookup opt.1 with
  | none => opt.2.mandatory = false
  | some t => ∃ p, visit opt.1 opt.2 t = .ok p

theorem parseSection_cases (sections : List (Text × Section))
    (opt : Sigma fun _ : Text => SectionSchema α) (m : Map (Parsed α)) :
    (Passes sections opt ∧ ∃ m', parseSection sections m opt = .ok m' ∧
        (sections.lookup opt.1 = none ∧ m' = m ∨
          ∃ t p, sections.lookup opt.1 = some t ∧ visit opt.1 opt.2 t = .ok p ∧
            m' = m.emplace opt.1 p)) ∨
      ¬ Passes sections opt ∧ ∃ e, parseSection sections m opt = .error e := by
  unfold Passes parseSection
  cases hlookup : sections.lookup opt.1 with
  | none =>
    dsimp only
    cases hmand : opt.2.mandatory with
    | true => exact .inr ⟨by simp, _, rfl⟩
    | false => exact .inl ⟨rfl, m, rfl, .inl ⟨rfl, rfl⟩⟩
  | some t =>
    dsimp only
    cases hvisit : visit opt.1 opt.2 t with
    | error e => exact .inr ⟨by simp, e, rfl⟩
    | ok p => exact .inl ⟨⟨p, rfl⟩, _, rfl, .inr ⟨t, p, rfl, hvisit, rfl⟩⟩

/-- The loop over the schema: it ends normally when every section goes through, and then the
map has what the visitor made of each. -/
theorem foldlM_parseSection (sections : List (Text × Section)) :
    ∀ (l : List (Sigma fun _ : Text => SectionSchema α)) (m : Map (Parsed α)), l.NodupKeys →
      (∀ opt ∈ l, opt.1 ∉ m) →
      ((∀ opt ∈ l, Passes sections opt) ∧ ∃ m', l.foldlM (parseSection sections) m = .ok m' ∧
          (∀ name, name ∉ l.keys → m'.lookup name = m.lookup name) ∧
          ∀ opt ∈ l, (sections.lookup opt.1 = none → m'.lookup opt.1 = none) ∧
            ∀ t p, sections.lookup opt.1 = some t → visit opt.1 opt.2 t = .ok p →
              m'.lookup opt.1 = some p) ∨
        ¬ (∀ opt ∈ l, Passes sections opt) ∧
          ∃ e, l.foldlM (parseSection sections) m = .error e := by
  intro l
  induction l with
  | nil =>
    exact fun m _ _ => .inl ⟨fun _ h => absurd h List.not_mem_nil, m, rfl, fun _ _ => rfl,
      fun _ h => absurd h List.not_mem_nil⟩
  | cons opt l ih =>
    intro m hnodup hfresh
    obtain ⟨hopt, hnodup⟩ := List.nodupKeys_cons.mp hnodup
    rw [List.foldlM_cons]
    rcases parseSection_cases sections opt m with ⟨hpass, m₁, hm₁, hcases⟩ | ⟨hpass, e, he⟩
    · rw [hm₁]
      have hother : ∀ name, name ≠ opt.1 → m₁.lookup name = m.lookup name := by
        rintro name hne
        rcases hcases with ⟨-, rfl⟩ | ⟨t, p, -, -, rfl⟩
        · rfl
        · exact lookup_emplace_ne hne
      have hrest : ∀ o ∈ l, o.1 ∉ m₁ := by
        intro o ho
        have hne : o.1 ≠ opt.1 := fun h => hopt (h ▸ List.mem_keys_of_mem ho)
        rw [← AList.lookup_eq_none, hother _ hne, AList.lookup_eq_none]
        exact hfresh o (List.mem_cons_of_mem _ ho)
      rcases ih m₁ hnodup hrest with ⟨hall, m', hm', hold, hnew⟩ | ⟨hall, e, he⟩
      · refine .inl ⟨List.forall_mem_cons.mpr ⟨hpass, hall⟩, m', hm', ?_, ?_⟩
        · intro name hname
          rw [List.keys_cons, List.mem_cons, not_or] at hname
          rw [hold name hname.2, hother name hname.1]
        · refine List.forall_mem_cons.mpr ⟨?_, hnew⟩
          rw [hold _ hopt]
          have hm := hfresh opt List.mem_cons_self
          rcases hcases with ⟨hnone, rfl⟩ | ⟨t, p, ht, hp, rfl⟩
          · exact ⟨fun _ => AList.lookup_eq_none.mpr hm, fun t p ht => by rw [hnone] at ht; cases ht⟩
          · refine ⟨fun hnone => ?_, fun t' p' ht' hp' => ?_⟩
            · rw [ht] at hnone
              cases hnone
            · obtain rfl := Option.some.inj (ht.symm.trans ht')
              obtain rfl := Except.ok.inj (hp.symm.trans hp')
              exact lookup_emplace_new hm
      · exact .inr ⟨fun h => hall (List.forall_mem_cons.mp h).2, e, he⟩
    · rw [he]
      exact .inr ⟨fun h => hpass (List.forall_mem_cons.mp h).1, e, rfl⟩

section Documents
variable {schema : FileSchema α} {doc : Document schema}

theorem passes_iff {name : Text} {s : SectionSchema α} (hs : schema.lookup name = some s) :
    Passes doc.sections ⟨name, s⟩ ↔
      (s.mandatory = true → doc.sections.lookup name ≠ none) ∧
        ∀ t, doc.sections.lookup name = some t → SectionChecked s t := by
  unfold Passes
  dsimp only
  cases hlookup : doc.sections.lookup name with
  | none => simp
  | some t =>
    dsimp only
    rw [visit_ok_iff (doc.fits name s t hs hlookup)]
    simp

/-- Parsing succeeds exactly when the checks of the visitors do. -/
theorem parseYamlFile_cases (doc : Document schema) :
    (Meets SectionChecked schema doc ∧ ∃ m, parseYamlFile schema doc = .ok m ∧
        ∀ name s, schema.lookup name = some s →
          (doc.sections.lookup name = none → m.lookup name = none) ∧
            ∀ t p, doc.sections.lookup name = some t → visit name s t = .ok p →
              m.lookup name = some p) ∨
      ¬ Meets SectionChecked schema doc ∧ ∃ e, parseYamlFile schema doc = .error e := by
  have hmeets : (∀ opt ∈ schema.entries, Passes doc.sections opt) ↔
      Meets SectionChecked schema doc := by
    constructor
    · intro h
      have hpass := fun name s (hs : schema.lookup name = some s) =>
        (passes_iff hs).mp (h ⟨name, s⟩ (AList.mem_lookup_iff.mp hs))
      exact ⟨fun name s hs => (hpass name s hs).1, fun name s t hs => (hpass name s hs).2 t⟩
    · rintro h ⟨name, s⟩ hopt
      have hs : schema.lookup name = some s := AList.mem_lookup_iff.mpr hopt
      exact (passes_iff hs).mpr ⟨h.sections name s hs, fun t => h.contents name s t hs⟩
  unfold parseYamlFile
  rcases foldlM_parseSection doc.sections schema.entries ∅ schema.nodupKeys (by simp) with
    ⟨hall, m, hm, -, hnew⟩ | ⟨hall, e, he⟩
  · exact .inl ⟨hmeets.mp hall, m, hm, fun name s hs => hnew ⟨name, s⟩ (AList.mem_lookup_iff.mp hs)⟩
  · exact .inr ⟨mt hmeets.mpr hall, e, he⟩

/-- The options of a section that are not given and have a default value are there with it;
in a list, in every entry. -/
def Defaulted (m : Map (Parsed α)) (name : Text) (s : SectionSchema α) (t : Option Section) :
    Prop :=
  match s.kind with
  | .group => ∀ o os d, s.options.lookup o = some os → os.default = some d →
    (∀ es, t = some (.group es) → ¬ Given es.flatten o) →
      ∃ g, m.lookup name = some (.group g) ∧ g.lookup o = some (.typed d)
  | .list => ∀ es, t = some (.list es) → ∃ gs, m.lookup name = some (.list gs) ∧
    List.Forall₂ (fun e g => ∀ o os d, s.options.lookup o = some os → os.default = some d →
      ¬ Given e.flatten o → g.lookup o = some (.typed d)) es gs

/-- Parsing accepts what the schema allows, with the default values in place. -/
structure Enforces (schema : FileSchema α) (doc : Document schema) : Prop where
  accepts : (∃ m, parseYamlFile schema doc = .ok m) ↔ Meets SectionValid schema doc
  defaults : ∀ m, parseYamlFile schema doc = .ok m → ∀ name s, schema.lookup name = some s →
    Defaulted m name s (doc.sections.lookup name)

/-- Every entry of a list gives the options that are mandatory or have a default. -/
def EntriesComplete (schema : FileSchema α) (doc : Document schema) : Prop :=
  ∀ name s es, schema.lookup name = some s → doc.sections.lookup name = some (.list es) →
    ∀ e ∈ es, ∀ o os, s.options.lookup o = some os →
      os.mandatory = true ∨ os.default.isSome = true → Given e.flatten o

/-- No group that is left out declares a default. -/
def AbsentBare (schema : FileSchema α) (doc : Document schema) : Prop :=
  ∀ name s, schema.lookup name = some s → s.kind = .group → doc.sections.lookup name = none →
    ∀ o os, s.options.lookup o = some os → os.default = none

theorem meets_checked (h : Meets SectionValid schema doc) : Meets SectionChecked schema doc := by
  refine ⟨h.sections, fun name s t hs ht => ?_⟩
  have hvalid := h.contents name s t hs ht
  cases t with
  | group es => exact hvalid
  | list es => exact fun e he => (hvalid e he).1

theorem meets_valid (h : Meets SectionChecked schema doc) (hc : EntriesComplete schema doc) :
    Meets SectionValid schema doc := by
  refine ⟨h.sections, fun name s t hs ht => ?_⟩
  have hchecked := h.contents name s t hs ht
  cases t with
  | group es => exact hchecked
  | list es =>
    exact fun e he => ⟨hchecked e he,
      fun o os ho hm => hc name s es hs ht e he o os ho (.inl hm)⟩

theorem defaulted_of_complete {m : Map (Parsed α)} {s : SectionSchema α}
    (hs : schema.lookup name = some s) (hc : EntriesComplete schema doc)
    (hb : AbsentBare schema doc) (hchecked : Meets SectionChecked schema doc)
    (hm : ∀ t p, doc.sections.lookup name = some t → visit name s t = .ok p →
      m.lookup name = some p) : Defaulted m name s (doc.sections.lookup name) := by
  unfold Defaulted
  cases hkind : s.kind with
  | group =>
    dsimp only
    intro o os d ho hd hno
    cases hlookup : doc.sections.lookup name with
    | none => rw [hb name s hs hkind hlookup o os ho] at hd; cases hd
    | some t =>
      cases t with
      | list es =>
        have hfit := doc.fits name s _ hs hlookup
        rw [hkind] at hfit
        cases hfit
      | group es =>
        rcases visitGroup_cases name s.options es with ⟨-, g, hg, hdefault⟩ | ⟨hbad, -⟩
        · refine ⟨g, hm _ _ hlookup ?_, hdefault o os d ho hd (hno es hlookup)⟩
          unfold visit
          rw [hkind]
          exact hg
        · exact absurd (hchecked.contents name s _ hs hlookup) hbad
  | list =>
    dsimp only
    intro es hlookup
    rcases visitList_cases name s.options es with ⟨-, gs, hgs, hkeys⟩ | ⟨hbad, -⟩
    · refine ⟨gs, hm _ _ hlookup ?_, ?_⟩
      · unfold visit
        rw [hkind]
        exact hgs
      · refine List.forall₂_iff_get.mpr ⟨hkeys.length_eq, fun i hi _ o os d ho hd hno => ?_⟩
        exact absurd (hc name s es hs hlookup _ (List.get_mem es ⟨i, hi⟩) o os ho
          (.inr (by rw [hd]; rfl))) hno
    · exact absurd (hchecked.contents name s _ hs hlookup) hbad

/-- An entry of a list has only what is given in it, so a default value shows that it is. -/
theorem given_of_defaulted {m : Map (Parsed α)} {s : SectionSchema α} {o : Text}
    {os : OptionSchema α} {es : List (List (List Pair))} {e : List (List Pair)}
    (hs : schema.lookup name = some s) (hes : doc.sections.lookup name = some (.list es))
    (hchecked : Meets SectionChecked schema doc)
    (hm : ∀ t p, doc.sections.lookup name = some t → visit name s t = .ok p →
      m.lookup name = some p)
    (hfull : Defaulted m name s (doc.sections.lookup name)) (he : e ∈ es)
    (ho : s.options.lookup o = some os) (hd : os.default.isSome = true) : Given e.flatten o := by
  obtain ⟨d, hd⟩ := Option.isSome_iff_exists.mp hd
  have hkind : s.kind = .list := (doc.fits name s _ hs hes).symm
  unfold Defaulted at hfull
  rw [hkind] at hfull
  obtain ⟨gs, hgs, hdefault⟩ := hfull es hes
  rcases visitList_cases name s.options es with ⟨-, gs', hgs', hkeys⟩ | ⟨hbad, -⟩
  · have hvisit : visit name s (.list es) = .ok (.list gs') := by
      unfold visit
      rw [hkind]
      exact hgs'
    obtain rfl : gs' = gs := by
      have heq := (hm _ _ hes hvisit).symm.trans hgs
      cases heq
      rfl
    obtain ⟨i, hi, rfl⟩ := List.mem_iff_getElem.mp he
    have hi' : i < gs'.length := hkeys.length_eq ▸ hi
    have hkey := (List.forall₂_iff_get.mp hkeys).2 i hi hi' o
    by_contra hno
    have hlookup := (List.forall₂_iff_get.mp hdefault).2 i hi hi' o os d ho hd hno
    exact hno (hkey.mp (AList.lookup_isSome.mp (by rw [hlookup]; rfl)))
  · exact absurd (hchecked.contents name s _ hs hes) hbad

/-- What goes through has the form `parseYamlFile` checks; beyond it, the entries of lists
have to give all that is mandatory or has a default. -/
theorem parseYamlFile_enforces_iff (schema : FileSchema α) (doc : Document schema) :
    Enforces schema doc ↔
      (Meets SectionChecked schema doc → EntriesComplete schema doc ∧ AbsentBare schema doc) := by
  rcases parseYamlFile_cases doc with ⟨hchecked, m, hm, hcontents⟩ | ⟨hchecked, e, he⟩
  · constructor
    · rintro ⟨haccepts, hdefaults⟩ -
      have hvalid := haccepts.mp ⟨m, hm⟩
      refine ⟨?_, ?_⟩
      · rintro name s es hs hes e he o os ho (hmand | hdefault)
        · exact (hvalid.contents name s _ hs hes e he).2 o os ho hmand
        · exact given_of_defaulted hs hes hchecked (hcontents name s hs).2
            (hdefaults m hm name s hs) he ho hdefault
      · intro name s hs hkind hnone o os ho
        by_contra hdefault
        obtain ⟨d, hd⟩ := Option.ne_none_iff_exists'.mp hdefault
        have hfull := hdefaults m hm name s hs
        unfold Defaulted at hfull
        rw [hkind, hnone] at hfull
        obtain ⟨g, hg, -⟩ := hfull o os d ho hd fun es hes => by cases hes
        rw [(hcontents name s hs).1 hnone] at hg
        cases hg
    · intro h
      obtain ⟨hc, hb⟩ := h hchecked
      refine ⟨iff_of_true ⟨m, hm⟩ (meets_valid hchecked hc), fun m' hm' name s hs => ?_⟩
      obtain rfl := Except.ok.inj (hm.symm.trans hm')
      exact defaulted_of_complete hs hc hb hchecked (hcontents name s hs).2
  · refine iff_of_true ⟨iff_of_false ?_ fun h => hchecked (meets_checked h), ?_⟩
      fun h => absurd h hchecked
    · rintro ⟨m, hm⟩
      rw [he] at hm
      cases hm
    · intro m hm
      rw [he] at hm
      cases hm

end Documents

/-- The types of the options in `config_schema`; a `std::string` option has no converter. -/
inductive ConfigValue where
  | path (p : Text)
  | number (n : UInt32)
deriving DecidableEq

def declareOption (name : Text) (mandatory : Bool) (default : Option ConfigValue)
    (converter : Option (Text → Text → Except Exception ConfigValue)) :
    Sigma fun _ : Text => OptionSchema ConfigValue := ⟨name, mandatory, default, converter⟩

def pathParser (_name value : Text) : Except Exception ConfigValue := .ok (.path value)

section ConfigSchema
variable (undef32 : Double → UInt32)

def numberOption (name value : Text) : Except Exception ConfigValue :=
  (numberParser name value).map .number

def sizeOption (name value : Text) : Except Exception ConfigValue :=
  (sizeParser undef32 name value).map .number

def configSchema : FileSchema ConfigValue :=
  List.toAList [
    ⟨"backends".toList, true, .list, List.toAList [
      declareOption matchAny false none none,
      declareOption "capacity".toList true none (some (sizeOption undef32)),
      declareOption "id".toList true none none,
      declareOption "type".toList true none none]⟩,
    ⟨"global-settings".toList, true, .group, List.toAList [
      declareOption "log-file".toList false none (some pathParser),
      declareOption "mount-dir".toList true none (some pathParser),
      declareOption "results-dir".toList false none (some pathParser),
      declareOption "root-dir".toList true none (some pathParser),
      declareOption "transfer-size".toList false (some (.number (128 * 1024)))
        (some (sizeOption undef32)),
      declareOption "workers".toList false (some (.number 8)) (some numberOption)]⟩,
    ⟨"resources".toList, true, .list, List.toAList [
      declareOption "backend".toList true none none,
      declareOption "flags".toList true none none,
      declareOption "path".toList true none none]⟩]

/-- A backend without type and capacity, and nothing to preload. -/
def bareBackend : List (Text × Section) :=
  [("global-settings".toList, .group [[("root-dir".toList, "/tmp/root".toList)],
      [("mount-dir".toList, "/tmp/mnt".toList)]]),
    ("backends".toList, .list [[[("id".toList, "nvml0".toList)]]]),
    ("resources".toList, .list [])]

theorem bareBackend_fits (name : Text) (s : SectionSchema ConfigValue) (t : Section)
    (hs : (configSchema undef32).lookup name = some s) (ht : bareBackend.lookup name = some t) :
    t.kind = s.kind := by
  have hkinds : (configSchema undef32).entries.map (fun o => (o.1, o.2.kind)) =
      [("backends".toList, .list), ("global-settings".toList, .group),
        ("resources".toList, .list)] := rfl
  have hfits : ∀ p ∈ [("backends".toList, Kind.list), ("global-settings".toList, .group),
      ("resources".toList, .list)], ∀ t ∈ bareBackend.lookup p.1, t.kind = p.2 := by decide
  have hmem := List.mem_map_of_mem (f := fun o => (o.1, o.2.kind)) (AList.mem_lookup_iff.mp hs)
  rw [hkinds] at hmem
  exact hfits _ hmem t ht

/-- `config_schema` accepts it, although it declares both options mandatory. -/
theorem bareBackend_accepted : ¬ ∃ undef32 : Double → UInt32,
    Enforces (configSchema undef32) ⟨bareBackend, bareBackend_fits undef32⟩ := by
  rintro ⟨undef32, h⟩
  have hvalid := h.accepts.mp ⟨_, rfl⟩
  have hentries := hvalid.contents "backends".toList _ _ rfl rfl _ List.mem_cons_self
  obtain ⟨text, htext⟩ := hentries.2 "type".toList _ rfl rfl
  simp at htext

end ConfigSchema

end EchoFs.Settings
