/-
RamlSchema/Proofs/Raml/Loading.lean

Which documents are loaded, and as what.

A document is read entry by entry: the entries of its sections, one section after the
other, are read each by itself, and their trees are declared in this order.  A name
that was declared before is the only thing that one entry can do to another, and a
graph has no name twice; so the graph of a document is the list of what was read, and
a document is loaded if all of it can be read and that list is a graph.

Main results: `Document.loads_iff`, the graph of a document; and `loads_accepted`, which
documents have one and what each of its trees is.
-/
import RamlSchema.Raml.Document
import RamlSchema.Proofs.Raml.Expansion
import RamlSchema.Proofs.Raml.Spelling
import Mathlib.Data.List.Nodup

namespace RamlSchema

/-- A new declaration comes last. -/
theorem TypeGraph.trees_insert_of_notMem {g : TypeGraph} {d : Declaration}
    (h : d.name ∉ g.names) : (g.insert d).trees = g.trees ++ [(d.name, d.tree)] :=
  Members.insert_of_notMem h d.tree

namespace Raml

open Yaml

/-! ### Declaring the entries of a section -/

/-- Reads an entry of a section. -/
def readDeclaration (e : Value × Value) : Except Error (String × Json) := do
  let name ← keyText [] e.1
  let ms ← expand (some name) [] e.2
  return (name, .obj ms)

theorem readDeclaration_eq_ok_iff {e : Value × Value} {t : String × Json} :
    readDeclaration e = .ok t
      ↔ keyText [] e.1 = .ok t.1 ∧ ∃ ms, expand (some t.1) [] e.2 = .ok ms ∧ t.2 = .obj ms := by
  simp only [readDeclaration, Except.bind_eq_ok_iff]
  constructor
  · rintro ⟨name, hname, ms, hms, h⟩
    cases h
    exact ⟨hname, ms, hms, rfl⟩
  · rintro ⟨hname, ms, hms, htree⟩
    exact ⟨t.1, hname, ms, hms, congrArg Except.ok (Prod.ext rfl htree.symm)⟩

/-- The first entry is declared before the others. -/
theorem exec_declare_cons (name : String) (k v : Value) (es : List (Value × Value))
    (g : TypeGraph) : exec (declare name ((k, v) :: es)) g =
      match keyText [name] k with
      | .error cause => (.error cause, g)
      | .ok typeName =>
        if g.contains typeName then (.error (.duplicateType [name, typeName]), g)
        else
          match expand (some typeName) [name, typeName] v with
          | .error cause => (.error cause, g)
          | .ok ms => exec (declare name es) (g.insert ⟨typeName, .obj ms⟩) := by
  rw [declare, exec_bind, exec_mk_pure]
  rcases keyText [name] k with cause | typeName
  · rfl
  · simp only [exec_bind, exec_get]
    rcases g.contains typeName
    · simp only [exec_bind, Bool.false_eq_true, if_false, exec_mk_pure]
      rcases expand (some typeName) [name, typeName] v with cause | ms <;> rfl
    · rfl

theorem exec_declare_cons_eq_ok_iff {name : String} {e : Value × Value} {es : List (Value × Value)}
    {g g' : TypeGraph} : exec (declare name (e :: es)) g = (.ok (), g')
      ↔ ∃ t, readDeclaration e = .ok t ∧ t.1 ∉ g.names
        ∧ exec (declare name es) (g.insert ⟨t.1, t.2⟩) = (.ok (), g') := by
  obtain ⟨k, v⟩ := e
  have hkey : ∀ key, keyText [] k = .ok key ↔ keyText [name] k = .ok key :=
    fun _ => keyText_eq_ok_iff.symm
  have htree : ∀ n ms, expand (some n) [] v = .ok ms ↔ expand (some n) [name, n] v = .ok ms :=
    fun _ _ => (expand_eq_ok_iff v _ _ _).symm
  simp only [exec_declare_cons, readDeclaration_eq_ok_iff, hkey, htree, ← g.contains_iff]
  constructor
  · intro h
    split at h
    · cases h
    · rename_i typeName hkey
      split at h
      · cases h
      · rename_i hnew
        split at h
        · cases h
        · rename_i ms htree
          exact ⟨(typeName, .obj ms), ⟨hkey, ms, htree, rfl⟩, hnew, h⟩
  · rintro ⟨⟨typeName, _⟩, ⟨hkey, ms, htree, rfl⟩, hnew, h⟩
    simp only [hkey, if_neg hnew, htree, h]

/-- Without entries nothing is read. -/
theorem exec_pure_eq_ok_iff {g g' : TypeGraph} : exec (pure () : Loader Unit) g = (.ok (), g')
    ↔ ∃ ts, [].mapM readDeclaration = .ok ts ∧ g'.trees = g.trees ++ ts := by
  rw [exec_pure, List.mapM_nil]
  constructor
  · rintro h
    cases h
    exact ⟨[], rfl, (List.append_nil _).symm⟩
  · rintro ⟨_, ⟨⟩, htrees⟩
    rw [List.append_nil] at htrees
    cases g
    cases g'
    cases htrees
    rfl

/-- **A section is declared by reading its entries**, if the names are new. -/
theorem exec_declare_eq_ok_iff {name : String} {es : List (Value × Value)} {g g' : TypeGraph} :
    exec (declare name es) g = (.ok (), g')
      ↔ ∃ ts, es.mapM readDeclaration = .ok ts ∧ g'.trees = g.trees ++ ts := by
  induction es generalizing g with
  | nil =>
    rw [declare]
    exact exec_pure_eq_ok_iff
  | cons e es ih =>
    rw [exec_declare_cons_eq_ok_iff, List.mapM_cons]
    simp only [ih, Except.bind_eq_ok_iff]
    constructor
    · rintro ⟨t, ht, hnew, ts, hts, htrees⟩
      refine ⟨t :: ts, ⟨t, ht, ts, hts, rfl⟩, ?_⟩
      rw [htrees, TypeGraph.trees_insert_of_notMem hnew, List.append_assoc]
      rfl
    · rintro ⟨_, ⟨t, ht, ts, hts, ⟨⟩⟩, htrees⟩
      -- a graph has no name twice
      have hnew : t.1 ∉ g.names := by
        have hnodup := g'.nodup_names
        rw [htrees, Members.keys_append, List.nodup_append] at hnodup
        exact fun h => hnodup.2.2 _ h _ List.mem_cons_self rfl
      refine ⟨t, ht, hnew, ts, hts, ?_⟩
      rw [htrees, TypeGraph.trees_insert_of_notMem hnew, List.append_assoc]
      rfl

/-! ### Documents -/

namespace Document

/-- The entries of a section; there are none where it is not there, or is nothing. -/
def entriesOf (d : Document) (name : String) : List (Value × Value) :=
  match Value.entry? name d.entries with
  | some (.map es) => es
  | _ => []

/-- The entries of all sections, one section after the other. -/
def declarations (d : Document) : List (Value × Value) :=
  sections.flatMap d.entriesOf

/-- A section is not there, or nothing, or a mapping. -/
def HasSection (d : Document) (name : String) : Prop :=
  ∀ v, Value.entry? name d.entries = some v → v = .null ∨ ∃ es, v = .map es

/-- The document is loaded, and `g` is its graph. -/
def Loads (d : Document) (g : TypeGraph) : Prop :=
  exec d.declareAll ∅ = (.ok (), g)

theorem exec_declareSection_eq_ok_iff {d : Document} {name : String} {g g' : TypeGraph} :
    exec (d.declareSection name) g = (.ok (), g') ↔ d.HasSection name
      ∧ ∃ ts, (d.entriesOf name).mapM readDeclaration = .ok ts ∧ g'.trees = g.trees ++ ts := by
  unfold HasSection entriesOf declareSection
  rw [← @exec_declare_eq_ok_iff name]
  rcases Value.entry? name d.entries with - | v
  · simp [declare]
  · cases v <;> simp [declare]

theorem exec_sections_eq_ok_iff {d : Document} {names : List String} {g g' : TypeGraph} :
    exec (names.forM d.declareSection) g = (.ok (), g') ↔ (∀ name ∈ names, d.HasSection name)
      ∧ ∃ ts, (names.flatMap d.entriesOf).mapM readDeclaration = .ok ts
        ∧ g'.trees = g.trees ++ ts := by
  induction names generalizing g with
  | nil => exact exec_pure_eq_ok_iff.trans (by simp)
  | cons name names ih =>
    show exec (d.declareSection name >>= fun _ => names.forM d.declareSection) g = _ ↔ _
    rw [exec_bind_eq_ok_iff, List.forall_mem_cons, List.flatMap_cons]
    simp only [ih, List.mapM_append, Except.bind_eq_ok_iff]
    constructor
    · rintro ⟨_, g₁, hexec, hsections, ts', hts', htrees'⟩
      obtain ⟨hsection, ts, hts, htrees⟩ := exec_declareSection_eq_ok_iff.mp hexec
      refine ⟨⟨hsection, hsections⟩, ts ++ ts', ⟨ts, hts, ts', hts', rfl⟩, ?_⟩
      rw [htrees', htrees, List.append_assoc]
    · rintro ⟨⟨hsection, hsections⟩, _, ⟨ts, hts, ts', hts', ⟨⟩⟩, htrees⟩
      rw [← List.append_assoc] at htrees
      have hnodup : (g.trees ++ ts).keys.Nodup := by
        have h := g'.nodup_names
        rw [htrees, Members.keys_append] at h
        exact (List.nodup_append.mp h).1
      exact ⟨(), ⟨g.trees ++ ts, hnodup⟩,
        exec_declareSection_eq_ok_iff.mpr ⟨hsection, ts, hts, rfl⟩, hsections, ts', hts', htrees⟩

/-- **The graph of a document is what is read of its entries**, in order. -/
theorem loads_iff {d : Document} {g : TypeGraph} : d.Loads g ↔
    (∀ name ∈ sections, d.HasSection name) ∧ d.declarations.mapM readDeclaration = .ok g.trees := by
  rw [Loads, declareAll, exec_sections_eq_ok_iff, declarations]
  refine and_congr_right fun _ => ⟨?_, fun h => ⟨_, h, rfl⟩⟩
  rintro ⟨ts, hts, htrees⟩
  rw [htrees]
  exact hts

/-! ### Which documents are loaded -/

/-- What a document has to be for its types to be loaded. -/
structure Accepted (d : Document) : Prop where
  sections : ∀ name ∈ sections, d.HasSection name
  isKey : ∀ e ∈ d.declarations, e.1.isKey = true
  /-- No two entries, of whatever sections, have the same name as a text. -/
  nodup_names : (d.declarations.map fun e => keyText [] e.1).Nodup
  declares : ∀ e ∈ d.declarations, Declares e.2
  plain : ∀ e ∈ d.declarations, e.2.Plain

/-- What is read of an entry of a section: a tree that is spelled out, under the text of
the key. -/
def Declared (e : Value × Value) (t : String × Json) : Prop :=
  keyText [] e.1 = .ok t.1 ∧ ∃ ms, t.2 = .obj ms ∧ Spelled ms

theorem exists_readDeclaration_iff {e : Value × Value} :
    (∃ t, readDeclaration e = .ok t) ↔ e.1.isKey = true ∧ Declares e.2 ∧ e.2.Plain := by
  rw [← @exists_keyText_iff []]
  simp only [readDeclaration, Except.bind_eq_ok_iff]
  constructor
  · rintro ⟨_, name, hname, ms, hms, -⟩
    exact ⟨⟨name, hname⟩, (exists_expand_iff e.2 _ _).mp ⟨ms, hms⟩⟩
  · rintro ⟨⟨name, hname⟩, h⟩
    obtain ⟨ms, hms⟩ := (exists_expand_iff e.2 (some name) []).mpr h
    exact ⟨_, name, hname, ms, hms, rfl⟩

theorem declared_of_readDeclaration {e : Value × Value} {t : String × Json}
    (h : readDeclaration e = .ok t) : Declared e t := by
  obtain ⟨hname, ms, hms, htree⟩ := readDeclaration_eq_ok_iff.mp h
  exact ⟨hname, ms, htree, spelled_of_expand e.2 _ _ ms hms⟩

theorem Declared.map_keyText_eq {es : List (Value × Value)} {ts : Members Json}
    (h : List.Forall₂ Declared es ts) : (es.map fun e => keyText [] e.1) = ts.keys.map .ok := by
  induction h with
  | nil => rfl
  | cons hd _ ih => rw [List.map_cons, hd.1, ih]; rfl

theorem Loads.declared {d : Document} {g : TypeGraph} (h : d.Loads g) :
    List.Forall₂ Declared d.declarations g.trees :=
  (mapM_eq_ok_iff.mp (loads_iff.mp h).2).imp fun _ _ => declared_of_readDeclaration

theorem Loads.accepted {d : Document} {g : TypeGraph} (h : d.Loads g) : d.Accepted := by
  obtain ⟨hsections, hread⟩ := loads_iff.mp h
  have heach : ∀ e ∈ d.declarations, e.1.isKey = true ∧ Declares e.2 ∧ e.2.Plain := fun e he =>
    exists_readDeclaration_iff.mp (exists_mapM_eq_ok_iff.mp ⟨_, hread⟩ e he)
  refine ⟨hsections, fun e he => (heach e he).1, ?_, fun e he => (heach e he).2.1,
    fun e he => (heach e he).2.2⟩
  rw [Declared.map_keyText_eq h.declared]
  exact List.Nodup.map (fun _ _ => Except.ok.inj) g.nodup_names

theorem Accepted.exists_loads {d : Document} (h : d.Accepted) : ∃ g, d.Loads g := by
  obtain ⟨ts, hread⟩ : ∃ ts, d.declarations.mapM readDeclaration = .ok ts :=
    exists_mapM_eq_ok_iff.mpr fun e he =>
      exists_readDeclaration_iff.mpr ⟨h.isKey e he, h.declares e he, h.plain e he⟩
  have hnodup : (Members.keys ts).Nodup := by
    have hnames := h.nodup_names
    have hdeclared : List.Forall₂ Declared d.declarations ts :=
      (mapM_eq_ok_iff.mp hread).imp fun _ _ => declared_of_readDeclaration
    rw [Declared.map_keyText_eq hdeclared] at hnames
    exact List.Nodup.of_map _ hnames
  exact ⟨⟨ts, hnodup⟩, loads_iff.mpr ⟨h.sections, hread⟩⟩

end Document

/-- **Which documents are loaded, and that nothing is lost.**  A document is loaded
exactly if it is accepted; and then its graph has one tree for each entry of the
sections, in their order, under the name of the entry, and it is spelled out. -/
theorem loads_accepted (d : Document) : ((∃ g, d.Loads g) ↔ d.Accepted) ∧
    ∀ g, d.Loads g → List.Forall₂ Document.Declared d.declarations g.trees :=
  ⟨⟨fun ⟨_, h⟩ => h.accepted, Document.Accepted.exists_loads⟩, fun _ h => h.declared⟩

/-- Declarations in every place where one can stand, and a section without any. -/
def nestedDocument : Document where
  entries :=
    [(.str "schemas", .null),
      (.str "types", .map
        [(.str "Shelf", .map
          [(.str "type", .map [(.str "properties", .map [(.str "label?", .null)])]),
            (.str "items", .map [(.str "schema", .map [(.str "pattern", .str "b+")])]),
            (.str "example", .seq [.bool true, .map [(.bool false, .null)]])]),
          (.bool true, .str "Shelf[]")])]

theorem loads_accepted_nested : nestedDocument.Accepted ∧ ∃ g, nestedDocument.Loads g ∧
    g.names = ["Shelf", "true"] ∧
    List.Forall₂ Document.Declared nestedDocument.declarations g.trees := by
  have h := loads_accepted nestedDocument
  have hloads : nestedDocument.Loads (exec nestedDocument.declareAll ∅).2 := rfl
  exact ⟨h.1.mp ⟨_, hloads⟩, _, hloads, rfl, h.2 _ hloads⟩

end Raml

end RamlSchema
