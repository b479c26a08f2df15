/-
RamlSchema/Proofs/Normalize/Hygiene.lean

What is written into a document, and what is not.

A declared tree may hold anything: keys that only an author reads, keywords of the
schema language where a conversion writes its own, empty lists of required names.
None of it gets through.  The facets of a node are those of declared nodes, less the
keys in question, and laying facets over facets adds no others; required names are
only ever appended, and only where they are new.  The dialect is written last, at
the roots.

Main result: `documents_hygienic`.
-/
import RamlSchema.Proofs.Normalize.Invariants
import RamlSchema.Proofs.Normalize.Nodes
import RamlSchema.Proofs.Schema.Encoding

namespace RamlSchema

open SchemaNode

/-! ### Names that are laid over others -/

theorem Names.ne_nil_of_addAll {names more : List String} (h : more ≠ []) :
    Names.addAll names more ≠ [] := by
  obtain ⟨name, hname⟩ := List.exists_mem_of_ne_nil more h
  exact List.ne_nil_of_mem (Names.mem_addAll.mpr (.inr hname))

/-- A property of required names that appending keeps. -/
theorem SchemaNode.of_overlayRequired {P : List String → Prop} {base site : Option (List String)}
    (hbase : ∀ names, base = some names → P names)
    (hsite : ∀ names, site = some names → P (Names.addAll (base.getD []) names))
    {names : List String} (h : overlayRequired base site = some names) : P names := by
  rcases site with - | more
  · exact hbase names h
  · obtain rfl := Option.some.inj h
    exact hsite more rfl

variable {g : TypeGraph} {o : Options}

/-! ### Dialects -/

theorem upholds_schema (g : TypeGraph) : g.Upholds fun n => n.schema = none where
  written _ _ _ := rfl
  referenceTo _ := rfl
  assemble _ _ _ _ := rfl
  overlay _ _ _ hb := hb

/-! ### Facets and required names -/

/-- A node with no facet that is for authors only or a keyword, and no empty list of
required names. -/
structure SchemaNode.Hygienic (n : SchemaNode) : Prop where
  facets : ∀ k ∈ Members.keys n.extra, k ∉ NodeShape.authoringKeys ∧ k ∉ NodeShape.keywords
  required : n.required ≠ some []

theorem NodeShape.facets_hygienic (n : NodeShape) :
    ∀ k ∈ Members.keys n.facets, k ∉ authoringKeys ∧ k ∉ keywords := by
  intro k hk
  obtain ⟨m, hm, rfl⟩ := List.mem_map.mp hk
  exact of_decide_eq_true (List.mem_filter.mp hm).2

theorem NodeShape.required_assemble (n : NodeShape) (done : List (Step × SchemaNode)) :
    (n.assemble done).required ≠ some [] := by
  show (if n.requiredNames.isEmpty then none else some n.requiredNames) ≠ some []
  split
  · nofun
  · intro h
    simp_all

theorem upholds_hygienic (g : TypeGraph) : g.Upholds Hygienic where
  written _ _ _ := ⟨nofun, nofun⟩
  referenceTo _ := ⟨nofun, nofun⟩
  assemble _ _ _ _ := ⟨NodeShape.facets_hygienic _, NodeShape.required_assemble _ _⟩
  overlay {U raw n done b} _ _ _ hb := by
    constructor
    · intro k hk
      rcases Members.mem_keys_insertMany.mp hk with hk | hk
      · exact hb.facets k hk
      · exact n.facets_hygienic k hk
    · -- names that are appended leave a list that is not empty
      intro hnone
      refine of_overlayRequired (P := fun names => names ≠ []) ?_ ?_ hnone rfl
      · rintro names hnames rfl
        exact hb.required hnames
      · intro names hnames
        apply Names.ne_nil_of_addAll
        rintro rfl
        exact n.required_assemble done hnames

/-! ### Required names that are listed once -/

/-- The names that a node lists as required itself. -/
def NodeShape.listedNames (n : NodeShape) : List String :=
  (listed (n.members.get? "required")).toOption.getD []

/-- No list of required names in a declared tree repeats a name. -/
def TypeGraph.ListsOnce (g : TypeGraph) : Prop :=
  g.AllShapes fun n => n.listedNames.Nodup

instance (g : TypeGraph) : Decidable g.ListsOnce :=
  inferInstanceAs (Decidable (g.AllShapes _))

/-- A node whose required names are distinct. -/
def SchemaNode.RequiresOnce (n : SchemaNode) : Prop :=
  ∀ names, n.required = some names → names.Nodup

theorem NodeShape.nodup_requiredNames {n : NodeShape} (h : n.listedNames.Nodup) :
    n.requiredNames.Nodup := by
  unfold requiredNames
  rcases hlisted : listed (n.members.get? "required") with cause | names
  · exact List.nodup_nil
  · rw [listedNames, hlisted] at h
    exact Names.nodup_addAll h _

theorem NodeShape.requiresOnce_assemble {n : NodeShape} (h : n.listedNames.Nodup)
    (done : List (Step × SchemaNode)) : (n.assemble done).RequiresOnce := by
  intro names hnames
  have hrequired : (if n.requiredNames.isEmpty then none else some n.requiredNames) = some names :=
    hnames
  split at hrequired
  · cases hrequired
  · obtain rfl := Option.some.inj hrequired
    exact nodup_requiredNames h

theorem upholds_requiresOnce (hg : g.ListsOnce) : g.Upholds RequiresOnce where
  written _ _ _ := nofun
  referenceTo _ := nofun
  assemble hraw hn _ _ := NodeShape.requiresOnce_assemble (hg _ _ _ hraw hn) _
  overlay {U raw n done b} _ _ _ hb := by
    intro names hnames
    refine of_overlayRequired hb (fun more _ => Names.nodup_addAll ?_ more) hnames
    rcases hbase : b.required with - | names
    · exact List.nodup_nil
    · exact hb names hbase

/-! ### Keys that are written once -/

theorem upholds_distinct (hwf : g.WellFormed) : g.Upholds Distinct where
  written _ _ _ := ⟨nofun, List.nodup_nil⟩
  referenceTo _ := ⟨nofun, List.nodup_nil⟩
  assemble hraw hn _ hsteps := distinct_of_steps (hwf.hasNode hraw) hn hsteps
  overlay _ _ _ hb := hb.overlay

/-- The values of facets are those of declared nodes. -/
theorem upholds_values (hwf : g.WellFormed) :
    g.Upholds fun n => ∀ m ∈ n.extra, m.2.WellFormed := by
  have hfacets : ∀ U raw n, g.HasNode U raw → NodeShape.ofJson raw = .ok n →
      ∀ m ∈ n.facets, m.2.WellFormed := by
    intro U raw n hraw hn m hm
    obtain ⟨rfl, -⟩ := NodeShape.of_ofJson hn
    exact Json.wellFormedMembers_iff.mp (hwf.hasNode hraw).2 m (List.mem_filter.mp hm).1
  refine ⟨fun _ _ _ => nofun, fun _ => nofun, fun hraw hn _ _ => hfacets _ _ _ hraw hn, ?_⟩
  intro U raw n done b hraw hn _ hb m hm
  rcases Members.mem_insertMany hm with hm | hm
  · exact hb m hm
  · exact hfacets U raw n hraw hn m hm

theorem TypeGraph.Upholds.and {P Q : SchemaNode → Prop} (hP : g.Upholds P) (hQ : g.Upholds Q) :
    g.Upholds fun n => P n ∧ Q n where
  written hraw hn h := ⟨hP.written hraw hn h, hQ.written hraw hn h⟩
  referenceTo h := ⟨hP.referenceTo h, hQ.referenceTo h⟩
  assemble hraw hn hT hsteps := ⟨hP.assemble hraw hn hT hsteps, hQ.assemble hraw hn hT hsteps⟩
  overlay hraw hn hsteps hb :=
    ⟨hP.overlay hraw hn hsteps hb.1, hQ.overlay hraw hn hsteps hb.2⟩

/-- Where no declared tree repeats a key, all that is done can be written out. -/
theorem Progress.Valid.writable {p : Progress} (hp : p.Valid g) (hwf : g.WellFormed) {T : String}
    {d : SchemaNode} (hd : p.definition? T = some d) : d.Everywhere Writable :=
  (hp.everywhere ((upholds_hygienic g).and (upholds_distinct hwf)) hd).imp fun _ h =>
    ⟨h.2, fun k hk => (h.1.facets k hk).2⟩

/-- The dialect is no facet. -/
theorem SchemaNode.Writable.schema {n : SchemaNode} (h : n.Writable) (uri : Option String) :
    { n with schema := uri }.Writable :=
  ⟨⟨h.distinct.properties, h.distinct.extra⟩, h.facets⟩

/-! ### Documents -/

/-- **Every node of a document is fit to be written.**  The root has the dialect of
the options, and no node below it has one.  Nowhere is there a facet for authors
only or one with the name of a keyword, or an empty list of required names; and
required names are distinct unless a declared tree lists one twice.  So the text of
a document repeats no key within a node, as no declared tree does. -/
theorem documents_hygienic (g : TypeGraph) (o : Options) :
    ∀ T doc, (T, doc) ∈ (normalize g o).documents →
      doc.schema = some o.schemaUri ∧
      (∀ c, doc.Child c → c.Everywhere fun n => n.schema = none) ∧
      doc.Everywhere Hygienic ∧
      (g.ListsOnce → doc.Everywhere RequiresOnce) ∧
      (g.WellFormed → doc.written.WellFormed) := by
  intro T doc hdoc
  have hvalid := (idle_converted (g := g) (o := o)).valid
  refine ⟨?_, ?_, ?_, ?_, ?_⟩
  · obtain ⟨-, -, d, -, rfl⟩ := mem_documents.mp hdoc
    rfl
  · intro c hc
    obtain ⟨-, -, d, hd, rfl⟩ := mem_documents.mp hdoc
    exact (hvalid.everywhere (upholds_schema g) hd).child c (child_schema.mp hc)
  · exact hvalid.everywhere_document (upholds_hygienic g) (fun _ _ h => ⟨h.facets, h.required⟩) hdoc
  · intro hg
    exact hvalid.everywhere_document (upholds_requiresOnce hg) (fun _ _ h => h) hdoc
  · intro hwf
    have hall := ((upholds_hygienic g).and (upholds_distinct hwf)).and (upholds_values hwf)
    have hdialect : ∀ (n : SchemaNode) (uri : Option String),
        ((n.Hygienic ∧ n.Distinct) ∧ ∀ m ∈ n.extra, m.2.WellFormed) →
          ({ n with schema := uri }.Hygienic ∧ { n with schema := uri }.Distinct) ∧
            ∀ m ∈ n.extra, m.2.WellFormed := by
      rintro n uri ⟨⟨hhygienic, hdistinct⟩, hvalues⟩
      exact ⟨⟨⟨hhygienic.facets, hhygienic.required⟩, hdistinct.properties, hdistinct.extra⟩, hvalues⟩
    apply wellFormed_written
    apply (hvalid.everywhere_document hall hdialect hdoc).imp
    rintro n ⟨⟨hhygienic, hdistinct⟩, hvalues⟩
    exact ⟨⟨hdistinct, fun k hk => (hhygienic.facets k hk).2⟩, hvalues⟩

/-- Types with much in them that is not to be written. -/
def dressedGraph : TypeGraph :=
  .ofList
    [("Base", .obj
        [("name", .str "Base"), ("type", .str "object"), ("required", .arr []),
          ("$schema", .str "other"), ("description", .str "base"),
          ("properties", .obj [("id", .obj [("displayName", .str "Id"), ("type", .str "string"),
            ("required", .bool true)])])]),
      ("List", .obj
        [("type", .str "Base"), ("required", .arr [.str "id", .str "head"]),
          ("description", .str "list"), ("repeat", .bool true),
          ("properties", .obj [("head", .ofType (.str "Base")), ("tail", .ofType (.str "List"))])])]

/-- None of it is, in the document that lays the one over the other. -/
theorem documents_hygienic_dressed :
    ∃ doc, (normalize dressedGraph {}).documents.get? "List" = some doc ∧
      doc.Everywhere Hygienic ∧ doc.Everywhere RequiresOnce ∧ doc.written.WellFormed ∧
      doc.required = some ["id", "head"] ∧
      doc.extra = [("description", .str "list")] := by
  obtain ⟨-, -, hhygienic, hrequires, hwritten⟩ :=
    documents_hygienic dressedGraph {} "List" _ (.head _)
  exact ⟨_, rfl, hhygienic, hrequires (by decide),
    hwritten (TypeGraph.wellFormed_of_all (by decide)), rfl, rfl⟩

end RamlSchema
