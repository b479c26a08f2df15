/-
RamlSchema/Proofs/Normalize/Meaning.lean

Documents mean what the declarations mean.

A schema that is done holds copies of schemas that were done before it, each with
references that depend on what was in progress at its time, and laid over each
other at every place where they were put.  None of this shows in the unfolded
tree: a copy unfolds to what its type expands to, be it a schema or a mere
reference, and laying keywords over it commutes with unfolding.

Main results: `Renders.meets`, for all that is rendered from such copies, and
`documents_expand`, for the documents of a graph.
-/
import RamlSchema.Proofs.Normalize.Calls
import RamlSchema.Proofs.Normalize.Unfolding

namespace RamlSchema

open Relation SchemaNode

variable {g : TypeGraph} {o : Options} {p : Progress} {docs : Members SchemaNode}

/-! ### What rendered nodes are like -/

/-- The name of the property to which a step leads. -/
def Step.name? : Step → Option String
  | .items => none
  | .property name => some name

theorem keys_propertiesIn (done : List (Step × SchemaNode)) :
    Members.keys (propertiesIn done) = (done.map Prod.fst).filterMap Step.name? := by
  induction done with
  | nil => rfl
  | cons d done ih =>
    obtain ⟨- | name, n⟩ := d
    · exact ih
    · exact congrArg (name :: ·) ih

theorem names_parts (n : NodeShape) :
    (n.parts.map Prod.fst).filterMap Step.name? = Members.keys (n.properties.getD []) := by
  simp [NodeShape.parts, NodeShape.itemParts, NodeShape.propertyParts, Members.keys,
    List.filterMap_map, Step.name?, Function.comp_def]

theorem RendersAll.steps {base : String → SchemaNode → Prop} {parts : List (Step × Part)}
    {done : List (Step × SchemaNode)} (h : RendersAll g base parts done) :
    done.map Prod.fst = parts.map Prod.fst := by
  induction parts generalizing done with
  | nil =>
    cases h
    rfl
  | cons p parts ih =>
    cases h with
    | cons hn hrest => exact congrArg (_ :: ·) (ih hrest)

/-- The keywords of a node repeat no name unless the node does. -/
theorem distinct_of_steps {raw : Json} {n : NodeShape} {done : List (Step × SchemaNode)}
    (hwf : raw.WellFormed) (hn : NodeShape.ofJson raw = .ok n)
    (hsteps : done.map Prod.fst = n.parts.map Prod.fst) : (n.assemble done).Distinct := by
  obtain ⟨rfl, -⟩ := NodeShape.of_ofJson hn
  refine ⟨fun ps hps => ?_, (List.filter_sublist.map Prod.fst).nodup hwf.1⟩
  obtain ⟨_, hframe, rfl⟩ := Option.map_eq_some_iff.mp hps
  obtain ⟨qs, hqs, -⟩ := Option.map_eq_some_iff.mp hframe
  have hmem := Members.mem_of_get? (NodeShape.properties_of_ofJson hn hqs)
  have hqs' : (Json.obj qs).WellFormed := Json.wellFormedMembers_iff.mp hwf.2 _ hmem
  -- the converted properties have the names of the declared ones
  rw [keys_propertiesIn, hsteps, names_parts, hqs]
  exact hqs'.1

theorem distinct_assemble {base : String → SchemaNode → Prop} {raw : Json} {n : NodeShape}
    {done : List (Step × SchemaNode)} (hwf : raw.WellFormed) (hn : NodeShape.ofJson raw = .ok n)
    (hdone : RendersAll g base n.parts done) : (n.assemble done).Distinct :=
  distinct_of_steps hwf hn hdone.steps

/-- A schema as a conversion makes it: no dialect, and no name twice. -/
structure SchemaNode.Tidy (n : SchemaNode) : Prop where
  schema : n.schema = none
  distinct : n.Distinct

theorem tidy_referenceTo (T : String) : (referenceTo T).Tidy :=
  ⟨rfl, nofun, Members.nodup_keys_nil⟩

theorem Renders.tidy {base : String → SchemaNode → Prop} {raw : Json} {n : SchemaNode}
    (hwf : raw.WellFormed) (hbase : ∀ T b, base T b → b.Tidy)
    (h : Renders g base (.node raw) n) : n.Tidy := by
  cases h with
  | plain hn _ hparts _ => exact ⟨rfl, distinct_assemble hwf hn hparts⟩
  | reference _ _ _ _ hb =>
    have htidy := hbase _ _ hb
    exact ⟨htidy.schema, htidy.distinct.overlay⟩

/-- All that is done is as a conversion makes it. -/
theorem Progress.Valid.tidy (hp : p.Valid g) (hwf : g.WellFormed) {T : String} {d : SchemaNode}
    (hd : p.definition? T = some d) : d.Tidy := by
  refine hp.definition_induction (Q := fun _ d => d.Tidy)
    (fun D T tree d _ hbefore htree hrenders => ?_) T d hd
  apply hrenders.tidy (hwf T tree htree)
  intro U b hb
  rcases hb with ⟨hget, -⟩ | ⟨rfl, -⟩
  · exact hbefore U b hget
  · exact tidy_referenceTo U

/-- What stands in the place of a type as well. -/
theorem Progress.Valid.tidy_base (hp : p.Valid g) (hwf : g.WellFormed) {T : String}
    {b : SchemaNode} (hb : p.base p.definitions T b) : b.Tidy := by
  rcases hb with ⟨hget, -⟩ | ⟨rfl, -⟩
  · exact hp.tidy hwf hget
  · exact tidy_referenceTo T

/-! ### Replacing parts -/

section

variable {R : SchemaNode → SchemaNode → Prop} {done done' : List (Step × SchemaNode)}

theorem partsIn_related (h : List.Forall₂ (Labelled R) done done') :
    List.Forall₂ (Labelled R) (propertiesIn done) (propertiesIn done') ∧
      Option.Rel R (itemsIn done) (itemsIn done') := by
  induction h with
  | nil => exact ⟨.nil, .none⟩
  | @cons d d' _ _ hd _ ih =>
    obtain ⟨step, n⟩ := d
    obtain ⟨step', n'⟩ := d'
    obtain ⟨hstep, hR⟩ := hd
    obtain rfl : step = step' := hstep
    rcases step with - | name
    · exact ⟨ih.1, .some hR⟩
    · exact ⟨.cons ⟨rfl, hR⟩ ih.1, ih.2⟩

/-- Putting in related parts is replacing the parts. -/
theorem replaces_fill (n : SchemaNode) (h : List.Forall₂ (Labelled R) done done') :
    (n.fill done).Replaces R (n.fill done') where
  properties := by
    rcases hn : n.properties with - | ps
    · simp only [fill, hn, Option.map_none]
      exact .none
    · simp only [fill, hn, Option.map_some]
      exact .some (partsIn_related h).1
  items := (partsIn_related h).2
  rest := rfl

end

/-- A node without properties and items has nothing to be replaced. -/
theorem replaces_self {R : SchemaNode → SchemaNode → Prop} {n : SchemaNode}
    (hproperties : n.properties = none) (hitems : n.items = none) : n.Replaces R n := by
  refine ⟨?_, ?_, by cases n; rfl⟩
  · rw [hproperties]
    exact .none
  · rw [hitems]
    exact .none

/-! ### The same tree -/

/-- What is laid over a node is laid over what the node unfolds to. -/
theorem UnfoldsAt.overlay {below : SchemaNode → SchemaNode → Prop} {b u s s' : SchemaNode}
    (h : UnfoldsAt docs below b u) (hb : b.Distinct) (hs : s.Replaces below s') :
    UnfoldsAt docs below (b.overlay s) (u.overlay s') := by
  cases h with
  | plain hnone hm => exact .plain hnone (hm.overlay hs)
  | follow href hdoc hu hm =>
    -- what is laid over `b` stands beside its reference, with what `b` has itself
    rw [overlay_assoc _ _ (hm.distinct hb)]
    exact .follow href hdoc hu (hm.overlay hs)

/-- A part and a node have one tree of a depth. -/
def Meets (docs : Members SchemaNode) (g : TypeGraph) (depth : Nat) (part : Part)
    (n : SchemaNode) : Prop :=
  ∃ t, Unfolds docs depth n t ∧ Expands g depth part t

/-- The types to which references are written have documents with their schemas. -/
def Progress.Published (docs : Members SchemaNode) (p : Progress) : Prop :=
  ∀ T ∈ p.cycleTargets, ∃ doc, docs.get? T = some doc ∧
    p.definition? T = some { doc with schema := none }

theorem RendersAll.meets {base : String → SchemaNode → Prop} {depth : Nat}
    {parts : List (Step × Part)} {done : List (Step × SchemaNode)}
    (hparts : ∀ step part n, (step, part) ∈ parts → Renders g base part n →
      Meets docs g depth part n) :
    RendersAll g base parts done → ∃ done',
      List.Forall₂ (Labelled (Unfolds docs depth)) done done' ∧
        List.Forall₂ (Labelled (Expands g depth)) parts done'
  | .nil => ⟨[], .nil, .nil⟩
  | @RendersAll.cons _ _ step _ _ _ _ hn hrest => by
    obtain ⟨t, hu, he⟩ := hparts _ _ _ List.mem_cons_self hn
    obtain ⟨done', hus, hes⟩ := hrest.meets fun s c m hc => hparts s c m (List.mem_cons_of_mem _ hc)
    exact ⟨(step, t) :: done', .cons ⟨rfl, hu⟩ hus, .cons ⟨rfl, he⟩ hes⟩

/-- What stands in the place of a type has the tree of the type, if the schema of
the type has. -/
theorem Progress.Published.meets (hp : p.Published docs) {depth : Nat} {T : String} {tree : Json}
    {b : SchemaNode} (hb : p.base p.definitions T b)
    (hT : ∀ d, p.definition? T = some d → Meets docs g (depth + 1) (.node tree) d) :
    Meets docs g (depth + 1) (.node tree) b := by
  rcases hb with ⟨hget, -⟩ | ⟨rfl, htarget⟩
  · exact hT b hget
  · obtain ⟨doc, hdoc, hd⟩ := hp T htarget
    obtain ⟨t, hu, he⟩ := hT _ hd
    -- nothing stands beside the reference
    have href : Unfolds docs (depth + 1) (referenceTo T) (t.overlay (referenceTo T)) :=
      .follow rfl hdoc hu (replaces_self rfl rfl)
    rw [overlay_referenceTo] at href
    exact ⟨t, href, he⟩

/-- One level: a node has the tree of its part if the nodes below it have, and the
schemas of the type from which it derives. -/
theorem Renders.meets_succ (hp : p.Valid g) (hwf : g.WellFormed) (hg : g.NoReferences)
    (hpublished : p.Published docs) {depth : Nat}
    (hbelow : ∀ U part n, part.Within g U → Renders g (p.base p.definitions) part n →
      Meets docs g depth part n)
    {U : String} {raw : Json} {n : SchemaNode} (hraw : Part.Within g U (.node raw))
    (hderives : ∀ s T tree d, NodeShape.ofJson raw = .ok s → s.declared? g = some T →
      g.tree? T = some tree → p.definition? T = some d → Meets docs g (depth + 1) (.node tree) d)
    (h : Renders g (p.base p.definitions) (.node raw) n) :
    Meets docs g (depth + 1) (.node raw) n := by
  have hparts : ∀ s, NodeShape.ofJson raw = .ok s → ∀ step part m, (step, part) ∈ s.parts →
      Renders g (p.base p.definitions) part m → Meets docs g depth part m := by
    intro s hs step part m hpart hm
    exact hbelow U part m (hraw.of_mem hs hpart) hm
  cases h with
  | @plain _ s done hs _ hdone hT =>
    obtain ⟨done', hu, he⟩ := hdone.meets (hparts s hs)
    have hnone : (s.assemble done).reference = none := hg U raw s (hraw raw rfl) hs
    exact ⟨s.assemble done', .plain hnone (replaces_fill s.frame hu), .plain hs hT he⟩
  | @reference _ s done T b hs _ hdone hT hb =>
    obtain ⟨done', hu, he⟩ := hdone.meets (hparts s hs)
    obtain ⟨tree, htree⟩ := Option.isSome_iff_exists.mp
      ((g.tree?_isSome_iff T).mpr (NodeShape.declared?_eq_some_iff.mp hT).2)
    obtain ⟨t, hb', ht⟩ := hpublished.meets hb (hderives s T tree · hs hT htree)
    have hdistinct := (hp.tidy_base hwf hb).distinct
    exact ⟨t.overlay (s.site done'),
      hb'.overlay hdistinct (replaces_fill { s.frame with type := none } hu),
      .reference hs hT htree ht he⟩

/-- How the schema of a type was made, seen from the end. -/
theorem Progress.Valid.renders (hp : p.Valid g) {T : String} {d : SchemaNode}
    (hd : p.definition? T = some d) :
    ∃ tree, g.tree? T = some tree ∧ Renders g (p.base p.definitions) (.node tree) d := by
  refine hp.definition_induction
    (Q := fun T d => ∃ tree, g.tree? T = some tree ∧
      Renders g (p.base p.definitions) (.node tree) d)
    (fun D T tree d hD _ htree hrenders => ?_) T d hd
  refine ⟨tree, htree, hrenders.mono fun U b hb => ?_⟩
  exact hb.imp_left fun hb =>
    ⟨Members.get?_of_prefix ((List.prefix_append D _).trans hD) hb.1, hb.2⟩

section

variable (hp : p.Valid g) (hwf : g.WellFormed) (hg : g.NoReferences)
  (hpublished : p.Published docs)
include hp hwf hg hpublished

/-- **Whatever is rendered has the tree of its part**, to every depth. -/
theorem Renders.meets (hderives : ∀ T, ¬ TransGen (Derives g) T T) (depth : Nat) {U : String}
    {part : Part} {n : SchemaNode} (hpart : part.Within g U)
    (h : Renders g (p.base p.definitions) part n) : Meets docs g depth part n := by
  induction depth generalizing U part n with
  | zero => exact ⟨{}, rfl, rfl⟩
  | succ depth ih =>
    -- a level further down, by induction on the depth
    have hbelow : ∀ U part n, part.Within g U → Renders g (p.base p.definitions) part n →
        Meets docs g depth part n :=
      fun U part n hpart h => ih hpart h
    -- on the same level, along the types from which a type derives
    have htype : ∀ T tree d, g.tree? T = some tree → p.definition? T = some d →
        Meets docs g (depth + 1) (.node tree) d := by
      intro T
      induction T using (Derives.wellFounded hderives).induction with
      | _ T ihT =>
        intro tree d htree hd
        obtain ⟨tree', htree', hrenders⟩ := hp.renders hd
        rw [htree] at htree'
        cases htree'
        apply hrenders.meets_succ hp hwf hg hpublished hbelow (.root htree)
        intro s V treeV dV hs hV
        exact ihT V ⟨tree, s, htree, hs, hV⟩ treeV dV
    rcases part with raw | element
    · apply h.meets_succ hp hwf hg hpublished hbelow hpart
      intro s T tree d _ _
      exact htype T tree d
    · cases h
      exact ⟨.ofType element, .plain rfl (replaces_self rfl rfl), .written⟩

end

/-! ### Documents -/

/-- Without its dialect, a document is the schema of its type. -/
theorem eq_of_mem_documents (hp : p.Valid g) (hwf : g.WellFormed) {T : String} {doc : SchemaNode}
    (h : (T, doc) ∈ p.documents g o) : p.definition? T = some { doc with schema := none } := by
  obtain ⟨-, -, d, hd, rfl⟩ := mem_documents.mp h
  have hschema := (hp.tidy hwf hd).schema
  rw [hd, Option.some.injEq]
  cases d
  cases hschema
  rfl

/-- Unless some type failed, a reference is written only to types with documents. -/
theorem published_converted (hwf : g.WellFormed) (hok : (normalize g o).failures = []) :
    (converted g o).1.Published (normalize g o).documents := by
  intro T hT
  have hvalid := (idle_converted (g := g) (o := o)).valid
  -- a cycle target is declared, so it is done if it has not failed
  have hdone : T ∈ (converted g o).1.definitions.keys := by
    rcases defined_or_failed (hvalid.targets_declared hT) with hdone | hfailed
    · exact hdone
    · simp [Outcome.failed, hok] at hfailed
  have hkey : T ∈ (normalize g o).documents.keys := (keys_documents hvalid).mpr ⟨hdone, .inr hT⟩
  obtain ⟨doc, hdoc⟩ := Members.exists_get?_of_mem_keys hkey
  exact ⟨doc, hdoc, eq_of_mem_documents hvalid hwf (Members.mem_of_get? hdoc)⟩

/-- **Cycle breaking and caching preserve meaning.**  If no type failed, a document
with documents in the place of its references and the declaration of its type
with declarations in the place of their names have one and the same tree of each
depth, and no other.  That no object of a declared tree repeats a key is what
makes it a JSON value. -/
theorem documents_expand (hwf : g.WellFormed) (hg : g.NoReferences)
    (hderives : ∀ T, ¬ TransGen (Derives g) T T) (hok : (normalize g o).failures = []) :
    ∀ T doc, (T, doc) ∈ (normalize g o).documents → ∃ tree, g.tree? T = some tree ∧
      ∀ depth, ∃ t,
        (∀ u, Unfolds (normalize g o).documents depth { doc with schema := none } u ↔ u = t) ∧
        ∀ u, Expands g depth (.node tree) u ↔ u = t := by
  intro T doc hdoc
  have hvalid := (idle_converted (g := g) (o := o)).valid
  obtain ⟨tree, htree, hrenders⟩ := hvalid.renders (eq_of_mem_documents hvalid hwf hdoc)
  refine ⟨tree, htree, fun depth => ?_⟩
  obtain ⟨t, hu, he⟩ := hrenders.meets hvalid hwf hg (published_converted hwf hok) hderives depth
    (.root htree)
  refine ⟨t, fun u => ⟨fun h => Unfolds.unique depth h hu, ?_⟩,
    fun u => ⟨fun h => Expands.unique depth h he, ?_⟩⟩
  · rintro rfl
    exact hu
  · rintro rfl
    exact he

/-- A list whose cells derive from a base type, which refers back to the list. -/
def listGraph : TypeGraph :=
  .ofList
    [("List", .ofProperties [("head", .ofType (.str "Cell")), ("size", .ofType (.str "integer"))]),
      ("Cell", .ofType (.str "Base")), ("Base", .ofProperties [("tail", .ofType (.str "List"))])]

theorem documents_expand_list :
    ∃ doc tree, ("List", doc) ∈ (normalize listGraph {}).documents ∧
      listGraph.tree? "List" = some tree ∧ ∀ depth, ∃ t,
        (∀ u, Unfolds (normalize listGraph {}).documents depth { doc with schema := none } u
          ↔ u = t) ∧
        ∀ u, Expands listGraph depth (.node tree) u ↔ u = t := by
  have hwf : listGraph.WellFormed := TypeGraph.wellFormed_of_all (by decide)
  have hg : listGraph.NoReferences := TypeGraph.noReferences_of_lacksKey rfl
  have hstep : ∀ U T, Derives listGraph U T → U = "Cell" ∧ T = "Base" := by
    intro U T h
    have hU : U ∈ ["List", "Cell", "Base"] := h.references.source_mem
    rw [derives_iff] at h
    rcases hU with _ | ⟨_, _ | ⟨_, _ | ⟨_, hU⟩⟩⟩
    · exact nomatch h
    · exact ⟨rfl, (Option.some.inj h).symm⟩
    · exact nomatch h
    · exact nomatch hU
  have hderives : ∀ T, ¬ TransGen (Derives listGraph) T T := by
    intro T h
    obtain ⟨_, hfirst, -⟩ := TransGen.head'_iff.mp h
    obtain ⟨_, -, hlast⟩ := TransGen.tail'_iff.mp h
    have hne : "Cell" = "Base" := (hstep _ _ hfirst).1.symm.trans (hstep _ _ hlast).2
    exact absurd hne (by decide)
  obtain ⟨tree, htree, h⟩ := documents_expand (o := {}) hwf hg hderives rfl "List" _ (.head _)
  exact ⟨_, tree, .head _, htree, h⟩

end RamlSchema
