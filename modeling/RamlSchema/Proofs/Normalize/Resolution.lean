/-
RamlSchema/Proofs/Normalize/Resolution.lean

No name of a declared type is left.

The name of a type can come into a node as its expression, as `array` or `object` for
want of one, as the element of an array or as an item.  In each case it is the node's
single type when the type is looked up, and what comes of the node has the type of
what is put in its place.  One text is never looked up: an element with a bar in it,
which is left as it is written.  It is not declared unless a declared name has a bar.

Main result: `definitions_resolved`, for every progress that can be reached.
-/
import RamlSchema.Proofs.Normalize.Invariants
import RamlSchema.Proofs.Normalize.Levels

namespace RamlSchema

open SchemaNode

/-- No declared name has a bar in it. -/
def TypeGraph.BarlessNames (g : TypeGraph) : Prop :=
  ∀ T ∈ g.names, TypeExpr.hasBar T = false

instance (g : TypeGraph) : Decidable g.BarlessNames :=
  inferInstanceAs (Decidable (∀ T ∈ g.names, _))

/-- A node without the name of a declared type as its single type. -/
def SchemaNode.Resolved (g : TypeGraph) (n : SchemaNode) : Prop :=
  ∀ name, n.typeName? = some name → name ∉ g.names

variable {g : TypeGraph} {o : Options}

/-- Only the element of an array is left as it is written, and only if it has a bar. -/
theorem NodeShape.of_written {n : NodeShape} {step : Step} {element : String}
    (h : (step, .written element) ∈ n.parts) :
    n.type = some (.arrayOf element) ∧ TypeExpr.hasBar element = true := by
  rcases List.mem_append.mp h with hitem | hproperty
  · obtain ⟨hpart, -⟩ : n.itemPart? = some (.written element) ∧ Step.items = step := by
      simpa [itemParts] using hitem
    unfold itemPart? Part.ofExpression at hpart
    split at hpart
    · split at hpart
      · cases hpart
        exact ⟨‹_›, ‹_›⟩
      · cases hpart
    · split at hpart <;> cases hpart
  · simp [propertyParts] at hproperty

/-- A node without a declared type has no declared name. -/
theorem NodeShape.resolved_assemble {n : NodeShape} (hT : n.declared? g = none)
    (done : List (Step × SchemaNode)) : (n.assemble done).Resolved g := by
  intro name hname hmem
  have hdeclared : n.declared? g = some name := declared?_eq_some_iff.mpr ⟨hname, hmem⟩
  cases hT.symm.trans hdeclared

/-- Every way of making a node resolves its type, if no element is left as it is written
that is declared. -/
theorem upholds_resolved
    (hg : ∀ {U raw n step element}, g.HasNode U raw → NodeShape.ofJson raw = .ok n →
      (step, .written element) ∈ n.parts → element ∉ g.names) :
    g.Upholds (Resolved g) where
  written hraw hn h := by
    rintro name ⟨⟩
    exact hg hraw hn h
  referenceTo _ := nofun
  assemble _ _ hT _ := NodeShape.resolved_assemble hT _
  overlay _ _ _ hb := hb

theorem TypeGraph.BarlessNames.upholds (hg : g.BarlessNames) : g.Upholds (Resolved g) :=
  upholds_resolved fun _ _ h hmem => by
    cases (hg _ hmem).symm.trans (NodeShape.of_written h).2

/-- **Every name of a declared type is resolved.**  Where no declared name has a bar
in it, no node of a schema that is done, in whatever progress can be reached, has the
name of a declared type; for each node of the tree with such a name, the schema of
the type or a reference to it has been put in its place.  So it is in the documents of
each such progress: between the calls of a session and at the end of a run. -/
theorem definitions_resolved (hg : g.BarlessNames) (o : Options) :
    (∀ p, Reaches g o {} p →
      (∀ T d, p.definition? T = some d → d.Everywhere (Resolved g) ∧
        ∃ tree, g.tree? T = some tree ∧ Renders g (p.base p.definitions) (.node tree) d) ∧
      ∀ T doc, (T, doc) ∈ p.documents g o → doc.Everywhere (Resolved g)) ∧
    (∀ names, Reaches g o {} (calls g o {} names).2) ∧
    ∀ T doc, (T, doc) ∈ (normalize g o).documents → doc.Everywhere (Resolved g) := by
  have hdocuments : ∀ p, Reaches g o {} p → ∀ T doc, (T, doc) ∈ p.documents g o →
      doc.Everywhere (Resolved g) := by
    intro p hp T doc hdoc
    have hvalid := Reaches.valid hp Progress.valid_empty
    exact hvalid.everywhere_document hg.upholds (fun _ _ h => h) hdoc
  refine ⟨?_, ?_, ?_⟩
  · intro p hp
    refine ⟨?_, hdocuments p hp⟩
    intro T d hd
    have hvalid := Reaches.valid hp Progress.valid_empty
    exact ⟨hvalid.everywhere hg.upholds hd, hvalid.renders hd⟩
  · intro names
    exact (calls_idle idle_empty).reached
  · exact hdocuments _ idle_converted.reached

/-- Names in each of the places where one can stand, some of them on a cycle. -/
def tangledGraph : TypeGraph :=
  .ofList
    [("array", .ofType (.str "T")), ("T", .ofType (.str "string")),
      ("N", .ofProperties
        [("next", .ofType (.str "N")), ("tags", .ofType (.str "T[]")),
          ("more", .obj [("type", .str "T"), ("items", .str "N")]),
          ("either", .ofType (.str "(N|T)[]"))])]

/-- None of them is left, neither in what is done after a call nor in the documents. -/
theorem definitions_resolved_tangled :
    (∃ d, (calls tangledGraph {} {} ["N"]).2.definition? "N" = some d ∧
      d.Everywhere (Resolved tangledGraph)) ∧
    ∃ doc, (normalize tangledGraph {}).documents.get? "N" = some doc ∧
      doc.Everywhere (Resolved tangledGraph) := by
  have h := definitions_resolved (g := tangledGraph) (by decide) {}
  exact ⟨⟨_, rfl, ((h.1 _ (h.2.1 ["N"])).1 "N" _ rfl).1⟩, ⟨_, rfl, h.2.2 "N" _ (.head _)⟩⟩

/-- A declared name with a bar in it is left where it is an element. -/
example :
    (normalize (.ofList [("(A|B)", .ofType (.str "string")), ("L", .ofType (.str "(A|B)[]"))])
        {}).documents.get? "L"
      = some { schema := some ({} : Options).schemaUri, type := some (.single "array"),
               items := some (.ofType "(A|B)") } := rfl

end RamlSchema
