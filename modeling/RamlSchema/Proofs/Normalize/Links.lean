/-
RamlSchema/Proofs/Normalize/Links.lean

Where the references in documents lead.

A reference is written where a cycle is broken, and at that time its target is
still being converted.  If the target fails later on, it has no document, and
what was done in between keeps the reference.

Main result: `references_resolve`.  A reference in the document of a type names
a type on a cycle that the document's type leads to, and that type has a
document or has failed.  So all references resolve if and only if no document
refers to a failed type without one.
-/
import RamlSchema.Proofs.Normalize.Calls
import RamlSchema.Proofs.Schema.Refers

namespace RamlSchema

open Relation

variable {g : TypeGraph} {o : Options}

/-! ### References in schemas -/

/-- The reference `r` in a schema of the type `U` is to one of `targets`. -/
def LinksTo (g : TypeGraph) (targets : List String) (U : String) (r : String) : Prop :=
  ∃ X, r = documentFileName X ∧ X ∈ targets ∧ ReflTransGen (References g) U X

/-- What stands below the keywords of a site. -/
theorem NodeShape.of_child_site {n : NodeShape} {done : List (Step × SchemaNode)} {c : SchemaNode}
    (h : (n.site done).Child c) : ∃ step, (step, c) ∈ done :=
  SchemaNode.Child.of_fill (n := { n.frame with type := none }) h

section

variable {base : String → SchemaNode → Prop} {U : String} {Q : String → Prop}

mutual

/-- What is put together from schemas has the references of these schemas and no
others. -/
theorem Renders.refers (hg : g.NoReferences)
    (hbase : ∀ T b, base T b → References g U T → ∀ r, b.Refers r → Q r)
    {part : Part} {n : SchemaNode} (hpart : part.Within g U) :
    Renders g base part n → ∀ r, n.Refers r → Q r
  | .written => fun r h => absurd h SchemaNode.not_refers_ofType
  | .plain hn _ hparts _ => fun r h => by
    rcases h.cases with h | ⟨c, hc, h⟩
    · have hnone := hg U _ _ (hpart _ rfl) hn
      exact absurd (hnone.symm.trans h) nofun
    · obtain ⟨step, hmem⟩ := hc.of_fill
      exact hparts.refers hg hbase (fun _ _ hs => hpart.of_mem hn hs) step c hmem r h
  | .reference hn _ hparts hT hb => fun r h => by
    -- a reference comes from the schema of the type, or from the site
    rcases h.of_overlay with h | ⟨c, hc, h⟩
    · exact hbase _ _ hb (hpart.references hn hT) r h
    · obtain ⟨step, hmem⟩ := NodeShape.of_child_site hc
      exact hparts.refers hg hbase (fun _ _ hs => hpart.of_mem hn hs) step c hmem r h

theorem RendersAll.refers (hg : g.NoReferences)
    (hbase : ∀ T b, base T b → References g U T → ∀ r, b.Refers r → Q r)
    {parts : List (Step × Part)} {done : List (Step × SchemaNode)}
    (hparts : ∀ step part, (step, part) ∈ parts → part.Within g U) :
    RendersAll g base parts done →
      ∀ step c, (step, c) ∈ done → ∀ r, c.Refers r → Q r
  | .nil => fun _ _ hmem => nomatch hmem
  | .cons hn hrest => fun step c hmem r h => by
    rcases List.mem_cons.mp hmem with heq | hmem
    · cases heq
      exact hn.refers hg hbase (hparts _ _ List.mem_cons_self) r h
    · exact hrest.refers hg hbase (fun s part hs => hparts s part (List.mem_cons_of_mem _ hs))
        step c hmem r h

end

end

theorem LinksTo.head {targets : List String} {U T r : String} (href : References g U T)
    (h : LinksTo g targets T r) : LinksTo g targets U r := by
  obtain ⟨X, hr, hX, hpath⟩ := h
  exact ⟨X, hr, hX, .head href hpath⟩

/-- The references in what is done are to types whose cycles were broken. -/
theorem Progress.Valid.linksTo {p : Progress} (hp : p.Valid g) (hg : g.NoReferences) {T : String}
    {d : SchemaNode} (hd : p.definition? T = some d) {r : String} (hr : d.Refers r) :
    LinksTo g p.cycleTargets T r := by
  refine hp.definition_induction (Q := fun T d => ∀ r, d.Refers r → LinksTo g p.cycleTargets T r)
    (fun D T tree d _ hbefore htree hrenders => ?_) T d hd r hr
  refine hrenders.refers hg (Q := LinksTo g p.cycleTargets T) (fun V b hb href r hr => ?_)
    (.root htree)
  rcases hb with ⟨hget, -⟩ | ⟨rfl, htarget⟩
  -- a schema brings its references along, each on the way from `V`
  · exact (hbefore V b hget r hr).head href
  · exact ⟨V, SchemaNode.refers_referenceTo.mp hr, htarget, .single href⟩

/-! ### References in documents -/

/-- Some document refers to the type `X`. -/
def Outcome.RefersTo (out : Outcome) (X : String) : Prop :=
  ∃ T doc, (T, doc) ∈ out.documents ∧ doc.Refers (documentFileName X)

/-- Every reference in a document is to a type that has one. -/
def Outcome.Closed (out : Outcome) : Prop :=
  ∀ T doc, (T, doc) ∈ out.documents → ∀ r, doc.Refers r →
    ∃ X ∈ out.documents.keys, r = documentFileName X

/-- A cycle target that is done has a document. -/
theorem target_documented {X : String} (hX : X ∈ (converted g o).1.cycleTargets) :
    X ∈ (normalize g o).documents.keys ∨ X ∈ (normalize g o).failed := by
  have hvalid := (idle_converted (g := g) (o := o)).valid
  rcases defined_or_failed (o := o) (hvalid.targets_declared hX) with hdone | hfailed
  · left
    rw [documents_normalize, keys_documents hvalid]
    exact ⟨hdone, .inr hX⟩
  · exact .inr hfailed

/-- **References lead to documents, or to types that failed.**  A reference in
the document of `T` names a type on a cycle to which `T` leads, and it resolves
unless that type failed and has no document. -/
theorem references_resolve (hg : g.NoReferences) :
    (∀ T doc, (T, doc) ∈ (normalize g o).documents → ∀ r, doc.Refers r →
      ∃ X, r = documentFileName X ∧ ReflTransGen (References g) T X ∧
        TransGen (References g) X X ∧
        (X ∈ (normalize g o).documents.keys ∨ X ∈ (normalize g o).failed)) ∧
    ((normalize g o).Closed ↔
      ∀ X ∈ (normalize g o).failed, (normalize g o).RefersTo X →
        X ∈ (normalize g o).documents.keys) := by
  have hvalid := (idle_converted (g := g) (o := o)).valid
  have hlinks : ∀ T doc, (T, doc) ∈ (normalize g o).documents → ∀ r, doc.Refers r →
      ∃ X, r = documentFileName X ∧ ReflTransGen (References g) T X ∧
        TransGen (References g) X X ∧
        (X ∈ (normalize g o).documents.keys ∨ X ∈ (normalize g o).failed) := by
    intro T doc hdoc r hr
    obtain ⟨-, -, n, hn, rfl⟩ := mem_documents.mp hdoc
    obtain ⟨X, rfl, hX, hpath⟩ := hvalid.linksTo hg hn (SchemaNode.refers_schema.mp hr)
    exact ⟨X, rfl, hpath, hvalid.targets_cyclic X hX, target_documented hX⟩
  refine ⟨hlinks, fun hclosed X _ hX => ?_, fun hfailed T doc hdoc r hr => ?_⟩
  · -- a document is told from its name
    obtain ⟨T, doc, hdoc, hr⟩ := hX
    obtain ⟨Y, hY, hXY⟩ := hclosed T doc hdoc _ hr
    exact documentFileName_injective hXY ▸ hY
  · obtain ⟨X, rfl, -, -, hX | hX⟩ := hlinks T doc hdoc r hr
    · exact ⟨X, hX, rfl⟩
    · exact ⟨X, hfailed X hX ⟨T, doc, hdoc, hr⟩, rfl⟩

/-- A type that refers to itself. -/
def recursiveGraph : TypeGraph :=
  .ofList [("Tree", .ofProperties [("left", .ofType (.str "Tree"))])]

/-- The reference of a type to itself resolves. -/
theorem references_resolve_recursive :
    (normalize recursiveGraph {}).RefersTo "Tree" ∧ (normalize recursiveGraph {}).Closed := by
  have hg : recursiveGraph.NoReferences := TypeGraph.noReferences_of_lacksKey rfl
  have hfailed : (normalize recursiveGraph {}).failed = [] := rfl
  refine ⟨⟨"Tree", _, .head _, .child (.property rfl (.head _)) (.here rfl)⟩, ?_⟩
  exact (references_resolve hg).2.mpr fun X hX => absurd (hfailed ▸ hX) List.not_mem_nil

/-- A cycle of two types, of which the first fails when the second is done. -/
def brokenCycle : TypeGraph :=
  .ofList
    [("A", .ofProperties [("b", .ofType (.str "B")), ("bad", .ofType (.num (.whole 7)))]),
      ("B", .ofProperties [("a", .ofType (.str "A")), ("b", .ofType (.str "B"))])]

/-- The document of `B` refers to `A`, which has none. -/
theorem references_dangle : brokenCycle.NoReferences ∧ ¬ (normalize brokenCycle {}).Closed := by
  refine ⟨TypeGraph.noReferences_of_lacksKey rfl, fun hclosed => ?_⟩
  have hkeys : (normalize brokenCycle {}).documents.keys = ["B"] := rfl
  obtain ⟨X, hX, hr⟩ := hclosed "B" _ (.head _) (documentFileName "A")
    (.child (.property rfl (.head _)) (.here rfl))
  rw [hkeys, List.mem_singleton] at hX
  subst hX
  exact absurd (documentFileName_injective hr) (by decide)

end RamlSchema
