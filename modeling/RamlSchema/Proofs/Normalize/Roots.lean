/-
RamlSchema/Proofs/Normalize/Roots.lean

References at the roots of documents.

The root of a schema has the reference of the schema on which its own keywords are
laid, and that is the schema of the type from which its type derives: the one that its
root names, or the one called `object` or `array` where that is supplied.  So a
reference comes to a root only from further along this derivation, from a type that was
in progress at the time.  Following such references goes along the derivation, and comes
to an end where the derivation does.  Where it runs in a circle there is no type that
could have been converted first, and some root is nothing but a reference.

Main result: `documents_end_iff`.  If no type fails, references at roots lead from a
document to one without if and only if the derivation of its type comes to an end.
-/
import RamlSchema.Proofs.Normalize.Links

namespace RamlSchema

open Relation Progress

variable {g : TypeGraph} {o : Options} {p : Progress} {T U : String}

/-! ### Derivations that end -/

/-- Neither `T` nor a type from which it derives derives from itself. -/
def TypeGraph.Rooted (g : TypeGraph) (T : String) : Prop :=
  ∀ X, ReflTransGen (Derives g) T X → ¬ TransGen (Derives g) X X

/-- A type derives from one type only. -/
theorem Derives.unique {V : String} (hU : Derives g T U) (hV : Derives g T V) : U = V :=
  Option.some.inj ((derives_iff.mp hU).symm.trans (derives_iff.mp hV))

theorem TypeGraph.rooted_of_parent? (h : g.parent? T = none) : g.Rooted T := by
  have hT : ∀ U, ¬ Derives g T U := by
    intro U hU
    rw [derives_iff, h] at hU
    cases hU
  intro X hX hcircle
  obtain rfl : T = X := by
    rcases hX.cases_head with rfl | ⟨U, hU, -⟩
    · rfl
    · exact absurd hU (hT U)
  obtain ⟨U, hU, -⟩ := TransGen.head'_iff.mp hcircle
  exact hT U hU

theorem TypeGraph.Rooted.of_derives (hU : g.Rooted U) (h : Derives g T U) : g.Rooted T := by
  intro X hX hcircle
  rcases hX.cases_head with rfl | ⟨V, hV, hVX⟩
  · -- a circle through `T` goes through `U`, and comes back there
    obtain ⟨V, hV, hback⟩ := TransGen.head'_iff.mp hcircle
    obtain rfl := h.unique hV
    exact hU _ hback hcircle
  · obtain rfl := h.unique hV
    exact hU X hVX hcircle

theorem TypeGraph.Rooted.of_transGen (hU : g.Rooted U) (h : TransGen (Derives g) T U) :
    g.Rooted T := by
  induction h using TransGen.head_induction_on with
  | single h => exact hU.of_derives h
  | head h _ ih => exact ih.of_derives h

/-! ### Where the reference of a root comes from -/

/-- The root of a schema has no reference if the derivation of its type ends in the
schema, and otherwise has one to a type further along it. -/
theorem Progress.Valid.root (hp : p.Valid g) (hg : g.NoReferences) {d : SchemaNode}
    (hd : p.definition? T = some d) :
    (d.reference = none ∧ g.Rooted T) ∨
      ∃ X ∈ p.cycleTargets, d.reference = some (documentFileName X) ∧
        TransGen (Derives g) T X := by
  refine hp.definition_induction
    (Q := fun T d => (d.reference = none ∧ g.Rooted T) ∨
      ∃ X ∈ p.cycleTargets, d.reference = some (documentFileName X) ∧ TransGen (Derives g) T X)
    (fun D T tree d _ hbefore htree hrenders => ?_) T d hd
  cases hrenders with
  | @plain _ n done hn _ _ hT =>
    have hparent : g.parent? T = none := by simp [TypeGraph.parent?, htree, hn, hT]
    exact .inl ⟨hg T tree n (.root htree) hn, TypeGraph.rooted_of_parent? hparent⟩
  | @reference _ n done U b hn _ _ hU hb =>
    have hderives : Derives g T U := ⟨tree, n, htree, hn, hU⟩
    rcases hb with ⟨hget, -⟩ | ⟨rfl, htarget⟩
    · -- the root of the schema that is put in its place
      rcases hbefore U b hget with ⟨hnone, hrooted⟩ | ⟨X, hX, hreference, hpath⟩
      · exact .inl ⟨hnone, hrooted.of_derives hderives⟩
      · exact .inr ⟨X, hX, hreference, hpath.head hderives⟩
    · exact .inr ⟨U, htarget, rfl, .single hderives⟩

/-! ### Following references from roots -/

/-- References at roots lead from the document of `T` to one that has none. -/
inductive Outcome.Ends (out : Outcome) : String → Prop
  | here {T doc} : (T, doc) ∈ out.documents → doc.reference = none → Ends out T
  | follow {T X doc} :
      (T, doc) ∈ out.documents → doc.reference = some (documentFileName X) → Ends out X →
      Ends out T

/-- The root of a document, if no type failed. -/
theorem document_root (hg : g.NoReferences) (hok : (normalize g o).failures = []) {doc : SchemaNode}
    (hdoc : (T, doc) ∈ (normalize g o).documents) :
    (doc.reference = none ∧ g.Rooted T) ∨
      ∃ X ∈ (normalize g o).documents.keys, doc.reference = some (documentFileName X) ∧
        TransGen (Derives g) T X := by
  have hvalid := (idle_converted (g := g) (o := o)).valid
  obtain ⟨-, -, d, hd, rfl⟩ := mem_documents.mp hdoc
  rcases hvalid.root hg hd with hroot | ⟨X, hX, hreference, hpath⟩
  · exact .inl hroot
  · have hkey := (target_documented hX).resolve_right (by simp [Outcome.failed, hok])
    exact .inr ⟨X, hkey, hreference, hpath⟩

/-- **Following references from roots ends where derivations do.**  If no type fails,
references at roots lead from the document of `T` to one that has none if and only if
neither `T` nor a type from which it derives derives from itself.  A root refers only to
types from which its own type derives, and they have documents; so a document refers to
itself at its root only if its type derives from itself. -/
theorem documents_end_iff (hg : g.NoReferences) (hok : (normalize g o).failures = []) :
    (∀ T ∈ (normalize g o).documents.keys, (normalize g o).Ends T ↔ g.Rooted T) ∧
    ∀ T doc X, (T, doc) ∈ (normalize g o).documents →
      doc.reference = some (documentFileName X) →
        X ∈ (normalize g o).documents.keys ∧ TransGen (Derives g) T X := by
  have hroot : ∀ T doc X, (T, doc) ∈ (normalize g o).documents →
      doc.reference = some (documentFileName X) →
        X ∈ (normalize g o).documents.keys ∧ TransGen (Derives g) T X := by
    intro T doc X hdoc hX
    rcases document_root hg hok hdoc with ⟨hnone, -⟩ | ⟨Y, hY, hreference, hpath⟩
    · exact nomatch hnone.symm.trans hX
    · obtain rfl := documentFileName_injective (Option.some.inj (hX.symm.trans hreference))
      exact ⟨hY, hpath⟩
  refine ⟨fun T hT => ⟨fun hends => ?_, fun hrooted => ?_⟩, hroot⟩
  · induction hends with
    | here hdoc hnone =>
      rcases document_root hg hok hdoc with ⟨-, hrooted⟩ | ⟨X, -, hX, -⟩
      · exact hrooted
      · exact nomatch hnone.symm.trans hX
    | follow hdoc hX _ ih =>
      obtain ⟨hkey, hpath⟩ := hroot _ _ _ hdoc hX
      exact (ih hkey).of_transGen hpath
  · -- along the derivation, which comes to an end
    have hacc := (Derives.acc hrooted).transGen
    induction hacc with
    | intro T _ ih =>
      obtain ⟨⟨T, doc⟩, hdoc, rfl⟩ := List.mem_map.mp hT
      rcases document_root hg hok hdoc with ⟨hnone, -⟩ | ⟨X, hX, hreference, hpath⟩
      · exact .here hdoc hnone
      · have hXrooted : g.Rooted X := fun Y hY => hrooted Y (hpath.to_reflTransGen.trans hY)
        exact .follow hdoc hreference (ih X (transGen_swap.mpr hpath) hX hXrooted)

/-- A base type with nodes that derive from it. -/
def nodesGraph : TypeGraph :=
  .ofList
    [("Base", .ofProperties [("first", .ofType (.str "Node"))]),
      ("Node", .obj [("type", .str "Base"),
        ("properties", .obj [("next", .ofType (.str "Node"))])])]

/-- The document of a node refers to its base at the root, and there it ends. -/
theorem documents_end_nodes :
    (∃ doc, ("Node", doc) ∈ (normalize nodesGraph {}).documents ∧
      doc.reference = some (documentFileName "Base")) ∧
    (normalize nodesGraph {}).Ends "Node" := by
  have hg : nodesGraph.NoReferences := TypeGraph.noReferences_of_lacksKey rfl
  have hbase : nodesGraph.Rooted "Base" := TypeGraph.rooted_of_parent? rfl
  have hnode : nodesGraph.Rooted "Node" := hbase.of_derives (derives_iff.mpr rfl)
  have hkey : "Node" ∈ (normalize nodesGraph {}).documents.keys := .tail _ (.head _)
  exact ⟨⟨_, .tail _ (.head _), rfl⟩, ((documents_end_iff (o := {}) hg rfl).1 _ hkey).mpr hnode⟩

/-- A type that derives from itself. -/
def circularGraph : TypeGraph :=
  .ofList [("A", .ofType (.str "A"))]

/-- It has a document, which refers to itself at its root for ever. -/
theorem documents_circle :
    circularGraph.NoReferences ∧ (normalize circularGraph {}).failures = [] ∧
      ("A", { SchemaNode.referenceTo "A" with schema := some ({} : Options).schemaUri })
        ∈ (normalize circularGraph {}).documents ∧
      ¬ (normalize circularGraph {}).Ends "A" := by
  have hdocuments : (normalize circularGraph {}).documents =
      [("A", { SchemaNode.referenceTo "A" with schema := some ({} : Options).schemaUri })] := rfl
  refine ⟨TypeGraph.noReferences_of_lacksKey rfl, rfl, hdocuments ▸ .head _, fun hends => ?_⟩
  generalize hA : "A" = A at hends
  induction hends with
  | here hdoc hnone =>
    rw [hdocuments, List.mem_singleton] at hdoc
    cases hdoc
    cases hnone
  | follow hdoc hX _ ih =>
    rw [hdocuments, List.mem_singleton] at hdoc
    cases hdoc
    exact ih (documentFileName_injective (Option.some.inj hX))

end RamlSchema
