/-
RamlSchema/Proofs/Normalize/Accounts.lean

What becomes of each declared type.

A type that is put in the place of a reference loses its own document.  It does
so when the reference is resolved, and before it is known whether the type that
holds the reference comes to its end.  Where that type fails, the schema that
was put there is in no document, and the type has none of its own either.

Main result: `accounted_iff`.  A declared type that has no document, has not
failed and is not reached from a type with a document is reached from a type
that failed; and there are no such types if and only if those to which failed
types refer are accounted for.
-/
import RamlSchema.Proofs.Normalize.Calls

namespace RamlSchema

open Relation

variable {g : TypeGraph} {o : Options} {p p' : Progress}

/-! ### Who holds a nested type -/

/-- Every nested type stands in the place of a reference of some type, which was
done after it if at all. -/
def Progress.Held (g : TypeGraph) (p : Progress) : Prop :=
  ∀ T ∈ p.nested, ∃ U, References g U T ∧
    ∀ D d, D ++ [(U, d)] <+: p.definitions → T ∈ Members.keys D

theorem Advances.held (h : Advances g o p p') (hp : p.Valid g) (hheld : p.Held g) :
    p'.Held g := by
  cases h with
  | report e => exact hheld
  | enter htree hdef hT href => exact hheld
  | abandon hT => exact hheld
  | breakCycle hU href hT ho => exact hheld
  | @complete V tree n hV htree hn =>
    intro T hT
    obtain ⟨U, href, hU⟩ := hheld T hT
    refine ⟨U, href, fun D d hD => ?_⟩
    have hdef : V ∉ (p.leave V).definitions.keys := hp.apart _ (Progress.current?_mem hV)
    rw [Progress.definitions_define hdef, List.prefix_concat_iff] at hD
    rcases hD with hD | hD
    · -- the type that holds `T` is done now, and `T` was done before
      obtain ⟨rfl, -⟩ := List.append_inj' hD rfl
      exact hp.nested_defined T hT
    · exact hU D d hD
  | @nest U T l hU href hT =>
    intro V hV
    rw [Progress.definitions_nest]
    rcases p.mem_nested_nest_iff.mp hV with hV | rfl
    · exact hheld V hV
    · -- the type that holds it is in progress, and not done
      refine ⟨U, href, fun D d hD => absurd ?_ (hp.apart U (Progress.current?_mem hU))⟩
      exact List.mem_map.mpr ⟨(U, d), hD.subset (by simp), rfl⟩

theorem Reaches.held (h : Reaches g o {} p) : p.Held g := by
  induction h with
  | refl => exact fun _ hT => nomatch hT
  | tail hsteps hstep ih => exact hstep.held (Reaches.valid hsteps Progress.valid_empty) ih

/-- The type that holds a nested type is done later. -/
theorem Progress.Held.later {T U : String} {d d' : SchemaNode}
    {D D' rest rest' : Members SchemaNode} (hp : p.Valid g) (hD : p.definitions = D ++ (T, d) :: rest)
    (hD' : p.definitions = D' ++ (U, d') :: rest') (hT : T ∈ D'.keys) :
    rest'.length < rest.length := by
  have hfront : D ++ [(T, d)] <+: p.definitions := ⟨rest, by simp [hD]⟩
  have hTD := hp.notMem_front hfront
  -- of two splits of what is done, `T` lies in the front of the second
  rcases List.append_eq_append_iff.mp (hD.symm.trans hD') with ⟨E, rfl, hE⟩ | ⟨E, rfl, hE⟩
  · rcases E with - | ⟨e, E⟩
    · simp [hTD] at hT
    · simp only [List.cons_append, List.cons.injEq] at hE
      rw [hE.2, List.length_append, List.length_cons]
      omega
  · exact absurd (by simp [hT]) hTD

/-! ### What becomes of the types -/

/-- A type that has a document, has failed, or is reached from one that has a
document. -/
def Outcome.Accounts (g : TypeGraph) (out : Outcome) (T : String) : Prop :=
  T ∈ out.documents.keys ∨ T ∈ out.failed ∨
    ∃ U ∈ out.documents.keys, TransGen (References g) U T

/-- What is reached from a type that has a document, or is one, is accounted for. -/
theorem Outcome.Accounts.of_document {out : Outcome} {T U : String} (hU : U ∈ out.documents.keys)
    (h : ReflTransGen (References g) U T) : out.Accounts g T := by
  rcases reflTransGen_iff_eq_or_transGen.mp h with rfl | h
  · exact .inl hU
  · exact .inr (.inr ⟨U, hU, h⟩)

/-- A type that is done is reached from one that has a document or has failed. -/
theorem reached_of_defined {T : String} {d : SchemaNode} {D rest : Members SchemaNode}
    (hT : (converted g o).1.definitions = D ++ (T, d) :: rest) :
    ∃ U, (U ∈ (normalize g o).documents.keys ∨ U ∈ (normalize g o).failed) ∧
      ReflTransGen (References g) U T := by
  have hidle := idle_converted (g := g) (o := o)
  have hheld := Reaches.held hidle.reached
  -- up to the type that holds `T`, which was done later
  induction hlen : rest.length using Nat.strong_induction_on generalizing T d D rest with
  | _ k ih =>
    have hdone : T ∈ (converted g o).1.definitions.keys := by
      rw [hT]
      simp [Members.keys]
    by_cases hnested : T ∈ (converted g o).1.nested
    · obtain ⟨U, href, hbefore⟩ := hheld T hnested
      rcases defined_or_failed (g := g) (o := o) href.source_mem with hU | hU
      · obtain ⟨⟨U, d'⟩, hmem, rfl⟩ := List.mem_map.mp hU
        obtain ⟨D', rest', hD'⟩ := List.append_of_mem hmem
        have hTD' : T ∈ Members.keys D' := hbefore D' d' ⟨rest', by rw [hD']; simp⟩
        have hlt := Progress.Held.later hidle.valid hT hD' hTD'
        obtain ⟨V, hV, hpath⟩ := ih rest'.length (hlen ▸ hlt) hD' rfl
        exact ⟨V, hV, hpath.tail href⟩
      · exact ⟨U, .inr hU, .single href⟩
    · exact ⟨T, .inl ((keys_documents hidle.valid).mpr ⟨hdone, .inl hnested⟩), .refl⟩

/-- **Every declared type is accounted for, unless it is lost with a type that
failed.** -/
theorem accounted_iff (g : TypeGraph) (o : Options) :
    (∀ T ∈ g.names, (normalize g o).Accounts g T ∨
      ∃ U ∈ (normalize g o).failed, TransGen (References g) U T) ∧
    ((∀ T ∈ g.names, (normalize g o).Accounts g T) ↔
      ∀ U ∈ (normalize g o).failed, ∀ T, References g U T → (normalize g o).Accounts g T) := by
  have hreached : ∀ T ∈ g.names, (normalize g o).Accounts g T ∨
      ∃ U ∈ (normalize g o).failed, TransGen (References g) U T := by
    intro T hT
    rcases defined_or_failed (g := g) (o := o) hT with hdone | hfailed
    · obtain ⟨⟨T, d⟩, hmem, rfl⟩ := List.mem_map.mp hdone
      obtain ⟨D, rest, hD⟩ := List.append_of_mem hmem
      obtain ⟨U, hU | hU, hpath⟩ := reached_of_defined hD
      · exact .inl (.of_document hU hpath)
      · rcases reflTransGen_iff_eq_or_transGen.mp hpath with rfl | hpath
        · exact .inl (.inr (.inl hU))
        · exact .inr ⟨U, hU, hpath⟩
    · exact .inl (.inr (.inl hfailed))
  refine ⟨hreached, fun hall U _ T href => hall T href.target_mem, fun hbelow T hT => ?_⟩
  rcases hreached T hT with h | ⟨U, hU, hpath⟩
  · exact h
  -- down the path from the failed type, past all others that failed
  · induction hpath using TransGen.head_induction_on with
    | single href => exact hbelow _ hU T href
    | head href hrest ih =>
      rcases hbelow _ hU _ href with h | h | ⟨V, hV, h⟩
      · exact .of_document h hrest.to_reflTransGen
      · exact ih h
      · exact .of_document hV (h.trans hrest).to_reflTransGen

/-- A type that fails after another one has been put in its tree. -/
def lossyGraph : TypeGraph :=
  .ofList
    [("U", .ofProperties [("t", .ofType (.str "T")), ("bad", .ofType (.num (.whole 7)))]),
      ("T", .ofType (.str "string"))]

/-- `T` is converted without fault, and yet it is nowhere. -/
theorem type_lost :
    "T" ∈ lossyGraph.names ∧ ¬ (normalize lossyGraph {}).Accounts lossyGraph "T" := by
  have hkeys : (normalize lossyGraph {}).documents.keys = [] := rfl
  have hfailed : (normalize lossyGraph {}).failed = ["U"] := rfl
  refine ⟨by decide, ?_⟩
  rintro (h | h | ⟨U, hU, -⟩)
  · simp [hkeys] at h
  · simp [hfailed] at h
  · simp [hkeys] at hU

end RamlSchema
