/-
RamlSchema/Proofs/Normalize/Places.lean

Where errors arise.

An error arises at one node of a declared tree (`Arises`): the node has no shape, does
not pass a check, lies too deep, or its type is in progress where cycles are errors.  In
the last case the types on the way from that type to the node's own are those in
progress behind it, so that the error tells them.

Main results: `failure_arises`, by which every error that a run records arises at a node
of a declared tree, and `Progress.Valid.roundTrip`, by which the types that an error
tells of a cycle are a round trip.
-/
import RamlSchema.Proofs.Normalize.Failures

namespace RamlSchema

open Relation Progress

variable {g : TypeGraph} {o : Options} {p : Progress} {l : Location}

/-! ### How errors arise -/

/-- How an error arises, at a node of a declared tree. -/
inductive Arises (g : TypeGraph) (o : Options) : ConvertError → Prop
  | shape {l raw cause} :
      g.NodeAt l raw → NodeShape.ofJson raw = .error cause → Arises g o (.malformed l cause)
  | check {l raw n e} :
      g.NodeAt l raw → NodeShape.ofJson raw = .ok n → .fail e ∈ n.tasks g l → Arises g o e
  | cycle {l raw n T} {p : Progress} :
      g.NodeAt l raw → NodeShape.ofJson raw = .ok n → n.declared? g = some T →
      o.onCycle = .error → p.Valid g → p.current? = some l.typeName → T ∈ p.inProgress →
      Arises g o (.cyclic l (p.cycleThrough T))
  | limit {l raw} : g.NodeAt l raw → Arises g o (.tooDeep l o.maxDepth)

theorem failure_arises {f : Failure} (hf : f ∈ (normalize g o).failures) : Arises g o f.error := by
  obtain ⟨hname, p, hp, he⟩ := exists_call_of_failure hf
  have hraises := call_raises hname he
  generalize f.error = e at hraises
  cases hraises with
  | shape hv hs => exact .shape ((hv.stands hp).2.1.nodeAt _ rfl) hs
  | check hv hs hfail => exact .check ((hv.stands hp).2.1.nodeAt _ rfl) hs hfail
  | cycle hv hs htasks hT hmem ho =>
    obtain ⟨hq, hl, -⟩ := hv.stands hp
    have hlead := hl.leads hq hs (List.append_nil _).symm htasks
    exact .cycle (hl.nodeAt _ rfl) hs hT ho (hlead.valid hq) (hl.of_leads hlead).current hmem
  | limit hv => exact .limit ((hv.stands hp).2.1.nodeAt _ rfl)

/-! ### Round trips -/

/-- A way through references back to where it starts, told by its types, the first one
also last. -/
structure RoundTrip (g : TypeGraph) (cycle : List String) : Prop where
  two_le : 2 ≤ cycle.length
  closed : cycle.head? = cycle.getLast?
  /-- Nothing but the first type is repeated. -/
  nodup : cycle.dropLast.Nodup
  chain : cycle.IsChain (References g)

/-- From a type in progress back to it, if the type that is being converted refers to
it. -/
theorem Progress.Valid.roundTrip {T U : String} (hp : p.Valid g) (hU : p.current? = some U)
    (href : References g U T) (hT : T ∈ p.inProgress) :
    RoundTrip g (p.cycleThrough T) ∧ (p.cycleThrough T).head? = some T ∧
      (p.cycleThrough T).dropLast.getLast? = some U := by
  -- the types in progress from `T` on, with `T` once more behind them
  obtain ⟨before, behind, hsplit, hbefore⟩ := List.eq_append_cons_of_mem hT
  have hcycle : p.cycleThrough T = (T :: behind) ++ [T] := by
    have hne : ∀ V ∈ before, V ≠ T := fun V hV he => hbefore (he ▸ hV)
    rw [cycleThrough, hsplit, List.dropWhile_append_of_pos (by simpa using hne)]
    simp
  have hsuffix : (T :: behind) <:+ p.inProgress := ⟨before, hsplit.symm⟩
  have hlast : (T :: behind).getLast? = some U := by
    rw [← hU, current?, hsplit, List.getLast?_append_of_ne_nil _ (by simp)]
  rw [hcycle]
  refine ⟨⟨by simp, by rw [List.getLast?_concat]; rfl, ?_, ?_⟩, rfl, ?_⟩
  · rw [List.dropLast_concat]
    exact hsuffix.sublist.nodup hp.nodup_inProgress
  · rw [List.isChain_append]
    refine ⟨hp.chain.suffix hsuffix, .singleton T, fun V hV W hW => ?_⟩
    rw [hlast] at hV
    obtain rfl := Option.some.inj hV
    obtain rfl : T = W := by simpa using hW
    exact href
  · rw [List.dropLast_concat]
    exact hlast

end RamlSchema
