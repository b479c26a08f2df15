/-
RamlSchema/Proofs/Normalize/Provenance.lean

Where the references in schemas come from.

A reference is written at a node whose single type is in progress, and the types in
progress lead from that type to the one in whose tree the node stands: the node
recurs (`Recurs`).  Schemas that are done carry their references along when they are
put into others, which need not be on a cycle themselves.  So each reference in a
schema has a place where it was written, and a chain of schemas through which it came
(`Progress.Carries`).

Main result: `references_genuine`, for every state of a session.
-/
import RamlSchema.Proofs.Normalize.Cycles
import RamlSchema.Proofs.Normalize.Tracing

namespace RamlSchema

open Relation Progress

variable {g : TypeGraph} {o : Options} {p p' : Progress} {X T : String} {l : Location}

/-! ### Places where a type recurs -/

/-- A node whose single type is `X`, in the tree of a type to which `X` leads. -/
structure Recurs (g : TypeGraph) (X : String) (l : Location) : Prop where
  node : ∃ raw n, g.NodeAt l raw ∧ NodeShape.ofJson raw = .ok n ∧ n.declared? g = some X
  path : ReflTransGen (References g) X l.typeName

theorem Recurs.references (h : Recurs g X l) : References g l.typeName X := by
  obtain ⟨raw, n, hraw, hn, hX⟩ := h.node
  exact ⟨raw, n, hraw.hasNode, hn, hX⟩

/-- A type that recurs is on a cycle through the type in whose tree it does. -/
theorem Recurs.cyclic (h : Recurs g X l) : TransGen (References g) X X :=
  .tail' h.path h.references

/-! ### What each step keeps -/

/-- A reference is written only where a type recurs. -/
theorem Records.recurs (h : Records g p p') (hmem : .cycleBroken X l ∈ p'.trace) :
    .cycleBroken X l ∈ p.trace ∨ Recurs g X l := by
  -- an event of another kind is no broken cycle
  have hemit : ∀ e, .cycleBroken X l ∈ (p.emit e).trace →
      .cycleBroken X l ∈ p.trace ∨ e = .cycleBroken X l := by
    intro e he
    simpa [Progress.emit, eq_comm] using he
  cases h with
  | remark he =>
    rcases hemit _ hmem with hmem | rfl
    · exact .inl hmem
    · cases he
  | enter => exact .inl hmem
  | leave => exact .inl hmem
  | complete _ _ _ => exact .inl ((hemit _ hmem).resolve_right (by simp))
  | nest _ =>
    unfold Progress.nest at hmem
    split at hmem
    · exact .inl hmem
    · exact .inl ((hemit _ hmem).resolve_right (by simp))
  | breakCycle hraw hn hT hpath =>
    refine (hemit _ hmem).imp_right fun he => ?_
    cases he
    exact ⟨⟨_, _, hraw, hn, hT⟩, hpath⟩

/-- A schema that is new was made of those that were done before it. -/
theorem Records.history (h : Records g p p') {D : Members SchemaNode} {d : SchemaNode}
    (hD : D ++ [(T, d)] <+: p'.definitions) :
    D ++ [(T, d)] <+: p.definitions ∨
      ∃ tree, g.tree? T = some tree ∧ Renders g (p.placed D T) (.node tree) d := by
  cases h with
  | remark _ => exact .inl hD
  | enter => exact .inl hD
  | leave => exact .inl hD
  | complete hT htree hn =>
    rw [definitions_define hT, List.prefix_concat_iff] at hD
    rcases hD with hD | hD
    · obtain ⟨rfl, hTd⟩ := List.append_inj' hD rfl
      obtain ⟨rfl, rfl⟩ : T = _ ∧ d = _ := by simpa using hTd
      exact .inr ⟨_, htree, hn⟩
    · exact .inl hD
  | nest _ => exact .inl (definitions_nest p _ _ ▸ hD)
  | breakCycle _ _ _ _ => exact .inl hD

/-- The references that are reported recur, and schemas have no references but those
that were reported for their own tree and those of the schemas in them. -/
structure Progress.Traced (g : TypeGraph) (p : Progress) : Prop where
  recurs : ∀ X l, .cycleBroken X l ∈ p.trace → Recurs g X l
  history : ∀ D T d, D ++ [(T, d)] <+: p.definitions →
    ∃ tree, g.tree? T = some tree ∧ Renders g (p.placed D T) (.node tree) d

theorem Progress.traced_empty : Traced g {} where
  recurs := nofun
  history := by simp

theorem Progress.Traced.step (h : p.Traced g) (hstep : Records g p p') : p'.Traced g where
  recurs X l hmem := (hstep.recurs hmem).elim (h.recurs X l) id
  history D T d hD := by
    have hmade : ∃ tree, g.tree? T = some tree ∧ Renders g (p.placed D T) (.node tree) d :=
      (hstep.history hD).elim (h.history D T d) id
    obtain ⟨tree, htree, hd⟩ := hmade
    exact ⟨tree, htree, hd.mono fun V b hb => hb.mono List.prefix_rfl hstep.grows.2⟩

theorem Progress.Traced.steps (h : p.Traced g) (hsteps : ReflTransGen (Records g) p p') :
    p'.Traced g := by
  induction hsteps with
  | refl => exact h
  | tail _ hstep ih => exact ih.step hstep

/-- A report of another kind tells of no reference. -/
theorem Progress.Traced.emit {e : Event} (h : p.Traced g) (he : ∀ X l, e ≠ .cycleBroken X l) :
    (p.emit e).Traced g where
  recurs X l hmem := by
    rcases List.mem_append.mp hmem with hmem | hmem
    · exact h.recurs X l hmem
    · exact absurd (List.mem_singleton.mp hmem).symm (he X l)
  history D T d hD := by
    obtain ⟨tree, htree, hd⟩ := h.history D T d hD
    exact ⟨tree, htree, hd.mono fun V b hb => hb.mono List.prefix_rfl (List.prefix_append _ _)⟩

/-! ### How references come into schemas -/

/-- The schema of a type has a reference to `X` that was written at `l`: in its own
tree, or in that of a type whose schema came into it. -/
inductive Progress.Carries (g : TypeGraph) (p : Progress) (X : String) (l : Location) :
    String → Prop
  | written : .cycleBroken X l ∈ p.trace → Carries g p X l l.typeName
  | copied {U V d} :
      References g U V → p.definition? V = some d → d.Refers (documentFileName X) →
      Carries g p X l V → Carries g p X l U

theorem Progress.Carries.mem_trace (h : p.Carries g X l T) : .cycleBroken X l ∈ p.trace := by
  induction h with
  | written hmem => exact hmem
  | copied _ _ _ _ ih => exact ih

/-- Each reference in a schema was written at some place. -/
theorem Progress.Traced.carries (h : p.Traced g) (hg : g.NoReferences) {d : SchemaNode}
    (hd : p.definition? T = some d) {r : String} (hr : d.Refers r) :
    ∃ X l, r = documentFileName X ∧ p.Carries g X l T := by
  refine definition?_induction
    (Q := fun T d => ∀ r, d.Refers r → ∃ X l, r = documentFileName X ∧ p.Carries g X l T)
    (fun D T d hD hbefore => ?_) T d hd r hr
  obtain ⟨tree, htree, hrenders⟩ := h.history D T d hD
  refine hrenders.refers hg (Q := fun r => ∃ X l, r = documentFileName X ∧ p.Carries g X l T)
    (U := T) ?_ ?_
  · rintro V b (hget | ⟨rfl, l, rfl, hmem⟩) href r hr
    -- a schema brings its references along
    · obtain ⟨X, l, rfl, hX⟩ := hbefore V b hget r hr
      have hV := Members.get?_of_prefix ((List.prefix_append D _).trans hD) hget
      exact ⟨X, l, rfl, .copied href hV hr hX⟩
    · exact ⟨V, l, SchemaNode.refers_referenceTo.mp hr, .written hmem⟩
  · exact .root htree

/-! ### The states of a session -/

/-- The states of a session: types are called one after another, in any order, and
failures may be reported in between. -/
inductive Progress.Reachable (g : TypeGraph) (o : Options) : Progress → Prop
  | start : Reachable g o {}
  | next {p : Progress} (name : String) : Reachable g o p → Reachable g o (call g o p name).2
  | skip {p : Progress} (name : String) (e : ConvertError) :
      Reachable g o p → Reachable g o (p.emit (.skipped name e))

theorem Progress.Reachable.idle (h : p.Reachable g o) : p.Idle g o := by
  induction h with
  | start => exact idle_empty
  | next name _ ih => exact call_idle ih name
  | skip name e _ ih => exact ih.emit _

theorem Progress.Reachable.traced (h : p.Reachable g o) : p.Traced g := by
  induction h with
  | start => exact traced_empty
  | next name hp ih => exact ih.steps (call_records hp.idle name)
  | skip name e _ ih => exact ih.emit nofun

theorem reachable_calls (h : p.Reachable g o) (names : List String) :
    (calls g o p names).2.Reachable g o := by
  induction names generalizing p with
  | nil => exact h
  | cons name names ih => exact ih (.next name h)

theorem reachable_converted (g : TypeGraph) (o : Options) : (converted g o).1.Reachable g o := by
  refine turns_cases (Q := fun _ s => s.1.Reachable g o) .start (fun _ _ _ _ _ ih => ih)
    (fun _ name s n p' _ hcall ih => ?_) (fun _ name s e p' _ hcall ih => ?_) g.names
  · have hnext := ih.next name
    rwa [hcall] at hnext
  · have hnext := ih.next name
    rw [hcall] at hnext
    exact hnext.skip name e

/-- **A reference is written only where recursion is genuine.**  Each reference in a
schema that is done, at any time of a session, is to a type `X` and was written at a
node whose single type is `X`, in the tree of a type to which `X` leads; from there it
came into the schema with the schemas that were put into each other.  So a type on no
cycle is never replaced by a reference, whatever the order of the calls. -/
theorem references_genuine (hg : g.NoReferences) (hp : p.Reachable g o) :
    (∀ T d r, p.definition? T = some d → d.Refers r →
      ∃ X l, r = documentFileName X ∧ p.Carries g X l T ∧ Recurs g X l ∧
        TransGen (References g) X X) ∧
    ∀ X, ¬ TransGen (References g) X X →
      ∀ T d, p.definition? T = some d → ¬ d.Refers (documentFileName X) := by
  have hsource : ∀ T d r, p.definition? T = some d → d.Refers r →
      ∃ X l, r = documentFileName X ∧ p.Carries g X l T ∧ Recurs g X l ∧
        TransGen (References g) X X := by
    intro T d r hd hr
    obtain ⟨X, l, rfl, hX⟩ := hp.traced.carries hg hd hr
    have hrecurs := hp.traced.recurs X l hX.mem_trace
    exact ⟨X, l, rfl, hX, hrecurs, hrecurs.cyclic⟩
  refine ⟨hsource, fun X hX T d hd hr => ?_⟩
  obtain ⟨Y, -, hXY, -, -, hY⟩ := hsource T d _ hd hr
  exact hX (documentFileName_injective hXY ▸ hY)

/-- When `B` is called first, the reference to it is written in the tree of `A`, and
comes back into `B` with the schema of `A`.  `C` is on no cycle, and no schema refers to
it, whether `B` is called first or `A`. -/
theorem references_genuine_cyclic :
    let p := (calls cyclicGraph {} {} ["B"]).2
    (∃ d, p.definition? "B" = some d ∧ d.Refers (documentFileName "B") ∧
      ∃ X l, documentFileName "B" = documentFileName X ∧ p.Carries cyclicGraph X l "B" ∧
        Recurs cyclicGraph X l ∧ TransGen (References cyclicGraph) X X) ∧
    (∀ T d, p.definition? T = some d → ¬ d.Refers (documentFileName "C")) ∧
    ∀ T d, (converted cyclicGraph {}).1.definition? T = some d →
      ¬ d.Refers (documentFileName "C") := by
  intro p
  have hg : cyclicGraph.NoReferences := TypeGraph.noReferences_of_lacksKey rfl
  have hcalls := references_genuine (p := p) hg (reachable_calls (o := {}) .start ["B"])
  have hconverted := references_genuine hg (reachable_converted cyclicGraph {})
  -- it is converted where cycles are errors
  have hC : ¬ TransGen (References cyclicGraph) "C" "C" := by
    intro hcycle
    have hfailed : (normalize cyclicGraph strictOptions).failed = ["A", "B"] := rfl
    have hmem := failed_of_leads_to_cycle (o := strictOptions) rfl (by decide) .refl hcycle
    simp [hfailed] at hmem
  have hrefers : ∃ d, p.definition? "B" = some d ∧ d.Refers (documentFileName "B") := by
    refine ⟨_, rfl, .child (.property rfl (.head _)) ?_⟩
    exact .child (.property rfl (.tail _ (.head _))) (.here rfl)
  obtain ⟨d, hd, hr⟩ := hrefers
  exact ⟨⟨d, hd, hr, hcalls.1 "B" d _ hd hr⟩, hcalls.2 "C" hC, hconverted.2 "C" hC⟩

end RamlSchema
