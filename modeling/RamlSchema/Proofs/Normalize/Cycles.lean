/-
RamlSchema/Proofs/Normalize/Cycles.lean

Where cycles are errors.

A type that is done needs only types that were done before it, so no type on a cycle
is ever done, nor one that leads to it.  On the other hand a type without a fault in
its tree fails only where a type is met that is in progress, and that is a cycle: the
types in progress from there on, each of which refers to the next one.

Main result: `failed_iff_leads_to_cycle`.  The types that fail are those that lead to
a cycle, each failure tells a cycle and the node that closes it, and what is done has
no references.
-/
import RamlSchema.Proofs.Normalize.Levels
import RamlSchema.Proofs.Normalize.Links
import RamlSchema.Proofs.Normalize.Order
import RamlSchema.Proofs.Normalize.Places

namespace RamlSchema

open Relation Progress

variable {g : TypeGraph} {o : Options}

/-- The node at `l` closes the cycle: it stands in the tree of the last type before
the end, and its single type is the one with which the cycle begins and ends. -/
structure Closes (g : TypeGraph) (l : Location) (cycle : List String) : Prop where
  roundTrip : RoundTrip g cycle
  last : cycle.dropLast.getLast? = some l.typeName
  node : ∃ raw n, g.NodeAt l raw ∧ NodeShape.ofJson raw = .ok n ∧ n.declared? g = cycle.head?

/-- An error that tells a cycle tells the node that closes it. -/
theorem Arises.closes {l : Location} {cycle : List String} (h : Arises g o (.cyclic l cycle)) :
    Closes g l cycle := by
  cases h with
  | check _ _ hfail =>
    -- a check that fails tells no cycle
    rcases NodeShape.fail_mem_tasks.mp hfail with ⟨_, -, he⟩ | ⟨_, -, he⟩ | ⟨_, -, he⟩
    all_goals cases he
  | cycle hraw hn hT _ hp hcurrent hmem =>
    obtain ⟨htrip, hhead, hlast⟩ := hp.roundTrip hcurrent ⟨_, _, hraw.hasNode, hn, hT⟩ hmem
    exact ⟨htrip, hlast, _, _, hraw, hn, hT.trans hhead.symm⟩

/-- Without faults and with levels to spare, all that fails is told by a cycle. -/
theorem failure_cyclic (hsound : ∀ U ∈ g.names, ¬ g.Faulty U) (hlimit : o.Suffice g) {f : Failure}
    (hf : f ∈ (normalize g o).failures) :
    ∃ l cycle, f.error = .cyclic l cycle ∧ ReflTransGen (References g) f.name l.typeName ∧
      TransGen (References g) l.typeName l.typeName := by
  have hdeep := hlimit f hf
  obtain ⟨name, error⟩ := f
  cases failure_blames hf with
  | malformed _ hfault => exact absurd hfault (hsound _ hfault.mem_names)
  | cyclic _ hpath hcycle => exact ⟨_, _, rfl, hpath, hcycle⟩
  | tooDeep => exact absurd rfl (hdeep _ _)

/-- Where cycles are errors, a type that leads to one fails. -/
theorem failed_of_leads_to_cycle (ho : o.onCycle = .error) {T X : String} (hT : T ∈ g.names)
    (hpath : ReflTransGen (References g) T X) (hcycle : TransGen (References g) X X) :
    T ∈ (normalize g o).failed := by
  have hclean := clean_converted (g := g) (.inl ho)
  refine (defined_or_failed hT).resolve_left fun hdone => ?_
  exact hclean.not_cyclic (hclean.defined_of_reaches hdone hpath) hcycle

/-- Where cycles are errors, no schema carries a reference. -/
theorem not_refers_of_error (ho : o.onCycle = .error) (hg : g.NoReferences) {T r : String}
    {d : SchemaNode} (hd : (converted g o).1.definition? T = some d) : ¬ d.Refers r := by
  intro hr
  have hclean := clean_converted (g := g) (.inl ho)
  obtain ⟨X, -, hX, -⟩ := hclean.valid.linksTo hg hd hr
  simp [hclean.untargeted] at hX

/-- **Where cycles are errors, exactly the types that lead to a cycle fail**, if no
tree has a fault of its own and there are levels enough.  Each failure tells a cycle
and the node that closes it, and no schema carries a reference. -/
theorem failed_iff_leads_to_cycle (ho : o.onCycle = .error) (hg : g.NoReferences)
    (hsound : ∀ U ∈ g.names, ¬ g.Faulty U) (hlimit : o.Suffice g) :
    (∀ T ∈ g.names, T ∈ (normalize g o).failed ↔
      ∃ X, ReflTransGen (References g) T X ∧ TransGen (References g) X X) ∧
    (∀ f ∈ (normalize g o).failures, ∃ l cycle, f.error = .cyclic l cycle ∧ Closes g l cycle) ∧
    ∀ T d, (converted g o).1.definition? T = some d → ∀ r, ¬ d.Refers r := by
  refine ⟨fun T hT => ⟨fun hfailed => ?_, fun ⟨X, hpath, hcycle⟩ => ?_⟩, fun f hf => ?_,
    fun T d hd r => not_refers_of_error ho hg hd⟩
  · obtain ⟨f, hf, rfl⟩ := List.mem_map.mp hfailed
    obtain ⟨l, -, -, hpath, hcycle⟩ := failure_cyclic hsound hlimit hf
    exact ⟨l.typeName, hpath, hcycle⟩
  · exact failed_of_leads_to_cycle ho hT hpath hcycle
  · obtain ⟨l, cycle, he, -, -⟩ := failure_cyclic hsound hlimit hf
    have harises := failure_arises hf
    rw [he] at harises
    exact ⟨l, cycle, he, harises.closes⟩

/-- `A` and `B` are on a cycle and fail, and `C` is done. -/
theorem failed_iff_leads_to_cycle_cyclic :
    ("A" ∈ (normalize cyclicGraph strictOptions).failed ↔
      ∃ X, ReflTransGen (References cyclicGraph) "A" X ∧ TransGen (References cyclicGraph) X X) ∧
    ("C" ∈ (normalize cyclicGraph strictOptions).failed ↔
      ∃ X, ReflTransGen (References cyclicGraph) "C" X ∧ TransGen (References cyclicGraph) X X) ∧
    (normalize cyclicGraph strictOptions).failed = ["A", "B"] := by
  -- where cycles are broken, nothing fails, so that no type is at fault
  have hnone : (normalize cyclicGraph {}).failed = [] := rfl
  have hsound : ∀ U ∈ cyclicGraph.names, ¬ cyclicGraph.Faulty U := by
    intro U _ hfault
    simpa [hnone] using failed_of_faulty (o := {}) hfault
  have h := (failed_iff_leads_to_cycle (g := cyclicGraph) (o := strictOptions) rfl
    (TypeGraph.noReferences_of_lacksKey rfl) hsound (Options.suffice_of_levels (by decide))).1
  exact ⟨h "A" (by decide), h "C" (by decide), rfl⟩

end RamlSchema
