/-
RamlSchema/Proofs/Normalize/Coverage.lean

What is known of a type that is done.

A schema renders the whole tree of its type.  So no node of that tree is at fault,
and in the place of each type to which the tree refers there is something: a schema
that was done before, or a reference to a cycle target.  Where a path of references
from a type that is done leaves what is done, it leaves it at a cycle target.

Main results: `Progress.Valid.not_faulty`, `Progress.Valid.base_of_references` and
`Progress.Valid.exists_target`, and what comes of them where no reference is
written (`Progress.Clean.defined_of_reaches`, `Progress.Clean.not_cyclic`).
-/
import RamlSchema.Proofs.Normalize.Meaning
import RamlSchema.Proofs.Normalize.Replay

namespace RamlSchema

open Relation

/-- Some node of the tree of a type has no shape, or does not pass its checks. -/
def TypeGraph.Faulty (g : TypeGraph) (typeName : String) : Prop :=
  ∃ raw, g.HasNode typeName raw ∧ ∀ n, NodeShape.ofJson raw = .ok n → ¬ n.Sound g

variable {g : TypeGraph} {p : Progress}

theorem TypeGraph.Faulty.mem_names {T : String} (h : g.Faulty T) : T ∈ g.names := by
  obtain ⟨raw, hraw, -⟩ := h
  exact hraw.mem_names

/-! ### What has been rendered with a tree -/

section

variable {base : String → SchemaNode → Prop}

theorem RendersAll.exists_renders {parts : List (Step × Part)} {done : List (Step × SchemaNode)}
    {step : Step} {part : Part} :
    RendersAll g base parts done → (step, part) ∈ parts →
      ∃ n, (step, n) ∈ done ∧ Renders g base part n
  | .nil, hpart => nomatch hpart
  | .cons hn hrest, hpart => by
    rcases List.mem_cons.mp hpart with heq | hpart
    · cases heq
      exact ⟨_, List.mem_cons_self, hn⟩
    · obtain ⟨n, hmem, hn⟩ := hrest.exists_renders hpart
      exact ⟨n, List.mem_cons_of_mem _ hmem, hn⟩

variable {T U : String} {tree : Json} {d : SchemaNode}

/-- With a tree, all of its nodes have been rendered. -/
theorem Renders.of_hasNode (h : Renders g base (.node tree) d) (htree : g.tree? T = some tree)
    {raw : Json} (hraw : g.HasNode T raw) : ∃ n, Renders g base (.node raw) n := by
  induction hraw with
  | root htree' =>
    obtain rfl := Option.some.inj (htree.symm.trans htree')
    exact ⟨d, h⟩
  | part _ hs hpart ih =>
    obtain ⟨n, hn⟩ := ih
    obtain ⟨-, done, hparts, -⟩ := hn.of_shape ⟨T, []⟩ hs
    rw [NodeShape.part?_tasks] at hparts
    obtain ⟨c, -, hc⟩ := hparts.exists_renders hpart
    exact ⟨c, hc⟩

theorem Renders.not_faulty (h : Renders g base (.node tree) d) (htree : g.tree? T = some tree) :
    ¬ g.Faulty T := by
  rintro ⟨raw, hraw, hfault⟩
  obtain ⟨n, hn⟩ := h.of_hasNode htree hraw
  obtain ⟨s, hs⟩ := hn.shape
  exact hfault s hs (NodeShape.sound_iff.mpr (hn.of_shape ⟨T, []⟩ hs).1)

/-- So something has been put in the place of each type to which the tree refers. -/
theorem Renders.base_of_references (h : Renders g base (.node tree) d)
    (htree : g.tree? T = some tree) (href : References g T U) : ∃ b, base U b := by
  obtain ⟨raw, s, hraw, hs, hU⟩ := href
  obtain ⟨n, hn⟩ := h.of_hasNode htree hraw
  obtain ⟨-, -, -, ⟨hnone, -⟩ | ⟨V, b, hV, hb, -⟩⟩ := hn.of_shape ⟨T, []⟩ hs
  · exact nomatch hnone.symm.trans hU
  · obtain rfl := Option.some.inj (hV.symm.trans hU)
    exact ⟨b, hb⟩

end

/-! ### What is done, and what it refers to -/

namespace Progress

variable {T U : String}

theorem Valid.not_faulty (hp : p.Valid g) (hT : T ∈ p.definitions.keys) : ¬ g.Faulty T := by
  obtain ⟨d, hd⟩ := Members.exists_get?_of_mem_keys hT
  obtain ⟨tree, htree, hrenders⟩ := hp.renders hd
  exact hrenders.not_faulty htree

theorem Valid.base_of_references (hp : p.Valid g) (hT : T ∈ p.definitions.keys)
    (href : References g T U) : ∃ b, p.base p.definitions U b := by
  obtain ⟨d, hd⟩ := Members.exists_get?_of_mem_keys hT
  obtain ⟨tree, htree, hrenders⟩ := hp.renders hd
  exact hrenders.base_of_references htree href

/-- A type to which one refers that is done has been put in its place, or is a cycle
target. -/
theorem Valid.nested_or_target (hp : p.Valid g) (hT : T ∈ p.definitions.keys)
    (href : References g T U) : U ∈ p.nested ∨ U ∈ p.cycleTargets := by
  obtain ⟨b, ⟨-, hnested⟩ | ⟨-, htarget⟩⟩ := hp.base_of_references hT href
  · exact .inl hnested
  · exact .inr htarget

/-- A path out of what is done passes a cycle target that is not done. -/
theorem Valid.exists_target (hp : p.Valid g) (hT : T ∈ p.definitions.keys)
    (hpath : ReflTransGen (References g) T U) (hU : U ∉ p.definitions.keys) :
    ∃ X ∈ p.cycleTargets, X ∉ p.definitions.keys ∧ ReflTransGen (References g) T X := by
  induction hpath using ReflTransGen.head_induction_on with
  | refl => exact absurd hT hU
  | @head T V href _ ih =>
    by_cases hV : V ∈ p.definitions.keys
    · obtain ⟨X, hX, hopen, hpath⟩ := ih hV
      exact ⟨X, hX, hopen, .head href hpath⟩
    · rcases hp.nested_or_target hT href with hnested | htarget
      · exact absurd (hp.nested_defined V hnested) hV
      · exact ⟨V, htarget, hV, .single href⟩

/-- Without references, all that a type needs is done with it. -/
theorem Clean.defined_of_reaches (hp : p.Clean g) (hT : T ∈ p.definitions.keys)
    (hpath : ReflTransGen (References g) T U) : U ∈ p.definitions.keys := by
  by_contra hU
  obtain ⟨X, hX, -, -⟩ := hp.valid.exists_target hT hpath hU
  simp [hp.untargeted] at hX

/-- Without references, no type on a cycle comes to its end: each is done after those
to which it refers. -/
theorem Clean.not_cyclic (hp : p.Clean g) (hT : T ∈ p.definitions.keys) :
    ¬ TransGen (References g) T T := by
  obtain ⟨d, hd⟩ := Members.exists_get?_of_mem_keys hT
  refine hp.valid.definition_induction (Q := fun T _ => ¬ TransGen (References g) T T)
    (fun D T tree d _ hbefore htree hrenders hcycle => ?_) T d hd
  -- the cycle runs through a type that was done before `T`
  obtain ⟨V, href, hback⟩ := TransGen.head'_iff.mp hcycle
  obtain ⟨b, hb⟩ := hrenders.base_of_references htree href
  exact hbefore V b (base_of_untargeted hp.untargeted hb).1 (.tail' hback href)

end Progress

/-- Where no cycle can be broken, a graph is converted without references. -/
theorem clean_converted {o : Options} (ho : Unbroken g o) : (converted g o).1.Clean g := by
  have hidle := idle_converted (g := g) (o := o)
  exact ⟨hidle.valid, Reaches.untargeted ho hidle.reached Progress.valid_empty rfl⟩

/-- A type at fault fails. -/
theorem failed_of_faulty {o : Options} {T : String} (h : g.Faulty T) :
    T ∈ (normalize g o).failed := by
  refine (defined_or_failed h.mem_names).resolve_left fun hdone => ?_
  exact (idle_converted (g := g) (o := o)).valid.not_faulty hdone h

end RamlSchema
