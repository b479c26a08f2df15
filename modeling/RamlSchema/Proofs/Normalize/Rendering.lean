/-
RamlSchema/Proofs/Normalize/Rendering.lean

What a converted node looks like, without the course of the conversion.

`Renders g base part n` says that `n` is made from `part` by the rules of one
conversion: every node below it is sound, and where one has a declared type, a
schema that `base` allows for the type stands in its place, with the node's own
keywords laid over it.  Nothing in it speaks of progress, levels or order; what
an earlier conversion left behind is in `base`.

Main result: `Renders.mono`, by which a larger `base` allows more.
-/
import RamlSchema.Proofs.Normalize.Conversion

namespace RamlSchema

section

variable (g : TypeGraph) (base : String → SchemaNode → Prop)

mutual

/-- A node that renders a part. -/
inductive Renders : Part → SchemaNode → Prop
  | written {element} : Renders (.written element) (.ofType element)
  | plain {raw n done} :
      NodeShape.ofJson raw = .ok n → n.Sound g → RendersAll n.parts done →
      n.declared? g = none →
      Renders (.node raw) (n.assemble done)
  | reference {raw n done T b} :
      NodeShape.ofJson raw = .ok n → n.Sound g → RendersAll n.parts done →
      n.declared? g = some T → base T b →
      Renders (.node raw) (b.overlay (n.site done))

/-- Nodes that render the parts of a list, step by step. -/
inductive RendersAll : List (Step × Part) → List (Step × SchemaNode) → Prop
  | nil : RendersAll [] []
  | cons {step part n parts done} :
      Renders part n → RendersAll parts done →
      RendersAll ((step, part) :: parts) ((step, n) :: done)

end

end

variable {g : TypeGraph} {base base' : String → SchemaNode → Prop}

mutual

theorem Renders.mono (h : ∀ T b, base T b → base' T b) {part : Part} {n : SchemaNode} :
    Renders g base part n → Renders g base' part n
  | .written => .written
  | .plain hshape hsound hparts hT => .plain hshape hsound (hparts.mono h) hT
  | .reference hshape hsound hparts hT hb =>
    .reference hshape hsound (hparts.mono h) hT (h _ _ hb)

theorem RendersAll.mono (h : ∀ T b, base T b → base' T b) {parts : List (Step × Part)}
    {done : List (Step × SchemaNode)} : RendersAll g base parts done → RendersAll g base' parts done
  | .nil => .nil
  | .cons hn hrest => .cons (hn.mono h) (hrest.mono h)

end

theorem Renders.shape {raw : Json} {n : SchemaNode} (h : Renders g base (.node raw) n) :
    ∃ s, NodeShape.ofJson raw = .ok s := by
  cases h with
  | plain hs _ _ _ => exact ⟨_, hs⟩
  | reference hs _ _ _ _ => exact ⟨_, hs⟩

/-- What renders a node of a known shape, told by the tasks of the node: none of
them fails, and what they convert is rendered. -/
theorem Renders.of_shape {raw : Json} {n : SchemaNode} {s : NodeShape} (l : Location)
    (h : Renders g base (.node raw) n) (hs : NodeShape.ofJson raw = .ok s) :
    (∀ e, .fail e ∉ s.tasks g l) ∧
      ∃ done, RendersAll g base ((s.tasks g l).filterMap Task.part?) done ∧
        ((s.declared? g = none ∧ n = s.assemble done) ∨
          ∃ T b, s.declared? g = some T ∧ base T b ∧ n = b.overlay (s.site done)) := by
  rw [NodeShape.part?_tasks]
  cases h with
  | plain hs' hsound hparts hT =>
    rw [hs] at hs'
    cases hs'
    exact ⟨NodeShape.sound_iff.mp hsound, _, hparts, .inl ⟨hT, rfl⟩⟩
  | reference hs' hsound hparts hT hb =>
    rw [hs] at hs'
    cases hs'
    exact ⟨NodeShape.sound_iff.mp hsound, _, hparts, .inr ⟨_, _, hT, hb, rfl⟩⟩

end RamlSchema
