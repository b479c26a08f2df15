/-
RamlSchema/Proofs/Normalize/Nodes.lean

The nodes of a tree, listed.

What stands right below a node is less high, so a list that goes as many levels down
as a tree is high has all of its nodes.  With the list, what is said of all nodes of
a graph can be decided.

Main result: `TypeGraph.mem_nodes_iff`, and with it `TypeGraph.allShapes_iff`.
-/
import RamlSchema.Proofs.Normalize.Height

namespace RamlSchema

/-- A node and those below it, down to some level. -/
def Json.nodes : Nat → Json → List Json
  | 0, raw => [raw]
  | levels + 1, raw =>
    raw :: match NodeShape.ofJson raw with
      | .error _ => []
      | .ok n => n.parts.flatMap fun p =>
        match p.2 with
        | .node c => c.nodes levels
        | .written _ => []

/-- The nodes of the tree of a type. -/
def TypeGraph.nodes (g : TypeGraph) (T : String) : List Json :=
  (g.tree? T).elim [] fun tree => tree.nodes tree.height

namespace Json

variable {raw c d : Json} {n : NodeShape} {levels : Nat}

theorem mem_nodes_self (levels : Nat) (raw : Json) : raw ∈ raw.nodes levels := by
  cases levels <;> simp [nodes]

/-- A node below another one is that one, or below one of its parts. -/
theorem mem_nodes_succ :
    d ∈ raw.nodes (levels + 1) ↔
      d = raw ∨ ∃ n step c, NodeShape.ofJson raw = .ok n ∧ (step, .node c) ∈ n.parts ∧
        d ∈ c.nodes levels := by
  rw [nodes, List.mem_cons]
  refine or_congr_right ?_
  rcases hn : NodeShape.ofJson raw with e | n
  · simp
  · simp only [List.mem_flatMap]
    constructor
    · rintro ⟨⟨step, c | element⟩, hpart, hd⟩
      · exact ⟨n, step, c, rfl, hpart, hd⟩
      · cases hd
    · rintro ⟨m, step, c, hm, hpart, hd⟩
      obtain rfl := Except.ok.inj hm
      exact ⟨(step, .node c), hpart, hd⟩

/-- With a node, the list has its parts, if it goes down far enough. -/
theorem mem_nodes_of_part {step : Step} (hraw : raw.height ≤ levels) (hd : d ∈ raw.nodes levels)
    (hn : NodeShape.ofJson d = .ok n) (hpart : (step, .node c) ∈ n.parts) :
    c ∈ raw.nodes levels := by
  induction levels generalizing raw with
  | zero =>
    obtain rfl : d = raw := by simpa [nodes] using hd
    exact absurd (Part.height_lt hn hpart) (by omega)
  | succ levels ih =>
    rcases mem_nodes_succ.mp hd with rfl | ⟨m, s, e, hm, he, hd⟩
    · exact mem_nodes_succ.mpr (.inr ⟨n, step, c, hn, hpart, mem_nodes_self levels c⟩)
    · have hlt : e.height < raw.height := Part.height_lt hm he
      exact mem_nodes_succ.mpr (.inr ⟨m, s, e, hm, he, ih (by omega) hd⟩)

end Json

namespace TypeGraph

variable {g : TypeGraph} {T : String} {raw d : Json}

theorem HasNode.of_mem_nodes {levels : Nat} (hraw : g.HasNode T raw) (hd : d ∈ raw.nodes levels) :
    g.HasNode T d := by
  induction levels generalizing raw with
  | zero =>
    obtain rfl : d = raw := by simpa [Json.nodes] using hd
    exact hraw
  | succ levels ih =>
    rcases Json.mem_nodes_succ.mp hd with rfl | ⟨n, step, c, hn, hpart, hd⟩
    · exact hraw
    · exact ih (hraw.part hn hpart) hd

/-- **The list has all nodes of a tree, and no others.** -/
theorem mem_nodes_iff : raw ∈ g.nodes T ↔ g.HasNode T raw := by
  rw [nodes]
  constructor
  · intro h
    rcases htree : g.tree? T with - | tree
    · simp [htree] at h
    · rw [htree] at h
      exact HasNode.of_mem_nodes (.root htree) h
  · intro h
    induction h with
    | root htree =>
      rw [htree]
      exact Json.mem_nodes_self _ _
    | part hraw hn hpart ih =>
      rcases htree : g.tree? T with - | tree
      · simp [htree] at ih
      · rw [htree] at ih
        exact Json.mem_nodes_of_part le_rfl ih hn hpart

/-- What holds of every node that has a shape. -/
def AllShapes (g : TypeGraph) (P : NodeShape → Prop) : Prop :=
  ∀ U raw n, g.HasNode U raw → NodeShape.ofJson raw = .ok n → P n

/-- **What is said of the shapes of all nodes can be looked up in the lists.** -/
theorem allShapes_iff {P : NodeShape → Prop} :
    g.AllShapes P ↔
      ∀ T ∈ g.names, ∀ raw ∈ g.nodes T, ∀ n ∈ (NodeShape.ofJson raw).toOption, P n := by
  constructor
  · intro h T _ raw hraw n hn
    rcases hs : NodeShape.ofJson raw with e | m
    · simp [hs, Except.toOption] at hn
    · obtain rfl : m = n := by simpa [hs, Except.toOption] using hn
      exact h T raw m (mem_nodes_iff.mp hraw) hs
  · intro h T raw n hraw hn
    refine h T hraw.mem_names raw (mem_nodes_iff.mpr hraw) n ?_
    rw [hn]
    rfl

instance {P : NodeShape → Prop} [DecidablePred P] : Decidable (g.AllShapes P) :=
  decidable_of_iff _ allShapes_iff.symm

/-- The types to which a type refers, node by node. -/
def targets (g : TypeGraph) (T : String) : List String :=
  (g.nodes T).filterMap fun raw => (NodeShape.ofJson raw).toOption.bind (NodeShape.declared? g)

theorem mem_targets_iff {U : String} : U ∈ g.targets T ↔ References g T U := by
  simp only [targets, List.mem_filterMap, mem_nodes_iff, Option.bind_eq_some_iff]
  constructor
  · rintro ⟨raw, hraw, n, hn, hU⟩
    rcases hs : NodeShape.ofJson raw with e | m
    · simp [hs, Except.toOption] at hn
    · obtain rfl : m = n := by simpa [hs, Except.toOption] using hn
      exact ⟨raw, m, hraw, hs, hU⟩
  · rintro ⟨raw, n, hraw, hn, hU⟩
    exact ⟨raw, hraw, n, by rw [hn]; rfl, hU⟩

end TypeGraph

end RamlSchema
