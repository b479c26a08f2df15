/-
RamlSchema/Proofs/Schema/Nesting.lean

How deep a schema nests.

The nesting of a node is the length of the longest chain of steps to properties
and items below it.  It is told from the nodes right below
(`nesting_le_iff`), so laying one node over another nests no deeper than the two
do (`nesting_overlay_le`).
-/
import RamlSchema.Proofs.Schema.Refers

namespace RamlSchema.SchemaNode

mutual

/-- The longest chain of steps to properties and items below a node. -/
def nesting : SchemaNode → Nat
  | ⟨_, _, _, properties, items, _, _⟩ =>
    max (nestingProperties properties) (nestingItems items)

/-- The longest chain that begins with a step to a property. -/
def nestingProperties : Option (List (String × SchemaNode)) → Nat
  | none => 0
  | some ps => nestingMembers ps

/-- The longest chain that begins with a step to one of some properties. -/
def nestingMembers : List (String × SchemaNode) → Nat
  | [] => 0
  | (_, n) :: ps => max (n.nesting + 1) (nestingMembers ps)

/-- The longest chain that begins with a step to the items. -/
def nestingItems : Option SchemaNode → Nat
  | none => 0
  | some n => n.nesting + 1

end

variable {n base site : SchemaNode} {k : Nat}

theorem nestingMembers_le_iff {ps : Members SchemaNode} :
    nestingMembers ps ≤ k ↔ ∀ p ∈ ps, p.2.nesting < k :=
  iff_forall_mem (Q := fun ps => nestingMembers ps ≤ k) (Nat.zero_le k) fun _ _ => Nat.max_le

/-- The nesting of a node, told from the nodes right below it. -/
theorem nesting_le_iff : n.nesting ≤ k ↔ ∀ c, n.Child c → c.nesting < k := by
  obtain ⟨schema, reference, type, properties, items, required, extra⟩ := n
  rw [nesting, Nat.max_le, forall_child_iff]
  refine and_congr ?_ ?_
  · rcases properties with - | ps
    · simp [nestingProperties]
    · simp [nestingProperties, nestingMembers_le_iff]
  · rcases items with - | c
    · simp [nestingItems]
    · simp only [nestingItems, Nat.succ_le_iff, Option.some.injEq, forall_eq']

theorem nesting_overlay_le (hbase : base.nesting ≤ k) (hsite : site.nesting ≤ k) :
    (base.overlay site).nesting ≤ k := by
  rw [nesting_le_iff] at hbase hsite ⊢
  intro c hc
  rcases hc.of_overlay with hc | hc
  · exact hbase c hc
  · exact hsite c hc

theorem nesting_ofType (name : String) : (ofType name).nesting = 0 := rfl

theorem nesting_referenceTo (T : String) : (referenceTo T).nesting = 0 := rfl

/-- The dialect of a document is no step. -/
theorem nesting_schema (n : SchemaNode) (uri : Option String) :
    { n with schema := uri }.nesting = n.nesting := by
  cases n
  rfl

end RamlSchema.SchemaNode
