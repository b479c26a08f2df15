/-
RamlSchema/Proofs/Schema/Everywhere.lean

What holds at every node of a schema.

`n.Everywhere P` says that `P` holds of `n` and of each node below its properties
and items.  Laying the keywords of a site over a schema moves whole nodes below a
new root, and so does putting parts into a node; of both, only the root has to be
looked at again.

Main results: `Everywhere.overlay` and `Everywhere.fill`, and `everywhere_iff`, by
which a property that can be decided at a node can be decided everywhere.
-/
import RamlSchema.Proofs.Schema.Refers

namespace RamlSchema.SchemaNode

/-- A property of a node and of all nodes below it. -/
inductive Everywhere (P : SchemaNode → Prop) : SchemaNode → Prop
  | intro {n} : P n → (∀ c, n.Child c → Everywhere P c) → Everywhere P n

variable {P Q : SchemaNode → Prop} {n m c base site : SchemaNode}

namespace Everywhere

theorem here (h : n.Everywhere P) : P n := by
  cases h with
  | intro hn _ => exact hn

theorem child (h : n.Everywhere P) : ∀ c, n.Child c → c.Everywhere P := by
  cases h with
  | intro _ hchild => exact hchild

theorem imp (hPQ : ∀ n, P n → Q n) (h : n.Everywhere P) : n.Everywhere Q := by
  induction h with
  | intro hn _ ih => exact .intro (hPQ _ hn) ih

theorem and (h : n.Everywhere P) (h' : n.Everywhere Q) : n.Everywhere fun n => P n ∧ Q n := by
  induction h with
  | intro hn _ ih => exact .intro ⟨hn, h'.here⟩ fun c hc => ih c hc (h'.child c hc)

/-- A node with the same nodes right below it. -/
theorem of_child (h : n.Everywhere P) (hm : P m) (hchild : ∀ c, m.Child c → n.Child c) :
    m.Everywhere P :=
  .intro hm fun c hc => h.child c (hchild c hc)

/-- **What is laid over a schema** brings its nodes along. -/
theorem overlay (hbase : base.Everywhere P) (hsite : ∀ c, site.Child c → c.Everywhere P)
    (hroot : P (base.overlay site)) : (base.overlay site).Everywhere P := by
  apply Everywhere.intro hroot
  intro c hc
  rcases hc.of_overlay with hc | hc
  · exact hbase.child c hc
  · exact hsite c hc

/-- **So do the parts that are put into a node.** -/
theorem fill {done : List (Step × SchemaNode)} (hdone : ∀ step c, (step, c) ∈ done → c.Everywhere P)
    (hroot : P (n.fill done)) : (n.fill done).Everywhere P := by
  apply Everywhere.intro hroot
  intro c hc
  obtain ⟨step, hc⟩ := hc.of_fill
  exact hdone step c hc

end Everywhere

/-! ### Nodes without nodes below -/

theorem not_child_ofType {name : String} : ¬ (ofType name).Child c := by
  rintro (hc | ⟨hps, -⟩)
  · cases hc
  · cases hps

theorem not_child_referenceTo {T : String} : ¬ (referenceTo T).Child c := by
  rintro (hc | ⟨hps, -⟩)
  · cases hc
  · cases hps

theorem everywhere_ofType {name : String} (h : P (ofType name)) : (ofType name).Everywhere P :=
  .intro h fun _ hc => absurd hc not_child_ofType

theorem everywhere_referenceTo {T : String} (h : P (referenceTo T)) :
    (referenceTo T).Everywhere P :=
  .intro h fun _ hc => absurd hc not_child_referenceTo

/-- The dialect of a document adds no node. -/
theorem child_schema {uri : Option String} : { n with schema := uri }.Child c ↔ n.Child c := by
  constructor
  · rintro (hc | ⟨hps, hc⟩)
    · exact .items hc
    · exact .property hps hc
  · rintro (hc | ⟨hps, hc⟩)
    · exact .items hc
    · exact .property hps hc

/-! ### Induction -/

/-- What stands right below a node is smaller. -/
theorem Child.sizeOf_lt (h : n.Child c) : sizeOf c < sizeOf n := by
  obtain ⟨schema, reference, type, properties, items, required, extra⟩ := n
  rcases h with h | @⟨ps, name, hps, hc⟩
  · obtain rfl : items = some c := h
    simp only [mk.sizeOf_spec, Option.some.sizeOf_spec]
    omega
  · obtain rfl : properties = some ps := hps
    have hlt := List.sizeOf_lt_of_mem hc
    simp only [Prod.mk.sizeOf_spec] at hlt
    simp only [mk.sizeOf_spec, Option.some.sizeOf_spec]
    omega

/-- What holds of a node whenever it holds of those right below holds of all nodes. -/
theorem child_induction {motive : SchemaNode → Prop}
    (next : ∀ n, (∀ c, n.Child c → motive c) → motive n) (n : SchemaNode) : motive n :=
  next n fun c hc =>
    have := hc.sizeOf_lt
    child_induction next c
termination_by sizeOf n

/-! ### Deciding -/

mutual

/-- Whether a node and all nodes below it pass a test. -/
def all (test : SchemaNode → Bool) : SchemaNode → Bool
  | ⟨schema, reference, type, properties, items, required, extra⟩ =>
    test ⟨schema, reference, type, properties, items, required, extra⟩
      && allProperties test properties && allItems test items

/-- Whether all nodes of a `properties` keyword pass a test. -/
def allProperties (test : SchemaNode → Bool) : Option (List (String × SchemaNode)) → Bool
  | none => true
  | some ps => allMembers test ps

/-- Whether all nodes of some properties pass a test. -/
def allMembers (test : SchemaNode → Bool) : List (String × SchemaNode) → Bool
  | [] => true
  | (_, n) :: ps => n.all test && allMembers test ps

/-- Whether all nodes of an `items` keyword pass a test. -/
def allItems (test : SchemaNode → Bool) : Option SchemaNode → Bool
  | none => true
  | some n => n.all test

end

theorem allMembers_iff {test : SchemaNode → Bool} {ps : Members SchemaNode} :
    allMembers test ps = true ↔ ∀ p ∈ ps, p.2.all test = true :=
  iff_forall_mem (Q := fun ps => allMembers test ps = true) rfl fun _ _ => Bool.and_eq_true_iff

/-- All nodes pass if the root does, and all below each node right below it. -/
theorem all_iff {test : SchemaNode → Bool} :
    n.all test = true ↔ test n = true ∧ ∀ c, n.Child c → c.all test = true := by
  obtain ⟨schema, reference, type, properties, items, required, extra⟩ := n
  rw [all, Bool.and_eq_true, Bool.and_eq_true, and_assoc, forall_child_iff]
  refine and_congr .rfl (and_congr ?_ ?_)
  · rcases properties with - | ps
    · simp [allProperties]
    · simp [allProperties, allMembers_iff]
  · rcases items with - | c
    · simp [allItems]
    · simp [allItems]

/-- **A test of nodes is a test of trees.** -/
theorem everywhere_iff {test : SchemaNode → Bool} :
    n.Everywhere (test · = true) ↔ n.all test = true := by
  constructor
  · intro h
    induction h with
    | intro hn _ ih => exact all_iff.mpr ⟨hn, ih⟩
  · intro h
    induction n using child_induction with
    | next n ih =>
      obtain ⟨hn, hchild⟩ := all_iff.mp h
      exact .intro hn fun c hc => ih c hc (hchild c hc)

instance [DecidablePred P] : DecidablePred (Everywhere P) := fun n =>
  decidable_of_iff (n.all (fun m => decide (P m)) = true) <| by
    rw [← everywhere_iff]
    exact ⟨Everywhere.imp fun _ => of_decide_eq_true, Everywhere.imp fun _ => decide_eq_true⟩

end RamlSchema.SchemaNode
