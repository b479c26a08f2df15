/-
RamlSchema/Proofs/Normalize/References.lean

Which types a type refers to, read off the declared trees alone.

`g.HasNode U raw` says that `raw` is a node of the tree of `U`: its root, or a
property, an element or an item of a node of it; and `g.NodeAt l raw` that the steps
of `l` lead to it from the root.  `U` references `T` (`References g U T`) if one of
these nodes has the declared type `T` as its single type, be it that its expression
names `T`, or that the type is `array` or `object` for want of a name.  `U` derives
from `T` (`Derives g U T`) if the root does.  Members of a union do not count.

Main results: `Derives.acc`, by which the types from which a type derives come to an
end unless they run in a circle, and `noReferences_of_lacksKey`, by which no node
carries a reference in a graph whose trees never use the key `$ref`.
-/
import RamlSchema.Proofs.Except
import RamlSchema.Proofs.Members
import RamlSchema.Proofs.Normalize.Tasks
import Mathlib.Data.Fintype.EquivFin
import Mathlib.Data.Fintype.Sets
import Mathlib.Logic.Relation
import Mathlib.Tactic.Tauto

namespace RamlSchema

/-- The declared type that a node has as its single type. -/
def NodeShape.declared? (g : TypeGraph) (n : NodeShape) : Option String :=
  n.typeName?.filter g.contains

/-- The nodes of the tree of a type. -/
inductive TypeGraph.HasNode (g : TypeGraph) (typeName : String) : Json → Prop
  | root {tree} : g.tree? typeName = some tree → HasNode g typeName tree
  | part {raw n step c} :
      HasNode g typeName raw → NodeShape.ofJson raw = .ok n → (step, .node c) ∈ n.parts →
      HasNode g typeName c

/-- The nodes of declared trees at their places. -/
inductive TypeGraph.NodeAt (g : TypeGraph) : Location → Json → Prop
  | root {T tree} : g.tree? T = some tree → NodeAt g ⟨T, []⟩ tree
  | part {l raw n step c} :
      NodeAt g l raw → NodeShape.ofJson raw = .ok n → (step, .node c) ∈ n.parts →
      NodeAt g (l.descend step.keys) c

/-- A type refers to another one at some node of its tree. -/
def References (g : TypeGraph) (U T : String) : Prop :=
  ∃ raw n, g.HasNode U raw ∧ NodeShape.ofJson raw = .ok n ∧ n.declared? g = some T

/-- A type refers to another one at the root of its tree. -/
def Derives (g : TypeGraph) (U T : String) : Prop :=
  ∃ tree n, g.tree? U = some tree ∧ NodeShape.ofJson tree = .ok n ∧ n.declared? g = some T

/-- No node of a declared tree carries a reference already. -/
def TypeGraph.NoReferences (g : TypeGraph) : Prop :=
  ∀ U raw n, g.HasNode U raw → NodeShape.ofJson raw = .ok n → n.reference? = none

/-- No object in a declared tree repeats a key. -/
def TypeGraph.WellFormed (g : TypeGraph) : Prop :=
  ∀ U tree, g.tree? U = some tree → tree.WellFormed

/-- No type refers to itself, directly or through others. -/
def TypeGraph.Acyclic (g : TypeGraph) : Prop :=
  ∀ T, ¬ Relation.TransGen (References g) T T

theorem NodeShape.declared?_eq_some_iff {g : TypeGraph} {n : NodeShape} {T : String} :
    n.declared? g = some T ↔ n.typeName? = some T ∧ T ∈ g.names := by
  simp [NodeShape.declared?, Option.filter_eq_some_iff, TypeGraph.contains_iff]

theorem TypeGraph.HasNode.mem_names {g : TypeGraph} {U : String} {raw : Json}
    (h : g.HasNode U raw) : U ∈ g.names := by
  induction h with
  | root htree => exact (g.contains_iff U).mp (Option.isSome_iff_exists.mpr ⟨_, htree⟩)
  | part _ _ _ ih => exact ih

/-- The nodes of a tree do not depend on what else is declared. -/
theorem TypeGraph.HasNode.of_tree?_eq {g h : TypeGraph} {U : String} {raw : Json}
    (htree : g.tree? U = h.tree? U) (hraw : g.HasNode U raw) : h.HasNode U raw := by
  induction hraw with
  | root hroot => exact .root (htree ▸ hroot)
  | part _ hn hpart ih => exact .part ih hn hpart

theorem TypeGraph.NodeAt.hasNode {g : TypeGraph} {l : Location} {raw : Json} (h : g.NodeAt l raw) :
    g.HasNode l.typeName raw := by
  induction h with
  | root htree => exact .root htree
  | part _ hn hpart ih => exact .part ih hn hpart

theorem References.source_mem {g : TypeGraph} {U T : String} (h : References g U T) :
    U ∈ g.names := by
  obtain ⟨raw, n, hraw, -, -⟩ := h
  exact hraw.mem_names

theorem References.target_mem {g : TypeGraph} {U T : String} (h : References g U T) :
    T ∈ g.names := by
  obtain ⟨raw, n, -, -, hT⟩ := h
  exact (NodeShape.declared?_eq_some_iff.mp hT).2

theorem Derives.references {g : TypeGraph} {U T : String} (h : Derives g U T) :
    References g U T := by
  obtain ⟨tree, n, htree, hn, hT⟩ := h
  exact ⟨tree, n, .root htree, hn, hT⟩

/-- A part of the tree of a type. -/
def Part.Within (g : TypeGraph) (T : String) (part : Part) : Prop :=
  ∀ raw, part = .node raw → g.HasNode T raw

namespace Part.Within

variable {g : TypeGraph} {T : String} {raw : Json} {n : NodeShape}

theorem root {tree : Json} (htree : g.tree? T = some tree) : Part.Within g T (.node tree) := by
  rintro raw ⟨⟩
  exact .root htree

/-- With a node, its parts are parts of the tree. -/
theorem of_mem {step : Step} {part : Part} (hraw : Part.Within g T (.node raw))
    (hn : NodeShape.ofJson raw = .ok n) (hpart : (step, part) ∈ n.parts) : part.Within g T := by
  rintro c rfl
  exact .part (hraw raw rfl) hn hpart

/-- So are those that its tasks convert. -/
theorem tasks {h : TypeGraph} {l : Location} (hraw : Part.Within g T (.node raw))
    (hn : NodeShape.ofJson raw = .ok n) :
    ∀ step part, (step, part) ∈ (n.tasks h l).filterMap Task.part? → part.Within g T := by
  rw [NodeShape.part?_tasks]
  exact fun _ _ hpart => hraw.of_mem hn hpart

theorem references {U : String} (hraw : Part.Within g T (.node raw))
    (hn : NodeShape.ofJson raw = .ok n) (hU : n.declared? g = some U) : References g T U :=
  ⟨raw, n, hraw raw rfl, hn, hU⟩

end Part.Within

/-- The type from which a type derives. -/
def TypeGraph.parent? (g : TypeGraph) (U : String) : Option String :=
  (g.tree? U).bind fun tree =>
    match NodeShape.ofJson tree with
    | .ok n => n.declared? g
    | .error _ => none

theorem derives_iff {g : TypeGraph} {U T : String} : Derives g U T ↔ g.parent? U = some T := by
  constructor
  · rintro ⟨tree, n, htree, hn, hT⟩
    simp [TypeGraph.parent?, htree, hn, hT]
  · intro h
    obtain ⟨tree, htree, h⟩ := Option.bind_eq_some_iff.mp h
    rcases hn : NodeShape.ofJson tree with e | n
    · simp [hn] at h
    · simp only [hn] at h
      exact ⟨tree, n, htree, hn, h⟩

/-- If neither `T` nor a type from which it derives derives from itself, the types from
which `T` derives come to an end: there are only so many of them. -/
theorem Derives.acc {g : TypeGraph} {T : String}
    (h : ∀ X, Relation.ReflTransGen (Derives g) T X → ¬ Relation.TransGen (Derives g) X X) :
    Acc (fun U T => Derives g T U) T := by
  -- among the declared names, which are finitely many, the transitive closure has
  -- no circle behind `T` and is well-founded there for that
  let below (U V : {V // V ∈ g.names}) : Prop :=
    Relation.ReflTransGen (Derives g) T V.1 ∧ Relation.TransGen (Derives g) V.1 U.1
  have : IsTrans _ below := ⟨fun _ _ _ hUV hVW => ⟨hVW.1, hVW.2.trans hUV.2⟩⟩
  have : Std.Irrefl below := ⟨fun U hU => h U.1 hU.1 hU.2⟩
  have hwf : WellFounded below := Finite.wellFounded_of_trans_of_irrefl below
  have hdeclared : ∀ V : {V // V ∈ g.names}, Relation.ReflTransGen (Derives g) T V.1 →
      Acc (fun U T => Derives g T U) V.1 := by
    intro V
    induction V using hwf.induction with
    | _ V ih =>
      intro hV
      exact ⟨V.1, fun U hU => ih ⟨U, hU.references.target_mem⟩ ⟨hV, .single hU⟩ (hV.tail hU)⟩
  exact ⟨T, fun U hU => hdeclared ⟨U, hU.references.target_mem⟩ (.single hU)⟩

/-- Without circles, the types from which one derives always come to an end. -/
theorem Derives.wellFounded {g : TypeGraph} (h : ∀ T, ¬ Relation.TransGen (Derives g) T T) :
    WellFounded fun U T => Derives g T U :=
  ⟨fun _ => Derives.acc fun X _ => h X⟩

theorem TypeGraph.tree?_isSome_iff (g : TypeGraph) (name : String) :
    (g.tree? name).isSome ↔ name ∈ g.names :=
  g.contains_iff name

/-- No two types have documents of one name. -/
theorem documentFileName_injective {T U : String} (h : documentFileName T = documentFileName U) :
    T = U := by
  simpa [documentFileName] using h

/-! ### Nodes in short -/

/-- A node whose type is `type`. -/
def Json.ofType (type : Json) : Json :=
  .obj [("type", type)]

/-- A node with the given properties. -/
def Json.ofProperties (ps : List (String × Json)) : Json :=
  .obj [("properties", .obj ps)]

/-! ### What the nodes of a tree inherit -/

/-- What passes from a value to its members, and to the nodes that stand for type
expressions. -/
structure Json.Hereditary (P : Json → Prop) : Prop where
  text : ∀ s, P (.str s)
  expression : ∀ j, P j → P (.obj [("type", j)])
  member : ∀ ms k v, P (.obj ms) → (k, v) ∈ ms → P v

namespace NodeShape

variable {raw : Json} {n : NodeShape}

theorem of_ofJson (h : ofJson raw = .ok n) :
    raw = .obj n.members ∧ propertiesOf (n.members.get? "properties") = .ok n.properties := by
  rcases raw with - | b | x | s | js | ms
  case obj =>
    obtain ⟨ps, hps, h⟩ := Except.bind_eq_ok_iff.mp h
    obtain ⟨text, -, h⟩ := Except.bind_eq_ok_iff.mp h
    obtain ⟨type, -, h⟩ := Except.bind_eq_ok_iff.mp h
    cases h
    exact ⟨rfl, hps⟩
  all_goals cases h

/-- The declared properties are those of the `properties` member. -/
theorem properties_of_ofJson (h : ofJson raw = .ok n) {ps : Members Json}
    (hps : n.properties = some ps) : n.members.get? "properties" = some (.obj ps) := by
  have hof := (of_ofJson h).2
  rw [hps] at hof
  unfold propertiesOf at hof
  split at hof <;> simp_all

theorem items_of_items? {items : Json} (h : n.items? = some items) :
    n.members.get? "items" = some items := by
  unfold items? at h
  split at h
  · cases h
  · exact h

/-- The parts of a node have what it passes on. -/
theorem part_of_hereditary {P : Json → Prop} (hP : Json.Hereditary P) (hraw : P raw)
    (h : ofJson raw = .ok n) {step : Step} {c : Json} (hc : (step, .node c) ∈ n.parts) : P c := by
  obtain ⟨rfl, -⟩ := of_ofJson h
  have hmember : ∀ k v, n.members.get? k = some v → P v :=
    fun k v hv => hP.member _ k v hraw (Members.mem_of_get? hv)
  rcases List.mem_append.mp hc with hitem | hproperty
  -- the part that gives the items: an element, an expression or a node
  · obtain ⟨hpart, -⟩ : n.itemPart? = some (.node c) ∧ Step.items = step := by
      simpa [itemParts] using hitem
    have hitems := fun items h => hmember "items" items (items_of_items? (n := n) h)
    unfold itemPart? Part.ofExpression at hpart
    split at hpart
    · split at hpart <;> cases hpart
      exact hP.expression _ (hP.text _)
    · split at hpart <;> cases hpart
      · rename_i hs
        exact hP.expression _ (hitems _ hs)
      · rename_i hs
        exact hP.expression _ (hitems _ hs)
      · rename_i hs
        exact hitems _ hs
  · obtain ⟨p, hp, hpc⟩ := List.mem_map.mp hproperty
    obtain ⟨-, rfl⟩ : _ ∧ p.2 = c := by simpa using hpc
    rcases hps : n.properties with - | ps
    · simp [hps] at hp
    · rw [hps] at hp
      exact hP.member ps p.1 p.2 (hmember _ _ (properties_of_ofJson h hps)) hp

end NodeShape

/-- So has every node of a tree. -/
theorem TypeGraph.HasNode.of_hereditary {g : TypeGraph} {P : Json → Prop} {U : String}
    {raw : Json} (hP : Json.Hereditary P) (htree : ∀ tree, g.tree? U = some tree → P tree)
    (h : g.HasNode U raw) : P raw := by
  induction h with
  | root hroot => exact htree _ hroot
  | part _ hn hpart ih => exact NodeShape.part_of_hereditary hP ih hn hpart

/-! ### Trees without references and without repeated keys -/

namespace Json

mutual

/-- Whether no object in the value has the key. -/
def lacksKey (k : String) : Json → Bool
  | .arr xs => lacksKeyItems k xs
  | .obj ms => lacksKeyMembers k ms
  | _ => true

/-- Whether no object in any of the items has the key. -/
def lacksKeyItems (k : String) : List Json → Bool
  | [] => true
  | x :: xs => x.lacksKey k && lacksKeyItems k xs

/-- Whether the members do not have the key, nor any object in their values. -/
def lacksKeyMembers (k : String) : List (String × Json) → Bool
  | [] => true
  | (k', v) :: ms => k' ≠ k && v.lacksKey k && lacksKeyMembers k ms

end

theorem lacksKeyMembers_iff {k : String} {ms : Members Json} :
    lacksKeyMembers k ms = true ↔ k ∉ ms.keys ∧ ∀ m ∈ ms, m.2.lacksKey k = true := by
  induction ms with
  | nil => simp [lacksKeyMembers, Members.keys]
  | cons m ms ih =>
    have hk : m.1 ≠ k ↔ k ≠ m.1 := ne_comm
    simp only [Members.keys] at ih
    simp only [lacksKeyMembers, Bool.and_eq_true, decide_eq_true_eq, ih, Members.keys,
      List.map_cons, List.mem_cons, not_or, or_imp, forall_and, forall_eq, hk]
    tauto

theorem wellFormedItems_iff {js : List Json} : WellFormedItems js ↔ ∀ j ∈ js, j.WellFormed :=
  iff_forall_mem trivial fun _ _ => .rfl

theorem wellFormedMembers_iff {ms : Members Json} :
    WellFormedMembers ms ↔ ∀ m ∈ ms, m.2.WellFormed :=
  iff_forall_mem trivial fun _ _ => .rfl

mutual

/-- Decides whether an object in a value repeats a key. -/
def decidableWellFormed : (j : Json) → Decidable j.WellFormed
  | .null | .bool _ | .num _ | .str _ => .isTrue trivial
  | .arr xs => decidableWellFormedItems xs
  | .obj ms =>
    have := decidableWellFormedMembers ms
    inferInstanceAs (Decidable ((Members.keys ms).Nodup ∧ WellFormedMembers ms))

def decidableWellFormedItems : (xs : List Json) → Decidable (WellFormedItems xs)
  | [] => .isTrue trivial
  | x :: xs =>
    have := decidableWellFormed x
    have := decidableWellFormedItems xs
    inferInstanceAs (Decidable (x.WellFormed ∧ WellFormedItems xs))

def decidableWellFormedMembers : (ms : List (String × Json)) → Decidable (WellFormedMembers ms)
  | [] => .isTrue trivial
  | (_, v) :: ms =>
    have := decidableWellFormed v
    have := decidableWellFormedMembers ms
    inferInstanceAs (Decidable (v.WellFormed ∧ WellFormedMembers ms))

end

instance : DecidablePred WellFormed := decidableWellFormed

theorem hereditary_lacksKey {k : String} (hk : k ≠ "type") :
    Hereditary fun j => j.lacksKey k = true where
  text _ := rfl
  expression j hj := by simpa [lacksKey, lacksKeyMembers, hj] using hk.symm
  member ms k v hms hv := (lacksKeyMembers_iff.mp hms).2 _ hv

theorem hereditary_wellFormed : Hereditary WellFormed where
  text _ := trivial
  expression _ hj := ⟨List.nodup_singleton _, hj, trivial⟩
  member _ _ _ hms hv := wellFormedMembers_iff.mp hms.2 _ hv

end Json

/-- No node of a tree repeats a key either. -/
theorem TypeGraph.WellFormed.hasNode {g : TypeGraph} (h : g.WellFormed) {U : String} {raw : Json}
    (hraw : g.HasNode U raw) : raw.WellFormed :=
  hraw.of_hereditary Json.hereditary_wellFormed (h U)

/-- In a graph whose trees never use the key `$ref`, no node carries a reference. -/
theorem TypeGraph.noReferences_of_lacksKey {g : TypeGraph}
    (h : g.trees.all fun e => e.2.lacksKey "$ref") : g.NoReferences := by
  intro U raw n hraw hn
  have hlacks : raw.lacksKey "$ref" = true := by
    apply hraw.of_hereditary (Json.hereditary_lacksKey (by decide))
    intro tree htree
    exact List.all_eq_true.mp h _ (Members.mem_of_get? htree)
  obtain ⟨rfl, -⟩ := NodeShape.of_ofJson hn
  have hget : n.members.get? "$ref" = none :=
    Members.get?_eq_none_iff.mpr (Json.lacksKeyMembers_iff.mp hlacks).1
  rw [NodeShape.reference?, hget, Option.bind_none]

theorem TypeGraph.wellFormed_of_all {g : TypeGraph} (h : ∀ e ∈ g.trees, e.2.WellFormed) :
    g.WellFormed :=
  fun _ _ htree => h _ (Members.mem_of_get? htree)

end RamlSchema
