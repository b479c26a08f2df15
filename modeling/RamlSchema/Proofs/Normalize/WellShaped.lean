/-
RamlSchema/Proofs/Normalize/WellShaped.lean

Which graphs are converted without a failure.

Whether a node is in order is told from its members alone: what its `type` says is
an expression, its `properties`, `items` and `required` are of the kinds they should
be, and properties stand on an object (`Json.InOrder`).  A node is well shaped if it
is in order and the nodes right below it are (`TypeGraph.WellShaped`).  The
conversion makes these checks in a fixed order and stops at the first one that
fails, and it may come to a type first through another one or in the middle of a
cycle; still a tree that is not well shaped always makes its type fail, and nothing
else does.

Main results: `not_faulty_iff`, by which a type is without fault if and only if its
tree is well shaped, and `failures_eq_nil_iff`.
-/
import RamlSchema.Proofs.Normalize.Levels
import RamlSchema.Proofs.Normalize.Failures
import RamlSchema.Proofs.Normalize.Order
import RamlSchema.Proofs.TypeExpr.Unions

namespace RamlSchema

open Relation

/-! ### Nodes in order -/

namespace Json

/-- What the `type` of a node says: nothing, or an expression.  Of a list, the first
item counts. -/
inductive WritesType (ms : Members Json) : Option TypeExpr → Prop
  | absent : ms.get? "type" = none → WritesType ms none
  | null : ms.get? "type" = some .null → WritesType ms none
  | written {j s t} :
      ms.get? "type" = some j → NodeShape.Says s j → ¬ TypeExpr.Blank s.toList →
      TypeExpr.Reads (Text.trimChars s.toList) t → WritesType ms (some t)

/-- The node that an `items` member stands for. -/
inductive ItemsNode : Json → Json → Prop
  | text {s} : ItemsNode (.str s) (.ofType (.str s))
  | candidates {js} : ItemsNode (.arr js) (.ofType (.arr js))
  | node {ms} : ItemsNode (.obj ms) (.obj ms)

/-- The single type of a node with properties. -/
def singleType : Option TypeExpr → Option String
  | none => some "object"
  | some (.named name) => some name
  | some (.arrayOf _) => some "array"
  | some (.union _) => none

/-- What a node says by itself is in order. -/
structure InOrder (g : TypeGraph) (ms : Members Json) : Prop where
  type : ∃ t, WritesType ms t
  properties : ∀ v, ms.get? "properties" = some v → v = .null ∨ ∃ ps, v = .obj ps
  items : (∃ e, WritesType ms (some (.arrayOf e))) ∨
    ∀ v, ms.get? "items" = some v → v = .null ∨ ∃ c, ItemsNode v c
  required : ∀ v, ms.get? "required" = some v →
    v = .null ∨ (∃ b, v = .bool b) ∨ ∃ names : List String, v = .arr (names.map .str)
  object : ∀ ps, ms.get? "properties" = some (.obj ps) → ps ≠ [] →
    ∃ t name, WritesType ms t ∧ singleType t = some name ∧ (name = "object" ∨ name ∈ g.names)

/-- The nodes right below one. -/
inductive Below (ms : Members Json) : Json → Prop
  | property {ps name c} :
      ms.get? "properties" = some (.obj ps) → (name, c) ∈ ps → Below ms c
  | element {e} :
      WritesType ms (some (.arrayOf e)) → '|' ∉ e.toList → Below ms (.ofType (.str e))
  | items {v c} :
      (∀ e, ¬ WritesType ms (some (.arrayOf e))) → ms.get? "items" = some v → ItemsNode v c →
      Below ms c

end Json

/-- A node that is in order, as are all nodes below it. -/
inductive TypeGraph.WellShaped (g : TypeGraph) : Json → Prop
  | node {ms} :
      Json.InOrder g ms → (∀ c, Json.Below ms c → g.WellShaped c) → g.WellShaped (.obj ms)

variable {g : TypeGraph} {o : Options} {ms : Members Json} {n : NodeShape}

open Json

/-! ### What a node is made of -/

namespace NodeShape

theorem nonblank_eq_ok_iff {s text : String} :
    nonblank s = .ok text ↔ ¬ TypeExpr.Blank s.toList ∧ text = Text.trim s := by
  have hempty : (Text.trim s).isEmpty = true ↔ TypeExpr.Blank s.toList := by
    rw [String.isEmpty_iff, Text.trim, ← TypeExpr.trimChars_eq_nil_iff]
    simp
  rw [← hempty]
  simp only [nonblank]
  split <;> simp [*, eq_comm]

theorem Says.typeText_eq {s : String} {j : Json} (h : Says s j) :
    typeText (some j) = (nonblank s).map some := by
  cases h <;> rfl

theorem typeText_eq_none_iff {v : Option Json} :
    typeText v = .ok none ↔ v = none ∨ v = some .null := by
  have hsome : ∀ s, (nonblank s).map some ≠ .ok none := by
    intro s
    rcases nonblank s with e | text <;> simp [Except.map]
  unfold typeText
  split <;> simp_all

theorem writesType_none_iff : WritesType ms none ↔ typeText (ms.get? "type") = .ok none := by
  rw [typeText_eq_none_iff]
  constructor
  · rintro (h | h)
    · exact .inl h
    · exact .inr h
  · rintro (h | h)
    · exact .absent h
    · exact .null h

theorem writesType_some_iff {t : TypeExpr} :
    WritesType ms (some t) ↔
      ∃ text, typeText (ms.get? "type") = .ok (some text) ∧ typeOf text = .ok t := by
  constructor
  · rintro (- | - | ⟨hget, hsays, hblank, hreads⟩)
    rename_i j s
    refine ⟨Text.trim s, ?_, typeOf_eq_ok_iff.mpr (TypeExpr.reads_iff.mp hreads)⟩
    rw [hget, hsays.typeText_eq, nonblank_eq_ok_iff.mpr ⟨hblank, rfl⟩]
    rfl
  · rintro ⟨text, htext, ht⟩
    obtain ⟨s, j, hget, hsays, rfl⟩ := says_of_typeText htext
    rw [hget, hsays.typeText_eq] at htext
    rcases hs : nonblank s with e | text
    · rw [hs] at htext
      cases htext
    · exact .written hget hsays (nonblank_eq_ok_iff.mp hs).1
        (TypeExpr.reads_iff.mpr (typeOf_eq_ok_iff.mp ht))

/-- What the `type` of a node says is one thing. -/
theorem writesType_unique {t t' : Option TypeExpr} (h : WritesType ms t) (h' : WritesType ms t') :
    t = t' := by
  rcases t with - | t <;> rcases t' with - | t'
  · rfl
  · obtain ⟨text, htext, -⟩ := writesType_some_iff.mp h'
    cases (writesType_none_iff.mp h).symm.trans htext
  · obtain ⟨text, htext, -⟩ := writesType_some_iff.mp h
    cases (writesType_none_iff.mp h').symm.trans htext
  · obtain ⟨text, htext, ht⟩ := writesType_some_iff.mp h
    obtain ⟨text', htext', ht'⟩ := writesType_some_iff.mp h'
    cases htext.symm.trans htext'
    cases ht.symm.trans ht'
    rfl

/-- A node has a shape if its `properties` are a mapping and its `type` says what it
should.  Properties without a type stand on an object. -/
theorem ofJson_eq_ok_iff :
    ofJson (.obj ms) = .ok n ↔
      n.members = ms ∧ propertiesOf (ms.get? "properties") = .ok n.properties ∧
        ∃ t, WritesType ms t ∧ n.type = t.or (n.properties.map fun _ => .named "object") := by
  have hobject : typeOf "object" = .ok (.named "object") := rfl
  constructor
  · intro h
    obtain ⟨ps, hps, h⟩ := Except.bind_eq_ok_iff.mp h
    obtain ⟨text, htext, h⟩ := Except.bind_eq_ok_iff.mp h
    obtain ⟨type, htype, h⟩ := Except.bind_eq_ok_iff.mp h
    cases h
    refine ⟨rfl, hps, ?_⟩
    rcases text with - | text
    · refine ⟨none, writesType_none_iff.mpr htext, ?_⟩
      rcases ps with - | ps
      · cases htype
        rfl
      · simpa [hobject, eq_comm] using htype
    · rcases ht : typeOf text with e | t
      · simp [ht] at htype
      · obtain rfl : some t = type := by simpa [ht] using htype
        exact ⟨some t, writesType_some_iff.mpr ⟨text, htext, ht⟩, rfl⟩
  · obtain ⟨members, ps, type⟩ := n
    rintro ⟨rfl, hps, t, ht, htype⟩
    dsimp only at hps ht htype
    subst htype
    rcases t with - | t
    · rcases ps with - | ps <;>
        simp [ofJson, hps, writesType_none_iff.mp ht, hobject, bind, Except.bind, pure, Except.pure]
    · obtain ⟨text, htext, ht⟩ := writesType_some_iff.mp ht
      simp [ofJson, hps, htext, ht, bind, Except.bind, pure, Except.pure]

theorem members_of_ofJson (hn : ofJson (.obj ms) = .ok n) : n.members = ms :=
  (ofJson_eq_ok_iff.mp hn).1

/-- An array expression is what the `type` says. -/
theorem writesType_arrayOf_iff (hn : ofJson (.obj ms) = .ok n) {e : String} :
    WritesType ms (some (.arrayOf e)) ↔ n.type = some (.arrayOf e) := by
  obtain ⟨-, -, t, ht, htype⟩ := ofJson_eq_ok_iff.mp hn
  rw [htype]
  constructor
  · intro he
    rw [writesType_unique ht he, Option.some_or]
  · intro he
    rcases t with - | t
    · rcases n.properties with - | ps <;> simp at he
    · rw [Option.some_or] at he
      rwa [he] at ht

theorem propertiesOf_eq_ok_iff {v : Option Json} {ps : Option (Members Json)} :
    propertiesOf v = .ok ps ↔
      (ps = none ∧ (v = none ∨ v = some .null)) ∨ ∃ ms, ps = some ms ∧ v = some (.obj ms) := by
  rcases v with - | (- | b | x | s | js | ms) <;> simp [propertiesOf, eq_comm]

/-- The properties of a node are those that it declares. -/
theorem properties_eq_some_iff (hn : ofJson (.obj ms) = .ok n) {ps : Members Json} :
    n.properties = some ps ↔ ms.get? "properties" = some (.obj ps) := by
  rcases propertiesOf_eq_ok_iff.mp (ofJson_eq_ok_iff.mp hn).2.1 with
    ⟨hnone, hget | hget⟩ | ⟨qs, hqs, hget⟩ <;> simp [*]

/-! ### Checks -/

theorem exists_namesOf_iff {js : List Json} :
    (∃ names, namesOf js = .ok names) ↔ ∃ names : List String, js = names.map .str := by
  induction js with
  | nil => exact ⟨fun _ => ⟨[], rfl⟩, fun _ => ⟨[], rfl⟩⟩
  | cons j js ih =>
    constructor
    · rintro ⟨names, h⟩
      rcases j with - | b | x | s | xs | ms
      case str =>
        rcases hjs : namesOf js with e | rest
        · simp [namesOf, hjs, Except.map] at h
        · obtain ⟨rest, rfl⟩ := ih.mp ⟨rest, hjs⟩
          exact ⟨s :: rest, rfl⟩
      all_goals cases h
    · rintro ⟨- | ⟨s, rest⟩, h⟩
      · cases h
      · obtain ⟨rfl, rfl⟩ := List.cons.inj h
        obtain ⟨names, hnames⟩ := ih.mpr ⟨rest, rfl⟩
        exact ⟨s :: names, by simp [namesOf, hnames, Except.map]⟩

/-- What is required is listed by names, or flagged. -/
theorem checkRequired_eq_ok_iff (hn : ofJson (.obj ms) = .ok n) :
    n.checkRequired = .ok () ↔ ∀ v, ms.get? "required" = some v →
      v = .null ∨ (∃ b, v = .bool b) ∨ ∃ names : List String, v = .arr (names.map .str) := by
  have hok : n.checkRequired = .ok () ↔ ∃ names, listed (ms.get? "required") = .ok names := by
    rw [checkRequired, members_of_ofJson hn]
    rcases listed (ms.get? "required") with e | names <;> simp [Except.map]
  rw [hok]
  rcases ms.get? "required" with - | (- | b | x | s | js | ns) <;>
    simp [listed, exists_namesOf_iff]

theorem items?_eq_some_iff {v : Json} :
    n.items? = some v ↔ n.members.get? "items" = some v ∧ v ≠ .null := by
  rcases hget : n.members.get? "items" with - | (- | b | x | s | js | ns) <;>
    simp only [items?, hget]
  case some.null => simp [eq_comm]
  all_goals
    refine ⟨fun h => ⟨h, ?_⟩, And.left⟩
    rintro rfl
    cases h

theorem exists_itemsNode_iff {v : Json} :
    (∃ c, ItemsNode v c) ↔ (∃ s, v = .str s) ∨ (∃ js, v = .arr js) ∨ ∃ ms, v = .obj ms := by
  constructor
  · rintro ⟨c, s | js | ms⟩
    · exact .inl ⟨_, rfl⟩
    · exact .inr (.inl ⟨_, rfl⟩)
    · exact .inr (.inr ⟨_, rfl⟩)
  · rintro (⟨s, rfl⟩ | ⟨js, rfl⟩ | ⟨ms, rfl⟩)
    · exact ⟨_, .text⟩
    · exact ⟨_, .candidates⟩
    · exact ⟨_, .node⟩

/-- Items are nodes, unless the type gives them. -/
theorem checkItems_eq_ok_iff (hn : ofJson (.obj ms) = .ok n) :
    n.checkItems = .ok () ↔ (∃ e, WritesType ms (some (.arrayOf e))) ∨
      ∀ v, ms.get? "items" = some v → v = .null ∨ ∃ c, ItemsNode v c := by
  have hitems : (∀ v, ms.get? "items" = some v → v = .null ∨ ∃ c, ItemsNode v c) ↔
      ∀ v, n.items? = some v → ∃ c, ItemsNode v c := by
    simp only [items?_eq_some_iff, members_of_ofJson hn, and_imp, or_iff_not_imp_left, ne_eq]
  rw [hitems]
  simp only [writesType_arrayOf_iff hn, exists_itemsNode_iff]
  rcases htype : n.type with - | (name | element | members)
  case some.arrayOf => simp [checkItems, htype]
  all_goals
    rcases hi : n.items? with - | (- | b | x | s | js | ns) <;> simp [checkItems, htype, hi]

/-- The single type of a node with properties. -/
theorem typeName?_eq_singleType (hn : ofJson (.obj ms) = .ok n) {t : Option TypeExpr}
    (ht : WritesType ms t) {ps : Members Json} (hps : n.properties = some ps) :
    n.typeName? = singleType t := by
  obtain ⟨-, -, t', ht', htype⟩ := ofJson_eq_ok_iff.mp hn
  obtain rfl := writesType_unique ht ht'
  rw [hps] at htype
  rcases t with - | (name | element | members) <;>
    simp [typeName?, schemaType, htype, singleType, SchemaType.single?]

/-- Properties stand on an object. -/
theorem checkProperties_eq_ok_iff (hn : ofJson (.obj ms) = .ok n) :
    n.checkProperties g = .ok () ↔ ∀ ps, ms.get? "properties" = some (.obj ps) → ps ≠ [] →
      ∃ t name, WritesType ms t ∧ singleType t = some name ∧ (name = "object" ∨ name ∈ g.names) := by
  simp only [← properties_eq_some_iff hn]
  obtain ⟨-, -, t, ht, -⟩ := ofJson_eq_ok_iff.mp hn
  rcases hps : n.properties with - | ps
  · simp [checkProperties, hps]
  · have hsingle := typeName?_eq_singleType hn ht hps
    have hobject : (∃ t name, WritesType ms t ∧ singleType t = some name ∧
        (name = "object" ∨ name ∈ g.names)) ↔ mayHaveProperties g n.schemaType = true := by
      rw [mayHaveProperties_iff, hsingle]
      constructor
      · rintro ⟨t', name, ht', h⟩
        rw [writesType_unique ht ht']
        exact ⟨name, h⟩
      · rintro ⟨name, h⟩
        exact ⟨t, name, ht, h⟩
    rw [hobject]
    rcases ps with - | ⟨p, ps⟩ <;> simp [checkProperties, hps]

/-! ### Parts -/

/-- The node that gives a node its items. -/
theorem itemPart?_eq_node_iff {c : Json} :
    n.itemPart? = some (.node c) ↔
      (∃ e, n.type = some (.arrayOf e) ∧ '|' ∉ e.toList ∧ c = .ofType (.str e)) ∨
        (∀ e, n.type ≠ some (.arrayOf e)) ∧ ∃ v, n.items? = some v ∧ ItemsNode v c := by
  rcases htype : n.type with - | (name | element | members)
  case some.arrayOf =>
    by_cases hbar : '|' ∈ element.toList <;>
      simp [itemPart?, htype, TypeExpr.hasBar, hbar, Part.ofExpression, Json.ofType, eq_comm]
  all_goals
    have hitems : n.itemPart? = some (.node c) ↔ ∃ v, n.items? = some v ∧ ItemsNode v c := by
      simp only [itemPart?, htype]
      constructor
      · intro h
        split at h <;> cases h
        · exact ⟨_, ‹_›, .text⟩
        · exact ⟨_, ‹_›, .candidates⟩
        · exact ⟨_, ‹_›, .node⟩
      · rintro ⟨v, hv, s | js | ms⟩ <;> simp [hv, Part.ofExpression, Json.ofType]
    simp [hitems]

theorem mem_propertyParts_iff {c : Json} :
    (∃ step, (step, .node c) ∈ n.propertyParts) ↔
      ∃ ps name, n.properties = some ps ∧ (name, c) ∈ ps := by
  rcases hps : n.properties with - | ps <;> simp [propertyParts, hps]

end NodeShape

open NodeShape

/-- **A node is in order if and only if it passes all checks.** -/
theorem Json.inOrder_iff : InOrder g ms ↔ ∃ n, ofJson (.obj ms) = .ok n ∧ n.Sound g := by
  constructor
  · rintro ⟨⟨t, ht⟩, hproperties, hitems, hrequired, hobject⟩
    obtain ⟨ps, hps⟩ : ∃ ps, propertiesOf (ms.get? "properties") = .ok ps := by
      rcases hget : ms.get? "properties" with - | v
      · exact ⟨none, rfl⟩
      · obtain rfl | ⟨ps, rfl⟩ := hproperties v hget
        · exact ⟨none, rfl⟩
        · exact ⟨some ps, rfl⟩
    have hn : ofJson (.obj ms) = .ok ⟨ms, ps, t.or (ps.map fun _ => .named "object")⟩ :=
      ofJson_eq_ok_iff.mpr ⟨rfl, hps, t, ht, rfl⟩
    exact ⟨_, hn, (checkItems_eq_ok_iff hn).mpr hitems, (checkRequired_eq_ok_iff hn).mpr hrequired,
      (checkProperties_eq_ok_iff hn).mpr hobject⟩
  · rintro ⟨n, hn, hitems, hrequired, hobject⟩
    obtain ⟨-, hps, t, ht, -⟩ := ofJson_eq_ok_iff.mp hn
    refine ⟨⟨t, ht⟩, fun v hv => ?_, (checkItems_eq_ok_iff hn).mp hitems,
      (checkRequired_eq_ok_iff hn).mp hrequired, (checkProperties_eq_ok_iff hn).mp hobject⟩
    rw [hv] at hps
    rcases propertiesOf_eq_ok_iff.mp hps with ⟨-, h | h⟩ | ⟨ps, -, h⟩
    · cases h
    · exact .inl (Option.some.inj h)
    · exact .inr ⟨ps, Option.some.inj h⟩

/-- The nodes right below one are its parts. -/
theorem Json.below_iff (hn : ofJson (.obj ms) = .ok n) {c : Json} :
    Below ms c ↔ ∃ step, (step, .node c) ∈ n.parts := by
  have hparts : (∃ step, (step, .node c) ∈ n.parts) ↔
      n.itemPart? = some (.node c) ∨ ∃ ps name, n.properties = some ps ∧ (name, c) ∈ ps := by
    rw [← mem_propertyParts_iff]
    simp [parts, itemParts, exists_or]
  rw [hparts, itemPart?_eq_node_iff]
  simp only [properties_eq_some_iff hn, ← writesType_arrayOf_iff hn, items?_eq_some_iff,
    members_of_ofJson hn, ne_eq]
  constructor
  · rintro (⟨hps, hc⟩ | ⟨he, hbar⟩ | ⟨hnone, hv, hc⟩)
    · exact .inr ⟨_, _, hps, hc⟩
    · exact .inl (.inl ⟨_, he, hbar, rfl⟩)
    · refine .inl (.inr ⟨hnone, _, ⟨hv, ?_⟩, hc⟩)
      rintro rfl
      cases hc
  · rintro ((⟨e, he, hbar, rfl⟩ | ⟨hnone, v, ⟨hv, -⟩, hc⟩) | ⟨ps, name, hps, hc⟩)
    · exact .element he hbar
    · exact .items hnone hv hc
    · exact .property hps hc

/-! ### Trees -/

/-- All nodes of a tree that is well shaped are. -/
theorem TypeGraph.HasNode.wellShaped {T : String}
    (htree : ∀ tree, g.tree? T = some tree → g.WellShaped tree) {raw : Json}
    (h : g.HasNode T raw) : g.WellShaped raw := by
  induction h with
  | root hroot => exact htree _ hroot
  | part _ hn hpart ih =>
    cases ih with
    | node _ hbelow => exact hbelow _ ((Json.below_iff hn).mpr ⟨_, hpart⟩)

/-- The nodes of a type without fault are well shaped. -/
theorem TypeGraph.wellShaped_of_not_faulty {T : String} (hT : ¬ g.Faulty T) {raw : Json}
    (h : g.HasNode T raw) : g.WellShaped raw := by
  -- on the height, since the nodes right below one are less high
  induction hheight : raw.height using Nat.strong_induction_on generalizing raw with
  | _ height ih =>
    obtain ⟨n, hn, hsound⟩ : ∃ n, ofJson raw = .ok n ∧ n.Sound g := by
      by_contra hfault
      exact hT ⟨raw, h, fun n hn hsound => hfault ⟨n, hn, hsound⟩⟩
    obtain ⟨ms, rfl⟩ : ∃ ms, raw = .obj ms := ⟨n.members, (of_ofJson hn).1⟩
    refine .node (Json.inOrder_iff.mpr ⟨n, hn, hsound⟩) fun c hc => ?_
    obtain ⟨step, hpart⟩ := (Json.below_iff hn).mp hc
    have hlt : c.height < height := hheight ▸ Part.height_lt hn hpart
    exact ih c.height hlt (h.part hn hpart) rfl

/-- **A type is without fault if and only if its tree is well shaped.** -/
theorem TypeGraph.not_faulty_iff {T : String} :
    ¬ g.Faulty T ↔ ∀ tree, g.tree? T = some tree → g.WellShaped tree := by
  constructor
  · exact fun hT tree htree => wellShaped_of_not_faulty hT (.root htree)
  · rintro h ⟨raw, hraw, hfault⟩
    cases hraw.wellShaped h with
    | node horder _ =>
      obtain ⟨n, hn, hsound⟩ := Json.inOrder_iff.mp horder
      exact hfault n hn hsound

/-! ### Graphs -/

/-- Where cycles are broken and with levels to spare, all that fails is told by a
malformed node. -/
theorem failure_malformed (ho : o.onCycle = .reference) (hlimit : o.Suffice g) {f : Failure}
    (hf : f ∈ (normalize g o).failures) :
    ∃ l cause, f.error = .malformed l cause ∧ ReflTransGen (References g) f.name l.typeName ∧
      g.Faulty l.typeName := by
  have hdeep := hlimit f hf
  obtain ⟨name, error⟩ := f
  cases failure_blames hf with
  | malformed hpath hfault => exact ⟨_, _, rfl, hpath, hfault⟩
  | cyclic herror _ _ => cases ho.symm.trans herror
  | tooDeep => exact absurd rfl (hdeep _ _)

/-- **Exactly the well-shaped graphs are converted without a failure**, where cycles
are broken and there are levels enough.  A type whose tree is not well shaped fails,
and whatever fails leads to such a type. -/
theorem failures_eq_nil_iff (ho : o.onCycle = .reference) (hlimit : o.Suffice g) :
    ((normalize g o).failures = [] ↔ ∀ T tree, g.tree? T = some tree → g.WellShaped tree) ∧
    (∀ T tree, g.tree? T = some tree → ¬ g.WellShaped tree → T ∈ (normalize g o).failed) ∧
    ∀ f ∈ (normalize g o).failures, ∃ l cause tree, f.error = .malformed l cause ∧
      ReflTransGen (References g) f.name l.typeName ∧
      g.tree? l.typeName = some tree ∧ ¬ g.WellShaped tree := by
  have hfaulty : ∀ T, g.Faulty T ↔ ∃ tree, g.tree? T = some tree ∧ ¬ g.WellShaped tree := by
    intro T
    have h := not_congr (TypeGraph.not_faulty_iff (g := g) (T := T))
    simpa using h
  have hfailure : ∀ f ∈ (normalize g o).failures, ∃ l cause tree, f.error = .malformed l cause ∧
      ReflTransGen (References g) f.name l.typeName ∧
      g.tree? l.typeName = some tree ∧ ¬ g.WellShaped tree := by
    intro f hf
    obtain ⟨l, cause, he, hpath, hfault⟩ := failure_malformed ho hlimit hf
    obtain ⟨tree, htree, hshape⟩ := (hfaulty _).mp hfault
    exact ⟨l, cause, tree, he, hpath, htree, hshape⟩
  have hfailed : ∀ T tree, g.tree? T = some tree → ¬ g.WellShaped tree →
      T ∈ (normalize g o).failed :=
    fun T tree htree hshape => failed_of_faulty ((hfaulty T).mpr ⟨tree, htree, hshape⟩)
  refine ⟨⟨fun hnil T tree htree => ?_, fun h => ?_⟩, hfailed, hfailure⟩
  · by_contra hshape
    simpa [Outcome.failed, hnil] using hfailed T tree htree hshape
  · refine List.eq_nil_iff_forall_not_mem.mpr fun f hf => ?_
    obtain ⟨l, -, tree, -, -, htree, hshape⟩ := hfailure f hf
    exact hshape (h _ tree htree)

/-- Cycles do no harm, and a malformed type on a cycle does. -/
theorem failures_eq_nil_cyclic :
    (∀ T tree, cyclicGraph.tree? T = some tree → cyclicGraph.WellShaped tree) ∧
      ∃ T tree, revivedGraph.tree? T = some tree ∧ ¬ revivedGraph.WellShaped tree := by
  have hcyclic : Options.Suffice {} cyclicGraph := Options.suffice_of_levels (by decide)
  have hrevived : Options.Suffice {} revivedGraph := Options.suffice_of_levels (by decide)
  refine ⟨(failures_eq_nil_iff rfl hcyclic).1.mp rfl, ?_⟩
  by_contra h
  simp only [not_exists, not_and, not_not] at h
  cases (failures_eq_nil_iff rfl hrevived).1.mpr h

end RamlSchema
