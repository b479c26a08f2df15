/-
RamlSchema/Proofs/Normalize/Rereading.lean

A schema, read as a declaration.

What a conversion has written can be declared again.  A node is legible if its type,
when it has one, names itself, and nothing in it is dropped on reading; the shape of
such a node is told from the node (`ofJson_written`).  Its parts are the nodes right
below it, its required names and its facets are kept, and no property is flagged.
Only the type can change: properties without a type are given the type `object`, and
under any other type they are not allowed.

Main results: `ofJson_written`, `assemble_shape` and `sound_shape_iff`.
-/
import RamlSchema.Proofs.Normalize.Hygiene
import RamlSchema.Proofs.Normalize.WellShaped

namespace RamlSchema

open SchemaNode

/-- A name that is an expression for itself. -/
structure TypeExpr.Plain (name : String) : Prop where
  trimmed : NodeShape.nonblank name = .ok name
  named : TypeExpr.parse? name = some (.named name)

namespace SchemaNode

/-- The members of a node as they are written. -/
def members (n : SchemaNode) : Members Json :=
  n.keywordMembers id ++ n.extra

/-- The nodes right below a node, in the order in which they are read. -/
def parts (n : SchemaNode) : List (Step × SchemaNode) :=
  n.items.toList.map (fun c => (.items, c))
    ++ (n.properties.getD []).map fun p => (.property p.1, p.2)

/-- The shape of a node that is read again. -/
def shape (n : SchemaNode) : NodeShape where
  members := n.members
  properties := n.properties.map fun ps => ps.map fun p => (p.1, p.2.written)
  type := (n.typeName?.or (n.properties.map fun _ => "object")).map .named

/-- A node that can be read again. -/
structure Legible (n : SchemaNode) : Prop where
  writable : n.Writable
  hygienic : n.Hygienic
  plain : ∀ t, n.type = some t → ∃ name, t = .single name ∧ TypeExpr.Plain name

variable {n c : SchemaNode} {k : String}

theorem written_eq (n : SchemaNode) : n.written = .obj n.members :=
  encode_eq n

/-! ### What is found under a keyword -/

theorem get?_keyword (name : String) (value : Option Json) (k : String) :
    Members.get? (keyword name value) k = if name = k then value else none := by
  rcases value with - | v
  · simp [keyword, Members.get?]
  · rfl

/-- No facet stands in the way of a keyword. -/
theorem Writable.get?_members (h : n.Writable) (hk : k ∈ NodeShape.keywords) :
    n.members.get? k = (n.keywordMembers id).get? k := by
  have hextra : Members.get? n.extra k = none :=
    Members.get?_eq_none_iff.mpr fun hmem => h.facets k hmem hk
  rw [members, Members.get?_append, hextra, Option.or_none]

theorem Writable.get?_type (h : n.Writable) :
    n.members.get? "type" = n.type.map SchemaType.toJson := by
  rw [h.get?_members (by decide)]
  simp [keywordMembers, Members.get?_append, get?_keyword]

theorem Writable.get?_properties (h : n.Writable) :
    n.members.get? "properties"
      = n.properties.map fun ps => .obj (ps.map fun p => (p.1, p.2.written)) := by
  rw [h.get?_members (by decide)]
  simp [keywordMembers, Members.get?_append, get?_keyword, encodeProperties_eq, written]

theorem Writable.get?_items (h : n.Writable) :
    n.members.get? "items" = n.items.map written := by
  rw [h.get?_members (by decide)]
  simp [keywordMembers, Members.get?_append, get?_keyword, encodeItems_eq]
  rfl

theorem Writable.get?_required (h : n.Writable) :
    n.members.get? "required" = n.required.map fun names => .arr (names.map .str) := by
  rw [h.get?_members (by decide)]
  simp [keywordMembers, Members.get?_append, get?_keyword]

theorem Writable.get?_reference (h : n.Writable) :
    n.members.get? "$ref" = n.reference.map .str := by
  rw [h.get?_members (by decide)]
  simp [keywordMembers, Members.get?_append, get?_keyword]

/-! ### The shape -/

theorem Legible.typeText_eq (h : n.Legible) :
    NodeShape.typeText (n.members.get? "type") = .ok n.typeName? := by
  rw [h.writable.get?_type, typeName?]
  rcases ht : n.type with - | t
  · rfl
  · obtain ⟨name, rfl, hplain⟩ := h.plain t ht
    show (NodeShape.nonblank name).map some = .ok (some name)
    rw [hplain.trimmed]
    rfl

/-- The name of the type, if a node has one, is an expression for itself. -/
theorem Legible.plain_typeName (h : n.Legible) {name : String} (hname : n.typeName? = some name) :
    TypeExpr.Plain name := by
  obtain ⟨t, ht, hsingle⟩ := Option.bind_eq_some_iff.mp hname
  obtain ⟨name', rfl, hplain⟩ := h.plain t ht
  obtain rfl : name' = name := Option.some.inj hsingle
  exact hplain

theorem Legible.type_eq (h : n.Legible) : n.type = n.typeName?.map .single := by
  rcases ht : n.type with - | t
  · rw [typeName?, ht]
    rfl
  · obtain ⟨name, rfl, -⟩ := h.plain t ht
    rw [typeName?, ht]
    rfl

/-- **A legible node is read as what it says.** -/
theorem ofJson_written (h : n.Legible) : NodeShape.ofJson n.written = .ok n.shape := by
  have hproperties : NodeShape.propertiesOf (n.members.get? "properties")
      = .ok n.shape.properties := by
    rw [h.writable.get?_properties, shape]
    rcases n.properties with - | ps <;> rfl
  rw [written_eq, NodeShape.ofJson_eq_ok_iff]
  refine ⟨rfl, hproperties, n.typeName?.map .named, ?_, ?_⟩
  · rcases hname : n.typeName? with - | name
    · exact NodeShape.writesType_none_iff.mpr (h.typeText_eq.trans (by rw [hname]))
    · refine NodeShape.writesType_some_iff.mpr ⟨name, h.typeText_eq.trans (by rw [hname]), ?_⟩
      exact NodeShape.typeOf_eq_ok_iff.mpr (h.plain_typeName hname).named
  · rw [shape]
    rcases n.typeName? with - | name <;> rcases n.properties with - | ps <;> rfl

theorem Legible.shape_eq (h : n.Legible) {s : NodeShape}
    (hs : NodeShape.ofJson n.written = .ok s) : s = n.shape :=
  Except.ok.inj (hs.symm.trans (ofJson_written h))

/-! ### What the shape gives -/

theorem typeName?_shape (n : SchemaNode) :
    n.shape.typeName? = n.typeName?.or (n.properties.map fun _ => "object") := by
  rw [NodeShape.typeName?, NodeShape.schemaType, shape]
  rcases n.typeName?.or (n.properties.map fun _ => "object") with - | name <;> rfl

theorem schemaType_shape (n : SchemaNode) : n.shape.schemaType = n.shape.typeName?.map .single := by
  rw [typeName?_shape, NodeShape.schemaType, shape, Option.map_map]
  rfl

theorem facets_shape (h : n.Hygienic) : n.shape.facets = n.extra := by
  have hkeywords : (n.keywordMembers id).filter
      (fun m => m.1 ∉ NodeShape.authoringKeys ∧ m.1 ∉ NodeShape.keywords) = [] := by
    rw [List.filter_eq_nil_iff]
    intro m hm hkept
    exact (of_decide_eq_true hkept).2 (mem_keywords_of_mem (List.mem_map_of_mem hm))
  have hextra : n.extra.filter
      (fun m => m.1 ∉ NodeShape.authoringKeys ∧ m.1 ∉ NodeShape.keywords) = n.extra := by
    rw [List.filter_eq_self]
    exact fun m hm => decide_eq_true (h.facets m.1 (List.mem_map_of_mem hm))
  rw [NodeShape.facets, shape, members, List.filter_append, hkeywords, hextra, List.nil_append]

theorem reference?_shape (h : n.Writable) : n.shape.reference? = n.reference := by
  rw [NodeShape.reference?, shape, h.get?_reference]
  rcases n.reference with - | r <;> rfl

theorem items?_shape (h : n.Writable) : n.shape.items? = n.items.map written := by
  rw [NodeShape.items?, shape, h.get?_items]
  rcases n.items with - | c
  · rfl
  · rw [Option.map_some, written_eq]

theorem namesOf_strings (names : List String) :
    NodeShape.namesOf (names.map .str) = .ok names := by
  induction names with
  | nil => rfl
  | cons name names ih =>
    rw [List.map_cons, NodeShape.namesOf, ih]
    rfl

theorem listed_shape (h : n.Writable) :
    NodeShape.listed (n.shape.members.get? "required") = .ok (n.required.getD []) := by
  rw [shape, h.get?_required]
  rcases n.required with - | names
  · rfl
  · exact namesOf_strings names

/-- A node that is written is not flagged: its required names are a list. -/
theorem not_isFlagged_written (h : n.Writable) : NodeShape.isFlagged n.written = false := by
  have hnone : (n.members.get? "required").bind Json.bool? = none := by
    rw [h.get?_required]
    rcases n.required with - | names <;> rfl
  rw [NodeShape.isFlagged, written_eq]
  show decide ((n.members.get? "required").bind Json.bool? = some true) = false
  rw [hnone]
  rfl

theorem flagged_written {ps : List (String × SchemaNode)} (h : ∀ p ∈ ps, p.2.Writable) :
    NodeShape.flagged (ps.map fun p => (p.1, p.2.written)) = [] := by
  rw [NodeShape.flagged, List.filter_eq_nil_iff.mpr]
  · rfl
  · intro m hm
    obtain ⟨p, hp, rfl⟩ := List.mem_map.mp hm
    simpa using not_isFlagged_written (h p hp)

theorem requiredNames_shape (h : n.Writable) (hchild : ∀ c, n.Child c → c.Writable) :
    n.shape.requiredNames = n.required.getD [] := by
  have hflagged : NodeShape.flagged (n.shape.properties.getD []) = [] := by
    rw [shape]
    rcases hps : n.properties with - | ps
    · rfl
    · exact flagged_written fun p hp => hchild p.2 (.property hps hp)
  simp only [NodeShape.requiredNames, listed_shape h, hflagged]
  rfl

/-- The parts of a node that is read again are the nodes right below it. -/
theorem parts_shape (h : n.Writable) :
    n.shape.parts = n.parts.map fun p => (p.1, .node p.2.written) := by
  have hitem : n.shape.itemPart? = n.items.map fun c => .node c.written := by
    have harray : ∀ e, n.shape.type ≠ some (.arrayOf e) := by
      intro e he
      rw [shape] at he
      rcases hname : n.typeName?.or (n.properties.map fun _ => "object") with - | name <;>
        simp [hname] at he
    unfold NodeShape.itemPart?
    split
    · exact absurd ‹_› (harray _)
    · rw [items?_shape h]
      rcases n.items with - | c
      · rfl
      · simp only [Option.map_some, written_eq]
  rw [NodeShape.parts, NodeShape.itemParts, NodeShape.propertyParts, hitem, parts,
    List.map_append, shape]
  congr 1
  · rcases n.items with - | c <;> rfl
  · rcases n.properties with - | ps
    · rfl
    · simp [Function.comp_def]

theorem child_of_mem_parts {step : Step} {c : SchemaNode} (hc : (step, c) ∈ n.parts) :
    n.Child c := by
  rcases List.mem_append.mp hc with hc | hc
  · obtain ⟨d, hd, heq⟩ := List.mem_map.mp hc
    cases heq
    exact .items (Option.mem_toList.mp hd)
  · obtain ⟨p, hp, heq⟩ := List.mem_map.mp hc
    cases heq
    rcases hps : n.properties with - | ps
    · simp [hps] at hp
    · rw [hps] at hp
      exact .property hps hp

theorem Writable.child_of_mem_shape (h : n.Writable) {step : Step} {part : Part}
    (hpart : (step, part) ∈ n.shape.parts) : ∃ c, n.Child c ∧ part = .node c.written := by
  rw [parts_shape h] at hpart
  obtain ⟨⟨step, c⟩, hc, heq⟩ := List.mem_map.mp hpart
  cases heq
  exact ⟨c, child_of_mem_parts hc, rfl⟩

/-! ### Put together again -/

theorem fill_parts (n m : SchemaNode) (h : m.properties.isSome = n.properties.isSome) :
    m.fill n.parts = { m with properties := n.properties, items := n.items } := by
  have hproperties : propertiesIn n.parts = n.properties.getD [] := by
    rw [parts]
    rcases n.items with - | c <;> simp
  have hitems : itemsIn n.parts = n.items := by
    rw [parts]
    rcases n.items with - | c <;> simp
  rw [fill, hproperties, hitems]
  congr 1
  rcases hn : n.properties with - | ps <;> rcases hm : m.properties with - | qs <;> simp_all

/-- **With the nodes below it, a node is put together as it was**, less its dialect, but
with the type that it is read with. -/
theorem assemble_shape (h : n.Legible) (hchild : ∀ c, n.Child c → c.Writable) :
    n.shape.assemble n.parts = { n with schema := none, type := n.shape.schemaType } := by
  have hrequired : (if n.shape.requiredNames.isEmpty then none else some n.shape.requiredNames)
      = n.required := by
    rw [requiredNames_shape h.writable hchild]
    rcases hn : n.required with - | (- | ⟨name, names⟩)
    · rfl
    · exact absurd hn h.hygienic.required
    · rfl
  have hsome : n.shape.frame.properties.isSome = n.properties.isSome := by
    rw [NodeShape.frame, shape]
    rcases n.properties with - | ps <;> rfl
  rw [NodeShape.assemble, fill_parts n _ hsome]
  simp only [NodeShape.frame, reference?_shape h.writable, facets_shape h.hygienic, hrequired]

/-- A node that is read again passes its checks if its properties stand on an object. -/
theorem sound_shape_iff {g : TypeGraph} (h : n.Legible) :
    n.shape.Sound g ↔ ∀ ps, n.properties = some ps → ps ≠ [] →
      mayHaveProperties g n.shape.schemaType = true := by
  have hrequired : n.shape.checkRequired = .ok () := by
    rw [NodeShape.checkRequired, listed_shape h.writable]
    rfl
  have hitems : n.shape.checkItems = .ok () := by
    unfold NodeShape.checkItems
    split
    · rfl
    · rw [items?_shape h.writable]
      rcases n.items with - | c
      · rfl
      · rw [Option.map_some, written_eq]
  have hproperties : n.shape.checkProperties g = .ok () ↔
      ∀ ps, n.properties = some ps → ps ≠ [] →
        mayHaveProperties g n.shape.schemaType = true := by
    have hps : (n.shape.properties.getD []).isEmpty = (n.properties.getD []).isEmpty := by
      rw [shape]
      rcases n.properties with - | (- | ⟨p, ps⟩) <;> rfl
    rw [NodeShape.checkProperties, hps]
    rcases hn : n.properties with - | (- | ⟨p, ps⟩) <;>
      cases mayHaveProperties g n.shape.schemaType <;> simp
  exact ⟨fun hsound => hproperties.mp hsound.properties,
    fun hall => ⟨hitems, hrequired, hproperties.mpr hall⟩⟩

end SchemaNode

end RamlSchema
