/-
RamlSchema/Proofs/Schema/Serialization.lean

The text of a schema, read back.

A node has two encodings.  Written out, its facets stand behind its keywords, and a
facet may repeat the name of a keyword; as a JSON value, the facet takes the keyword's
place.  A reader gives a repeated key its first place and its last value, and so reads
the one as the other.  Properties have distinct names, and the facets are JSON values
without repeated keys: in a node these are maps.

Main result: `read_text`.
-/
import RamlSchema.Proofs.Json.Reading
import RamlSchema.Proofs.Schema.Encoding

namespace RamlSchema.SchemaNode

/-- A node whose properties and facets are maps, and whose facets have integers for
numbers. -/
structure Serializable (n : SchemaNode) : Prop where
  distinct : n.Distinct
  wellFormed : ∀ m ∈ n.extra, m.2.WellFormed
  integral : ∀ m ∈ n.extra, m.2.Integral

variable {n : SchemaNode}

/-! ### Collapsing what is written -/

theorem map_collapse_keyword (name : String) (value : Option Json) :
    (keyword name value).map (fun m => (m.1, m.2.collapse))
      = keyword name (value.map Json.collapse) := by
  cases value <;> rfl

theorem collapse_encodeItems (h : ∀ c, n.Child c → c.written.collapse = c.toJson) :
    (encodeItems id n.items).map Json.collapse = encodeItems Members.ofList n.items := by
  rw [encodeItems_eq, encodeItems_eq]
  rcases hc : n.items with - | c
  · rfl
  · exact congrArg some (h c (.items hc))

theorem collapse_encodeProperties (hdistinct : n.Distinct)
    (h : ∀ c, n.Child c → c.written.collapse = c.toJson) :
    (encodeProperties id n.properties).map Json.collapse
      = encodeProperties Members.ofList n.properties := by
  rw [encodeProperties_eq, encodeProperties_eq]
  rcases hps : n.properties with - | ps
  · rfl
  · have hmap : (ps.map fun p => (p.1, p.2.encode id)).map (fun m => (m.1, m.2.collapse))
        = ps.map fun p => (p.1, p.2.encode Members.ofList) := by
      rw [List.map_map]
      apply List.map_congr_left
      intro p hp
      exact congrArg (Prod.mk p.1) (h p.2 (.property hps hp))
    have hkeys : (Members.keys (ps.map fun p => (p.1, p.2.encode Members.ofList))).Nodup := by
      rw [Members.keys, List.map_map]
      exact hdistinct.properties ps hps
    rw [Option.map_some, Option.map_some, Option.map_some, Json.collapse,
      Json.collapseMembers_eq, hmap, Members.ofList_of_nodup hkeys]

/-- **What is written collapses to the JSON value**, the facets taking the places of the
keywords that they repeat. -/
theorem collapse_written (h : n.Everywhere Serializable) : n.written.collapse = n.toJson := by
  induction h with
  | @intro n hn _ ih =>
    have htext : ∀ s, (Json.str s).collapse = .str s := fun _ => rfl
    have hnames : ∀ names : List String,
        (Json.arr (names.map .str)).collapse = .arr (names.map .str) :=
      fun names => Json.collapse_of_wellFormed _ (wellFormed_names names)
    have htype : ∀ t : SchemaType, t.toJson.collapse = t.toJson :=
      fun t => Json.collapse_of_wellFormed _ (wellFormed_type t)
    have hkeywords : (n.keywordMembers id).map (fun m => (m.1, m.2.collapse))
        = n.keywordMembers Members.ofList := by
      simp only [keywordMembers, List.map_append, map_collapse_keyword, collapse_encodeItems ih,
        collapse_encodeProperties hn.distinct ih, Option.map_map, Function.comp_def, htext, htype,
        hnames]
    have hextra : n.extra.map (fun m => (m.1, m.2.collapse)) = n.extra := by
      rw [← Json.collapseMembers_eq]
      exact Json.collapseMembers_of_wellFormed _ (Json.wellFormedMembers_iff.mpr hn.wellFormed)
    rw [written, toJson, encode_eq, encode_eq, Json.collapse, Json.collapseMembers_eq, id,
      List.map_append, hkeywords, hextra]

theorem integral_names (names : List String) : (Json.arr (names.map .str)).Integral :=
  Json.integralItems_iff.mpr (List.forall_mem_map.mpr fun _ _ => trivial)

/-- The keywords bring no numbers along. -/
theorem integral_written (h : n.Everywhere Serializable) : n.written.Integral := by
  induction h with
  | @intro n hn _ ih =>
    rw [written, encode_eq]
    show Json.IntegralMembers (n.keywordMembers id ++ n.extra)
    rw [Json.integralMembers_iff]
    intro m hm
    rcases List.mem_append.mp hm with hm | hm
    · refine forall_mem_keywordMembers (fun _ => trivial) integral_names ?_ ?_ m hm
      · intro ps hps
        apply Json.integralMembers_iff.mpr
        intro m hm
        obtain ⟨p, hp, rfl⟩ := List.mem_map.mp hm
        exact ih p.2 (.property hps hp)
      · exact fun c hc => ih c (.items hc)
    · exact hn.integral m hm

/-! ### Reading -/

/-- **The text of a node is read as its JSON value**, the order of keys included, on one
line as well as spread out. -/
theorem read_text (h : n.Everywhere Serializable) (hdepth : n.written.depth ≤ Json.nestingLimit) :
    Json.read n.text = .ok n.toJson ∧ Json.read n.prettyText = .ok n.toJson := by
  have hread : ∀ t, Json.Spells n.written t → Json.read (String.ofList t) = .ok n.toJson := by
    intro t ht
    have hread := Json.read_of_spells ht Json.blanks_nil Json.blanks_nil hdepth
      (integral_written h)
    rwa [List.nil_append, List.append_nil, collapse_written h] at hread
  exact ⟨hread _ (Json.spells_render _), hread _ (Json.spells_renderPretty 0 _)⟩

/-- An array with a facet that repeats a keyword. -/
def overriddenItems : SchemaNode :=
  { type := some (.single "array")
    items := some (ofType "string")
    extra := [("items", .obj [("a\n\"b\"", .num (.whole (-5)))])] }

/-- An object with such a property, and facets that repeat keywords it has and keywords it
has not. -/
def overriddenNode : SchemaNode :=
  { type := some (.union ["object", "null"])
    properties := some [("tags", overriddenItems)]
    required := some ["tags"]
    extra := [("title", .str "Tags"), ("$ref", .null), ("type", .arr [.obj [], .bool true])] }

/-- The facets are read in the places of the keywords, or behind them. -/
theorem read_text_overridden :
    overriddenNode.Everywhere Serializable ∧ overriddenNode.written.depth ≤ Json.nestingLimit ∧
      Json.read overriddenNode.text = .ok overriddenNode.toJson ∧
      Json.read overriddenNode.prettyText = .ok overriddenNode.toJson ∧
      overriddenNode.toJson = .obj
        [("type", .arr [.obj [], .bool true]),
          ("properties", .obj [("tags", .obj
            [("type", .str "array"), ("items", .obj [("a\n\"b\"", .num (.whole (-5)))])])]),
          ("required", .arr [.str "tags"]), ("title", .str "Tags"), ("$ref", .null)] := by
  have hstring : (ofType "string").Everywhere Serializable :=
    everywhere_ofType ⟨⟨nofun, List.nodup_nil⟩, nofun, nofun⟩
  have hitems : overriddenItems.Everywhere Serializable := by
    refine .intro ⟨⟨nofun, by decide⟩, ?_, ?_⟩ ?_
    · simp [overriddenItems, Json.WellFormed, Json.WellFormedMembers, Members.keys]
    · simp [overriddenItems, Json.Integral, Json.IntegralMembers]
    · rintro c (hc | ⟨hps, -⟩)
      · obtain rfl : ofType "string" = c := Option.some.inj hc
        exact hstring
      · cases hps
  have hnode : overriddenNode.Everywhere Serializable := by
    refine .intro ⟨⟨by rintro _ ⟨⟩; decide, by decide⟩, ?_, ?_⟩ ?_
    · simp [overriddenNode, Json.WellFormed, Json.WellFormedItems, Json.WellFormedMembers,
        Members.keys]
    · simp [overriddenNode, Json.Integral, Json.IntegralItems, Json.IntegralMembers]
    · rintro c (hc | ⟨hps, hc⟩)
      · cases hc
      · obtain rfl := Option.some.inj hps
        obtain rfl : c = overriddenItems := congrArg Prod.snd (List.mem_singleton.mp hc)
        exact hitems
  have hdepth : overriddenNode.written.depth ≤ Json.nestingLimit := by decide
  exact ⟨hnode, hdepth, (read_text hnode hdepth).1, (read_text hnode hdepth).2, rfl⟩

end RamlSchema.SchemaNode
