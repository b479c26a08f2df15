/-
RamlSchema/Proofs/Schema/Encoding.lean

Schemas written out.

Written out, a node is its keywords in a fixed order and then its facets.  No key
comes twice if no facet bears the name of a keyword, and neither two facets nor two
properties bear one name; such a node is writable.

Main results: `wellFormed_written`, by which no object in the text of a tree of
writable nodes repeats a key, and `toJson_eq_written`, by which the text and the
JSON value of such a tree are the same.
-/
import RamlSchema.Proofs.Normalize.References
import RamlSchema.Proofs.Schema.Everywhere
import RamlSchema.Proofs.Schema.Overlay

namespace RamlSchema

namespace SchemaNode

/-- A node in which no key comes twice. -/
structure Writable (n : SchemaNode) : Prop where
  distinct : n.Distinct
  facets : ∀ k ∈ Members.keys n.extra, k ∉ NodeShape.keywords

/-- The keywords of a node as they are written. -/
def keywordMembers (collapse : List (String × Json) → List (String × Json)) (n : SchemaNode) :
    Members Json :=
  keyword "$schema" (n.schema.map .str)
    ++ keyword "$ref" (n.reference.map .str)
    ++ keyword "type" (n.type.map SchemaType.toJson)
    ++ keyword "properties" (encodeProperties collapse n.properties)
    ++ keyword "items" (encodeItems collapse n.items)
    ++ keyword "required" (n.required.map fun names => .arr (names.map .str))

variable {collapse : List (String × Json) → List (String × Json)} {n c : SchemaNode}

theorem encode_eq (n : SchemaNode) :
    n.encode collapse = .obj (collapse (n.keywordMembers collapse ++ n.extra)) := by
  cases n
  rfl

theorem encodeMembers_eq (ps : List (String × SchemaNode)) :
    encodeMembers collapse ps = ps.map fun p => (p.1, p.2.encode collapse) := by
  induction ps with
  | nil => rfl
  | cons p ps ih =>
    rw [encodeMembers, ih]
    rfl

theorem encodeProperties_eq (ps : Option (List (String × SchemaNode))) :
    encodeProperties collapse ps
      = ps.map fun ps => .obj (ps.map fun p => (p.1, p.2.encode collapse)) := by
  rcases ps with - | ps
  · rfl
  · rw [encodeProperties, encodeMembers_eq]
    rfl

theorem encodeItems_eq (items : Option SchemaNode) :
    encodeItems collapse items = items.map (encode collapse) := by
  cases items <;> rfl

/-! ### Values of keywords -/

theorem forall_mem_keyword {P : Json → Prop} {name : String} {value : Option Json}
    (h : ∀ v, value = some v → P v) : ∀ m ∈ keyword name value, P m.2 := by
  intro m hm
  rcases value with - | v
  · exact nomatch hm
  · rw [List.mem_singleton.mp hm]
    exact h v rfl

/-- What holds of texts, of lists of texts, and of the encodings of the nodes right below
holds of the values of all keywords. -/
theorem forall_mem_keywordMembers {P : Json → Prop} (htext : ∀ s, P (.str s))
    (hnames : ∀ names : List String, P (.arr (names.map .str)))
    (hproperties : ∀ ps, n.properties = some ps →
      P (.obj (ps.map fun p => (p.1, p.2.encode collapse))))
    (hitems : ∀ c, n.items = some c → P (c.encode collapse)) :
    ∀ m ∈ n.keywordMembers collapse, P m.2 := by
  have htype : ∀ t : SchemaType, P t.toJson := by
    rintro (name | members)
    · exact htext name
    · exact hnames members
  -- each keyword is encoded from a part of the node
  have hmapped : ∀ {α : Type} {part : Option α} {f : α → Json} (name : String),
      (∀ a, part = some a → P (f a)) → ∀ m ∈ keyword name (part.map f), P m.2 := by
    intro α part f name h
    apply forall_mem_keyword
    intro v hv
    obtain ⟨a, ha, rfl⟩ := Option.map_eq_some_iff.mp hv
    exact h a ha
  intro m hm
  rw [keywordMembers, encodeProperties_eq, encodeItems_eq] at hm
  simp only [List.mem_append, or_assoc] at hm
  rcases hm with hm | hm | hm | hm | hm | hm
  · exact hmapped _ (fun s _ => htext s) m hm
  · exact hmapped _ (fun s _ => htext s) m hm
  · exact hmapped _ (fun t _ => htype t) m hm
  · exact hmapped _ hproperties m hm
  · exact hmapped _ hitems m hm
  · exact hmapped _ (fun names _ => hnames names) m hm

/-! ### Keys -/

theorem keys_keyword_sublist (name : String) (value : Option Json) :
    (Members.keys (keyword name value)).Sublist [name] := by
  cases value
  · exact List.nil_sublist _
  · exact List.Sublist.refl _

/-- The keywords come in a fixed order. -/
theorem keys_keywordMembers_sublist (n : SchemaNode) :
    (Members.keys (n.keywordMembers collapse)).Sublist
      ["$schema", "$ref", "type", "properties", "items", "required"] := by
  simp only [keywordMembers, Members.keys_append]
  have h := fun name value => keys_keyword_sublist name value
  exact (((((h _ _).append (h _ _)).append (h _ _)).append (h _ _)).append (h _ _)).append (h _ _)

theorem mem_keywords_of_mem {k : String} (h : k ∈ Members.keys (n.keywordMembers collapse)) :
    k ∈ NodeShape.keywords := by
  have hk := (keys_keywordMembers_sublist n).subset h
  simp only [NodeShape.keywords, List.mem_cons] at hk ⊢
  tauto

theorem Writable.nodup_keys (h : n.Writable) :
    (Members.keys (n.keywordMembers collapse ++ n.extra)).Nodup := by
  rw [Members.keys_append, List.nodup_append]
  refine ⟨(keys_keywordMembers_sublist n).nodup (by decide), h.distinct.extra, ?_⟩
  rintro k hk _ hextra rfl
  exact h.facets k hextra (mem_keywords_of_mem hk)

/-! ### Text and value -/

/-- Where keys are distinct, what is done about keys that are not does not matter. -/
theorem encode_eq_written (hcollapse : ∀ ms, (Members.keys ms).Nodup → collapse ms = ms)
    (h : n.Everywhere Writable) : n.encode collapse = n.written := by
  induction h with
  | @intro n hn _ ih =>
    have hitems : encodeItems collapse n.items = encodeItems id n.items := by
      rw [encodeItems_eq, encodeItems_eq]
      rcases hc : n.items with - | c
      · rfl
      · exact congrArg some (ih c (.items hc))
    have hproperties : encodeProperties collapse n.properties
        = encodeProperties id n.properties := by
      rw [encodeProperties_eq, encodeProperties_eq]
      rcases hps : n.properties with - | ps
      · rfl
      · apply congrArg fun ms => some (Json.obj ms)
        apply List.map_congr_left
        intro p hp
        exact congrArg (Prod.mk p.1) (ih p.2 (.property hps hp))
    have hkeywords : n.keywordMembers collapse = n.keywordMembers id := by
      rw [keywordMembers, hitems, hproperties]
      rfl
    rw [written, encode_eq, encode_eq, hcollapse _ hn.nodup_keys, hkeywords]
    rfl

/-- **The JSON value of writable nodes is what is written.** -/
theorem toJson_eq_written (h : n.Everywhere Writable) : n.toJson = n.written :=
  encode_eq_written (fun _ => Members.ofList_of_nodup) h

theorem wellFormed_names (names : List String) : (Json.arr (names.map .str)).WellFormed :=
  Json.wellFormedItems_iff.mpr (List.forall_mem_map.mpr fun _ _ => trivial)

theorem wellFormed_type (t : SchemaType) : t.toJson.WellFormed := by
  cases t with
  | single name => trivial
  | union members => exact wellFormed_names members

/-- **No object in the text repeats a key**, unless one in the value of a facet does. -/
theorem wellFormed_written
    (h : n.Everywhere fun n => n.Writable ∧ ∀ m ∈ n.extra, m.2.WellFormed) :
    n.written.WellFormed := by
  induction h with
  | @intro n hn _ ih =>
    obtain ⟨hwritable, hextra⟩ := hn
    rw [written, encode_eq]
    refine ⟨hwritable.nodup_keys, ?_⟩
    show Json.WellFormedMembers (n.keywordMembers id ++ n.extra)
    rw [Json.wellFormedMembers_iff]
    intro m hm
    rcases List.mem_append.mp hm with hm | hm
    · refine forall_mem_keywordMembers (fun _ => trivial) wellFormed_names ?_ ?_ m hm
      · -- properties have the names they have in the node
        intro ps hps
        have hkeys := hwritable.distinct.properties ps hps
        refine ⟨by rwa [Members.keys, List.map_map], Json.wellFormedMembers_iff.mpr ?_⟩
        intro m hm
        obtain ⟨p, hp, rfl⟩ := List.mem_map.mp hm
        exact ih p.2 (.property hps hp)
      · exact fun c hc => ih c (.items hc)
    · exact hextra m hm

end SchemaNode

end RamlSchema
