/-
RamlSchema/Proofs/Schema/Composition.lean

Layers put together before they are laid over a schema.

A definition is made layer by layer, and each type on the way keeps what the layers up
to its own come to.  It makes no difference where the first of the layers are put
together: the names of the node that they make are distinct if those of its first layer
are (`Distinct.layers`), and nothing else is needed to lay it over a schema in one go
(`overlay_layers`).

Main result: `overlay_composes`.
-/
import RamlSchema.Proofs.Schema.Layers

namespace RamlSchema.SchemaNode

variable {n : SchemaNode}

/-- Layers do not repeat a name that the node below them does not repeat. -/
theorem Distinct.layers (h : n.Distinct) (sites : List SchemaNode) : (n.layers sites).Distinct := by
  induction sites using List.reverseRecOn with
  | nil => exact h
  | append_singleton sites site ih =>
    rw [layers_append]
    exact ih.overlay

/-- **Layers put together first**, or laid over the schema one by one. -/
theorem overlay_layers (base : SchemaNode) (h : n.Distinct) (sites : List SchemaNode) :
    base.overlay (n.layers sites) = base.layers (n :: sites) := by
  induction sites using List.reverseRecOn with
  | nil => rfl
  | append_singleton sites site ih =>
    rw [layers_append, ← overlay_assoc base site (h.layers sites), ih, ← List.cons_append,
      layers_append]

/-- **Overlay composes.**  Laying a node over a schema and a site over the result gives
the same node as laying the site over the node first, with properties, facets and required
names in the same order; so does any number of sites.  And laying nothing over a schema
leaves it as it is.  No two properties and no two facets of the node in the middle have
one name, as is so of whatever is converted (`upholds_distinct`); names that it requires
may be repeated. -/
theorem overlay_composes (base : SchemaNode) (h : n.Distinct) :
    (∀ site, (base.overlay n).overlay site = base.overlay (n.overlay site)) ∧
      (∀ sites, (base.overlay n).layers sites = base.overlay (n.layers sites)) ∧
      base.overlay {} = base := by
  refine ⟨fun site => overlay_assoc base site h, fun sites => ?_, overlay_empty base⟩
  rw [overlay_layers base h]
  rfl

/-- A schema that requires a name twice. -/
def pet : SchemaNode :=
  { type := some (.single "object"), properties := some [("id", ofType "string")],
    items := some (ofType "string"), required := some ["id", "id"],
    extra := [("title", .str "Pet"), ("default", .null)] }

/-- A node that has no items and requires names twice. -/
def dog : SchemaNode :=
  { properties := some [("tag", ofType "string"), ("id", ofType "integer")],
    required := some ["tag", "tag", "id"], extra := [("pattern", .str "p"), ("title", .str "Dog")] }

/-- A site whose list of properties is empty. -/
def puppy : SchemaNode :=
  { properties := some [], items := some (ofType "integer"), required := some ["name", "id", "tag"],
    extra := [("default", .bool true), ("pattern", .str "q")] }

/-- Both groupings of the three come to one node. -/
theorem overlay_composes_pet :
    dog.Distinct ∧ (pet.overlay dog).overlay puppy = pet.overlay (dog.overlay puppy) ∧
      (pet.overlay dog).layers [puppy, {}]
        = { type := some (.single "object"),
            properties := some [("id", ofType "integer"), ("tag", ofType "string")],
            items := some (ofType "integer"), required := some ["id", "id", "tag", "name"],
            extra := [("title", .str "Dog"), ("default", .bool true), ("pattern", .str "q")] } := by
  have hdistinct : dog.Distinct := ⟨fun ps hps => by cases hps; decide, by decide⟩
  obtain ⟨hsite, hsites, -⟩ := overlay_composes pet hdistinct
  refine ⟨hdistinct, hsite puppy, ?_⟩
  rw [hsites]
  rfl

end RamlSchema.SchemaNode
