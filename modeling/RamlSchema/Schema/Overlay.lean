/-
RamlSchema/Schema/Overlay.lean

Laying the keywords of a referring site over the schema that it refers to.

The four kinds of keyword follow four rules.  A facet of the site replaces the
one of its name, where that stands.  The site's `items` replace the others
whole.  Its properties replace those of their names and come last where they
are new.  Its required names are appended where they are new.  `$schema`,
`$ref` and `type` are never the site's.
-/
import RamlSchema.Names
import RamlSchema.Schema.Basic

namespace RamlSchema.SchemaNode

/-- Properties with those of a site written over them. -/
def overlayProperties (base site : Option (List (String × SchemaNode))) :
    Option (List (String × SchemaNode)) :=
  match site with
  | none => base
  | some ps => some (Members.insertMany (base.getD []) ps)

/-- Required names with those of a site appended. -/
def overlayRequired (base site : Option (List String)) : Option (List String) :=
  match site with
  | none => base
  | some names => some (Names.addAll (base.getD []) names)

/-- The node with the keywords of `site` laid over its own. -/
def overlay (base site : SchemaNode) : SchemaNode :=
  { base with
    extra := Members.insertMany base.extra site.extra
    items := site.items <|> base.items
    properties := overlayProperties base.properties site.properties
    required := overlayRequired base.required site.required }

/-- Laying nothing over a node changes nothing. -/
theorem overlay_empty (base : SchemaNode) : base.overlay {} = base := by
  cases base
  simp [overlay, overlayProperties, overlayRequired, Members.insertMany]

end RamlSchema.SchemaNode
