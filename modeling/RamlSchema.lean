import RamlSchema.Files.Tree
import RamlSchema.Main
import RamlSchema.Proofs.Command.Effects
import RamlSchema.Proofs.Command.Saving
import RamlSchema.Proofs.Normalize.Arrays
import RamlSchema.Proofs.Normalize.Cycles
import RamlSchema.Proofs.Normalize.Hygiene
import RamlSchema.Proofs.Normalize.Independence
import RamlSchema.Proofs.Normalize.Inheritance
import RamlSchema.Proofs.Normalize.Items
import RamlSchema.Proofs.Normalize.Keywords
import RamlSchema.Proofs.Normalize.Nesting
import RamlSchema.Proofs.Normalize.Paths
import RamlSchema.Proofs.Normalize.Policies
import RamlSchema.Proofs.Normalize.Provenance
import RamlSchema.Proofs.Normalize.Renormalization
import RamlSchema.Proofs.Normalize.Resolution
import RamlSchema.Proofs.Normalize.Roots
import RamlSchema.Proofs.Normalize.Sessions
import RamlSchema.Proofs.Normalize.TopLevel
import RamlSchema.Proofs.Normalize.WellShaped
import RamlSchema.Proofs.Options
import RamlSchema.Proofs.Raml.Naming
import RamlSchema.Proofs.Raml.Reordering
import RamlSchema.Proofs.Raml.Required
import RamlSchema.Proofs.Schema.Composition
import RamlSchema.Proofs.Schema.Serialization
import RamlSchema.Proofs.TypeGraph
