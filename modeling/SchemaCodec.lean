import SchemaCodec.Wire.Serializer
import SchemaCodec.Json.Reader
import SchemaCodec.Json.Bridge
import SchemaCodec.Schema.Portable
import SchemaCodec.Syntax.Parsed
import SchemaCodec.Syntax.Outline
import SchemaCodec.Diagnostic.Snippet
import SchemaCodec.Syntax.ModuleText
import SchemaCodec.Expansion.Basic
import SchemaCodec.Hex
import SchemaCodec.Catalog.Basic
import SchemaCodec.Command.Run
import SchemaCodec.Main
import SchemaCodec.Proofs.Groups.Big
import SchemaCodec.Proofs.Groups.Word
import SchemaCodec.Proofs.Members
import SchemaCodec.Proofs.Parts
import SchemaCodec.Proofs.Scalar
import SchemaCodec.Proofs.Wire.Form
import SchemaCodec.Proofs.Wire.Reading
import SchemaCodec.Proofs.Outcome
import SchemaCodec.Proofs.Wire.Parity
import SchemaCodec.Proofs.Canonical
import SchemaCodec.Proofs.Wire.Restoring
import SchemaCodec.Proofs.Wire.RoundTrip
import SchemaCodec.Proofs.Chase
import SchemaCodec.Proofs.Expansion.Progress
import SchemaCodec.Proofs.Json.Bridge
import SchemaCodec.Proofs.Expansion.Graph
import SchemaCodec.Proofs.Groups.Shortest
import SchemaCodec.Proofs.Wire.Locality
import SchemaCodec.Proofs.Wire.Recoding
import SchemaCodec.Proofs.Syntax.Names
import SchemaCodec.Proofs.Expansion.Legible
import SchemaCodec.Proofs.Expansion.Naming
import SchemaCodec.Proofs.Syntax.Phrases
import SchemaCodec.Proofs.Syntax.Trees
import SchemaCodec.Proofs.Syntax.Steps
import SchemaCodec.Proofs.Syntax.Lossless
import SchemaCodec.Proofs.Bisimulation
import SchemaCodec.Proofs.Wire.Interchange
import SchemaCodec.Proofs.Interchange
import SchemaCodec.Proofs.Expansion.Translation
import SchemaCodec.Proofs.Expansion.Unfolding
import SchemaCodec.Proofs.Expansion.Substitution
import SchemaCodec.Proofs.Expansion.Inclusion
import SchemaCodec.Proofs.Expansion.Reordering
import SchemaCodec.Proofs.Expansion.Clashes
import SchemaCodec.Proofs.Json.RoundTrip
import SchemaCodec.Proofs.Json.Agreement
import SchemaCodec.Proofs.Schema.Portable
import SchemaCodec.Proofs.Schema.PortableFile
import SchemaCodec.Proofs.Syntax.Synchronization
import SchemaCodec.Proofs.Wire.Allowance
import SchemaCodec.Proofs.Json.Printing
import SchemaCodec.Proofs.Command.Reencoding
import SchemaCodec.Proofs.Syntax.Coupling
import SchemaCodec.Proofs.Syntax.WithinLimits
import SchemaCodec.Proofs.Syntax.Stripping
import SchemaCodec.Proofs.Syntax.LongestMatch
import SchemaCodec.Proofs.Syntax.Trivia
import SchemaCodec.Proofs.Syntax.Keeping
import SchemaCodec.Proofs.Syntax.Reporting
import SchemaCodec.Proofs.Wire.Writable
import SchemaCodec.Proofs.Expansion.Traversal
import SchemaCodec.Proofs.Expansion.Returning
import SchemaCodec.Proofs.Expansion.Termination
import SchemaCodec.Proofs.Expansion.NameLength
import SchemaCodec.Proofs.Expansion.Aliases
import SchemaCodec.Proofs.Groups.Agreement
import SchemaCodec.Proofs.Diagnostic.Filtering
import SchemaCodec.Proofs.Hex
import SchemaCodec.Proofs.Key
import SchemaCodec.Proofs.Schema.Texts
import SchemaCodec.Proofs.Catalog.DottedNames
