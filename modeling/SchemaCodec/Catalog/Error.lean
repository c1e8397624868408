import SchemaCodec.Expansion.Error
import SchemaCodec.Json.Reader
import SchemaCodec.Syntax.ModuleText

/-!
# Failures of loading

Why sources give no catalog: a source cannot be read, or what was read has no type graph.
-/

namespace SchemaCodec

/-- Why sources give no catalog. -/
inductive CatalogError where
  | text (e : Syntax.TextError)
  | expansion (e : ExpansionError)
  | unreadable (path : String)
  /-- What stands at the path is neither a directory nor named as a schema file. -/
  | unsupported (path : String)
  | notPortable

/-- The text shown for a failure. What stands behind the colon for a text in no portable form are
words of the reader of JSON texts, as `Json.refusal` says. -/
def CatalogError.message : CatalogError → String
  | text e => e.message
  | expansion e => e.message
  | unreadable path => "failed to read " ++ path
  | unsupported path =>
    "unsupported schema source `" ++ path ++ "`: expected a `.sbs` file or a directory"
  | notPortable => "invalid portable schema: " ++ Json.refusal

end SchemaCodec
