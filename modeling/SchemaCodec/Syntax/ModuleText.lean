import SchemaCodec.Diagnostic.Snippet
import SchemaCodec.Syntax.Outline
import SchemaCodec.Syntax.Parsed

/-!
# Modules from texts

A text is read as a module when its parse stays within the limits and reports nothing. Otherwise the
failure keeps the text and the diagnostics that explain the others, so that it can be shown later.
-/

namespace SchemaCodec.Syntax

/-- Why a text is not a module. -/
inductive TextError where
  | excess (e : Excess)
  /-- The text has errors; `origin` names it. -/
  | invalid (origin text : String) (diagnostics : List Diagnostic)

namespace TextError

def message : TextError → String
  | excess e => e.message
  | invalid origin _ diagnostics =>
    "failed to parse schema " ++ origin ++ ": " ++ toString diagnostics.length ++ " errors"

end TextError

def readModule (limits : Limits) (origin source : String) : Except TextError Module :=
  match Parsed.ofText limits source with
  | .error excess => .error (.excess excess)
  | .ok parsed =>
    if parsed.hasErrors then
      .error (.invalid origin source (Diagnostic.filtered parsed.diagnostics))
    else .ok parsed.tree.outline.module

end SchemaCodec.Syntax
