/-!
# Keys of types

A declared type is identified by its module and its name within it. A key without a module names
a builtin type or, inside a module, something declared there.
-/

namespace SchemaCodec

/-- The identity of a type: an optional module and a local name. -/
structure Key where
  module : Option String
  name : String
deriving DecidableEq, Repr, Inhabited

namespace Key

/-- A key without a module. -/
def builtin (name : String) : Key := ⟨none, name⟩

def qualified (module name : String) : Key := ⟨some module, name⟩

/-- The dotted form: the module, if any, a dot and the name. -/
def text (key : Key) : String :=
  match key.module with
  | some module => module ++ "." ++ key.name
  | none => key.name

/-- Splits characters at the first dot. -/
def splitAtDot : List Char → Option (List Char × List Char)
  | [] => none
  | c :: rest => if c = '.' then some ([], rest) else (splitAtDot rest).map fun (m, n) ↦ (c :: m, n)

/-- Reads the dotted form. Only the first dot separates, so a name may hold further dots. -/
def ofText (dotted : String) : Key :=
  match splitAtDot dotted.toList with
  | some (module, name) => qualified (String.ofList module) (String.ofList name)
  | none => builtin dotted

end Key

end SchemaCodec
