import SchemaCodec.Key

/-!
# Failures of expansion

Why modules have no type graph. Each failure names the place in the schema that is to blame; the
wording lives in `ExpansionError.message` and nowhere else.
-/

namespace SchemaCodec

/-- Why modules cannot be expanded to a graph. -/
inductive ExpansionError where
  | duplicateModule (name : String)
  | duplicateDefinition (module name : String)
  | duplicateEntry (module decl entry : String)
  | emptyRecord (module decl : String)
  | emptyChoice (module decl : String)
  | undefinedReference (module : String) (reference : Key)
  | unknownModule (module target : String)
  | arityMismatch (reference : Key) (expected found : Nat)
  | parameterApplied (module decl param : String)
  /-- A chain of references that never reaches a shape. -/
  | aliasCycle (key : Key)
  /-- Applications nest deeper than the limit. -/
  | instantiationLimitExceeded (reference : Key) (limit : Nat)
  /-- The arguments of one application are larger than the limit. -/
  | instantiationTooLarge (reference : Key) (size limit : Nat)
  /-- Without a limit on nesting, the expansion was still going on after all its rounds. -/
  | unfinished (reference : Key)
deriving DecidableEq, Repr

namespace ExpansionError

/-- A text between backticks. -/
def ticked (s : String) : String := "`" ++ s ++ "`"

def message : ExpansionError → String
  | duplicateModule name => "module " ++ ticked name ++ " is defined more than once"
  | duplicateDefinition module name =>
    "type " ++ ticked name ++ " is defined more than once in module " ++ ticked module
  | duplicateEntry module decl entry =>
    "entry " ++ ticked entry ++ " appears more than once in " ++ ticked (module ++ "." ++ decl)
  | emptyRecord module decl => "record in " ++ ticked (module ++ "." ++ decl) ++ " has no fields"
  | emptyChoice module decl => "choice in " ++ ticked (module ++ "." ++ decl) ++ " has no variants"
  | undefinedReference module reference =>
    "undefined reference " ++ ticked reference.text ++ " in module " ++ ticked module
  | unknownModule module target =>
    "unknown module " ++ ticked target ++ " referenced from module " ++ ticked module
  | arityMismatch reference expected found =>
    ticked reference.text ++ s!" expects {expected} type arguments, found {found}"
  | parameterApplied module decl param =>
    "parameter " ++ ticked param ++ " of " ++ ticked (module ++ "." ++ decl) ++
      " cannot be applied to arguments"
  | aliasCycle key => "type " ++ ticked key.text ++ " is an alias of itself"
  | instantiationLimitExceeded reference limit =>
    "instantiating " ++ ticked reference.text ++ s!" exceeds {limit} nested instantiations"
  | instantiationTooLarge reference size limit =>
    "instantiating " ++ ticked reference.text ++
      s!" with {size} argument type nodes exceeds the limit of {limit}"
  | unfinished reference => "instantiating " ++ ticked reference.text ++ " does not end"

end ExpansionError

end SchemaCodec
