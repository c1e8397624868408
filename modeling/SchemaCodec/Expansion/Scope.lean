import SchemaCodec.Builtin
import SchemaCodec.Expansion.Error
import SchemaCodec.Schema.Basic

/-!
# What names mean

A name without a module means a parameter of the declaration it stands in, else a declaration of the
same module, else a builtin type. A name with a module means a declaration of that module and
nothing else. The module of a generic declaration counts, never that of its caller.
-/

namespace SchemaCodec.Expansion

/-- Where an expression stands: its module, its declaration, and what the parameters mean there. -/
structure Scope where
  module : String
  decl : String
  bound : Members String Ty

/-- The scope of a declaration whose parameters mean the given types. Of parameters of one name the
last counts. -/
def Scope.of (module : String) (decl : Decl) (args : List Ty) : Scope :=
  ⟨module, decl.name, Members.ofPairs (decl.params.zip args)⟩

/-- What a name means. -/
inductive Meaning where
  | param (ty : Ty)
  | builtin (b : Builtin)
  | decl (module : String) (decl : Decl)

def module? (modules : List Module) (name : String) : Option Module :=
  modules.find? (·.name = name)

def decl? (modules : List Module) (module name : String) : Option Decl :=
  (module? modules module).bind (·.decl? name)

def Scope.lookup (modules : List Module) (scope : Scope) (target : Key) :
    Except ExpansionError Meaning :=
  match target.module with
  | none =>
    -- a parameter hides a declaration, and a declaration hides a builtin type
    match Members.get? target.name scope.bound with
    | some ty => .ok (.param ty)
    | none =>
      match decl? modules scope.module target.name with
      | some decl => .ok (.decl scope.module decl)
      | none =>
        match Builtin.ofName? target.name with
        | some b => .ok (.builtin b)
        | none => .error (.undefinedReference scope.module target)
  | some module =>
    if (module? modules module).isNone then .error (.unknownModule scope.module module)
    else
      match decl? modules module target.name with
      | some decl => .ok (.decl module decl)
      | none => .error (.undefinedReference scope.module target)

/-! ## Names that are given twice -/

/-- The first name of a list that occurs earlier in it. -/
def repeated? (seen : List String) : List String → Option String
  | [] => none
  | name :: rest => if name ∈ seen then some name else repeated? (name :: seen) rest

/-- Checks modules from left to right: no two of one name, and within each no two declarations of
one name. -/
def checkNames (seen : List String) : List Module → Except ExpansionError Unit
  | [] => .ok ()
  | module :: rest =>
    if module.name ∈ seen then .error (.duplicateModule module.name)
    else
      match repeated? [] (module.decls.map Decl.name) with
      | some name => .error (.duplicateDefinition module.name name)
      | none => checkNames (module.name :: seen) rest

end SchemaCodec.Expansion
