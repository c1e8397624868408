import SchemaCodec.Expansion.Scope
import SchemaCodec.Graph

/-!
# Expansion of modules to a type graph

Every declaration without parameters becomes an entry of the graph. A generic declaration becomes
entries only where it is applied: one for each list of arguments, named after the declaration and
the written form of the arguments. The entry is recorded before the body is expanded, so an
application that comes up again inside its own body is a reference to the entry, and recursive
generics close on themselves.

Expanding one body recurses on the expression; going on to the body of another declaration takes one
of a number of rounds. With a limit on the nesting of applications the rounds are the limit and
their end is its violation. Without one there is no bound known in advance, and the number of rounds
is a parameter.
-/

namespace SchemaCodec.Expansion

/-- Limits of an expansion; without a number there is no limit. -/
structure Limits where
  /-- How deep applications of generic declarations may nest. -/
  nesting : Option Nat
  /-- How large the arguments of one application may be, in type constructors. -/
  size : Option Nat
deriving DecidableEq, Repr

/-- The limits that hold unless others are set. -/
def Limits.standard : Limits := ⟨some 256, some 4096⟩

/-- An application of a generic declaration: its key and the arguments. -/
abbrev Application := Key × List Ty

/-- What has been expanded so far: the graph, and the entry of each application. -/
structure Progress where
  graph : Graph
  instances : List (Application × Key)

/-- A step of the expansion. -/
abbrev Expand := StateT Progress (Except ExpansionError)

/-- How an application of a generic declaration is expanded. -/
abbrev Apply := (module : String) → Decl → List Ty → Expand Ty

/-- The key of an instance: the declaration with its arguments in parentheses. -/
def instanceKey (module : String) (decl : Decl) (args : List Ty) : Key :=
  .qualified module (decl.name ++ "(" ++ ", ".intercalate (args.map Ty.text) ++ ")")

def checkArity (target : Key) (expected found : Nat) : Except ExpansionError Unit :=
  if expected = found then .ok () else .error (.arityMismatch target expected found)

/-! ## One body -/

mutual

/-- The type that an expression stands for in a scope. -/
def expr (modules : List Module) (apply : Apply) (scope : Scope) : TypeExpr → Expand Ty
  | .none => return .none
  | .boolean => return .boolean
  | .integer => return .integer
  | .float => return .float
  | .string => return .string
  | .bytes => return .bytes
  | .array element => return .array (← expr modules apply scope element)
  | .record [] => throw (.emptyRecord scope.module scope.decl)
  | .record (field :: fields) =>
    return .record (← entries modules apply scope [] (field :: fields))
  | .choice [] => throw (.emptyChoice scope.module scope.decl)
  | .choice (variant :: variants) =>
    return .choice (← entries modules apply scope [] (variant :: variants))
  | .ref target args => do
    match ← scope.lookup modules target with
    | .param ty =>
      if args.isEmpty then return ty
      else throw (.parameterApplied scope.module scope.decl target.name)
    | .builtin b => do
      checkArity target b.arity args.length
      let types ← arguments modules apply scope args
      match b.build? types with
      | some ty => return ty
      -- not reached: the number of arguments has been checked
      | none => throw (.arityMismatch target b.arity args.length)
    | .decl module decl => do
      checkArity target decl.params.length args.length
      if decl.isGeneric then
        let types ← arguments modules apply scope args
        apply module decl types
      -- the entry may come later; a reference needs its key alone
      else return .ref (.qualified module decl.name)

/-- The entries of a record or choice; `done` holds those before them, the latest first. -/
def entries (modules : List Module) (apply : Apply) (scope : Scope) (done : List (String × Ty)) :
    List (String × TypeExpr) → Expand (List (String × Ty))
  | [] => return done.reverse
  | (name, body) :: rest => do
    if name ∈ done.map Prod.fst then throw (.duplicateEntry scope.module scope.decl name)
    let ty ← expr modules apply scope body
    entries modules apply scope ((name, ty) :: done) rest

/-- The types of arguments. -/
def arguments (modules : List Module) (apply : Apply) (scope : Scope) :
    List TypeExpr → Expand (List Ty)
  | [] => return []
  | arg :: rest => do
    let ty ← expr modules apply scope arg
    let types ← arguments modules apply scope rest
    return ty :: types

end

/-! ## Applications -/

def checkSize (limits : Limits) (origin : Key) (args : List Ty) : Except ExpansionError Unit :=
  match limits.size with
  | none => .ok ()
  | some limit =>
    let size := args.foldr (fun arg size ↦ arg.size + size) 0
    if limit < size then .error (.instantiationTooLarge origin size limit) else .ok ()

/-- The failure of an application for which no round is left. -/
def noRoundLeft (limits : Limits) (origin : Key) : ExpansionError :=
  match limits.nesting with
  | some limit => .instantiationLimitExceeded origin limit
  | none => .unfinished origin

/-- Expands an application, unless that has been done, and refers to its entry. An application is
told from others by its key first, which is cheaper to compare than the arguments. -/
def instantiate (modules : List Module) (limits : Limits) : (rounds : Nat) → Apply
  | rounds, module, decl, args => do
    let origin := Key.qualified module decl.name
    let key := instanceKey module decl args
    if (← get).instances.any fun made ↦ made.2 = key && made.1 = (origin, args) then
      return .ref key
    else
      match rounds with
      | 0 => throw (noRoundLeft limits origin)
      | rounds + 1 => do
        checkSize limits origin args
        -- recorded before the body, which may apply the same declaration to the same arguments
        modify fun p ↦ { p with instances := ((origin, args), key) :: p.instances }
        let body ←
          expr modules (instantiate modules limits rounds) (.of module decl args) decl.body
        modify fun p ↦ { p with graph := p.graph.insert key body }
        return .ref key

/-! ## Whole schemas -/

/-- Expands a declaration without parameters. -/
def declare (modules : List Module) (apply : Apply) (module : String) (decl : Decl) :
    Expand Unit := do
  let body ← expr modules apply (.of module decl []) decl.body
  modify fun p ↦ { p with graph := p.graph.insert (.qualified module decl.name) body }

/-- Expands all declarations without parameters, in order. -/
def declareAll (modules : List Module) (apply : Apply) : Expand Unit :=
  modules.forM fun module ↦
    (module.decls.filter fun decl ↦ !decl.isGeneric).forM (declare modules apply module.name)

/-- Whether the references of a type run in a circle. -/
def isCyclic (graph : Graph) (ty : Ty) : Bool :=
  match graph.resolve ty with
  | .ref key => graph.contains key
  | _ => false

/-- Refuses a graph with a chain of references that never reaches a shape. -/
def checkAliases (graph : Graph) : Except ExpansionError Unit :=
  match graph.entries.find? fun entry ↦ isCyclic graph entry.2 with
  | some (key, _) => .error (.aliasCycle key)
  | none => .ok ()

/-- What is there before anything has been expanded. -/
def Progress.initial : Progress := ⟨.builtins, []⟩

/-- The graph of a schema, expanded in a number of rounds. -/
def graphWithin (rounds : Nat) (limits : Limits) (modules : List Module) :
    Except ExpansionError Graph := do
  checkNames [] modules
  let (_, done) ← (declareAll modules (instantiate modules limits rounds)).run .initial
  checkAliases done.graph
  return done.graph

/-- The rounds of an expansion without a limit on nesting. -/
def unlimitedRounds : Nat := Nat.pow 2 64

/-- The graph of a schema. -/
def graph (limits : Limits) (modules : List Module) : Except ExpansionError Graph :=
  graphWithin (limits.nesting.getD unlimitedRounds) limits modules

end SchemaCodec.Expansion
