import SchemaCodec.Json.Shape
import SchemaCodec.Schema.Basic

/-!
# The portable form of a schema

Modules travel between programs as JSON. Writing leaves out what reading supplies: an absent module
of a reference, an empty list of parameters or of arguments.

Reading is laxer than writing. A part that is written as an object of named members may also be an
array of its members in order, and an expression may be an array that starts with its kind. Members
of unknown names are ignored; a known name given twice is refused. Every part of the body of a
declaration lies strictly inside it, so reading recurses on the nesting of the JSON value.
-/

namespace SchemaCodec.Portable

/-! ## Writing -/

def ofTarget (key : Key) : Json :=
  match key.module with
  | some module => .object [("module", .string module), ("name", .string key.name)]
  | none => .object [("name", .string key.name)]

/-- An expression without parts. -/
def ofKind (kind : String) : Json := .object [("kind", .string kind)]

mutual

def ofExpr : TypeExpr → Json
  | .none => ofKind "none"
  | .boolean => ofKind "boolean"
  | .integer => ofKind "integer"
  | .float => ofKind "float"
  | .string => ofKind "string"
  | .bytes => ofKind "bytes"
  | .array element => .object [("kind", .string "array"), ("element", ofExpr element)]
  | .record fields =>
    .object [("kind", .string "record"), ("fields", .array (ofMembers fields))]
  | .choice variants =>
    .object [("kind", .string "choice"), ("variants", .array (ofMembers variants))]
  | .ref target [] => .object [("kind", .string "ref"), ("target", ofTarget target)]
  | .ref target (arg :: args) =>
    .object [("kind", .string "ref"), ("target", ofTarget target),
      ("args", .array (ofExpr arg :: ofArgs args))]

def ofMembers : List (String × TypeExpr) → List Json
  | [] => []
  | (name, expr) :: rest =>
    .object [("name", .string name), ("type", ofExpr expr)] :: ofMembers rest

def ofArgs : List TypeExpr → List Json
  | [] => []
  | expr :: rest => ofExpr expr :: ofArgs rest

end

def ofDecl (decl : Decl) : Json :=
  .object (("name", .string decl.name) ::
    ((if decl.params.isEmpty then [] else [("params", .array (decl.params.map .string))]) ++
      [("body", ofExpr decl.body)]))

def ofModule (module : Module) : Json :=
  .object [("name", .string module.name), ("decls", .array (module.decls.map ofDecl))]

def ofModules (modules : List Module) : Json := .array (modules.map ofModule)

/-! ## Reading -/

/-- The content of a member: absent, or given once. A repeated name is refused. -/
def memberOnce? (name : String) (members : List (String × Json)) : Option (Option Json) :=
  match members.filter (·.1 = name) with
  | [] => some none
  | [(_, json)] => some (some json)
  | _ => none

/-- The members of the given names, each of which may be absent: from an object by name, from an
array by position. -/
def parts? (names : List String) : Json → Option (List (Option Json))
  | .object members => names.mapM fun name ↦ memberOnce? name members
  | .array items =>
    if items.length ≤ names.length then
      some (items.map some ++ List.replicate (names.length - items.length) none)
    else none
  | _ => none

def string? : Json → Option String
  | .string s => some s
  | _ => none

def items? : Json → Option (List Json)
  | .array items => some items
  | _ => none

/-- The items of an array, none if it is absent. -/
def optionalItems? : Option Json → Option (List Json)
  | none => some []
  | some json => items? json

def target? (json : Json) : Option Key := do
  match ← parts? ["module", "name"] json with
  | [module, some name] =>
    let module ← match module with
      | none | some .null => some none
      | some json => (string? json).map some
    let name ← string? name
    some ⟨module, name⟩
  | _ => none

inductive ExprKind where
  | none | boolean | integer | float | string | bytes | array | record | choice | ref
deriving DecidableEq, Repr

/-- The kinds in order, with their names. -/
def exprKinds : List (String × ExprKind) :=
  [("none", .none), ("boolean", .boolean), ("integer", .integer), ("float", .float),
    ("string", .string), ("bytes", .bytes), ("array", .array), ("record", .record),
    ("choice", .choice), ("ref", .ref)]

/-- Reads a kind by its name. Below the top of a body it may also be given by its position. -/
def kind? (atTop : Bool) : Json → Option ExprKind
  | .string s => Members.get? s exprKinds
  | .number (.integer i) =>
    if !atTop && decide (0 ≤ i) then (exprKinds[i.toNat]?).map Prod.snd else none
  | _ => none

/-- Splits an expression into its kind and its parts. -/
def tagged? : Json → Option (Json × Json)
  | .object members => do
    let kind ← (← memberOnce? "kind" members)
    some (kind, .object members)
  | .array (kind :: parts) => some (kind, .array parts)
  | _ => none

/-- Reads an expression that nests less than `levels` deep. -/
def expr? : (levels : Nat) → (atTop : Bool) → Json → Option TypeExpr
  | 0, _, _ => none
  | levels + 1, atTop, json => do
    let member? (json : Json) : Option (String × TypeExpr) := do
      match ← parts? ["name", "type"] json with
      | [some name, some ty] =>
        let name ← string? name
        let ty ← expr? levels false ty
        some (name, ty)
      | _ => none
    let (kind, parts) ← tagged? json
    match ← kind? atTop kind with
    | .none => (parts? [] parts).map fun _ ↦ .none
    | .boolean => (parts? [] parts).map fun _ ↦ .boolean
    | .integer => (parts? [] parts).map fun _ ↦ .integer
    | .float => (parts? [] parts).map fun _ ↦ .float
    | .string => (parts? [] parts).map fun _ ↦ .string
    | .bytes => (parts? [] parts).map fun _ ↦ .bytes
    | .array =>
      match ← parts? ["element"] parts with
      | [some element] => (expr? levels false element).map .array
      | _ => none
    | .record =>
      match ← parts? ["fields"] parts with
      | [some fields] => ((← items? fields).mapM member?).map .record
      | _ => none
    | .choice =>
      match ← parts? ["variants"] parts with
      | [some variants] => ((← items? variants).mapM member?).map .choice
      | _ => none
    | .ref =>
      match ← parts? ["target", "args"] parts with
      | [some target, args] =>
        let target ← target? target
        let args ← (← optionalItems? args).mapM (expr? levels false)
        some (.ref target args)
      | _ => none

mutual

/-- How many levels of arrays and objects a JSON value has; a scalar has one. -/
def nesting : Json → Nat
  | .array items => itemsNesting items + 1
  | .object members => membersNesting members + 1
  | _ => 1

def itemsNesting : List Json → Nat
  | [] => 0
  | item :: rest => max (nesting item) (itemsNesting rest)

def membersNesting : List (String × Json) → Nat
  | [] => 0
  | (_, json) :: rest => max (nesting json) (membersNesting rest)

end

def decl? (json : Json) : Option Decl := do
  match ← parts? ["name", "params", "body"] json with
  | [some name, params, some body] =>
    let name ← string? name
    let params ← (← optionalItems? params).mapM string?
    let body ← expr? (nesting body + 1) true body
    some ⟨name, params, body⟩
  | _ => none

def module? (json : Json) : Option Module := do
  match ← parts? ["name", "decls"] json with
  | [some name, decls] =>
    let name ← string? name
    let decls ← (← optionalItems? decls).mapM decl?
    some ⟨name, decls⟩
  | _ => none

def modules? (json : Json) : Option (List Module) := do
  (← items? json).mapM module?

/-! ## Texts -/

/-- What a reader of a text knows of a declaration. -/
def declShape : Json.Shape := .parts [("name", .any), ("params", .any), ("body", .any)]

/-- What a reader of a text knows of a schema. Only modules and declarations have members that are
passed over: a body is read as a whole before its parts are looked at. -/
def shape : Json.Shape := .items (.parts [("name", .any), ("decls", .items declShape)])

def ofText? (text : String) : Option (List Module) :=
  (Json.parseShaped? shape text).bind modules?

end SchemaCodec.Portable
