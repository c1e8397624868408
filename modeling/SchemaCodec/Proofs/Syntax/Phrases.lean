import SchemaCodec.Schema.Basic
import SchemaCodec.Syntax.Grammar

/-!
# Phrases

The grammar as data: a phrase is a derivation, with what it derives as a list of terminals and what
it means as a part of a schema. A phrase leaves nothing open. It says behind which entries there are
commas, and the lists that may be left out are empty if they are.
-/

namespace SchemaCodec.Syntax

open Grammar (Body)

/-! ## Terminals -/

/-- What a token is to the grammar: a name with its text, or only its kind. -/
inductive Terminal where
  | name (text : String)
  | symbol (kind : Kind)
deriving DecidableEq, Repr

def Token.terminal (token : Token) : Terminal :=
  if token.kind = .id then .name token.text else .symbol token.kind

/-- The terminals of tokens, without trivia. -/
def terminals (tokens : List Token) : List Terminal :=
  (tokens.filter fun token ↦ !token.kind.isTrivia).map Token.terminal

/-! ## Phrases -/

/-- The keyword of a type that is written with a body. -/
def Grammar.Body.keyword : Body → Kind
  | .record => .kwRecord
  | .choice => .kwChoice

/-- The derivation of a type. -/
inductive TypePhrase where
  /-- A keyword and entries between braces, each with whether a comma comes behind it. -/
  | braced (form : Body) (entries : List (String × TypePhrase × Bool))
  /-- A name, perhaps qualified, with arguments if there are any. -/
  | ref (qualifier : Option String) (name : String) (args : List TypePhrase)

/-- The derivation of a declaration. -/
structure DeclPhrase where
  name : String
  params : List String
  body : TypePhrase

/-- The derivation of a whole text. -/
structure ModulePhrase where
  name : String
  decls : List DeclPhrase

/-- Items with commas between them. -/
def commaSeparated (items : List (List Terminal)) : List Terminal :=
  [.symbol .comma].intercalate items

/-- Items between parentheses with commas between them, and nothing if there are none. -/
def parenthesized (items : List (List Terminal)) : List Terminal :=
  if items.isEmpty then []
  else .symbol .parenOpen :: (commaSeparated items ++ [.symbol .parenClose])

/-- A name, perhaps with another one in front of it. -/
def qualified (qualifier : Option String) (name : String) : List Terminal :=
  match qualifier with
  | none => [.name name]
  | some qualifier => [.name qualifier, .symbol .dot, .name name]

namespace TypePhrase

mutual

/-- What a type derives. -/
def yield : TypePhrase → List Terminal
  | braced form entries =>
    .symbol form.keyword :: .symbol .braceOpen :: (entriesYield entries ++ [.symbol .braceClose])
  | ref qualifier name args => qualified qualifier name ++ parenthesized (yields args)

def entriesYield : List (String × TypePhrase × Bool) → List Terminal
  | [] => []
  | (name, ty, comma) :: rest =>
    .name name :: .symbol .colon :: (yield ty ++
      ((if comma then [.symbol .comma] else []) ++ entriesYield rest))

def yields : List TypePhrase → List (List Terminal)
  | [] => []
  | ty :: rest => yield ty :: yields rest

end

mutual

/-- The expression that a type means. -/
def expr : TypePhrase → TypeExpr
  | braced .record entries => .record (entriesExprs entries)
  | braced .choice entries => .choice (entriesExprs entries)
  | ref qualifier name args => .ref ⟨qualifier, name⟩ (exprs args)

def entriesExprs : List (String × TypePhrase × Bool) → List (String × TypeExpr)
  | [] => []
  | (name, ty, _) :: rest => (name, expr ty) :: entriesExprs rest

def exprs : List TypePhrase → List TypeExpr
  | [] => []
  | ty :: rest => expr ty :: exprs rest

end

end TypePhrase

namespace DeclPhrase

def yield (phrase : DeclPhrase) : List Terminal :=
  .name phrase.name :: (parenthesized (phrase.params.map fun param ↦ [.name param]) ++
    .symbol .equals :: phrase.body.yield)

def decl (phrase : DeclPhrase) : Decl := ⟨phrase.name, phrase.params, phrase.body.expr⟩

end DeclPhrase

namespace ModulePhrase

def yield (phrase : ModulePhrase) : List Terminal :=
  .symbol .kwModule :: .name phrase.name :: phrase.decls.flatMap DeclPhrase.yield

def module (phrase : ModulePhrase) : Module := ⟨phrase.name, phrase.decls.map DeclPhrase.decl⟩

end ModulePhrase

end SchemaCodec.Syntax
