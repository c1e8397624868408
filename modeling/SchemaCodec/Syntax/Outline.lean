import SchemaCodec.Schema.Basic
import SchemaCodec.Syntax.Tree

/-!
# Outlines

What a tree says about declarations: names, parameters and types, with a gap wherever a part is
missing. The outline of a tree without faults has no gaps that matter, and then it is the schema
module that the text declares. Node kinds other than those of declarations and types, and tokens
that are not names, are passed over.
-/

namespace SchemaCodec.Syntax

/-- A type with gaps. -/
inductive TypeOutline where
  | record (entries : List (Option String × Option TypeOutline))
  | choice (entries : List (Option String × Option TypeOutline))
  | ref (module : Option String) (name : Option String) (args : Option (List TypeOutline))
deriving Inhabited

/-- A declaration with gaps. -/
structure DeclOutline where
  name : Option String
  params : Option (List String)
  body : Option TypeOutline

/-- A text with gaps. The outer option of the header is whether there is one, the inner one whether
it has a name. -/
structure Outline where
  header : Option (Option String)
  decls : List DeclOutline

/-! ## From trees -/

namespace Tree

def tokenTexts (kind : Kind) : List Tree → List String
  | [] => []
  | token t :: rest =>
    if t.kind = kind then t.text :: tokenTexts kind rest else tokenTexts kind rest
  | node .. :: rest => tokenTexts kind rest

def names (trees : List Tree) : List String := tokenTexts .id trees

/-- The parts of the first node of a kind. -/
def nodeOf? (kind : Kind) : List Tree → Option (List Tree)
  | [] => none
  | node k children :: rest => if k = kind then some children else nodeOf? kind rest
  | token _ :: rest => nodeOf? kind rest

def children : Tree → List Tree
  | token _ => []
  | node _ children => children

mutual

/-- The type that a node is, if it is one. -/
def typeOutline? : Tree → Option TypeOutline
  | node .record children => some (.record (entryOutlines children))
  | node .choice children => some (.choice (entryOutlines children))
  | node .ref children =>
    let ids := names children
    let args := argOutlines? children
    if (tokenTexts .dot children).isEmpty then some (.ref none ids[0]? args)
    else some (.ref ids[0]? ids[1]? args)
  | _ => none

def firstType? : List Tree → Option TypeOutline
  | [] => none
  | tree :: rest => (typeOutline? tree).or (firstType? rest)

def typeOutlines : List Tree → List TypeOutline
  | [] => []
  | tree :: rest => (typeOutline? tree).toList ++ typeOutlines rest

/-- The entries among some trees, each with its first name and its first type. -/
def entryOutlines : List Tree → List (Option String × Option TypeOutline)
  | [] => []
  | node .entry children :: rest =>
    ((names children)[0]?, firstType? children) :: entryOutlines rest
  | _ :: rest => entryOutlines rest

/-- The arguments of the first argument list among some trees. -/
def argOutlines? : List Tree → Option (List TypeOutline)
  | [] => none
  | node .args children :: _ => some (typeOutlines children)
  | _ :: rest => argOutlines? rest

end

def declOutlines : List Tree → List DeclOutline
  | [] => []
  | node .decl children :: rest =>
    ⟨(names children)[0]?, (nodeOf? .params children).map names, firstType? children⟩
      :: declOutlines rest
  | _ :: rest => declOutlines rest

/-- The outline of a whole text. -/
def outline (tree : Tree) : Outline where
  header := (nodeOf? .moduleHeader tree.children).map fun children ↦ (names children)[0]?
  decls := declOutlines tree.children

end Tree

/-! ## To schema modules -/

namespace TypeOutline

mutual

/-- The expression that an outline stands for, if no part is missing. -/
def expr? : TypeOutline → Option TypeExpr
  | record entries => (entryExprs? entries).map .record
  | choice entries => (entryExprs? entries).map .choice
  | ref module name none => name.map fun name ↦ .ref ⟨module, name⟩ []
  | ref module name (some args) => do
    let name ← name
    let args ← argExprs? args
    some (.ref ⟨module, name⟩ args)

/-- The fields or variants that entries stand for. -/
def entryExprs? : List (Option String × Option TypeOutline) → Option (List (String × TypeExpr))
  | [] => some []
  | (some name, some type) :: rest => do
    let expr ← expr? type
    let rest ← entryExprs? rest
    some ((name, expr) :: rest)
  | _ => none

def argExprs? : List TypeOutline → Option (List TypeExpr)
  | [] => some []
  | type :: rest => do
    let expr ← expr? type
    let rest ← argExprs? rest
    some (expr :: rest)

end

end TypeOutline

/-- The declaration that an outline stands for, if no part is missing. -/
def DeclOutline.decl? (outline : DeclOutline) : Option Decl := do
  let name ← outline.name
  let body ← outline.body
  let expr ← body.expr?
  some ⟨name, outline.params.getD [], expr⟩

/-- The schema module that an outline stands for. Declarations with missing parts are left out. -/
def Outline.module (outline : Outline) : Module where
  name := (outline.header.getD none).getD ""
  decls := outline.decls.filterMap DeclOutline.decl?

end SchemaCodec.Syntax
