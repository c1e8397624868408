import SchemaCodec.Catalog.Error
import SchemaCodec.Files
import SchemaCodec.Text

/-!
# Sources of schemas

A source is a schema text, a path, or modules that were read before. A path names a schema file, or
a directory that is searched for schema files at every depth. The files of a directory are loaded in
the order of their paths, compared name by name, so the result does not depend on the order in which
a file system lists them.
-/

namespace SchemaCodec

/-- Where modules come from. -/
inductive Source where
  /-- The text of one module. -/
  | text (source : String)
  /-- A schema file, or a directory of them. -/
  | path (path : String)
  /-- Modules that are at hand. -/
  | modules (modules : List Module)

namespace Source

/-! ## Paths -/

/-- What texts without a file are called in messages. -/
def textOrigin : String := "<text>"

/-- The last name of a path: closing slashes and single dots are skipped. -/
def lastName? (path : String) : Option String :=
  (path.splitOn "/").reverse.find? fun name ↦ name ≠ "" ∧ name ≠ "."

/-- Whether a file name ends in `.sbs` after at least one character. -/
def isSchemaName (name : String) : Bool := name.endsWith ".sbs" && decide (4 < name.utf8ByteSize)

def isSchemaPath (path : String) : Bool := (lastName? path).any isSchemaName

def join (directory name : String) : String :=
  if directory.endsWith "/" then directory ++ name else directory ++ "/" ++ name

/-! ## Searching a directory -/

mutual

/-- The schema files at or below a node, each with the names that lead to it. -/
def schemaFiles (names : List String) : FileTree → List (List String × FileTree)
  | .directory entries => entryFiles names entries
  | node => if names.getLast?.any isSchemaName then [(names, node)] else []

/-- The schema files among the entries of a directory and below them. -/
def entryFiles (names : List String) : List (String × FileTree) → List (List String × FileTree)
  | [] => []
  | (name, node) :: rest => schemaFiles (names ++ [name]) node ++ entryFiles names rest

end

/-- Whether one name comes before another, by code points. -/
def nameBefore (a b : String) : Bool :=
  List.lex a.toList b.toList fun c d ↦ decide (c.toNat < d.toNat)

/-- Whether one list of names comes before another, name by name. -/
def namesBefore (as bs : List String) : Bool := List.lex as bs nameBefore

/-- The schema files below a directory in order, each with its path. -/
def search (path : String) (entries : List (String × FileTree)) : List (String × FileTree) :=
  let files := (entryFiles [] entries).mergeSort fun a b ↦ !namesBefore b.1 a.1
  files.map fun (names, node) ↦ (names.foldl join path, node)

/-! ## Loading -/

def readText (path : String) (node : FileTree) : Except CatalogError String :=
  match node.read with
  | .error _ => .error (.unreadable path)
  | .ok bytes =>
    match Text.ofBytes? bytes with
    | some content => .ok content
    | none => .error (.unreadable path)

def readModule (limits : Syntax.Limits) (origin source : String) : Except CatalogError Module :=
  (Syntax.readModule limits origin source).mapError .text

def readFile (limits : Syntax.Limits) (path : String) (node : FileTree) :
    Except CatalogError Module := do
  readModule limits path (← readText path node)

/-- The modules of a source in order. -/
def load (view : FileView) (limits : Syntax.Limits) : Source → Except CatalogError (List Module)
  | text source => do return [← readModule limits textOrigin source]
  | modules held => .ok held
  | path place =>
    match view place with
    | .directory entries =>
      (search place entries).mapM fun (place, node) ↦ readFile limits place node
    | node =>
      if isSchemaPath place then do return [← readFile limits place node]
      else .error (.unsupported place)

end Source

end SchemaCodec
