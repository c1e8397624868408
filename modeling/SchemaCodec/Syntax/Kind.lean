/-!
# Kinds of tokens and nodes

One enumeration serves the tokens of a schema text and the nodes of its tree, so that a tree is
described by kinds alone. Sets of kinds are words, one bit a kind, which makes sets that hold the
same kinds equal.
-/

namespace SchemaCodec.Syntax

/-- The kind of a token or of a node. -/
inductive Kind where
  | parenOpen | parenClose | braceOpen | braceClose
  | comma | colon | dot | equals
  | kwModule | kwRecord | kwChoice
  | id | whitespace | newline | comment
  /-- Characters that no rule reads. -/
  | garbage
  /-- A node around tokens that were skipped. -/
  | error
  | root | moduleHeader | decl | params | record | choice | entry | ref | args
deriving DecidableEq, Repr, Inhabited

namespace Kind

/-- All kinds in order. -/
def all : List Kind :=
  [parenOpen, parenClose, braceOpen, braceClose, comma, colon, dot, equals, kwModule, kwRecord,
    kwChoice, id, whitespace, newline, comment, garbage, error, root, moduleHeader, decl, params,
    record, choice, entry, ref, args]

def name : Kind → String
  | parenOpen => "ParenOpen"
  | parenClose => "ParenClose"
  | braceOpen => "BraceOpen"
  | braceClose => "BraceClose"
  | comma => "Comma"
  | colon => "Colon"
  | dot => "Dot"
  | equals => "Equals"
  | kwModule => "KwModule"
  | kwRecord => "KwRecord"
  | kwChoice => "KwChoice"
  | id => "Id"
  | whitespace => "Whitespace"
  | newline => "Newline"
  | comment => "Comment"
  | garbage => "Garbage"
  | error => "Error"
  | root => "Root"
  | moduleHeader => "ModuleHeader"
  | decl => "Decl"
  | params => "Params"
  | record => "Record"
  | choice => "Choice"
  | entry => "Entry"
  | ref => "Ref"
  | args => "Args"

def ofName? (text : String) : Option Kind := all.find? (·.name = text)

/-- The number of a kind: its place in the order. -/
def number (kind : Kind) : Nat := kind.ctorIdx

/-- Tokens that separate others and mean nothing themselves. -/
def isTrivia : Kind → Bool
  | whitespace | newline | comment => true
  | _ => false

/-- Tokens and nodes that mark a fault in the text. -/
def isFault : Kind → Bool
  | error | garbage => true
  | _ => false

end Kind

/-- A set of kinds: bit `n` stands for the kind of number `n`. -/
structure KindSet where
  bits : UInt64
deriving DecidableEq, Repr

namespace KindSet

def single (kind : Kind) : KindSet := ⟨1 <<< UInt64.ofNat kind.number⟩

def union (a b : KindSet) : KindSet := ⟨a.bits ||| b.bits⟩

def ofList (kinds : List Kind) : KindSet := kinds.foldl (fun set kind ↦ set.union (single kind)) ⟨0⟩

def contains (set : KindSet) (kind : Kind) : Bool := set.bits &&& (single kind).bits ≠ 0

def toList (set : KindSet) : List Kind := Kind.all.filter set.contains

/-- The written form: names between braces. -/
def text (set : KindSet) : String :=
  "\x7b" ++ ", ".intercalate (set.toList.map Kind.name) ++ "\x7d"

/-- What a type can start with. -/
def typeFirst : KindSet := ofList [.id, .kwRecord, .kwChoice]

/-- Where skipping stops between declarations. -/
def declRecovery : KindSet := ofList [.id, .kwModule]

/-- Where skipping stops between braces. -/
def entryRecovery : KindSet := ofList [.braceClose, .id, .comma]

/-- Where skipping stops between parentheses. -/
def listRecovery : KindSet := ofList [.parenClose, .comma, .equals]

end KindSet

end SchemaCodec.Syntax
