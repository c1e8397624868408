import SchemaCodec.Syntax.Token
import SchemaCodec.Text.Printable

/-!
# Syntax trees

A tree holds every token of the text it was built from, blanks and comments included, so the text
can be read off it. Offsets are not stored: the offset of a part is the width of what precedes it.
-/

namespace SchemaCodec.Syntax

/-- A token, or a node of some kind with its parts in order. -/
inductive Tree where
  | token (t : Token)
  | node (kind : Kind) (children : List Tree)
deriving Inhabited

namespace Tree

def kind : Tree → Kind
  | token t => t.kind
  | node kind _ => kind

mutual

/-- The tokens of a tree in order, put in front of others. -/
def tokensOnto : Tree → List Token → List Token
  | token t, rest => t :: rest
  | node _ children, rest => forestOnto children rest

/-- The tokens of a list of trees in order, put in front of others. -/
def forestOnto : List Tree → List Token → List Token
  | [], rest => rest
  | tree :: trees, rest => tokensOnto tree (forestOnto trees rest)

end

def tokens (tree : Tree) : List Token := tokensOnto tree []

def text (tree : Tree) : String := String.join (tree.tokens.map Token.text)

/-! ## Preorder -/

/-- A node or token with its depth and its place in the text; only a token has a text. -/
structure Part where
  depth : Nat
  kind : Kind
  span : Span
  text : Option String

mutual

/-- The parts of a tree in preorder, latest first, put in front of earlier ones, and the offset
after the tree. -/
def partsFrom (depth offset : Nat) : Tree → List Part → List Part × Nat
  | token t, parts =>
    let stop := offset + t.text.utf8ByteSize
    (⟨depth, t.kind, ⟨offset, stop⟩, some t.text⟩ :: parts, stop)
  | node kind children, parts =>
    let stop := offset + forestWidth children
    forestPartsFrom (depth + 1) offset children (⟨depth, kind, ⟨offset, stop⟩, none⟩ :: parts)

def forestPartsFrom (depth offset : Nat) : List Tree → List Part → List Part × Nat
  | [], parts => (parts, offset)
  | tree :: trees, parts =>
    let (parts, offset) := partsFrom depth offset tree parts
    forestPartsFrom depth offset trees parts

/-- The number of bytes of a tree's text. -/
def width : Tree → Nat
  | token t => t.text.utf8ByteSize
  | node _ children => forestWidth children

def forestWidth : List Tree → Nat
  | [] => 0
  | tree :: trees => width tree + forestWidth trees

end

/-- The parts of a tree in preorder. -/
def parts (tree : Tree) : List Part := (partsFrom 0 0 tree []).1.reverse

/-! ## Dump -/

def indentation (depth : Nat) : String := String.ofList (List.replicate (2 * depth) ' ')

def Part.dumpLine (part : Part) : String :=
  indentation part.depth ++ part.kind.name ++
    match part.text with
    | some text => " " ++ Text.quoted text
    | none => ""

/-- The nodes and tokens of a tree without blanks and comments, one line each, indented by depth. -/
def dumpLines (tree : Tree) : List String :=
  (tree.parts.filter fun part ↦ !part.kind.isTrivia).map Part.dumpLine

end Tree

end SchemaCodec.Syntax
