import SchemaCodec.Span
import SchemaCodec.Syntax.Kind
import SchemaCodec.Text

/-!
# Tokens

A schema text is cut into tokens that cover it without gaps: at each place the longest token that
some rule reads, and a keyword rather than a name of the same length. Characters at which no rule
reads anything are gathered into one token as long as they follow each other.

Cutting recurses on the text itself. When a token of `n` characters has been read, the next `n - 1`
characters are passed over, so no measure is needed and nothing is read twice.
-/

namespace SchemaCodec.Syntax

/-- A token: its kind, the offset of its first byte, and its text. As in spans the offset has no
bound, so what is proved about where tokens stand is about texts shorter than 4 GiB. -/
structure Token where
  kind : Kind
  start : Nat
  text : String
deriving DecidableEq, Repr

namespace Token

/-- The offset after the last byte. -/
def stop (token : Token) : Nat := token.start + token.text.utf8ByteSize

def span (token : Token) : Span := ⟨token.start, token.stop⟩

/-! ## Reading one token -/

/-- Characters that may begin a name. -/
def isNameStart (c : Char) : Bool :=
  ('a' ≤ c && c ≤ 'z') || ('A' ≤ c && c ≤ 'Z') || c = '_'

/-- Characters that may continue a name. -/
def isNamePart (c : Char) : Bool := isNameStart c || ('0' ≤ c && c ≤ '9')

/-- Blanks within a line. -/
def isBlank (c : Char) : Bool := c = ' ' || c = '\t'

/-- The kind of a word: a keyword or a name. -/
def wordKind (word : List Char) : Kind :=
  if word = "module".toList then .kwModule
  else if word = "Record".toList then .kwRecord
  else if word = "Choice".toList then .kwChoice
  else .id

/-- The kind of a token of one character. -/
def symbolKind? (c : Char) : Option Kind :=
  match c with
  | '(' => some .parenOpen
  | ')' => some .parenClose
  | '{' => some .braceOpen
  | '}' => some .braceClose
  | ',' => some .comma
  | ':' => some .colon
  | '.' => some .dot
  | '=' => some .equals
  | '\n' => some .newline
  | _ => none

/-- The token at the front of the text, as its kind and the number of characters after its first
one. -/
def lexeme? : List Char → Option (Kind × Nat)
  | [] => none
  | '\r' :: '\n' :: _ => some (.newline, 1)
  | c :: rest =>
    if isNameStart c then
      let more := rest.takeWhile isNamePart
      some (wordKind (c :: more), more.length)
    else if isBlank c then some (.whitespace, (rest.takeWhile isBlank).length)
    else if c = '#' then some (.comment, (rest.takeWhile (· ≠ '\n')).length)
    else (symbolKind? c).map fun kind ↦ (kind, 0)

/-! ## Cutting a text -/

/-- A text being cut: the tokens so far with the latest first, and the characters that no rule
reads just before the present place, latest first. -/
structure Cut where
  tokens : List Token
  unread : List Char

/-- Adds the gathered characters, which end at offset `at`, as one token. -/
def Cut.flush (cut : Cut) (stop : Nat) : List Token :=
  if cut.unread.isEmpty then cut.tokens
  else ⟨.garbage, stop - Text.width cut.unread, String.ofList cut.unread.reverse⟩ :: cut.tokens

/-- Cuts the text from an offset on, after passing over `skip` characters. -/
def cutFrom (offset skip : Nat) (cut : Cut) : List Char → List Token
  | [] => (cut.flush offset).reverse
  | c :: rest =>
    match skip with
    | skip + 1 => cutFrom (offset + c.utf8Size) skip cut rest
    | 0 =>
      match lexeme? (c :: rest) with
      | some (kind, more) =>
        let token : Token := ⟨kind, offset, String.ofList (c :: rest.take more)⟩
        cutFrom (offset + c.utf8Size) more ⟨token :: cut.flush offset, []⟩ rest
      | none => cutFrom (offset + c.utf8Size) 0 { cut with unread := c :: cut.unread } rest

/-- The tokens of a text. -/
def lex (source : String) : List Token := cutFrom 0 0 ⟨[], []⟩ source.toList

end Token

end SchemaCodec.Syntax
