import SchemaCodec.Diagnostic.Basic
import SchemaCodec.Syntax.Tree

/-!
# The cursor of the parser

The state of a parse and the steps that move it. A parse never fails on a faulty text: it reports
what is wrong, skips what it cannot use, and goes on, so its result is a tree in every case.

## Trivia

Blanks and comments are read past when the parser looks at the next token, and wait until a token
or a node is placed. They then go in front of it: before a token into the same node, before a node
into the node around it. Those in front of the end of a node therefore go into a later node.

## Limits

Two limits can be set, on the tokens placed and on the depth of types. Exceeding one is recorded and
ends the parse at the next loop; what was built until then is discarded.

## Checks

Four things would be mistakes of the parser and not of the text: placing a token at the end of the
text, looking at the next token many times without moving on, beginning a declaration at something
other than a name, and running a loop for longer than the text is. They are recorded as well, so
that their absence can be stated.
-/

namespace SchemaCodec.Syntax

/-- Limits of a parse; without a number there is no limit. -/
structure Limits where
  /-- How many tokens may be placed. -/
  exec : Option Nat
  /-- How deep types may nest. -/
  recursion : Option Nat
deriving DecidableEq, Repr

/-- The limits that hold unless others are set. -/
def Limits.standard : Limits := ⟨some 1000000, some 512⟩

/-- Which limit was exceeded. -/
inductive Excess where
  | exec
  | recursion
deriving DecidableEq, Repr

def Excess.message : Excess → String
  | exec => "execution limit exceeded"
  | recursion => "recursion limit exceeded"

/-- A mistake of the parser itself. -/
inductive Defect where
  /-- A token was to be placed, but none is left. -/
  | placedAtEnd
  /-- The next token was looked at too often. -/
  | tooManyLooks
  /-- A declaration was begun at something other than a name. -/
  | notAName
  /-- A loop ran longer than the text is. -/
  | outOfSteps
deriving DecidableEq, Repr

structure State where
  /-- The tokens not yet read. -/
  ahead : List Token
  /-- Trivia that were read and wait to be placed. -/
  waiting : List Token
  /-- The parts of the innermost open node, the latest first. -/
  placed : List Tree
  /-- The diagnostics, the latest first. -/
  reports : List Diagnostic
  /-- Where the open delimiters stand, the innermost first. -/
  delimiters : List Span
  /-- How deep in types the parser is. -/
  depth : Nat
  /-- Where the latest diagnostic was reported. -/
  reportedAt : Option Nat
  /-- How often the next token may still be looked at. -/
  looks : Nat
  /-- How many tokens may still be placed. -/
  exec : Option Nat
  /-- The limit that was exceeded first. -/
  excess : Option Excess
  /-- The first mistake of the parser. -/
  defect : Option Defect
  /-- How deep types may nest. -/
  maxDepth : Option Nat
  /-- The offset of the end of the text. -/
  stop : Nat

/-- A step of the parser. -/
abbrev Parse := StateM State

/-- How often the next token may be looked at in one place. -/
def maxLooks : Nat := 256

/-- The state before the first token. -/
def State.initial (source : String) (limits : Limits) : State where
  ahead := Token.lex source
  waiting := []
  placed := []
  reports := []
  delimiters := []
  depth := 0
  reportedAt := none
  looks := maxLooks
  exec := limits.exec
  excess := none
  defect := none
  maxDepth := limits.recursion
  stop := source.utf8ByteSize

namespace Parse

/-! ## Records of what went wrong -/

/-- Records a mistake of the parser, unless there is one already. -/
def recordDefect (defect : Defect) : Parse Unit :=
  modify fun s ↦ { s with defect := s.defect.or (some defect) }

/-- Records that a limit was exceeded, unless one was already. -/
def recordExcess (excess : Excess) : Parse Unit :=
  modify fun s ↦ { s with excess := s.excess.or (some excess) }

/-! ## Looking -/

/-- Reads past trivia. -/
def settle : Parse Unit :=
  modify fun s ↦
    { s with
      waiting := s.waiting ++ s.ahead.takeWhile (·.kind.isTrivia)
      ahead := s.ahead.dropWhile (·.kind.isTrivia) }

/-- Counts a look at the tokens ahead. -/
def countLook : Parse Unit := do
  if (← get).looks = 0 then recordDefect .tooManyLooks
  else modify fun s ↦ { s with looks := s.looks - 1 }

/-- The kind of the next token that is not trivia; none at the end of the text. -/
def current : Parse (Option Kind) := do
  settle
  countLook
  return (← get).ahead.head?.map Token.kind

def currentIs (kind : Kind) : Parse Bool := do
  return (← current) = some kind

def currentIn (kinds : KindSet) : Parse Bool := do
  return (← current).any kinds.contains

/-- Whether the token after the next one is of a kind, trivia aside. -/
def followedBy (kind : Kind) : Parse Bool := do
  settle
  countLook
  return (((← get).ahead.drop 1).dropWhile (·.kind.isTrivia)).head?.map Token.kind = some kind

/-- A name and an equals sign always begin a declaration. -/
def atDeclStart : Parse Bool := do
  if ← currentIs .id then followedBy .equals else return false

/-- Where the next token stands; at the end of the text, nothing. -/
def currentSpan : Parse Span := do
  settle
  let s ← get
  return (s.ahead.head?.map Token.span).getD (.empty s.stop)

/-- Whether a limit was exceeded. -/
def isHalted : Parse Bool := do return (← get).excess.isSome

/-- Whether no token is left to read, or a limit was exceeded. -/
def isDone : Parse Bool := do
  let s ← get
  return s.ahead.isEmpty || s.excess.isSome

/-! ## Placing -/

/-- Allows looking as often as at first. -/
def renewLooks : Parse Unit := modify fun s ↦ { s with looks := maxLooks }

def placeTrivia : Parse Unit :=
  modify fun s ↦ { s with placed := (s.waiting.map Tree.token).reverseAux s.placed, waiting := [] }

def countToken : Parse Unit := do
  match (← get).exec with
  | none => return
  | some 0 => recordExcess .exec
  | some (n + 1) => modify fun s ↦ { s with exec := some n }

/-- Places the next token. -/
def bump : Parse Unit := do
  match (← get).ahead with
  | [] => recordDefect .placedAtEnd
  | token :: rest =>
    renewLooks
    countToken
    placeTrivia
    modify fun s ↦ { s with placed := .token token :: s.placed, ahead := rest }

/-- Places the next token if it is of a kind, and says whether it did. -/
def eat (kind : Kind) : Parse Bool := do
  if ← currentIs kind then
    bump
    return true
  else return false

/-- Places trivia up to the next token. -/
def eatTrivia : Parse Unit := do
  settle
  placeTrivia

/-- The node of a kind around everything that `body` places. -/
def wrap (kind : Kind) (body : Parse Unit) : Parse Tree := do
  -- trivia in front of a node stay outside it
  placeTrivia
  let outer := (← get).placed
  modify fun s ↦ { s with placed := [] }
  body
  let inner := (← get).placed
  modify fun s ↦ { s with placed := outer }
  return .node kind inner.reverse

/-- Places a node of a kind around everything that `body` places. -/
def node (kind : Kind) (body : Parse Unit) : Parse Unit := do
  let tree ← wrap kind body
  modify fun s ↦ { s with placed := tree :: s.placed }

/-! ## Reporting -/

/-- Claims an offset for a diagnostic. One place is reported at most once in a row. -/
def claimReport (offset : Nat) : Parse Bool := do
  if (← get).reportedAt = some offset then return false
  else
    modify fun s ↦ { s with reportedAt := some offset }
    return true

/-- Adds a diagnostic. -/
def emit (d : Diagnostic) : Parse Unit := modify fun s ↦ { s with reports := d :: s.reports }

/-- Reports the next token. Between delimiters, everything from the innermost one to the end of the
text may follow from it. -/
def report (kind : DiagnosticKind) (detail : Option String) : Parse Unit := do
  let range ← currentSpan
  if ← claimReport range.start then
    let s ← get
    -- an open delimiter may be the cause of all that follows on it
    let suppression := match s.delimiters with
      | [] => range
      | delimiter :: _ => ⟨delimiter.start, s.stop⟩
    emit { Diagnostic.plain kind range detail with suppression }

/-- Places the next token, or reports that it is missing. -/
def expect (kind : Kind) (missing : DiagnosticKind) : Parse Unit := do
  if !(← eat kind) then report missing none

/-- Places tokens up to one of the kinds. -/
def skipTo (kinds : KindSet) : (steps : Nat) → Parse Unit
  | 0 => recordDefect .outOfSteps
  | steps + 1 => do
    if !(← currentIn kinds) && !(← isDone) then
      bump
      skipTo kinds steps

/-- Reports the next token and puts what precedes one of the kinds aside. -/
def recover (kind : DiagnosticKind) (detail : String) (kinds : KindSet) : Parse Unit := do
  if ← (do return (← currentIn kinds) || (← isDone)) then report kind (some detail)
  else node .error do
    report kind (some detail)
    skipTo kinds ((← get).ahead.length + 1)

/-! ## Nesting -/

/-- Enters a type, unless that is too deep. -/
def enter : Parse Bool := do
  let s ← get
  if s.maxDepth.any (· ≤ s.depth) then
    recordExcess .recursion
    return false
  else
    modify fun s ↦ { s with depth := s.depth + 1 }
    renewLooks
    return true

def leave : Parse Unit := do
  modify fun s ↦ { s with depth := s.depth - 1 }
  renewLooks

/-- Notes that a delimiter opens at the next token. -/
def openDelimiter : Parse Unit := do
  let span ← currentSpan
  modify fun s ↦ { s with delimiters := span :: s.delimiters }

/-- Places the token that closes the innermost delimiter, or reports that the delimiter stays open:
from its opening to the next token, so that what lies between is explained by it. -/
def closeDelimiter (close : Kind) (missing : DiagnosticKind) (opened : String) : Parse Unit := do
  let delimiters := (← get).delimiters
  modify fun s ↦ { s with delimiters := s.delimiters.drop 1 }
  if !(← eat close) then
    match delimiters with
    | [] => return
    | delimiter :: _ =>
      let span ← currentSpan
      if ← claimReport span.start then
        emit { Diagnostic.plain missing ⟨delimiter.start, span.stop⟩ none with
          related := [(opened ++ " started here", delimiter)] }

end Parse

end SchemaCodec.Syntax
