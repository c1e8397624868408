import SchemaCodec.Syntax.Cursor

/-!
# The grammar of schema texts

```text
root   := "module" name decl*
decl   := name params? "=" type
params := "(" name ("," name)* ")"
type   := record | choice | ref
record := "Record" "{" (entry ","?)* "}"
choice := "Choice" "{" (entry ","?)* "}"
entry  := name ":" type
ref    := name ("." name)? args?
args   := "(" type ("," type)* ")"
```

A name in front of an equals sign begins a declaration wherever it stands, so a broken declaration
does not swallow the next one. Types, the entries between braces and the types between parentheses
call each other; each round takes a token or comes right after one was taken, so a number of steps
in proportion to the number of tokens is enough for all of them.
-/

namespace SchemaCodec.Syntax.Grammar

open Parse

/-! ## Types -/

/-- The two types that are written with a body between braces. -/
inductive Body where
  | record
  | choice

/-- The node around such a type. -/
def Body.kind : Body → Kind
  | record => .record
  | choice => .choice

/-- How messages call such a type. -/
def Body.name : Body → String
  | record => "record"
  | choice => "choice"

mutual

/-- A type; `context` says what it follows. Nothing is placed if no type starts here. -/
def type : (steps : Nat) → (context : String) → Parse Unit
  | 0, _ => recordDefect .outOfSteps
  | steps + 1, context => do
    if ← isHalted then return
    match ← current with
    | some .kwRecord =>
      if ← enter then
        body steps .record
        leave
    | some .kwChoice =>
      if ← enter then
        body steps .choice
        leave
    | some .id =>
      -- a name in front of an equals sign is left to the next declaration
      if ← atDeclStart then report .expectedType (some context)
      else if ← enter then
        reference steps
        leave
    | _ => report .expectedType (some context)

/-- A keyword and entries between braces. -/
def body : (steps : Nat) → Body → Parse Unit
  | 0, _ => recordDefect .outOfSteps
  | steps + 1, form => do
    -- a second look at the keyword, of which the form is known already
    let _ ← current
    node form.kind do
      bump
      if ← currentIs .braceOpen then
        openDelimiter
        bump
        entries steps form
        closeDelimiter .braceClose .unclosedBrace form.name
      else report .expectedBraceOpen (some ("to open the " ++ form.name ++ " body"))

/-- Entries up to the closing brace, the end of the text or the next declaration. -/
def entries : (steps : Nat) → Body → Parse Unit
  | 0, _ => recordDefect .outOfSteps
  | steps + 1, form => do
    if ← isDone then return
    match ← current with
    | none | some .braceClose => return
    | some .id =>
      if ← atDeclStart then return
      node .entry do
        bump
        expect .colon .expectedColon
        type steps "after `:`"
    | _ => recover .expectedEntryName ("inside `\x7b \x7d` of " ++ form.name) .entryRecovery
    let _ ← eat .comma
    entries steps form

/-- A name, perhaps qualified, perhaps applied. -/
def reference : (steps : Nat) → Parse Unit
  | 0 => recordDefect .outOfSteps
  | steps + 1 => node .ref do
    bump
    if ← eat .dot then
      if !(← eat .id) then report .expectedTypeName (some "after `.`")
    if ← currentIs .parenOpen then
      node .args do
        openDelimiter
        bump
        if ← currentIs .parenClose then report .emptyList (some "drop `()` or pass a type")
        else arguments steps
        closeDelimiter .parenClose .unclosedParen "argument list"

/-- Types separated by commas. -/
def arguments : (steps : Nat) → Parse Unit
  | 0 => recordDefect .outOfSteps
  | steps + 1 => do
    if ← currentIn .typeFirst then type steps "in argument list"
    else recover .expectedType "in argument list" .listRecovery
    if !(← isDone) then
      if ← eat .comma then arguments steps

end

/-! ## Declarations -/

/-- Names separated by commas. -/
def parameters : (steps : Nat) → Parse Unit
  | 0 => recordDefect .outOfSteps
  | steps + 1 => do
    if !(← eat .id) then recover .expectedParamName "inside `( )`" .listRecovery
    if ← eat .comma then parameters steps

/-- A name, perhaps with parameters, and a type. -/
def declaration (steps : Nat) : Parse Unit := do
  if !(← currentIs .id) then recordDefect .notAName
  node .decl do
    bump
    if ← currentIs .parenOpen then
      node .params do
        openDelimiter
        bump
        if ← currentIs .parenClose then report .emptyList (some "drop `()` or name a parameter")
        else parameters steps
        closeDelimiter .parenClose .unclosedParen "parameter list"
    expect .equals .expectedEquals
    type steps "after `=`"

def header : Parse Unit := do
  if ← currentIs .kwModule then
    node .moduleHeader do
      bump
      if !(← eat .id) then report .expectedModuleName (some "after `module`")
  else report .expectedModuleHeader none

/-- A header in a place where none is allowed. -/
def repeatedHeader : Parse Unit :=
  node .moduleHeader do
    report .duplicateModuleHeader none
    bump
    let _ ← eat .id

/-- Declarations up to the end of the text. -/
def declarations (total : Nat) : (steps : Nat) → Parse Unit
  | 0 => recordDefect .outOfSteps
  | steps + 1 => do
    if ← isDone then return
    if (← current).isNone then return
    match ← current with
    | some .id => declaration total
    | some .kwModule => repeatedHeader
    | _ =>
      recover .unexpectedToken "expected a declaration like `Name = Type`" .declRecovery
    declarations total steps

/-- A whole text. -/
def root (steps : Nat) : Parse Tree :=
  wrap .root do
    header
    declarations steps steps
    eatTrivia

end SchemaCodec.Syntax.Grammar
