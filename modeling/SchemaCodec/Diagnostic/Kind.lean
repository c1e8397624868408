/-!
# Kinds of diagnostics

What can be wrong with a schema text. The kinds stand in order of priority: of two diagnostics that
concern the same place, the earlier kind is the better explanation. A delimiter that is never closed
is structural; a part that is missing is a root cause.
-/

namespace SchemaCodec

/-- What a diagnostic is about, in order of priority. -/
inductive DiagnosticKind where
  | unclosedParen | unclosedBrace
  | expectedModuleHeader | expectedModuleName | expectedEquals | expectedType | expectedTypeName
  | expectedParamName | expectedEntryName | expectedColon | expectedBraceOpen
  | duplicateModuleHeader | emptyList | unexpectedToken
deriving DecidableEq, Repr, Inhabited

namespace DiagnosticKind

/-- All kinds in order of priority. -/
def all : List DiagnosticKind :=
  [unclosedParen, unclosedBrace, expectedModuleHeader, expectedModuleName, expectedEquals,
    expectedType, expectedTypeName, expectedParamName, expectedEntryName, expectedColon,
    expectedBraceOpen, duplicateModuleHeader, emptyList, unexpectedToken]

def name : DiagnosticKind → String
  | unclosedParen => "UnclosedParen"
  | unclosedBrace => "UnclosedBrace"
  | expectedModuleHeader => "ExpectedModuleHeader"
  | expectedModuleName => "ExpectedModuleName"
  | expectedEquals => "ExpectedEquals"
  | expectedType => "ExpectedType"
  | expectedTypeName => "ExpectedTypeName"
  | expectedParamName => "ExpectedParamName"
  | expectedEntryName => "ExpectedEntryName"
  | expectedColon => "ExpectedColon"
  | expectedBraceOpen => "ExpectedBraceOpen"
  | duplicateModuleHeader => "DuplicateModuleHeader"
  | emptyList => "EmptyList"
  | unexpectedToken => "UnexpectedToken"

def ofName? (text : String) : Option DiagnosticKind := all.find? (·.name = text)

def outranks (a b : DiagnosticKind) : Bool := a.ctorIdx < b.ctorIdx

/-- A delimiter that is never closed. -/
def isStructural : DiagnosticKind → Bool
  | unclosedParen | unclosedBrace => true
  | _ => false

/-- A part that is missing. -/
def isRootCause : DiagnosticKind → Bool
  | expectedModuleHeader | expectedModuleName | expectedEquals | expectedType | expectedTypeName
  | expectedParamName | expectedEntryName | expectedColon | expectedBraceOpen => true
  | _ => false

/-- The message without a detail. -/
def summary : DiagnosticKind → String
  | unclosedParen => "missing closing `)`"
  | unclosedBrace => "missing closing `\x7d`"
  | expectedModuleHeader => "expected `module` header"
  | expectedModuleName => "expected module name"
  | expectedEquals => "expected `=`"
  | expectedType => "expected a type"
  | expectedTypeName => "expected type name"
  | expectedParamName => "expected parameter name"
  | expectedEntryName => "expected entry name"
  | expectedColon => "expected `:`"
  | expectedBraceOpen => "expected `\x7b`"
  | duplicateModuleHeader => "only one `module` header is allowed"
  | emptyList => "empty list"
  | unexpectedToken => "unexpected token"

/-- What stands between the summary and a detail. -/
def separator (kind : DiagnosticKind) : String := if kind.isStructural then "; " else ": "

/-- The message with a detail, if there is one. -/
def message (kind : DiagnosticKind) : Option String → String
  | none => kind.summary
  | some detail => kind.summary ++ kind.separator ++ detail

/-- The form of a message with a detail, braces standing for the detail. -/
def template (kind : DiagnosticKind) : String := kind.message (some "\x7b\x7d")

end DiagnosticKind

end SchemaCodec
