import SchemaCodec.Diagnostic.Kind
import SchemaCodec.Span

/-!
# Diagnostics

A diagnostic says what is wrong and where. One mistake often makes several diagnostics; `filtered`
keeps those that explain the others. The range of suppression is wider than the range shown when
the diagnostic lies between delimiters: everything up to the end of the text may follow from it.
-/

namespace SchemaCodec

/-- How serious a diagnostic is. Every kind there is is an error. -/
inductive Severity where
  | error
deriving DecidableEq, Repr

def Severity.name : Severity → String
  | error => "error"

def DiagnosticKind.severity : DiagnosticKind → Severity
  | _ => .error

/-- Something wrong with a text. -/
structure Diagnostic where
  kind : DiagnosticKind
  /-- What is shown. -/
  range : Span
  /-- Where it may explain others. -/
  suppression : Span
  message : String
  /-- Further places with what they have to do with it. -/
  related : List (String × Span)
deriving DecidableEq, Repr

namespace Diagnostic

/-- A diagnostic that explains others only where it is shown. -/
def plain (kind : DiagnosticKind) (range : Span) (detail : Option String) : Diagnostic :=
  ⟨kind, range, range, kind.message detail, []⟩

def isError (d : Diagnostic) : Bool := d.kind.severity = .error

def placeText (range : Span) : String := s!"{range.start}..{range.stop}"

/-- The diagnostic on one line. -/
def text (d : Diagnostic) : String :=
  d.kind.severity.name ++ " at " ++ placeText d.range ++ ": " ++ d.message ++
    String.join (d.related.map fun (message, range) ↦
      " (related: " ++ message ++ " at " ++ placeText range ++ ")")

/-- Diagnostics one a line. -/
def listText (ds : List Diagnostic) : String := "\n".intercalate (ds.map text)

/-! ## Filtering -/

/-- Whether `a` explains `b`: `b` lies strictly within the reach of an `a` of higher priority, or
both start at one place and `a` is a missing part where `b` is an open delimiter, or `a` has
priority and the reverse is not the case. -/
def dominates (a b : Diagnostic) : Bool :=
  (a.suppression.strictlyContains b.range && a.kind.outranks b.kind) ||
    (a.range.start = b.range.start &&
      ((a.kind.isRootCause && b.kind.isStructural) ||
        (!(a.kind.isStructural && b.kind.isRootCause) && a.kind.outranks b.kind)))

/-- Marks what the diagnostic at a position explains. -/
def markFrom (position : Nat) (a : Diagnostic) (ds : List (Diagnostic × Bool)) :
    List (Diagnostic × Bool) :=
  ds.mapIdx fun j (b, hidden) ↦ (b, hidden || (j != position && a.dominates b))

/-- Goes through the positions from `position` on: each diagnostic that is not hidden by then hides
what it explains. -/
def hideFrom : (count position : Nat) → List (Diagnostic × Bool) → List (Diagnostic × Bool)
  | 0, _, ds => ds
  | count + 1, position, ds =>
    match ds[position]? with
    | some (a, false) => hideFrom count (position + 1) (markFrom position a ds)
    | _ => hideFrom count (position + 1) ds

/-- The diagnostics without those that others explain, in order. -/
def filtered (ds : List Diagnostic) : List Diagnostic :=
  ((hideFrom ds.length 0 (ds.map fun d ↦ (d, false))).filter fun p ↦ !p.2).map Prod.fst

end Diagnostic

end SchemaCodec
