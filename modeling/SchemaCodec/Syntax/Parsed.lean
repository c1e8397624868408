import SchemaCodec.Syntax.Grammar

/-!
# Parsed texts

What a parse gives: the tree of the text and the diagnostics in the order in which they arose. The
tree is complete even when there are diagnostics; only an exceeded limit leaves no result.
-/

namespace SchemaCodec.Syntax

structure Parsed where
  tree : Tree
  diagnostics : List Diagnostic

namespace Parsed

/-- The whole run of the parser: the tree, and the state after the last token. -/
def run (limits : Limits) (source : String) : Tree × State :=
  let start := State.initial source limits
  (Grammar.root (2 * start.ahead.length + 2)).run start

/-- Parses a text under limits. -/
def ofText (limits : Limits) (source : String) : Except Excess Parsed :=
  let (tree, final) := run limits source
  match final.excess with
  | some excess => .error excess
  | none => .ok ⟨tree, final.reports.reverse⟩

def hasErrors (parsed : Parsed) : Bool := parsed.diagnostics.any Diagnostic.isError

end Parsed

end SchemaCodec.Syntax
