import SchemaCodec.Builtin

/-!
# The type graph

A graph maps keys to resolved types whose references point back into it, in insertion order. It may
be cyclic. Chasing a reference is bounded by the number of entries: an acyclic chain visits each
entry at most once, so a walk that is still on a reference after that many steps is on a cycle,
and the walk ends on a reference exactly when no shape can be reached.
-/

namespace SchemaCodec

/-- Resolved types under their keys, in insertion order. -/
structure Graph where
  entries : Members Key Ty
deriving DecidableEq

namespace Graph

/-- The graph that holds the builtin shapes alone. -/
def builtins : Graph :=
  ⟨Builtin.all.filterMap fun b ↦ b.shape?.map fun shape ↦ (.builtin b.name, shape)⟩

/-- Adds an entry, or replaces the one under `key` where it stands. -/
def insert (graph : Graph) (key : Key) (ty : Ty) : Graph := ⟨Members.put key ty graph.entries⟩

def get? (graph : Graph) (key : Key) : Option Ty := Members.get? key graph.entries

def contains (graph : Graph) (key : Key) : Bool := (graph.get? key).isSome

def position? (graph : Graph) (key : Key) : Option Nat := Members.position? key graph.entries

def size (graph : Graph) : Nat := graph.entries.length

/-- Follows references for at most the given number of steps. -/
def follow (graph : Graph) : Nat → Ty → Ty
  | steps + 1, .ref key =>
    match graph.get? key with
    | some next => graph.follow steps next
    | none => .ref key
  | _, ty => ty

/-- Chases references until a shape appears. The result is a reference when its target is absent
or the chain runs in a circle. -/
def resolve (graph : Graph) (ty : Ty) : Ty := graph.follow (graph.size + 1) ty

end Graph

end SchemaCodec
