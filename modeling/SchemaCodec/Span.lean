/-!
# Spans

A part of a text, by the offsets of its UTF-8 bytes. Offsets have no bound here. Where they are kept
in 32 bits they are the same as long as the text is shorter than 4 GiB, and what is proved about
spans is about such texts.
-/

namespace SchemaCodec

/-- The bytes from `start` up to, not including, `stop`. The offsets fit in 32 bits for every text
shorter than 4 GiB. -/
structure Span where
  start : Nat
  stop : Nat
deriving DecidableEq, Repr, Inhabited

namespace Span

/-- The span of no bytes at an offset. -/
def empty (offset : Nat) : Span := ⟨offset, offset⟩

/-- Whether `inner` begins after `outer` does and ends no later. -/
def strictlyContains (outer inner : Span) : Bool :=
  outer.start < inner.start && inner.stop ≤ outer.stop

end Span

end SchemaCodec
