import SchemaCodec.Json.Reader

/-!
# JSON texts, read for a known shape

A reader that knows which members it wants passes over all others. What is passed over has to follow
the grammar and nothing more: its numbers may be too large, its escapes may be lone surrogates, and
it may nest to any depth. So passing over is not reading and dropping, but a walk of its own, which
keeps the arrays and objects that are open on a list instead of recursing into them.
-/

namespace SchemaCodec.Json

/-! ## Passing over -/

/-- Passes over a string after its opening quote. -/
def skipString : List Char → Option (List Char)
  | [] => none
  | '"' :: rest => some rest
  | '\\' :: 'u' :: a :: b :: c :: d :: rest =>
    if (unit? a b c d).isSome then skipString rest else none
  | '\\' :: c :: rest => if (escaped? c).isSome then skipString rest else none
  | c :: rest => if c.toNat < 0x20 ∨ c = '\\' then none else skipString rest

/-- Passes over a key and its colon. -/
def skipKey (cs : List Char) : Option (List Char) :=
  match skipBlank cs with
  | '"' :: cs => do
    match skipBlank (← skipString cs) with
    | ':' :: cs => some cs
    | _ => none
  | _ => none

/-- Passes over a value that is neither array nor object. -/
def skipScalar : List Char → Option (List Char)
  | '"' :: cs => skipString cs
  | 'n' :: cs => (word? "ull" .null cs).map Prod.snd
  | 't' :: cs => (word? "rue" .null cs).map Prod.snd
  | 'f' :: cs => (word? "alse" .null cs).map Prod.snd
  | cs => (numberParts? cs).map Prod.snd

/-- An array or an object that is open. -/
inductive Bracket where
  | square | curly

/-- Passes over what closes the brackets that are open, the innermost first. Next comes a value, or
what may follow one. -/
def skipOpen : (fuel : Nat) → (brackets : List Bracket) → (atValue : Bool) → List Char →
    Option (List Char)
  | 0, _, _, _ => none
  | _ + 1, [], false, cs => some cs
  | fuel + 1, .square :: outer, false, cs =>
    match skipBlank cs with
    | ',' :: cs => skipOpen fuel (.square :: outer) true cs
    | ']' :: cs => skipOpen fuel outer false cs
    | _ => none
  | fuel + 1, .curly :: outer, false, cs =>
    match skipBlank cs with
    | ',' :: cs => do skipOpen fuel (.curly :: outer) true (← skipKey cs)
    | '}' :: cs => skipOpen fuel outer false cs
    | _ => none
  | fuel + 1, outer, true, cs =>
    match skipBlank cs with
    | '[' :: cs =>
      match skipBlank cs with
      | ']' :: cs => skipOpen fuel outer false cs
      | cs => skipOpen fuel (.square :: outer) true cs
    | '{' :: cs =>
      match skipBlank cs with
      | '}' :: cs => skipOpen fuel outer false cs
      | cs => do skipOpen fuel (.curly :: outer) true (← skipKey cs)
    | cs => do skipOpen fuel outer false (← skipScalar cs)

/-- Passes over a value in a text of at most `length` characters. Every step but the last takes a
character. -/
def skipValue (length : Nat) (cs : List Char) : Option (List Char) :=
  skipOpen (length + 2) [] true cs

/-! ## Reading -/

/-- What is known of a value before it is read. A value with known parts is an object, where the
parts go by name, or an array, where they go by position. -/
inductive Shape where
  | any
  | items (each : Shape)
  | parts (known : List (String × Shape))

/-- Reads a value of a shape; one that does not have the shape is read for what it is. The content
of a member without a part is passed over and stands as `null`. -/
def readShaped (length : Nat) : (levels : Nat) → Shape → List Char → Option (Json × List Char)
  | levels + 1, .items each, cs =>
    match skipBlank cs with
    | '[' :: cs =>
      match skipBlank cs with
      | ']' :: rest => some (.array [], rest)
      | _ => readItems (fun _ ↦ readShaped length levels each) length 0 [] cs
    | cs => readValue length (levels + 1) cs
  | levels + 1, .parts known, cs =>
    match skipBlank cs with
    | '[' :: cs =>
      match skipBlank cs with
      | ']' :: rest => some (.array [], rest)
      | _ =>
        readItems (fun position ↦
          readShaped length levels ((known[position]?).elim .any Prod.snd)) length 0 [] cs
    | '{' :: cs =>
      match skipBlank cs with
      | '}' :: rest => some (.object [], rest)
      | _ =>
        readMembers (fun key cs ↦
          match Members.get? key known with
          | some shape => readShaped length levels shape cs
          | none => (skipValue length cs).map fun rest ↦ (.null, rest)) length [] cs
    | cs => readValue length (levels + 1) cs
  | levels, _, cs => readValue length levels cs

/-- Reads a text that holds one value of a shape and blanks. -/
def parseShaped? (shape : Shape) (s : String) : Option Json :=
  ofWhole (readShaped s.toList.length maxNesting shape) s

end SchemaCodec.Json
