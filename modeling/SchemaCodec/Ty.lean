import SchemaCodec.Key
import SchemaCodec.Kind
import SchemaCodec.Members

/-!
# Resolved types

A resolved type carries no generic arguments: each application has been replaced by a reference
to a named entry of the graph. Nested references stay in place, which is how a finite graph
presents recursive types.

The text of a type doubles as the name of a generic instance, so it is part of the graph and not
only of the output.
-/

namespace SchemaCodec

/-- A type in which only named references remain to be looked up. -/
inductive Ty where
  | none
  | boolean
  | integer
  | float
  | string
  | bytes
  | array (element : Ty)
  | record (entries : List (String × Ty))
  | choice (entries : List (String × Ty))
  | ref (key : Key)
deriving Inhabited

namespace Ty

/-- The outermost constructor. -/
def kind : Ty → Kind
  | none => .none
  | boolean => .boolean
  | integer => .integer
  | float => .float
  | string => .string
  | bytes => .bytes
  | array _ => .array
  | record _ => .record
  | choice _ => .choice
  | ref _ => .ref

/-- What an optional value of type `value` is: either `none` or a `value`. -/
def optional (value : Ty) : Ty :=
  choice [("none", ref (.builtin "None")), ("value", value)]

def key? : Ty → Option Key
  | ref key => some key
  | _ => Option.none

mutual

def text : Ty → String
  | array element => "Array(" ++ element.text ++ ")"
  | record entries => "Record \x7b " ++ entriesText entries ++ " \x7d"
  | choice entries => "Choice \x7b " ++ entriesText entries ++ " \x7d"
  | ref key => key.text
  | none => Kind.none.name
  | boolean => Kind.boolean.name
  | integer => Kind.integer.name
  | float => Kind.float.name
  | string => Kind.string.name
  | bytes => Kind.bytes.name

/-- Entries as name and type, separated by commas. -/
def entriesText : List (String × Ty) → String
  | [] => ""
  | (name, ty) :: rest => name ++ ": " ++ ty.text ++ furtherText rest

/-- Entries that follow another one. -/
def furtherText : List (String × Ty) → String
  | [] => ""
  | (name, ty) :: rest => ", " ++ (name ++ ": " ++ ty.text ++ furtherText rest)

end

mutual

/-- The number of constructors in a type. -/
def size : Ty → Nat
  | array element => 1 + element.size
  | record entries => 1 + entriesSize entries
  | choice entries => 1 + entriesSize entries
  | _ => 1

def entriesSize : List (String × Ty) → Nat
  | [] => 0
  | (_, ty) :: rest => ty.size + entriesSize rest

end

/-! ## Equality

Generic instances are found again by their arguments, so types need decidable equality. -/

mutual

def eqb : Ty → Ty → Bool
  | none, none | boolean, boolean | integer, integer => true
  | float, float | string, string | bytes, bytes => true
  | array s, array t => eqb s t
  | record as, record bs => eqbEntries as bs
  | choice as, choice bs => eqbEntries as bs
  | ref k, ref l => k = l
  | _, _ => false

/-- Whether two entry lists agree in names, types and order. -/
def eqbEntries : List (String × Ty) → List (String × Ty) → Bool
  | [], [] => true
  | (m, s) :: as, (n, t) :: bs => m = n && eqb s t && eqbEntries as bs
  | _, _ => false

end

mutual

theorem eqb_iff : (a b : Ty) → (eqb a b = true ↔ a = b)
  | none, b | boolean, b | integer, b | float, b | string, b | bytes, b => by
    cases b <;> simp [eqb]
  | array s, b => by cases b <;> simp [eqb, eqb_iff s]
  | record as, b => by cases b <;> simp [eqb, eqbEntries_iff as]
  | choice as, b => by cases b <;> simp [eqb, eqbEntries_iff as]
  | ref k, b => by cases b <;> simp [eqb]

theorem eqbEntries_iff : (as bs : List (String × Ty)) → (eqbEntries as bs = true ↔ as = bs)
  | [], bs => by cases bs <;> simp [eqbEntries]
  | (m, s) :: as, bs => by
    cases bs with
    | nil => simp [eqbEntries]
    | cons b bs => simp [eqbEntries, eqb_iff s, eqbEntries_iff as, Prod.ext_iff]

end

instance : DecidableEq Ty := fun a b ↦ decidable_of_iff (eqb a b = true) (eqb_iff a b)

end Ty

end SchemaCodec
