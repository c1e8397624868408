/-!
# Ordered members

The fields of a record, the variants of a choice and the entries of a type graph are all lists of
keyed parts whose order shows in the output. They stay plain association lists, so that a
definition can recurse on them and a proof can induct on them. A key is looked up by its first
occurrence; writing a key that is present replaces its content and keeps its place, and writing a
new key appends it. A list built by writing therefore never holds a key twice.
-/

namespace SchemaCodec

/-- Keyed parts in a fixed order. -/
abbrev Members (κ α : Type) := List (κ × α)

namespace Members

variable {κ α : Type} [DecidableEq κ]

/-- The content under the first occurrence of `key`. -/
def get? (key : κ) : Members κ α → Option α
  | [] => none
  | (k, a) :: rest => if k = key then some a else get? key rest

/-- The position of the first occurrence of `key`. -/
def position? (key : κ) : Members κ α → Option Nat
  | [] => none
  | (k, _) :: rest => if k = key then some 0 else (position? key rest).map (· + 1)

/-- Replaces the content under `key` where it stands, or appends it. -/
def put (key : κ) (a : α) : Members κ α → Members κ α
  | [] => [(key, a)]
  | (k, b) :: rest => if k = key then (k, a) :: rest else (k, b) :: put key a rest

/-- Writes the pairs one after another: a repeated key keeps its first place and its last
content. -/
def ofPairs (pairs : List (κ × α)) : Members κ α :=
  pairs.foldl (fun ms p ↦ put p.1 p.2 ms) []

def keys (ms : Members κ α) : List κ := ms.map Prod.fst

/-! ## What writing does to the view by key -/

theorem get?_put_self (key : κ) (a : α) (ms : Members κ α) : get? key (put key a ms) = some a := by
  induction ms with
  | nil => simp [put, get?]
  | cons p rest ih =>
    by_cases h : p.1 = key
    · simp [put, get?, h]
    · simp [put, get?, h, ih]

theorem get?_put_of_ne {key other : κ} (h : other ≠ key) (a : α) (ms : Members κ α) :
    get? other (put key a ms) = get? other ms := by
  induction ms with
  | nil => simp [put, get?, h.symm]
  | cons p rest ih =>
    by_cases hp : p.1 = key
    · simp [put, get?, hp, h.symm]
    · simp only [put, hp, if_false, get?]
      rw [ih]

end Members

end SchemaCodec
