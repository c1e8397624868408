import SchemaCodec.Proofs.Parts

/-!
# Canonical values

Under a type, a value determines its canonical form: every record has exactly the fields that its
type declares, in the order of the declaration. Two values of one canonical form cannot be told
apart on the wire, and reading gives the canonical form.

The definition recurses on the value, since the graph may be cyclic. It says nothing of values that
do not fit their type; those parts stay as they are.
-/

namespace SchemaCodec.Value

mutual

/-- The canonical form under a type whose references have been chased. -/
def canonShaped (graph : Graph) : (shape : Ty) → Value → Value
  | .array element, array items => array (canonItems graph element items)
  | .record entries, record fields =>
    record (Members.ofPairs (entries.filterMap fun entry ↦
      (canonField graph entry.1 entry.2 fields).map fun field ↦ (entry.1, field)))
  | .choice entries, choice variant payload =>
    match Members.get? variant entries with
    | some ty => choice variant (canonShaped graph (graph.resolve ty) payload)
    | Option.none => choice variant payload
  | _, value => value

def canonItems (graph : Graph) (element : Ty) : List Value → List Value
  | [] => []
  | item :: rest =>
    canonShaped graph (graph.resolve element) item :: canonItems graph element rest

/-- The canonical form of the first field of a name. -/
def canonField (graph : Graph) (name : String) (ty : Ty) : List (String × Value) → Option Value
  | [] => Option.none
  | (key, value) :: rest =>
    if key = name then some (canonShaped graph (graph.resolve ty) value)
    else canonField graph name ty rest

end

/-- The canonical form of a value under a type. -/
def canon (graph : Graph) (ty : Ty) (value : Value) : Value :=
  canonShaped graph (graph.resolve ty) value

@[simp] theorem canonItems_eq (graph : Graph) (element : Ty) (items : List Value) :
    canonItems graph element items = items.map (canon graph element) := by
  induction items with
  | nil => rfl
  | cons item rest ih => rw [canonItems, ih, List.map_cons, canon]

@[simp] theorem canonField_eq (graph : Graph) (name : String) (ty : Ty)
    (fields : Members String Value) :
    canonField graph name ty fields = (Members.get? name fields).map (canon graph ty) := by
  induction fields with
  | nil => rfl
  | cons field rest ih =>
    rw [canonField, Members.get?]
    split
    · rfl
    · exact ih

section

variable {graph : Graph} {ty : Ty}

theorem canon_array {element : Ty} (items : List Value) (h : graph.resolve ty = .array element) :
    canon graph ty (array items) = array (items.map (canon graph element)) := by
  rw [canon, h, canonShaped, canonItems_eq]

/-- The field that an entry keeps of a record. -/
def kept (graph : Graph) (fields : Members String Value) (entry : String × Ty) :
    Option (String × Value) :=
  (Members.get? entry.1 fields).map fun field ↦ (entry.1, canon graph entry.2 field)

theorem canon_record {entries : List (String × Ty)} (fields : Members String Value)
    (h : graph.resolve ty = .record entries) :
    canon graph ty (record fields)
      = record (Members.ofPairs (entries.filterMap (kept graph fields))) := by
  rw [canon, h, canonShaped]
  simp only [canonField_eq, Option.map_map]
  rfl

theorem canon_choice {entries : List (String × Ty)} {variant : String} {payloadTy : Ty}
    (payload : Value) (h : graph.resolve ty = .choice entries)
    (hget : Members.get? variant entries = some payloadTy) :
    canon graph ty (choice variant payload) = choice variant (canon graph payloadTy payload) := by
  rw [canon, h, canonShaped, hget]
  rfl

end

end SchemaCodec.Value
