import Mathlib.Algebra.Ring.Nat
import SchemaCodec.Graph
import SchemaCodec.Proofs.Members
import SchemaCodec.Text
import SchemaCodec.Value

/-!
# Parts of types and values

What is said of a type or a value "at all depths" is said of the list of its parts, the whole first.
The recursion through lists of entries and fields is done once, here; repeated names, references and
the elements of arrays are then questions about members of one list.

A property of types is carried by a graph `Everywhere` when it holds at all parts of one type and of
every entry. This is the form in which it survives the chasing of a reference and the descent into
what was found, so every traversal keeps it.
-/

namespace SchemaCodec

/-! ## Types -/

namespace Ty

/-- The entries of a record or choice. -/
def entries : Ty → List (String × Ty)
  | record entries => entries
  | choice entries => entries
  | _ => []

mutual

/-- The type and everything nested in it. References are parts, their targets are not. -/
def parts : Ty → List Ty
  | array element => array element :: element.parts
  | record entries => record entries :: entriesParts entries
  | choice entries => choice entries :: entriesParts entries
  | ty => [ty]

def entriesParts : List (String × Ty) → List Ty
  | [] => []
  | (_, ty) :: rest => ty.parts ++ entriesParts rest

end

@[simp] theorem entriesParts_eq (entries : List (String × Ty)) :
    entriesParts entries = entries.flatMap fun entry ↦ entry.2.parts := by
  induction entries with
  | nil => rfl
  | cons entry rest ih => rw [entriesParts, ih, List.flatMap_cons]

@[simp] theorem self_mem_parts (ty : Ty) : ty ∈ ty.parts := by
  cases ty <;> simp [parts]

/-- What is nested one level down in a type. -/
def Child (child ty : Ty) : Prop :=
  ty = array child ∨ ∃ entry ∈ ty.entries, entry.2 = child

theorem Child.element (element : Ty) : Child element (array element) := .inl rfl

theorem Child.entry {ty : Ty} {entry : String × Ty} (h : entry ∈ ty.entries) : Child entry.2 ty :=
  .inr ⟨entry, h, rfl⟩

theorem parts_subset_of_child {child ty : Ty} (h : Child child ty) : child.parts ⊆ ty.parts := by
  intro part hpart
  rcases h with rfl | ⟨entry, hmem, rfl⟩
  · rw [parts]
    exact List.mem_cons_of_mem _ hpart
  · cases ty with
    | record es | choice es =>
      rw [parts, entriesParts_eq]
      exact List.mem_cons_of_mem _ (List.mem_flatMap.mpr ⟨entry, hmem, hpart⟩)
    | _ => exact absurd hmem (by simp [entries])

/-- No record or choice in the type gives a name twice. -/
def DistinctNames (ty : Ty) : Prop := ∀ part ∈ ty.parts, (part.entries.map Prod.fst).Nodup

/-- No list of entries in the type is longer than a list in memory can be. -/
def Addressable (ty : Ty) : Prop := ∀ part ∈ ty.parts, part.entries.length < 2 ^ 63

instance : DecidablePred DistinctNames := fun _ ↦ inferInstanceAs (Decidable (∀ part ∈ _, _))

instance : DecidablePred Addressable := fun _ ↦ inferInstanceAs (Decidable (∀ part ∈ _, _))

end Ty

/-! ## Graphs -/

namespace Graph

/-- No entry of the graph has a record or choice that gives a name twice. -/
def DistinctNames (graph : Graph) : Prop := ∀ entry ∈ graph.entries, entry.2.DistinctNames

/-- No list of entries in the graph is longer than a list in memory can be. -/
def Addressable (graph : Graph) : Prop := ∀ entry ∈ graph.entries, entry.2.Addressable

instance : DecidablePred DistinctNames := fun _ ↦ inferInstanceAs (Decidable (∀ entry ∈ _, _))

instance : DecidablePred Addressable := fun _ ↦ inferInstanceAs (Decidable (∀ entry ∈ _, _))

/-- A property holds at all parts of a type and of the types that its references can lead to. -/
def Everywhere (p : Ty → Prop) (graph : Graph) (ty : Ty) : Prop :=
  (∀ part ∈ ty.parts, p part) ∧ ∀ entry ∈ graph.entries, ∀ part ∈ entry.2.parts, p part

theorem mem_of_get? {graph : Graph} {key : Key} {ty : Ty} (h : graph.get? key = some ty) :
    (key, ty) ∈ graph.entries := Members.mem_of_get? h

namespace Everywhere

variable {p : Ty → Prop} {graph : Graph} {ty : Ty}

theorem self (h : Everywhere p graph ty) : p ty := h.1 ty ty.self_mem_parts

theorem child (h : Everywhere p graph ty) {child : Ty} (hc : Ty.Child child ty) :
    Everywhere p graph child :=
  ⟨fun part hpart ↦ h.1 part (Ty.parts_subset_of_child hc hpart), h.2⟩

theorem follow (h : Everywhere p graph ty) (steps : Nat) :
    Everywhere p graph (graph.follow steps ty) := by
  fun_induction Graph.follow graph steps ty with
  | case1 steps key next hget ih => exact ih ⟨h.2 _ (mem_of_get? hget), h.2⟩
  | case2 => exact h
  | case3 => exact h

theorem resolve (h : Everywhere p graph ty) : Everywhere p graph (graph.resolve ty) := h.follow _

theorem element (h : Everywhere p graph ty) {element : Ty}
    (hr : graph.resolve ty = .array element) : Everywhere p graph element :=
  h.resolve.child (hr ▸ Ty.Child.element element)

theorem entry (h : Everywhere p graph ty) {shape : Ty} (hr : graph.resolve ty = shape)
    {entry : String × Ty} (hmem : entry ∈ shape.entries) : Everywhere p graph entry.2 :=
  h.resolve.child (hr ▸ Ty.Child.entry hmem)

end Everywhere

theorem everywhere_true (graph : Graph) (ty : Ty) : Everywhere (fun _ ↦ True) graph ty :=
  ⟨fun _ _ ↦ trivial, fun _ _ _ _ ↦ trivial⟩

/-- Among the types of which a property holds everywhere, one leads to this key and no further. -/
def Stuck (p : Ty → Prop) (graph : Graph) (key : Key) : Prop :=
  ∃ ty, graph.Everywhere p ty ∧ graph.resolve ty = .ref key

theorem DistinctNames.everywhere {graph : Graph} {ty : Ty} (hg : graph.DistinctNames)
    (ht : ty.DistinctNames) :
    Everywhere (fun part ↦ (part.entries.map Prod.fst).Nodup) graph ty := ⟨ht, hg⟩

theorem Addressable.everywhere {graph : Graph} {ty : Ty} (hg : graph.Addressable)
    (ht : ty.Addressable) : Everywhere (fun part ↦ part.entries.length < 2 ^ 63) graph ty :=
  ⟨ht, hg⟩

end Graph

/-! ## Values -/

namespace Value

mutual

/-- The value and everything nested in it. -/
def parts : Value → List Value
  | array items => array items :: itemsParts items
  | record fields => record fields :: fieldsParts fields
  | choice variant payload => choice variant payload :: payload.parts
  | value => [value]

def itemsParts : List Value → List Value
  | [] => []
  | item :: rest => item.parts ++ itemsParts rest

def fieldsParts : List (String × Value) → List Value
  | [] => []
  | (_, value) :: rest => value.parts ++ fieldsParts rest

end

@[simp] theorem itemsParts_eq (items : List Value) : itemsParts items = items.flatMap parts := by
  induction items with
  | nil => rfl
  | cons item rest ih => rw [itemsParts, ih, List.flatMap_cons]

@[simp] theorem fieldsParts_eq (fields : List (String × Value)) :
    fieldsParts fields = fields.flatMap fun field ↦ field.2.parts := by
  induction fields with
  | nil => rfl
  | cons field rest ih => rw [fieldsParts, ih, List.flatMap_cons]

@[simp] theorem self_mem_parts (value : Value) : value ∈ value.parts := by
  cases value <;> simp [parts]

theorem parts_subset_of_item {items : List Value} {item : Value} (h : item ∈ items) :
    item.parts ⊆ (array items).parts := by
  intro part hpart
  rw [parts, itemsParts_eq]
  exact List.mem_cons_of_mem _ (List.mem_flatMap.mpr ⟨item, h, hpart⟩)

theorem parts_subset_of_field {fields : List (String × Value)} {field : String × Value}
    (h : field ∈ fields) : field.2.parts ⊆ (record fields).parts := by
  intro part hpart
  rw [parts, fieldsParts_eq]
  exact List.mem_cons_of_mem _ (List.mem_flatMap.mpr ⟨field, h, hpart⟩)

theorem parts_subset_of_payload (variant : String) (payload : Value) :
    payload.parts ⊆ (choice variant payload).parts := by
  intro part hpart
  rw [parts]
  exact List.mem_cons_of_mem _ hpart

/-- The length of a payload or the number of items; nothing else has a length on the wire. -/
def extent : Value → Nat
  | string s => (Text.toBytes s).length
  | bytes bs => bs.length
  | array items => items.length
  | _ => 0

/-- No payload and no array in the value is longer than a list in memory can be. -/
def Addressable (value : Value) : Prop := ∀ part ∈ value.parts, part.extent < 2 ^ 63

instance : DecidablePred Addressable := fun _ ↦ inferInstanceAs (Decidable (∀ part ∈ _, _))

namespace Addressable

theorem item {items : List Value} (h : (array items).Addressable) {item : Value}
    (hmem : item ∈ items) : item.Addressable :=
  fun part hpart ↦ h part (parts_subset_of_item hmem hpart)

theorem field {fields : List (String × Value)} (h : (record fields).Addressable)
    {field : String × Value} (hmem : field ∈ fields) : field.2.Addressable :=
  fun part hpart ↦ h part (parts_subset_of_field hmem hpart)

theorem payload {variant : String} {payload : Value} (h : (choice variant payload).Addressable) :
    payload.Addressable :=
  fun part hpart ↦ h part (parts_subset_of_payload variant payload hpart)

end Addressable

/-- The number of items of an array, those nested in them apart. -/
def ownElements : Value → Nat
  | array items => items.length
  | _ => 0

/-- The number of array elements at all depths. -/
def elements (value : Value) : Nat := (value.parts.map ownElements).sum

def integer? : Value → Option Int
  | integer i => some i
  | _ => Option.none

/-- The integers at all depths. -/
def integers (value : Value) : List Int := value.parts.filterMap integer?

theorem sum_itemsParts (items : List Value) :
    ((itemsParts items).map ownElements).sum = (items.map elements).sum := by
  induction items with
  | nil => rfl
  | cons item rest ih =>
    rw [itemsParts, List.map_append, List.sum_append, ih, List.map_cons, List.sum_cons, elements]

theorem sum_fieldsParts (fields : List (String × Value)) :
    ((fieldsParts fields).map ownElements).sum
      = (fields.map fun field ↦ field.2.elements).sum := by
  induction fields with
  | nil => rfl
  | cons field rest ih =>
    rw [fieldsParts, List.map_append, List.sum_append, ih, List.map_cons, List.sum_cons, elements]

@[simp] theorem elements_array (items : List Value) :
    (array items).elements = items.length + (items.map elements).sum := by
  rw [elements, parts, List.map_cons, List.sum_cons, sum_itemsParts]
  rfl

@[simp] theorem elements_record (fields : List (String × Value)) :
    (record fields).elements = (fields.map fun field ↦ field.2.elements).sum := by
  rw [elements, parts, List.map_cons, List.sum_cons, sum_fieldsParts]
  exact Nat.zero_add _

@[simp] theorem elements_choice (variant : String) (payload : Value) :
    (choice variant payload).elements = payload.elements := by
  rw [elements, parts, List.map_cons, List.sum_cons]
  exact Nat.zero_add _

theorem integers_subset {part value : Value} (h : part.parts ⊆ value.parts) :
    part.integers ⊆ value.integers := by
  intro i hi
  obtain ⟨found, hmem, hfound⟩ := List.mem_filterMap.mp hi
  exact List.mem_filterMap.mpr ⟨found, h hmem, hfound⟩

end Value

end SchemaCodec
