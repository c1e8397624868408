import Mathlib.Data.List.Basic
import SchemaCodec.Proofs.Canonical
import SchemaCodec.Proofs.Wire.Form

/-!
# Values of a type

A value fits a type if it can be taken apart along the type: every field that is declared is there,
every variant is one of the choice, and so on inwards. Fields that are not declared do not matter.
Whether a value fits does not depend on how deep it is, on the size of its integers or on whether
its floats are numbers, so writing in any format finds out about these on top.

The definition follows the derivation and not the value or the type. Both may be taken apart
further than the other, and the graph may be cyclic.
-/

namespace SchemaCodec

/-! ## Contents under the names of entries -/

namespace Members

variable {κ α β : Type} [DecidableEq κ]

/-- Where no key is given twice, what is made of an entry is found under its key. -/
theorem get?_map_of_mem {entries : Members κ α} {g : κ × α → β} (h : entries.keys.Nodup)
    {entry : κ × α} (hmem : entry ∈ entries) :
    get? entry.1 (entries.map fun e ↦ (e.1, g e)) = some (g entry) := by
  refine get?_of_mem ?_ (List.mem_map.mpr ⟨entry, hmem, rfl⟩)
  rwa [keys, List.map_map]

end Members

namespace Value

/-! ## Floats -/

def float? : Value → Option Binary64
  | float x => some x
  | _ => Option.none

/-- The floats at all depths. -/
def floats (value : Value) : List Binary64 := value.parts.filterMap float?

@[simp] theorem floats_array (items : List Value) :
    (array items).floats = items.flatMap floats := by
  rw [floats, parts, itemsParts_eq, List.filterMap_cons_none rfl, List.filterMap_flatMap]
  rfl

@[simp] theorem floats_record (fields : List (String × Value)) :
    (record fields).floats = fields.flatMap fun field ↦ field.2.floats := by
  rw [floats, parts, fieldsParts_eq, List.filterMap_cons_none rfl, List.filterMap_flatMap]
  rfl

@[simp] theorem floats_choice (variant : String) (payload : Value) :
    (choice variant payload).floats = payload.floats := by
  rw [floats, parts, List.filterMap_cons_none rfl, floats]

/-! ## Fitting -/

/-- A value can be taken apart along a type. -/
inductive Fits (graph : Graph) : Ty → Value → Prop where
  | none {ty : Ty} (shape : graph.resolve ty = .none) : Fits graph ty .none
  | boolean {ty : Ty} (shape : graph.resolve ty = .boolean) (b : Bool) : Fits graph ty (.boolean b)
  | integer {ty : Ty} (shape : graph.resolve ty = .integer) (i : Int) : Fits graph ty (.integer i)
  | float {ty : Ty} (shape : graph.resolve ty = .float) (x : Binary64) : Fits graph ty (.float x)
  | string {ty : Ty} (shape : graph.resolve ty = .string) (s : String) : Fits graph ty (.string s)
  | bytes {ty : Ty} (shape : graph.resolve ty = .bytes) (bs : List UInt8) :
    Fits graph ty (.bytes bs)
  | array {ty element : Ty} {items : List Value} (shape : graph.resolve ty = .array element)
    (each : ∀ item ∈ items, Fits graph element item) : Fits graph ty (.array items)
  | record {ty : Ty} {entries : List (String × Ty)} {fields : Members String Value}
    {field : String × Ty → Value} (shape : graph.resolve ty = .record entries)
    (get : ∀ entry ∈ entries, Members.get? entry.1 fields = some (field entry))
    (each : ∀ entry ∈ entries, Fits graph entry.2 (field entry)) : Fits graph ty (.record fields)
  | choice {ty : Ty} {entries : List (String × Ty)} {variant : String} {payloadTy : Ty}
    {payload : Value} (shape : graph.resolve ty = .choice entries)
    (get : Members.get? variant entries = some payloadTy) (own : Fits graph payloadTy payload) :
    Fits graph ty (.choice variant payload)

section

variable {graph : Graph} {ty : Ty} {value : Value}

/-- Of a record that has the declared fields, these are kept. -/
theorem canon_record_of_fields {entries : List (String × Ty)} {fields : Members String Value}
    {field : String × Ty → Value} (hshape : graph.resolve ty = .record entries)
    (hnodup : (entries.map Prod.fst).Nodup)
    (hget : ∀ entry ∈ entries, Members.get? entry.1 fields = some (field entry)) :
    canon graph ty (.record fields)
      = .record (entries.map fun entry ↦ (entry.1, (field entry).canon graph entry.2)) := by
  have hkept : entries.filterMap (kept graph fields)
      = entries.map fun entry ↦ (entry.1, (field entry).canon graph entry.2) := by
    rw [← List.filterMap_eq_map]
    refine List.filterMap_congr fun entry hentry ↦ ?_
    rw [kept, hget entry hentry]
    rfl
  rw [canon_record fields hshape, hkept, Members.ofPairs_of_nodup]
  rwa [List.map_map]

end

end Value

/-! ## Fitting and writing -/

namespace Wire

open Value

variable {graph : Graph} {ty : Ty} {value : Value}

theorem exists_of_join {α : Type} {part : α → Except WireError (List UInt8)} {items : List α}
    {bytes : List UInt8} (h : join part items = .ok bytes) {a : α} (ha : a ∈ items) :
    ∃ own, part a = .ok own := by
  induction items generalizing bytes with
  | nil => exact absurd ha List.not_mem_nil
  | cons b rest ih =>
    obtain ⟨first, others, hfirst, hothers, -⟩ := join_cons_ok h
    rcases List.mem_cons.mp ha with rfl | ha
    · exact ⟨first, hfirst⟩
    · exact ih hothers ha

/-- What can be written fits, by induction on the levels. -/
theorem fits_of_form {levels : Nat} {bytes : List UInt8}
    (h : form graph levels ty value = .ok bytes) : Fits graph ty value := by
  induction levels generalizing ty value bytes with
  | zero => cases h
  | succ levels ih =>
    cases formed_of_form h with
    | none hshape => exact .none hshape
    | boolean hshape b => exact .boolean hshape b
    | integer hshape i => exact .integer hshape i
    | float hshape x => exact .float hshape x
    | string hshape s => exact .string hshape s
    | bytes hshape bs => exact .bytes hshape bs
    | array hshape hparts =>
      refine .array hshape fun item hitem ↦ ?_
      obtain ⟨own, hown⟩ := exists_of_join hparts hitem
      exact ih hown
    | @record entries hshape fields _ hparts =>
      have hfield : ∀ entry ∈ entries, ∃ field, Members.get? entry.1 fields = some field ∧
          Fits graph entry.2 field := by
        intro entry hentry
        obtain ⟨own, hown⟩ := exists_of_join hparts hentry
        obtain ⟨field, hfield, hform⟩ := bind_ok hown
        exact ⟨field, get?_of_fieldOf hfield, ih hform⟩
      choose! field hget hfits using hfield
      exact .record hshape hget hfits
    | choice hshape hget _ hpart => exact .choice hshape hget (ih hpart)

/-- What fits can be written, unless it is too deep, by induction on why it fits. -/
theorem form_of_fits (h : Fits graph ty value) (levels : Nat) :
    Ends (fun _ ↦ True) (· = .depthLimitExceeded maxDepth) (form graph levels ty value) := by
  induction h generalizing levels with
  | none hshape | boolean hshape _ | integer hshape _ | float hshape _ | string hshape _
  | bytes hshape _ =>
    cases levels with
    | zero => exact .error rfl
    | succ levels =>
      unfold form
      rw [hshape]
      exact .ok trivial
  | array hshape _ ih =>
    cases levels with
    | zero => exact .error rfl
    | succ levels =>
      unfold form
      rw [hshape]
      exact (join_ends fun item hitem ↦ ih item hitem levels).map fun _ _ ↦ trivial
  | record hshape hget _ ih =>
    cases levels with
    | zero => exact .error rfl
    | succ levels =>
      unfold form
      rw [hshape]
      refine join_ends fun entry hentry ↦ ?_
      rw [fieldOf, hget entry hentry]
      exact ih entry hentry levels
  | choice hshape hget _ ih =>
    cases levels with
    | zero => exact .error rfl
    | succ levels =>
      obtain ⟨index, hposition, -⟩ := Members.position?_of_get? hget
      unfold form
      rw [hshape]
      dsimp only
      rw [hposition, hget]
      exact (ih levels).map fun _ _ ↦ trivial

/-- The integers that are met in writing are those of the value. -/
theorem mem_integers_of_mem_written {levels : Nat} {n : Number}
    (hn : n ∈ written graph levels ty value) (hrole : n.role = .integer) :
    n.value ∈ value.integers := by
  induction levels generalizing ty value with
  | zero => exact absurd hn List.not_mem_nil
  | succ levels ih =>
    unfold written at hn
    split at hn
    · rw [List.mem_singleton.mp hn]
      exact List.mem_singleton.mpr rfl
    · rw [List.mem_singleton.mp hn] at hrole
      cases hrole
    · rw [List.mem_singleton.mp hn] at hrole
      cases hrole
    · rcases List.mem_cons.mp hn with rfl | hn
      · cases hrole
      · obtain ⟨item, hitem, hn⟩ := mem_numbersOver hn
        exact integers_subset (parts_subset_of_item hitem) (ih hn)
    · obtain ⟨entry, -, hn⟩ := mem_numbersOver hn
      obtain ⟨field, hfield, hn⟩ := mem_after.mp hn
      have hget := Members.mem_of_get? (get?_of_fieldOf hfield)
      exact integers_subset (parts_subset_of_field hget) (ih hn)
    · split at hn
      · rcases List.mem_cons.mp hn with rfl | hn
        · cases hrole
        · exact integers_subset (parts_subset_of_payload _ _) (ih hn)
      · exact absurd hn List.not_mem_nil
    · exact absurd hn List.not_mem_nil

end Wire

end SchemaCodec
