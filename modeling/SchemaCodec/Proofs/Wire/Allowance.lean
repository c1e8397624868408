import Mathlib.Algebra.BigOperators.Group.List.Basic
import SchemaCodec.Proofs.Fitting
import SchemaCodec.Proofs.Wire.RoundTrip

/-!
# The element allowance

A reader may produce one array element for each byte of its input, and the allowance on top. Every
element that takes bytes of its own is paid for by one of them, so the allowance is drawn on by
elements of no width alone, and a value with no more of them than it covers is always read back.

## Why an element owns a byte

The elements nested in a part never use up all of its bytes: an array has its count and a choice its
position in front of them, and of a record that has bytes at all some field has one to spare. So
what is shown of a part is a bound by one less than its bytes, and the byte that is left over pays
for the part itself where it is an element. Parts with no bytes have no such elements in them.
-/

namespace SchemaCodec

namespace Value

/-! ## The elements that are visited -/

mutual

/-- The array elements at all depths under a type whose references have been chased. -/
def visitedShaped (graph : Graph) : (shape : Ty) → Value → List (Ty × Value)
  | .array element, array items => visitedItems graph element items
  | .record entries, record fields =>
    entries.flatMap fun entry ↦ visitedField graph entry.1 entry.2 fields
  | .choice entries, choice variant payload =>
    match Members.get? variant entries with
    | some ty => visitedShaped graph (graph.resolve ty) payload
    | Option.none => []
  | _, _ => []

/-- The items, each in front of the elements nested in it. -/
def visitedItems (graph : Graph) (element : Ty) : List Value → List (Ty × Value)
  | [] => []
  | item :: rest =>
    ((element, item) :: visitedShaped graph (graph.resolve element) item)
      ++ visitedItems graph element rest

/-- The elements nested in the first field of a name. -/
def visitedField (graph : Graph) (name : String) (ty : Ty) :
    List (String × Value) → List (Ty × Value)
  | [] => []
  | (key, value) :: rest =>
    if key = name then visitedShaped graph (graph.resolve ty) value
    else visitedField graph name ty rest

end

/-- The array elements at all depths of what is written of a value, each with its type. -/
def visited (graph : Graph) (ty : Ty) (value : Value) : List (Ty × Value) :=
  visitedShaped graph (graph.resolve ty) value

/-- The elements nested in the field of an entry. -/
def visitedIn (graph : Graph) (fields : Members String Value) (entry : String × Ty) :
    List (Ty × Value) :=
  ((Members.get? entry.1 fields).map (visited graph entry.2)).getD []

theorem visitedItems_eq (graph : Graph) (element : Ty) (items : List Value) :
    visitedItems graph element items
      = items.flatMap fun item ↦ (element, item) :: visited graph element item := by
  induction items with
  | nil => rfl
  | cons item rest ih => rw [visitedItems, ih, List.flatMap_cons, visited]

theorem visitedField_eq (graph : Graph) (name : String) (ty : Ty) (fields : Members String Value) :
    visitedField graph name ty fields = visitedIn graph fields (name, ty) := by
  induction fields with
  | nil => rfl
  | cons field rest ih =>
    rw [visitedField, ih, visitedIn, visitedIn, Members.get?]
    split <;> rfl

section

variable {graph : Graph} {ty : Ty}

theorem visited_array {element : Ty} (items : List Value) (h : graph.resolve ty = .array element) :
    visited graph ty (array items)
      = items.flatMap fun item ↦ (element, item) :: visited graph element item := by
  rw [visited, h, visitedShaped, visitedItems_eq]

theorem visited_record {entries : List (String × Ty)} (fields : Members String Value)
    (h : graph.resolve ty = .record entries) :
    visited graph ty (record fields) = entries.flatMap (visitedIn graph fields) := by
  rw [visited, h, visitedShaped]
  simp only [visitedField_eq]

theorem visited_choice {entries : List (String × Ty)} {variant : String} {payloadTy : Ty}
    (payload : Value) (h : graph.resolve ty = .choice entries)
    (hget : Members.get? variant entries = some payloadTy) :
    visited graph ty (choice variant payload) = visited graph payloadTy payload := by
  rw [visited, h, visitedShaped, hget]
  rfl

end

end Value

namespace Wire

open Value

variable {α : Type} {graph : Graph} {ty : Ty} {value : Value}

/-! ## Elements of no width -/

/-- An element, given with its type, that takes no bytes of its own. -/
def Widthless (graph : Graph) (element : Ty × Value) : Prop :=
  Serializer.portable.encode graph element.1 element.2 = .ok []

instance : DecidablePred (Widthless graph) := fun _ ↦
  inferInstanceAs (Decidable (Serializer.encode _ _ _ _ = _))

theorem length_write_pos (n : Int) : 0 < (Groups.write n).length := by
  have hread := Groups.read_write_append n []
  rw [List.append_nil] at hread
  exact Groups.length_of_read hread

theorem join_of_join {part more : α → Except WireError (List UInt8)} {items : List α}
    {bytes : List UInt8} (h : ∀ a ∈ items, ∀ own, part a = .ok own → more a = .ok own)
    (hjoin : join part items = .ok bytes) : join more items = .ok bytes := by
  induction items generalizing bytes with
  | nil => exact hjoin
  | cons a rest ih =>
    obtain ⟨first, others, hfirst, hothers, rfl⟩ := join_cons_ok hjoin
    rw [join, bind_of_ok (h a List.mem_cons_self first hfirst),
      ih (fun b hb ↦ h b (List.mem_cons_of_mem _ hb)) hothers]
    rfl

/-- More levels than a value needs do not change its form. -/
theorem form_of_le {levels more : Nat} {bytes : List UInt8}
    (h : form graph levels ty value = .ok bytes) (hle : levels ≤ more) :
    form graph more ty value = .ok bytes := by
  induction levels generalizing more ty value bytes with
  | zero => cases h
  | succ levels ih =>
    obtain ⟨more, rfl⟩ := Nat.exists_eq_succ_of_ne_zero (by omega : more ≠ 0)
    have hless : levels ≤ more := Nat.le_of_succ_le_succ hle
    unfold form
    cases formed_of_form h with
    | none hshape | boolean hshape _ | integer hshape _ | float hshape _ | string hshape _
    | bytes hshape _ => rw [hshape]
    | array hshape hparts =>
      rw [hshape]
      dsimp only
      rw [join_of_join (fun _ _ _ hitem ↦ ih hitem hless) hparts]
      rfl
    | record hshape hparts =>
      rw [hshape]
      refine join_of_join (fun entry _ own hown ↦ ?_) hparts
      obtain ⟨field, hfield, hform⟩ := bind_ok hown
      exact (bind_of_ok hfield _).trans (ih hform hless)
    | choice hshape hget hposition hpart =>
      rw [hshape]
      dsimp only
      rw [hposition, hget]
      dsimp only
      rw [ih hpart hless]
      rfl

theorem encode_of_form_le {levels : Nat} {bytes : List UInt8}
    (h : form graph levels ty value = .ok bytes) (hle : levels ≤ maxDepth) :
    Serializer.portable.encode graph ty value = .ok bytes :=
  (Portable.encode_eq_form graph ty value).trans (form_of_le h hle)

/-- What parts leave to spare of their bytes, as far as they have any, they leave together. -/
theorem sum_le_of_join {part : α → Except WireError (List UInt8)} {owned : α → Nat}
    {items : List α} {bytes : List UInt8} (spare : Nat)
    (h : ∀ a ∈ items, ∀ own, part a = .ok own → owned a ≤ own.length - spare)
    (hjoin : join part items = .ok bytes) : (items.map owned).sum ≤ bytes.length - spare := by
  induction items generalizing bytes with
  | nil => exact Nat.zero_le _
  | cons a rest ih =>
    obtain ⟨first, others, hfirst, hothers, rfl⟩ := join_cons_ok hjoin
    have hown := h a List.mem_cons_self first hfirst
    have hrest := ih (fun b hb ↦ h b (List.mem_cons_of_mem _ hb)) hothers
    rw [List.map_cons, List.sum_cons, List.length_append]
    omega

/-- The elements with bytes of their own leave over a byte of the part in which they are nested, if
that has any. -/
theorem wide_visited {levels : Nat} {bytes : List UInt8}
    (h : form graph levels ty value = .ok bytes) (hle : levels ≤ maxDepth) :
    (value.visited graph ty).countP (¬Widthless graph ·) ≤ bytes.length - 1 := by
  induction levels generalizing ty value bytes with
  | zero => cases h
  | succ levels ih =>
    have hless : levels ≤ maxDepth := Nat.le_of_succ_le hle
    cases formed_of_form h with
    | none hshape | boolean hshape _ | integer hshape _ | float hshape _ | string hshape _
    | bytes hshape _ =>
      rw [visited, hshape]
      exact Nat.zero_le _
    | @array element hshape items others hparts =>
      have hitem : ∀ item ∈ items, ∀ own, form graph levels element item = .ok own →
          ((element, item) :: visited graph element item).countP (¬Widthless graph ·)
            ≤ own.length := by
        intro item _ own hown
        have hnested := ih hown hless
        rw [List.countP_cons]
        -- the byte that is left over is the one that pays for the item
        cases own with
        | nil =>
          have hnone : Widthless graph (element, item) := encode_of_form_le hown hless
          simpa [hnone] using hnested
        | cons byte own =>
          rw [List.length_cons, Nat.add_sub_cancel] at hnested
          refine Nat.add_le_add hnested ?_
          split <;> omega
      have hcount := length_write_pos items.length
      have hitems := sum_le_of_join 0 hitem hparts
      rw [visited_array items hshape, List.countP_flatMap, List.length_append]
      exact hitems.trans (by omega)
    | @record entries hshape fields _ hparts =>
      rw [visited_record fields hshape, List.countP_flatMap]
      refine sum_le_of_join 1 (fun entry _ own hown ↦ ?_) hparts
      obtain ⟨field, hfield, hform⟩ := bind_ok hown
      rw [Function.comp_apply, visitedIn, get?_of_fieldOf hfield]
      exact ih hform hless
    | @choice entries hshape variant payloadTy index hget _ payload others hpart =>
      have hindex := length_write_pos index
      have hnested := ih hpart hless
      rw [visited_choice payload hshape hget, List.length_append]
      omega

/-! ## Reading back -/

/-- Where no name is given twice, each element is visited once, and the canonical form has no
others. -/
theorem length_visited {levels : Nat} {bytes : List UInt8}
    (hty : graph.Everywhere (fun part ↦ (part.entries.map Prod.fst).Nodup) ty)
    (h : form graph levels ty value = .ok bytes) :
    (value.visited graph ty).length = (value.canon graph ty).elements := by
  induction levels generalizing ty value bytes with
  | zero => cases h
  | succ levels ih =>
    have hself := hty.resolve.self
    cases formed_of_form h with
    | none hshape | boolean hshape _ | integer hshape _ | float hshape _ | string hshape _
    | bytes hshape _ =>
      rw [visited, hshape, canon, hshape]
      rfl
    | @array element hshape items others hparts =>
      have hitem : ∀ item ∈ items, ((element, item) :: visited graph element item).length
          = (item.canon graph element).elements + 1 := by
        intro item hmem
        obtain ⟨own, hown⟩ := exists_of_join hparts hmem
        rw [List.length_cons, ih (hty.element hshape) hown]
      rw [visited_array items hshape, canon_array items hshape, elements_array, List.length_flatMap,
        List.map_congr_left hitem, List.length_map, List.map_map, List.sum_map_add]
      simp [Function.comp_def, Nat.add_comm]
    | @record entries hshape fields _ hparts =>
      rw [hshape] at hself
      have hfield : ∀ entry ∈ entries, ∃ field : Value, Members.get? entry.1 fields = some field ∧
          (field.visited graph entry.2).length = (field.canon graph entry.2).elements := by
        intro entry hentry
        obtain ⟨own, hown⟩ := exists_of_join hparts hentry
        obtain ⟨field, hfield, hform⟩ := bind_ok hown
        exact ⟨field, get?_of_fieldOf hfield, ih (hty.entry hshape hentry) hform⟩
      choose! field hget hlength using hfield
      rw [visited_record fields hshape, canon_record_of_fields hshape hself hget, elements_record,
        List.length_flatMap, List.map_map]
      refine congrArg List.sum (List.map_congr_left fun entry hentry ↦ ?_)
      rw [visitedIn, hget entry hentry]
      exact hlength entry hentry
    | @choice entries hshape variant payloadTy index hget _ payload others hpart =>
      rw [visited_choice payload hshape hget, canon_choice payload hshape hget, elements_choice]
      exact ih (hty.entry hshape (Members.mem_of_get? hget)) hpart

/-! ## What is read -/

namespace Portable

theorem take_budget (count : Nat) (source : Source) :
    Ends (fun r ↦ r.2.budget = source.budget) (fun _ ↦ True) (take count source) := by
  rw [take_eq]
  split
  · exact .ok rfl
  · exact .error trivial

theorem readInteger_budget (source : Source) :
    Ends (fun r ↦ r.2.budget = source.budget) (fun _ ↦ True) (readInteger source) := by
  rw [readInteger]
  cases Groups.read source.bytes with
  | error e => exact .error trivial
  | ok r => exact .ok rfl

theorem readLength_budget (source : Source) :
    Ends (fun r ↦ r.2.budget = source.budget) (fun _ ↦ True) (readLength source) := by
  refine (readInteger_budget source).bind fun r _ hr ↦ ?_
  dsimp only
  cases lengthOf r.1 with
  | error e => exact .error trivial
  | ok length => exact .ok hr

theorem readBlob_budget (source : Source) :
    Ends (fun r ↦ r.2.budget = source.budget) (fun _ ↦ True) (readBlob source) := by
  refine (readLength_budget source).bind fun r _ hr ↦ ?_
  exact (take_budget r.1 r.2).imp (fun _ ht ↦ ht.trans hr) fun _ h ↦ h

theorem claim_budget (budget count : Nat) :
    Ends (fun left ↦ count + left = budget) (fun _ ↦ True) (claim budget count) := by
  rw [claim]
  split
  · exact .error trivial
  · exact .ok (by omega)

theorem readItems_budget {read : Source → Except WireError (Value × Source)}
    (h : ∀ source, Ends (fun r ↦ r.1.elements + r.2.budget ≤ source.budget) (fun _ ↦ True)
      (read source))
    (count : Nat) (items : List Value) (source : Source) :
    Ends (fun r ↦ r.1.length = count + items.length ∧
        (r.1.map elements).sum + r.2.budget ≤ (items.map elements).sum + source.budget)
      (fun _ ↦ True) (readItems read count items source) := by
  induction count generalizing items source with
  | zero => exact .ok (by simp)
  | succ count ih =>
    refine (h source).bind fun r _ hr ↦ ?_
    refine (ih (r.1 :: items) r.2).imp (fun s hs ↦ ?_) fun _ h ↦ h
    rw [List.length_cons, List.map_cons, List.sum_cons] at hs
    omega

/-- A field that is written again takes the place of the one before, and its elements with it. -/
theorem sum_elements_put (name : String) (field : Value) (fields : Members String Value) :
    ((Members.put name field fields).map fun entry ↦ entry.2.elements).sum
      ≤ (fields.map fun entry ↦ entry.2.elements).sum + field.elements := by
  induction fields with
  | nil => simp [Members.put]
  | cons entry rest ih =>
    rw [Members.put]
    split
    · simp only [List.map_cons, List.sum_cons]
      omega
    · simp only [List.map_cons, List.sum_cons]
      omega

theorem readFields_budget {read : Ty → Source → Except WireError (Value × Source)}
    (h : ∀ ty source, Ends (fun r ↦ r.1.elements + r.2.budget ≤ source.budget) (fun _ ↦ True)
      (read ty source))
    (entries : List (String × Ty)) (fields : Members String Value) (source : Source) :
    Ends (fun r ↦ (r.1.map fun entry ↦ entry.2.elements).sum + r.2.budget
        ≤ (fields.map fun entry ↦ entry.2.elements).sum + source.budget)
      (fun _ ↦ True) (readFields read entries fields source) := by
  induction entries generalizing fields source with
  | nil => exact .ok le_rfl
  | cons entry rest ih =>
    refine (h entry.2 source).bind fun r _ hr ↦ ?_
    refine (ih (Members.put entry.1 r.1 fields) r.2).imp (fun s hs ↦ ?_) fun _ h ↦ h
    have hput := sum_elements_put entry.1 r.1 fields
    omega

/-- What is read was taken from the budget, one element at a time. -/
theorem read_budget (graph : Graph) (levels : Nat) (ty : Ty) (source : Source) :
    Ends (fun r ↦ r.1.elements + r.2.budget ≤ source.budget) (fun _ ↦ True)
      (read graph levels ty source) := by
  induction levels generalizing ty source with
  | zero => exact .error trivial
  | succ levels ih =>
    -- a value that is no array and has no parts has no elements
    have hleaf : ∀ {value : Value} {later : Source}, value.elements = 0 →
        later.budget = source.budget → value.elements + later.budget ≤ source.budget :=
      fun hvalue hlater ↦ by omega
    unfold read
    cases graph.resolve ty with
    | ref key => exact .error trivial
    | none => exact .ok (hleaf rfl rfl)
    | boolean => exact (take_budget 1 source).bind fun _ _ hr ↦ .ok (hleaf rfl hr)
    | integer => exact (readInteger_budget source).bind fun _ _ hr ↦ .ok (hleaf rfl hr)
    | float => exact (take_budget 8 source).bind fun _ _ hr ↦ .ok (hleaf rfl hr)
    | string =>
      refine (readBlob_budget source).bind fun r _ hr ↦ ?_
      dsimp only
      cases Text.ofBytes? r.1 with
      | none => exact .error trivial
      | some s => exact .ok (hleaf rfl hr)
    | bytes => exact (readBlob_budget source).bind fun _ _ hr ↦ .ok (hleaf rfl hr)
    | array element =>
      refine (readLength_budget source).bind fun r _ hr ↦ ?_
      refine (claim_budget r.2.budget r.1).bind fun budget _ hb ↦ ?_
      refine (readItems_budget (ih element) r.1 [] { r.2 with budget }).bind fun s _ hs ↦ .ok ?_
      rw [elements_array]
      simp only [List.length_nil, List.map_nil, List.sum_nil] at hs ⊢
      omega
    | record entries =>
      refine (readFields_budget ih entries [] source).bind fun r _ hr ↦ .ok ?_
      rw [elements_record]
      simpa using hr
    | choice entries =>
      refine (readInteger_budget source).bind fun r _ hr ↦ ?_
      dsimp only
      cases entryAt? entries r.1 with
      | none => exact .error trivial
      | some entry =>
        refine (ih entry.2 r.2).bind fun s _ hs ↦ .ok ?_
        rw [elements_choice]
        exact hs.trans hr.le

end Portable

theorem elements_le_of_decode {data rest : List UInt8} {reader : Serializer}
    (h : reader.decode graph ty data = .ok (value, rest)) :
    value.elements ≤ data.length + zeroWidthAllowance := by
  rw [decode_eq_portable (allInRange_of_decode h)] at h
  obtain ⟨⟨found, later⟩, hread, hfound⟩ := bind_ok h
  cases hfound
  have hbudget := (Portable.read_budget graph maxDepth ty _).good_of_eq hread
  exact (Nat.le_add_right _ _).trans hbudget

/-- What was written is read back if its elements do not exceed the bytes and the allowance. -/
theorem decode_of_elements_le {bytes : List UInt8}
    (hgraph : graph.DistinctNames) (hty : ty.DistinctNames) (hg : graph.Addressable)
    (ht : ty.Addressable) (hv : value.Addressable)
    (h : form graph maxDepth ty value = .ok bytes) (rest : List UInt8) (reader : Serializer)
    (hreader : reader = .fast → ∀ i ∈ (value.canon graph ty).integers, Groups.Word.InRange i)
    (hle : (value.canon graph ty).elements ≤ bytes.length + zeroWidthAllowance) :
    reader.decode graph ty (bytes ++ rest) = .ok (value.canon graph ty, rest) := by
  have hrestores := Portable.form_restores hv h
  have haccounts := written_accounts (hgraph.everywhere hty) h
  have hsizes : Number.SizesInRange (written graph maxDepth ty value) :=
    sizesInRange_written (hg.everywhere ht) hv
  have hrange : reader = .fast → Number.AllInRange (metIn graph ty (bytes ++ rest)) := by
    intro hfast n hn
    have hwritten := hrestores.meets _ _ hn
    exact (hsizes n hwritten).elim
      (fun hrole ↦ hreader hfast _ (haccounts.integers n hwritten hrole)) id
  have hbudget : claimed (written graph maxDepth ty value)
      ≤ elementBudget (bytes ++ rest).length := by
    rw [haccounts.elements, elementBudget, List.length_append]
    omega
  rw [decode_eq_portable hrange, Serializer.decode, Portable.decode]
  exact bind_of_ok (hrestores.succeeds rest _ hbudget) _

/-- **The allowance.** The array elements of a value that take bytes of their own are at most as
many as its bytes, so a value with no more elements of no width than the allowance covers is read
back. And whatever is read has no more elements than the input has bytes and the allowance
covers. -/
theorem elements_bounded (graph : Graph) (ty : Ty) :
    (∀ (value : Value) (bytes : List UInt8) (writer : Serializer),
      writer.encode graph ty value = .ok bytes →
      (value.visited graph ty).countP (¬Widthless graph ·) ≤ bytes.length) ∧
    (graph.DistinctNames → ty.DistinctNames → graph.Addressable → ty.Addressable →
      ∀ (value : Value) (bytes : List UInt8) (writer : Serializer), value.Addressable →
      writer.encode graph ty value = .ok bytes →
      (value.visited graph ty).countP (Widthless graph ·) ≤ zeroWidthAllowance →
      ∀ (rest : List UInt8) (reader : Serializer),
        (reader = .fast → ∀ i ∈ (value.canon graph ty).integers, Groups.Word.InRange i) →
        reader.decode graph ty (bytes ++ rest) = .ok (value.canon graph ty, rest)) ∧
    ∀ (data : List UInt8) (value : Value) (rest : List UInt8) (reader : Serializer),
      reader.decode graph ty data = .ok (value, rest) →
      value.elements ≤ data.length + zeroWidthAllowance := by
  have hwide : ∀ {value : Value} {bytes : List UInt8} {writer : Serializer},
      writer.encode graph ty value = .ok bytes →
      (value.visited graph ty).countP (¬Widthless graph ·) ≤ bytes.length := fun h ↦
    (wide_visited (form_of_encode h) le_rfl).trans (Nat.sub_le _ _)
  refine ⟨fun value bytes writer h ↦ hwide h, ?_, fun data value rest reader h ↦
    elements_le_of_decode h⟩
  intro hgraph hty hg ht value bytes writer hv h hnarrow rest reader hreader
  have hform := form_of_encode h
  have hsplit := List.length_eq_countP_add_countP (Widthless graph ·)
    (l := value.visited graph ty)
  rw [length_visited (hgraph.everywhere hty) hform] at hsplit
  refine decode_of_elements_le hgraph hty hg ht hv hform rest reader hreader ?_
  have hpaid := hwide h
  simp only [decide_eq_true_eq] at hsplit hpaid
  omega

/-- Two arrays within an array: they take bytes, and their elements take none. -/
theorem elements_bounded_rows :
    let ty := Ty.array (.array .none)
    let value := Value.array [.array [.none, .none], .array []]
    Serializer.portable.encode .builtins ty value = .ok [0x82, 0x82, 0x80] ∧
    (value.visited .builtins ty).countP (¬Widthless .builtins ·) ≤ 3 ∧
    (value.visited .builtins ty).countP (Widthless .builtins ·) ≤ zeroWidthAllowance ∧
    Serializer.fast.decode .builtins ty ([0x82, 0x82, 0x80] ++ [0x2a]) = .ok (value, [0x2a]) ∧
    value.elements ≤ 4 + zeroWidthAllowance := by
  intro ty value
  have hbytes : Serializer.portable.encode .builtins ty value = .ok [0x82, 0x82, 0x80] := rfl
  obtain ⟨hwide, hback, hread⟩ := elements_bounded .builtins ty
  have hnarrow : (value.visited .builtins ty).countP (Widthless .builtins ·)
      ≤ zeroWidthAllowance := by decide
  have hdecode := hback (by decide) (by decide) (by decide) (by decide) value _ .portable
    (by decide) hbytes hnarrow [0x2a] .fast (fun _ ↦ by decide)
  exact ⟨hbytes, hwide value _ .portable hbytes, hnarrow, hdecode, hread _ _ _ _ hdecode⟩

/-- With a name that is given twice in the type, the elements of a value are all covered by the
allowance, and yet it is not read back. -/
theorem elements_bounded_doubled :
    Graph.builtins.DistinctNames ∧ (single zeroWidthAllowance).elements ≤ zeroWidthAllowance ∧
    Serializer.portable.encode .builtins doubled (single zeroWidthAllowance)
      = .ok [0x00, 0x40, 0x00, 0x80, 0x00, 0x40, 0x00, 0x80] ∧
    ∃ count available, Serializer.portable.decode .builtins doubled
      [0x00, 0x40, 0x00, 0x80, 0x00, 0x40, 0x00, 0x80]
        = .error (.elementLimitExceeded count available) := by
  have hbytes := form_single (maxDepth - 3) zeroWidthAllowance
  rw [write_allowance] at hbytes
  have haddressable := addressable_single (by norm_num [zeroWidthAllowance] :
    zeroWidthAllowance < 2 ^ 63)
  refine ⟨by decide, (elements_single _).le, (Portable.encode_eq_form _ _ _).trans hbytes, ?_⟩
  have hexhausts := (Portable.form_restores haddressable hbytes).exhausts []
  rw [claimed_single] at hexhausts
  obtain ⟨count, available, herror⟩ := hexhausts (elementBudget 8)
    (by norm_num [elementBudget, zeroWidthAllowance])
  exact ⟨count, available, bind_of_error herror _⟩

end Wire

end SchemaCodec
