import SchemaCodec.Proofs.Wire.Restoring
import SchemaCodec.Wire.Serializer

/-!
# Round trips

Bytes that either serializer has written are read by either serializer, whatever follows on them.
What comes back is the canonical form of the value; the rest comes back untouched. The one thing
that can go wrong is the budget, and it goes wrong exactly when the array elements of the canonical
form outnumber the bytes and the allowance.

## Why names must be distinct

A field whose name is given twice is written twice and read twice, but the value that comes back
has it once. Its elements are then announced twice as well, so they can exceed the budget although
those of the value do not. This concerns the type itself as much as the entries of the graph.
-/

namespace SchemaCodec.Wire

variable {α : Type}

/-! ## What is announced -/

/-- The numbers of a value announce its elements, and the integers among them are its own. -/
structure Accounts (numbers : List Number) (value : Value) : Prop where
  elements : claimed numbers = value.elements
  integers : ∀ n ∈ numbers, n.role = .integer → n.value ∈ value.integers

namespace Accounts

theorem of_nil {value : Value} (h : value.elements = 0) : Accounts [] value :=
  ⟨h.symm, fun _ hn ↦ absurd hn List.not_mem_nil⟩

theorem of_length (n : Int) {value : Value} (h : value.elements = 0) :
    Accounts [⟨.length, n⟩] value := by
  refine ⟨h.symm, fun m hm hrole ↦ ?_⟩
  rw [List.mem_singleton.mp hm] at hrole
  cases hrole

/-- Several parts, each with the value that is kept of it. -/
theorem numbersOver {part : α → Except WireError (List UInt8)} {put : α → List Number}
    {f : α → Option Value} {items : List α} {bytes : List UInt8}
    (h : ∀ a ∈ items, ∀ bytes, part a = .ok bytes →
      ∃ value, f a = some value ∧ Accounts (put a) value)
    (hbytes : join part items = .ok bytes) :
    claimed (Wire.numbersOver part put items) = ((items.filterMap f).map Value.elements).sum ∧
    ∀ n ∈ Wire.numbersOver part put items, n.role = .integer →
      ∃ value ∈ items.filterMap f, n.value ∈ value.integers := by
  induction items generalizing bytes with
  | nil => exact ⟨rfl, fun _ hn ↦ absurd hn List.not_mem_nil⟩
  | cons a rest ih =>
    obtain ⟨first, others, hfirst, hothers, rfl⟩ := join_cons_ok hbytes
    obtain ⟨value, hvalue, haccounts⟩ := h a List.mem_cons_self first hfirst
    obtain ⟨hsum, hmem⟩ := ih (fun b hb ↦ h b (List.mem_cons_of_mem _ hb)) hothers
    rw [Wire.numbersOver, hfirst, List.filterMap_cons_some hvalue]
    refine ⟨?_, fun n hn hrole ↦ ?_⟩
    · rw [claimed_append, List.map_cons, List.sum_cons, haccounts.elements]
      exact congrArg (_ + ·) hsum
    · rcases List.mem_append.mp hn with hn | hn
      · exact ⟨value, List.mem_cons_self, haccounts.integers n hn hrole⟩
      · obtain ⟨other, hother, hint⟩ := hmem n hn hrole
        exact ⟨other, List.mem_cons_of_mem _ hother, hint⟩

end Accounts

theorem keys_kept_sublist (graph : Graph) (fields : Members String Value)
    (entries : List (String × Ty)) :
    ((entries.filterMap (Value.kept graph fields)).map Prod.fst).Sublist
      (entries.map Prod.fst) := by
  induction entries with
  | nil => exact List.Sublist.slnil
  | cons entry rest ih =>
    cases hkept : Value.kept graph fields entry with
    | none =>
      rw [List.filterMap_cons_none hkept]
      exact ih.cons entry.1
    | some field =>
      have hname : field.1 = entry.1 := by
        obtain ⟨found, -, rfl⟩ := Option.map_eq_some_iff.mp hkept
        rfl
      rw [List.filterMap_cons_some hkept, List.map_cons, List.map_cons, hname]
      exact ih.cons_cons entry.1

theorem written_accounts {graph : Graph} {levels : Nat} {ty : Ty} {value : Value}
    {bytes : List UInt8}
    (hty : graph.Everywhere (fun part ↦ (part.entries.map Prod.fst).Nodup) ty)
    (h : form graph levels ty value = .ok bytes) :
    Accounts (written graph levels ty value) (value.canon graph ty) := by
  induction levels generalizing ty value bytes with
  | zero => cases h
  | succ levels ih =>
    have hself := hty.resolve.self
    unfold written
    cases formed_of_form h with
    | none hshape | boolean hshape _ | float hshape _ =>
      rw [hshape, Value.canon, hshape]
      exact .of_nil rfl
    | integer hshape i =>
      rw [hshape, Value.canon, hshape]
      refine ⟨rfl, fun n hn _ ↦ ?_⟩
      rw [List.mem_singleton.mp hn]
      exact List.mem_singleton.mpr rfl
    | string hshape _ | bytes hshape _ =>
      rw [hshape, Value.canon, hshape]
      exact .of_length _ rfl
    | @array element hshape items others hparts =>
      rw [hshape, Value.canon_array items hshape]
      obtain ⟨hsum, hmem⟩ := Accounts.numbersOver (f := some ∘ Value.canon graph element)
        (fun item _ _ hitem ↦ ⟨_, rfl, ih (hty.element hshape) hitem⟩) hparts
      rw [List.filterMap_eq_map] at hsum hmem
      constructor
      · rw [Value.elements_array, ← hsum, List.length_map]
        rfl
      · intro n hn hrole
        rcases List.mem_cons.mp hn with rfl | hn
        · cases hrole
        · obtain ⟨item, hitem, hint⟩ := hmem n hn hrole
          exact Value.integers_subset (Value.parts_subset_of_item hitem) hint
    | @record entries hshape fields _ hrecord =>
      -- no name is given twice, so the fields of the canonical form are those written
      rw [hshape] at hself ⊢
      rw [Value.canon_record fields hshape,
        Members.ofPairs_of_nodup (hself.sublist (keys_kept_sublist graph fields entries))]
      have hparts : ∀ entry ∈ entries, ∀ bytes,
          (fieldOf fields entry >>= form graph levels entry.2) = .ok bytes →
          ∃ value, (Value.kept graph fields entry).map Prod.snd = some value ∧
            Accounts (after (fieldOf fields entry) (written graph levels entry.2)) value := by
        intro entry hmem bytes hpart
        obtain ⟨field, hfield, hform⟩ := bind_ok hpart
        refine ⟨field.canon graph entry.2, ?_, ?_⟩
        · rw [Value.kept, get?_of_fieldOf hfield]
          rfl
        · rw [hfield]
          exact ih (hty.entry hshape hmem) hform
      obtain ⟨hsum, hmem⟩ := Accounts.numbersOver hparts hrecord
      rw [← List.map_filterMap] at hsum hmem
      constructor
      · rw [Value.elements_record, hsum, List.map_map]
        rfl
      · intro n hn hrole
        obtain ⟨value, hvalue, hint⟩ := hmem n hn hrole
        obtain ⟨field, hfield, rfl⟩ := List.mem_map.mp hvalue
        exact Value.integers_subset (Value.parts_subset_of_field hfield) hint
    | @choice entries hshape variant payloadTy index hget hpos payload others hpart =>
      rw [hshape, Value.canon_choice payload hshape hget]
      simp only [hpos, hget]
      have hpayload := ih (hty.entry hshape (Members.mem_of_get? hget)) hpart
      constructor
      · rw [Value.elements_choice, ← hpayload.elements]
        exact Nat.zero_add _
      · intro n hn hrole
        rcases List.mem_cons.mp hn with rfl | hn
        · cases hrole
        · exact Value.integers_subset (Value.parts_subset_of_payload variant _)
            (hpayload.integers n hn hrole)

/-! ## Between the serializers -/

theorem form_of_encode {graph : Graph} {ty : Ty} {value : Value} {bytes : List UInt8}
    {writer : Serializer} (h : writer.encode graph ty value = .ok bytes) :
    form graph maxDepth ty value = .ok bytes := by
  cases writer with
  | portable =>
    rw [← Portable.encode_eq_form]
    exact h
  | fast =>
    have hfollows := Fast.encode_follows graph ty value
    by_cases hr : Number.AllInRange (written graph maxDepth ty value)
    · rw [← hfollows.eq_of_inRange hr]
      exact h
    · rw [Serializer.encode, hfollows.overflows hr] at h
      cases h

theorem decode_eq_portable {graph : Graph} {ty : Ty} {data : List UInt8} {reader : Serializer}
    (h : reader = .fast → Number.AllInRange (metIn graph ty data)) :
    reader.decode graph ty data = Serializer.portable.decode graph ty data := by
  cases reader with
  | portable => rfl
  | fast => exact (Fast.decode_follows graph ty data).eq_of_inRange (h rfl)

theorem encode_of_form {graph : Graph} {ty : Ty} {value : Value} {bytes : List UInt8}
    {writer : Serializer} (h : form graph maxDepth ty value = .ok bytes)
    (hwriter : writer = .fast → Number.AllInRange (written graph maxDepth ty value)) :
    writer.encode graph ty value = .ok bytes := by
  rw [← h]
  cases writer with
  | portable => exact Portable.encode_eq_form graph ty value
  | fast => exact (Fast.encode_follows graph ty value).eq_of_inRange (hwriter rfl)

/-- The fast serializer has read a value only where all numbers met were in range. -/
theorem allInRange_of_decode {graph : Graph} {ty : Ty} {data : List UInt8} {reader : Serializer}
    {r : Value × List UInt8} (h : reader.decode graph ty data = .ok r) :
    reader = .fast → Number.AllInRange (metIn graph ty data) := by
  rintro rfl
  by_contra hrange
  rw [Serializer.decode, (Fast.decode_follows graph ty data).overflows hrange] at h
  cases h

/-- The fast serializer has written a value only where all numbers met were in range. -/
theorem allInRange_of_encode {graph : Graph} {ty : Ty} {value : Value} {bytes : List UInt8}
    {writer : Serializer} (h : writer.encode graph ty value = .ok bytes) :
    writer = .fast → Number.AllInRange (written graph maxDepth ty value) := by
  rintro rfl
  by_contra hrange
  rw [Serializer.encode, (Fast.encode_follows graph ty value).overflows hrange] at h
  cases h

/-- **Round trip.** What one serializer has written, another reads: the canonical form comes back
with the rest, unless the elements of the canonical form outnumber the bytes and the allowance. -/
theorem decode_encode {graph : Graph} {ty : Ty} {value : Value} {bytes : List UInt8}
    {writer : Serializer} (hgraph : graph.DistinctNames) (hty : ty.DistinctNames)
    (hg : graph.Addressable) (ht : ty.Addressable) (hv : value.Addressable)
    (h : writer.encode graph ty value = .ok bytes) (rest : List UInt8) (reader : Serializer)
    (hreader : reader = .fast → ∀ i ∈ (value.canon graph ty).integers, Groups.Word.InRange i) :
    ((value.canon graph ty).elements ≤ bytes.length + rest.length + zeroWidthAllowance →
      reader.decode graph ty (bytes ++ rest) = .ok (value.canon graph ty, rest)) ∧
    (bytes.length + rest.length + zeroWidthAllowance < (value.canon graph ty).elements →
      ∃ count available,
        reader.decode graph ty (bytes ++ rest) =
          .error (.elementLimitExceeded count available)) := by
  have hform := form_of_encode h
  have hrestores := Portable.form_restores hv hform
  have haccounts := written_accounts (hgraph.everywhere hty) hform
  have hsizes : Number.SizesInRange (written graph maxDepth ty value) :=
    sizesInRange_written (hg.everywhere ht) hv
  have hbudget : elementBudget (bytes ++ rest).length
      = bytes.length + rest.length + zeroWidthAllowance := by
    rw [elementBudget, List.length_append]
  -- a reader meets nothing but what was written, and of that only integers can be out of range
  have hdecode : reader.decode graph ty (bytes ++ rest)
      = Portable.decode graph ty (bytes ++ rest) := by
    refine decode_eq_portable fun hfast n hn ↦ ?_
    have hwritten := hrestores.meets _ _ hn
    rcases hsizes n hwritten with hrole | hrange
    · exact hreader hfast _ (haccounts.integers n hwritten hrole)
    · exact hrange
  rw [hdecode, Portable.decode, hbudget, ← haccounts.elements]
  constructor
  · intro hle
    rw [bind_of_ok (hrestores.succeeds rest _ hle)]
  · intro hlt
    obtain ⟨count, available, herror⟩ := hrestores.exhausts rest _ hlt
    exact ⟨count, available, bind_of_error herror _⟩

/-- Fields out of order, and one that is not declared. -/
theorem decode_encode_record :
    let ty := Ty.record [("n", .integer), ("items", .array .boolean)]
    Serializer.portable.encode .builtins ty
      (.record [("items", .array [.boolean true]), ("other", .none), ("n", .integer 5)])
        = .ok [0x85, 0x81, 0x01] ∧
    Serializer.fast.decode .builtins ty ([0x85, 0x81, 0x01] ++ [0x2a])
      = .ok (.record [("n", .integer 5), ("items", .array [.boolean true])], [0x2a]) := by
  intro ty
  have hbytes : Serializer.portable.encode .builtins ty
      (.record [("items", .array [.boolean true]), ("other", .none), ("n", .integer 5)])
        = .ok [0x85, 0x81, 0x01] := rfl
  refine ⟨hbytes, ?_⟩
  have htrip := decode_encode (by decide) (by decide) (by decide) (by decide) (by decide) hbytes
    [0x2a] .fast (fun _ ↦ by decide)
  exact htrip.1 (by decide)

/-! ## A name that is given twice -/

/-- A record with two fields of one name, both of arrays whose elements have no width. -/
def doubled : Ty := .record [("a", .array .none), ("a", .array .none)]

/-- A record with one array of so many elements. -/
def single (count : Nat) : Value := .record [("a", .array (List.replicate count .none))]

theorem join_replicate {part : α → Except WireError (List UInt8)} {a : α} (h : part a = .ok [])
    (count : Nat) : join part (List.replicate count a) = .ok [] := by
  induction count with
  | zero => rfl
  | succ count ih =>
    rw [List.replicate_succ, join, bind_of_ok h, ih]
    rfl

theorem numbersOver_replicate {part : α → Except WireError (List UInt8)} {numbers : α → List Number}
    {a : α} (h : numbers a = []) (count : Nat) :
    numbersOver part numbers (List.replicate count a) = [] := by
  refine List.eq_nil_iff_forall_not_mem.mpr fun n hn ↦ ?_
  obtain ⟨b, hb, hn⟩ := mem_numbersOver hn
  rw [List.eq_of_mem_replicate hb, h] at hn
  exact absurd hn List.not_mem_nil

theorem form_nones (levels count : Nat) :
    form .builtins (levels + 2) (.array .none) (.array (List.replicate count .none))
      = .ok (Groups.write count) := by
  have hnone : form .builtins (levels + 1) .none .none = .ok [] := rfl
  change (join (form .builtins (levels + 1) .none) (List.replicate count .none)).map _ = _
  rw [join_replicate hnone, List.length_replicate]
  exact congrArg Except.ok (List.append_nil _)

theorem field_nones (levels count : Nat) :
    (fieldOf [("a", .array (List.replicate count .none))] ("a", .array .none)
      >>= form .builtins (levels + 2) (.array .none)) = .ok (Groups.write count) :=
  form_nones levels count

theorem written_nones (levels count : Nat) :
    written .builtins (levels + 2) (.array .none) (.array (List.replicate count .none))
      = [⟨.count, count⟩] := by
  change ⟨.count, (List.replicate count Value.none).length⟩ ::
    numbersOver (form .builtins (levels + 1) .none) (written .builtins (levels + 1) .none) _ = _
  rw [numbersOver_replicate rfl, List.length_replicate]

theorem form_single (levels count : Nat) :
    form .builtins (levels + 3) doubled (single count)
      = .ok (Groups.write count ++ (Groups.write count ++ [])) := by
  change join (fun entry ↦ fieldOf _ entry >>= form .builtins (levels + 2) entry.2)
    [("a", .array .none), ("a", .array .none)] = _
  rw [join, bind_of_ok (field_nones levels count), join, bind_of_ok (field_nones levels count)]
  rfl

theorem claimed_single (levels count : Nat) :
    claimed (written .builtins (levels + 3) doubled (single count)) = count + count := by
  have hnumbers : written .builtins (levels + 3) doubled (single count)
      = [⟨.count, count⟩, ⟨.count, count⟩] := by
    change numbersOver (fun entry ↦ fieldOf _ entry >>= form .builtins (levels + 2) entry.2)
      (fun entry ↦ after (fieldOf _ entry) (written .builtins (levels + 2) entry.2))
      [("a", .array .none), ("a", .array .none)] = _
    have hafter : after (fieldOf [("a", .array (List.replicate count .none))] ("a", .array .none))
        (written .builtins (levels + 2) (.array .none)) = [⟨.count, count⟩] :=
      written_nones levels count
    simp only [numbersOver, hafter, field_nones]
    rfl
  rw [hnumbers]
  exact congrArg₂ (· + ·) (Int.toNat_natCast count) (Int.toNat_natCast count)

theorem addressable_single {count : Nat} (h : count < 2 ^ 63) : (single count).Addressable := by
  intro part hpart
  simp only [single, Value.parts, Value.fieldsParts, Value.itemsParts_eq, List.mem_cons,
    List.mem_append, List.mem_flatMap, List.mem_replicate] at hpart
  rcases hpart with rfl | (rfl | ⟨item, ⟨-, rfl⟩, hpart⟩) | hpart
  · exact Nat.two_pow_pos 63
  · rw [Value.extent, List.length_replicate]
    exact h
  · rw [List.mem_singleton.mp hpart]
    exact Nat.two_pow_pos 63
  · exact absurd hpart List.not_mem_nil

theorem canon_single (count : Nat) : (single count).canon .builtins doubled = single count := by
  have hitems : (List.replicate count Value.none).map (Value.canon .builtins .none)
      = List.replicate count .none := by
    rw [List.map_replicate]
    rfl
  have hkept : Value.kept .builtins [("a", .array (List.replicate count .none))] ("a", .array .none)
      = some ("a", .array (List.replicate count .none)) := by
    change some ("a", Value.canon .builtins (.array .none) (.array _)) = _
    rw [Value.canon_array _ rfl, hitems]
  rw [single, Value.canon_record _ rfl, List.filterMap_cons_some hkept,
    List.filterMap_cons_some hkept]
  rfl

theorem elements_single (count : Nat) : (single count).elements = count := by
  rw [single, Value.elements_record, List.map_singleton, List.sum_singleton, Value.elements_array,
    List.map_replicate, List.sum_replicate_nat, List.length_replicate]
  exact Nat.add_zero count

theorem write_allowance :
    Groups.write zeroWidthAllowance = [0x00, 0x40, 0x00, 0x80] := by
  have hallowance : ((zeroWidthAllowance : Nat) : Int) = 1048576 := rfl
  rw [hallowance, Groups.write, if_neg (by decide), Groups.onto, if_neg (by decide), Groups.onto,
    if_neg (by decide), Groups.onto, if_pos (by decide)]
  rfl

/-- The elements of the field do not exceed the allowance, but they are announced twice. -/
theorem decode_encode_doubled :
    Graph.builtins.DistinctNames ∧ Graph.builtins.Addressable ∧ doubled.Addressable ∧
    (single zeroWidthAllowance).Addressable ∧
    Serializer.portable.encode .builtins doubled (single zeroWidthAllowance)
      = .ok [0x00, 0x40, 0x00, 0x80, 0x00, 0x40, 0x00, 0x80] ∧
    ((single zeroWidthAllowance).canon .builtins doubled).elements ≤ 8 + 0 + zeroWidthAllowance ∧
    ∃ count available, Serializer.portable.decode .builtins doubled
      [0x00, 0x40, 0x00, 0x80, 0x00, 0x40, 0x00, 0x80]
        = .error (.elementLimitExceeded count available) := by
  have hbytes := form_single (maxDepth - 3) zeroWidthAllowance
  rw [write_allowance] at hbytes
  have hallowed : zeroWidthAllowance < 2 ^ 63 := by norm_num [zeroWidthAllowance]
  have haddressable := addressable_single hallowed
  refine ⟨by decide, by decide, by decide, haddressable, ?_, ?_, ?_⟩
  · exact (Portable.encode_eq_form _ _ _).trans hbytes
  · rw [canon_single, elements_single]
    exact Nat.le_add_left _ _
  · have hexhausts := (Portable.form_restores haddressable hbytes).exhausts []
    rw [claimed_single] at hexhausts
    obtain ⟨count, available, herror⟩ := hexhausts (elementBudget 8)
      (by norm_num [elementBudget, zeroWidthAllowance])
    exact ⟨count, available, bind_of_error herror _⟩

end SchemaCodec.Wire
