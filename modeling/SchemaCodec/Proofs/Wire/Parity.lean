import SchemaCodec.Proofs.Wire.Form
import SchemaCodec.Proofs.Wire.Reading
import SchemaCodec.Wire.Serializer

/-!
# Parity of the serializers

The two serializers agree on every graph, also on one with dangling references, with references
that run in a circle or with repeated names, on every value, fitting or not, and on all bytes. The
one exception is an integer that no word holds. Lengths, counts and positions are no exceptions: in
writing they come from lists in memory, and in reading one that is out of range makes the portable
serializer fail too, with a failure of another name.
-/

namespace SchemaCodec.Wire

variable {p : Ty → Prop} {graph : Graph} {ty : Ty}

/-! ## Writing -/

theorem Portable.encode_ends (hty : graph.Everywhere p ty) (value : Value) :
    Ends (fun _ ↦ True) (Refusal p graph) (encode graph ty value) := by
  rw [encode_eq_form]
  exact form_ends hty

theorem Portable.encode_ne_integerOverflow (graph : Graph) (ty : Ty) (value : Value) :
    encode graph ty value ≠ .error .integerOverflow := by
  intro h
  cases (encode_ends (graph.everywhere_true ty) value).bad_of_eq h

/-- Either serializer refuses a value, or the fast one reports an overflow. -/
theorem encode_ends (hty : graph.Everywhere p ty) (value : Value) (serializer : Serializer) :
    Ends (fun _ ↦ True) (fun e ↦ Refusal p graph e ∨ e = .integerOverflow)
      (serializer.encode graph ty value) := by
  cases serializer with
  | portable => exact (Portable.encode_ends hty value).imp (fun _ h ↦ h) fun _ h ↦ .inl h
  | fast => exact (Fast.encode_follows graph ty value).ends (form_ends hty)

/-- Only integers can be out of range. -/
theorem allInRange_written_iff {value : Value} (hg : graph.Addressable) (ht : ty.Addressable)
    (hv : value.Addressable) :
    Number.AllInRange (written graph maxDepth ty value) ↔
      Number.IntegersInRange (written graph maxDepth ty value) :=
  Number.allInRange_iff (sizesInRange_written (hg.everywhere ht) hv)

theorem encode_integerOverflow_iff {value : Value} (hg : graph.Addressable)
    (ht : ty.Addressable) (hv : value.Addressable) :
    Serializer.fast.encode graph ty value = .error .integerOverflow ↔
      ∃ n ∈ written graph maxDepth ty value, n.role = .integer ∧ ¬Groups.Word.InRange n.value := by
  have hfollows := Fast.encode_follows graph ty value
  rw [← Portable.encode_eq_form] at hfollows
  rw [Serializer.encode,
    hfollows.overflow_iff (Portable.encode_ne_integerOverflow graph ty value),
    allInRange_written_iff hg ht hv, Number.IntegersInRange]
  push Not
  rfl

/-- **Writing.** Until an integer out of range is met, the fast serializer writes what the portable
one writes and fails as it fails. When one is met before any other failure, and only then, it
reports an overflow. -/
theorem encode_parity {value : Value} (hg : graph.Addressable) (ht : ty.Addressable)
    (hv : value.Addressable) :
    (Number.IntegersInRange (written graph maxDepth ty value) →
      Serializer.fast.encode graph ty value = Serializer.portable.encode graph ty value) ∧
    (Serializer.fast.encode graph ty value = .error .integerOverflow ↔
      ∃ n ∈ written graph maxDepth ty value, n.role = .integer ∧ ¬Groups.Word.InRange n.value) := by
  have hfollows := Fast.encode_follows graph ty value
  rw [← Portable.encode_eq_form] at hfollows
  constructor
  · intro hint
    exact hfollows.eq_of_inRange ((allInRange_written_iff hg ht hv).mpr hint)
  · exact encode_integerOverflow_iff hg ht hv

/-- A record with a field that is missing after an integer, which is in range or is not. -/
theorem encode_parity_pair :
    let pair := Ty.record [("first", .integer), ("second", .integer)]
    Serializer.fast.encode .builtins pair (.record [("first", .integer 64)])
      = Serializer.portable.encode .builtins pair (.record [("first", .integer 64)]) ∧
    Serializer.fast.encode .builtins pair (.record [("first", .integer (2 ^ 63))])
      = .error .integerOverflow := by
  refine ⟨(encode_parity (by decide) (by decide) (by decide)).1 (by decide), ?_⟩
  refine (encode_parity (by decide) (by decide) (by decide)).2.mpr ?_
  exact ⟨⟨.integer, 2 ^ 63⟩, List.mem_singleton.mpr rfl, rfl, by decide⟩

/-! ## Reading -/

theorem Portable.decode_ends (hty : graph.Everywhere p ty) (data : List UInt8) :
    Ends (fun _ ↦ True) (Fault p graph) (decode graph ty data) :=
  (read_ends hty).bind fun _ _ _ ↦ .ok trivial

theorem Portable.decode_ne_integerOverflow (graph : Graph) (ty : Ty) (data : List UInt8) :
    decode graph ty data ≠ .error .integerOverflow := by
  intro h
  cases (decode_ends (graph.everywhere_true ty) data).bad_of_eq h

/-- Either serializer finds a fault in the data, or the fast one reports an overflow. -/
theorem decode_ends (hty : graph.Everywhere p ty) (data : List UInt8) (serializer : Serializer) :
    Ends (fun _ ↦ True) (fun e ↦ Fault p graph e ∨ e = .integerOverflow)
      (serializer.decode graph ty data) := by
  cases serializer with
  | portable => exact (Portable.decode_ends hty data).imp (fun _ h ↦ h) fun _ h ↦ .inl h
  | fast => exact (Fast.decode_follows graph ty data).ends (Portable.decode_ends hty data)

theorem sizesInRange_metIn {data rest : List UInt8} {value : Value} (hdata : data.length < 2 ^ 62)
    (hg : graph.Addressable) (ht : ty.Addressable)
    (h : Portable.decode graph ty data = .ok (value, rest)) :
    Number.SizesInRange (metIn graph ty data) := by
  -- the allowance does not take the budget out of range
  have hsource : (⟨data, elementBudget data.length⟩ : Portable.Source).Addressable := by
    constructor
    · exact hdata.trans (by norm_num)
    · change data.length + 2 ^ 20 < 2 ^ 63
      omega
  have hends : Ends (fun _ ↦ Number.SizesInRange (metIn graph ty data)) (Fault _ graph)
      (Portable.decode graph ty data) :=
    (Portable.read_ends (hg.everywhere ht)).bind fun _ _ hr ↦
      .ok (hr (fun _ hpart ↦ hpart) hsource).2
  exact hends.good_of_eq h

/-- **Reading.** What the portable serializer reads, the fast one reads too, with the same rest,
unless an integer out of range was met; and it fails as the portable one fails, unless it reports an
overflow. It reports one exactly when a number spelled in the data, complete or cut off, is out of
range where it is met. -/
theorem decode_parity {data : List UInt8} (hdata : data.length < 2 ^ 62) (hg : graph.Addressable)
    (ht : ty.Addressable) :
    (∀ value rest, Serializer.portable.decode graph ty data = .ok (value, rest) →
      (Number.IntegersInRange (metIn graph ty data) →
        Serializer.fast.decode graph ty data = .ok (value, rest)) ∧
      (¬Number.IntegersInRange (metIn graph ty data) →
        Serializer.fast.decode graph ty data = .error .integerOverflow)) ∧
    (∀ e, Serializer.portable.decode graph ty data = .error e →
      Serializer.fast.decode graph ty data = .error e ∨
        Serializer.fast.decode graph ty data = .error .integerOverflow) ∧
    (Number.AllInRange (metIn graph ty data) →
      Serializer.fast.decode graph ty data = Serializer.portable.decode graph ty data) ∧
    (Serializer.fast.decode graph ty data = .error .integerOverflow ↔
      ∃ n ∈ metIn graph ty data, ¬Groups.Word.InRange n.value) := by
  have hfollows := Fast.decode_follows graph ty data
  have hne := Portable.decode_ne_integerOverflow graph ty data
  refine ⟨fun value rest hok ↦ ?_, fun e herror ↦ ?_, fun hall ↦ hfollows.eq_of_inRange hall, ?_⟩
  · have hrange := Number.allInRange_iff (sizesInRange_metIn hdata hg ht hok)
    refine ⟨fun hint ↦ ?_, fun hint ↦ hfollows.overflows (mt hrange.mp hint)⟩
    exact (hfollows.eq_of_inRange (hrange.mpr hint)).trans hok
  · by_cases hall : Number.AllInRange (metIn graph ty data)
    · exact .inl ((hfollows.eq_of_inRange hall).trans herror)
    · exact .inr (hfollows.overflows hall)
  · rw [Serializer.decode, hfollows.overflow_iff hne, Number.AllInRange]
    push Not
    rfl

/-- An integer of two groups, and one of ten groups that is cut off and out of range. -/
theorem decode_parity_integer :
    Serializer.fast.decode .builtins .integer [0x00, 0xc0, 0x2a] = .ok (.integer 64, [0x2a]) ∧
    Serializer.fast.decode .builtins .integer [0x01, 0, 0, 0, 0, 0, 0, 0, 0, 0]
      = .error .integerOverflow := by
  refine ⟨?_, ?_⟩
  · exact ((decode_parity (by decide) (by decide) (by decide)).1 _ _ rfl).1 (by decide)
  · refine (decode_parity (by decide) (by decide) (by decide)).2.2.2.mpr ?_
    exact ⟨⟨.integer, 2 ^ 63⟩, List.mem_singleton.mpr rfl, by decide⟩

end SchemaCodec.Wire
