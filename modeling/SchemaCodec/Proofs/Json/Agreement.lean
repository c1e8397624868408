import SchemaCodec.Proofs.Json.RoundTrip

/-!
# Refusals in writing

The bridge to JSON and the portable serializer walk a value along its type, each with rules of its
own for shapes, fields and variants. Two things only one of them minds: the serializer how deep a
value is, and the bridge whether a float is a number. Apart from these they refuse the same values,
and of several faults in a value they report the same one, since both take the fields of a record
in the order of the declaration and the items of an array in theirs.

## How deep a value is

The depth of a value counts the levels of the whole value, fields that are not declared included,
so it bounds the levels that a walk along any type can go down.
-/

namespace SchemaCodec

/-! ## Depth -/

namespace Value

mutual

/-- The number of levels of a value; a scalar has one, and so has an empty array or record. -/
def depth : Value → Nat
  | array items => itemsDepth items + 1
  | record fields => fieldsDepth fields + 1
  | choice _ payload => payload.depth + 1
  | _ => 1

def itemsDepth : List Value → Nat
  | [] => 0
  | item :: rest => max item.depth (itemsDepth rest)

def fieldsDepth : List (String × Value) → Nat
  | [] => 0
  | (_, value) :: rest => max value.depth (fieldsDepth rest)

end

theorem depth_pos (value : Value) : 0 < value.depth := by cases value <;> simp [depth]

theorem depth_le_itemsDepth {items : List Value} {item : Value} (h : item ∈ items) :
    item.depth ≤ itemsDepth items := by
  induction items with
  | nil => exact absurd h List.not_mem_nil
  | cons first rest ih =>
    rw [itemsDepth]
    rcases List.mem_cons.mp h with rfl | h
    · exact le_max_left _ _
    · exact (ih h).trans (le_max_right _ _)

theorem depth_le_fieldsDepth {fields : List (String × Value)} {field : String × Value}
    (h : field ∈ fields) : field.2.depth ≤ fieldsDepth fields := by
  induction fields with
  | nil => exact absurd h List.not_mem_nil
  | cons first rest ih =>
    rw [fieldsDepth]
    rcases List.mem_cons.mp h with rfl | h
    · exact le_max_left _ _
    · exact (ih h).trans (le_max_right _ _)

end Value

namespace Json

open Wire

/-! ## Agreement -/

/-- The failures of a value that cannot be taken apart along its type. -/
inductive Unfit : WireError → Prop where
  | typeMismatch (expected found : Kind) : Unfit (.typeMismatch expected found)
  | missingField (name : String) : Unfit (.missingField name)
  | unknownVariant (name : String) : Unfit (.unknownVariant name)
  | unknownType (key : Key) : Unfit (.unknownType key)

variable {α β γ δ : Type}

/-- Two conversions succeed both, or fail both because of one misfit. -/
inductive Agrees : Except BridgeError α → Except WireError β → Prop where
  | ok (a : α) (b : β) : Agrees (.ok a) (.ok b)
  | error {e : WireError} (unfit : Unfit e) : Agrees (.error (.wire e)) (.error e)

namespace Agrees

variable {x : Except BridgeError α} {y : Except WireError β}

theorem bind {k : α → Except BridgeError γ} {l : β → Except WireError δ} (h : Agrees x y)
    (hk : ∀ a b, Agrees (k a) (l b)) : Agrees (x >>= k) (y >>= l) := by
  cases h with
  | ok a b => exact hk a b
  | error unfit => exact .error unfit

theorem map_left (h : Agrees x y) (f : α → γ) : Agrees (x.map f) y := by
  cases h with
  | ok a b => exact .ok (f a) b
  | error unfit => exact .error unfit

theorem map_right (h : Agrees x y) (f : β → δ) : Agrees x (y.map f) := by
  cases h with
  | ok a b => exact .ok a (f b)
  | error unfit => exact .error unfit

/-- Items that are converted one by one, up to the first that cannot be. -/
theorem mapM_join {items : List α} {convert : α → Except BridgeError γ}
    {part : α → Except WireError (List UInt8)} (h : ∀ a ∈ items, Agrees (convert a) (part a)) :
    Agrees (items.mapM convert) (join part items) := by
  induction items with
  | nil => exact .ok [] []
  | cons a rest ih =>
    rw [List.mapM_cons, join]
    refine (h a List.mem_cons_self).bind fun c bytes ↦ ?_
    exact (ih fun b hb ↦ h b (List.mem_cons_of_mem _ hb)).bind fun cs _ ↦ .ok (c :: cs) _

/-- Entries that are converted onto what was made of those before. -/
theorem foldlM_join {items : List α} {step : γ → α → Except BridgeError γ}
    {part : α → Except WireError (List UInt8)}
    (h : ∀ c, ∀ a ∈ items, Agrees (step c a) (part a)) (init : γ) :
    Agrees (items.foldlM step init) (join part items) := by
  induction items generalizing init with
  | nil => exact .ok init []
  | cons a rest ih =>
    rw [List.foldlM_cons, join]
    refine (h init a List.mem_cons_self).bind fun c bytes ↦ ?_
    exact (ih (fun c b hb ↦ h c b (List.mem_cons_of_mem _ hb)) c).map_right _

end Agrees

section

variable {graph : Graph} {ty : Ty}

/-- The content under the name of an entry is missing for both, or both convert it. -/
theorem converted_agrees {fields : Members String Value} {entry : String × Ty} {levels : Nat}
    (h : ∀ field, (entry.1, field) ∈ fields →
      Agrees (ofValue graph entry.2 field) (Wire.form graph levels entry.2 field)) :
    Agrees (converted (ofValue graph) fields entry)
      (fieldOf fields entry >>= Wire.form graph levels entry.2) := by
  rw [converted, fieldOf]
  cases hget : Members.get? entry.1 fields with
  | none => exact .error (.missingField entry.1)
  | some field => exact h field (Members.mem_of_get? hget)

/-- Within the levels of the form, and without floats that are no numbers, a value is converted by
both or refused by both, by induction on the levels. -/
theorem ofValue_agrees {levels : Nat} {value : Value} (hdepth : value.depth ≤ levels)
    (hfinite : AllFinite value) :
    Agrees (ofValue graph ty value) (Wire.form graph levels ty value) := by
  induction levels generalizing ty value with
  | zero => exact absurd hdepth (Nat.not_le_of_gt value.depth_pos)
  | succ levels ih =>
    cases hshape : graph.resolve ty with
    | ref key =>
      unfold ofValue ofShaped Wire.form
      rw [hshape]
      exact .error (.unknownType key)
    | none | boolean | integer | string | bytes =>
      unfold ofValue ofShaped Wire.form
      rw [hshape]
      cases value <;> first | exact .ok _ _ | exact .error (.typeMismatch _ _)
    | float =>
      unfold ofValue ofShaped Wire.form
      rw [hshape]
      cases value with
      | float x =>
        have hx : x.isFinite = true := hfinite x (List.mem_singleton.mpr rfl)
        dsimp only
        rw [if_pos hx]
        exact .ok _ _
      | _ => exact .error (.typeMismatch _ _)
    | array element =>
      cases value with
      | array items =>
        rw [ofValue_array hshape]
        unfold Wire.form
        rw [hshape]
        refine ((Agrees.mapM_join fun item hitem ↦
          ih ?_ fun x hx ↦ hfinite x ?_).map_left _).map_right _
        · exact (Value.depth_le_itemsDepth hitem).trans (Nat.le_of_succ_le_succ hdepth)
        · exact Value.floats_array items ▸ List.mem_flatMap.mpr ⟨item, hitem, hx⟩
      | _ =>
        unfold ofValue ofShaped Wire.form
        rw [hshape]
        exact .error (.typeMismatch _ _)
    | record entries =>
      cases value with
      | record fields =>
        unfold ofValue ofShaped Wire.form
        rw [hshape]
        refine (Agrees.foldlM_join (fun members entry _ ↦ ?_) []).map_left object
        rw [ofField_eq_converted]
        refine (converted_agrees fun field hfield ↦ ih ?_ fun x hx ↦ hfinite x ?_).map_left _
        · exact (Value.depth_le_fieldsDepth hfield).trans (Nat.le_of_succ_le_succ hdepth)
        · exact Value.floats_record fields ▸ List.mem_flatMap.mpr ⟨_, hfield, hx⟩
      | _ =>
        unfold ofValue ofShaped Wire.form
        rw [hshape]
        exact .error (.typeMismatch _ _)
    | choice entries =>
      cases value with
      | choice variant payload =>
        unfold ofValue ofShaped Wire.form
        rw [hshape]
        dsimp only
        cases hget : Members.get? variant entries with
        | none =>
          rw [Members.position?_of_get?_none hget]
          exact .error (.unknownVariant variant)
        | some payloadTy =>
          obtain ⟨index, hposition, -⟩ := Members.position?_of_get? hget
          rw [hposition]
          refine ((ih (Nat.le_of_succ_le_succ hdepth)
            fun x hx ↦ hfinite x ?_).map_left _).map_right _
          exact Value.floats_choice variant payload ▸ hx
      | _ =>
        unfold ofValue ofShaped Wire.form
        rw [hshape]
        exact .error (.typeMismatch _ _)

/-- **Both writers refuse the same values.** A value that is not too deep for the wire and has only
floats that are numbers has a JSON form exactly if the portable serializer can write it. If one of
them fails, both report the same failure, and it is one of a value that does not fit its type. -/
theorem refused_alike {value : Value} (hdepth : value.depth ≤ maxDepth)
    (hfinite : AllFinite value) :
    ((∃ json, ofValue graph ty value = .ok json) ↔
      ∃ bytes, Serializer.portable.encode graph ty value = .ok bytes) ∧
    (∀ e, ofValue graph ty value = .error e ↔
      ∃ cause, e = .wire cause ∧ Serializer.portable.encode graph ty value = .error cause) ∧
    ∀ cause, Serializer.portable.encode graph ty value = .error cause → Unfit cause := by
  have hagrees : Agrees (ofValue graph ty value) (Wire.form graph maxDepth ty value) :=
    ofValue_agrees hdepth hfinite
  have hencode : Serializer.portable.encode graph ty value = Wire.form graph maxDepth ty value :=
    Portable.encode_eq_form graph ty value
  rw [hencode]
  generalize ofValue graph ty value = x, Wire.form graph maxDepth ty value = y at hagrees
  cases hagrees with
  | ok json bytes =>
    refine ⟨iff_of_true ⟨json, rfl⟩ ⟨bytes, rfl⟩, fun e ↦ ⟨nofun, ?_⟩, nofun⟩
    rintro ⟨cause, -, hcause⟩
    cases hcause
  | @error misfit unfit =>
    refine ⟨iff_of_false nofun nofun, fun e ↦ ⟨fun he ↦ ?_, ?_⟩, fun cause hcause ↦ ?_⟩
    · exact ⟨misfit, (Except.error.inj he).symm, rfl⟩
    · rintro ⟨cause, rfl, hcause⟩
      exact congrArg (Except.error ∘ BridgeError.wire) (Except.error.inj hcause)
    · exact Except.error.inj hcause ▸ unfit

/-- A list of integers that ends in a variant of another name, behind a field that is missing: of
the two faults the one that is declared first is reported. -/
theorem refused_alike_chain :
    let ty := Ty.ref (.qualified "M" "Chain")
    let value := Value.choice "link" (.record [("tail", .choice "stop" .none)])
    value.depth ≤ maxDepth ∧ AllFinite value ∧
    ofValue chains ty value = .error (.wire (.missingField "head")) ∧
    Serializer.portable.encode chains ty value = .error (.missingField "head") := by
  intro ty value
  have hdepth : value.depth ≤ maxDepth := by decide
  have hfinite : AllFinite value := fun x hx ↦ absurd hx List.not_mem_nil
  have hjson : ofValue chains ty value = .error (.wire (.missingField "head")) := by rfl
  obtain ⟨cause, hcause, hwire⟩ := ((refused_alike hdepth hfinite).2.1 _).mp hjson
  cases hcause
  exact ⟨hdepth, hfinite, hjson, hwire⟩

end

end Json

end SchemaCodec
