import SchemaCodec.Json.Bridge
import SchemaCodec.Proofs.Outcome
import SchemaCodec.Proofs.Parts

/-!
# Failures of the bridge to JSON

Of all failures of the bridge, one depends on the graph and not on what is converted: a type that is
unknown. It comes up only at a type that the walk can come upon and that leads to no shape.
-/

namespace SchemaCodec.Json

/-- A failure is no unknown type, or the graph is to blame. -/
def Blamed (p : Ty → Prop) (graph : Graph) (e : BridgeError) : Prop :=
  ∀ key, e = .wire (.unknownType key) → graph.Stuck p key

variable {p : Ty → Prop} {graph : Graph}

theorem blamed_stuck {ty : Ty} {key : Key} (hty : graph.Everywhere p ty)
    (hshape : graph.resolve ty = .ref key) : Blamed p graph (.wire (.unknownType key)) := by
  intro other heq
  cases heq
  exact ⟨ty, hty, hshape⟩

theorem blamed_wire {e : WireError} (h : ∀ key, e ≠ .unknownType key) :
    Blamed p graph (.wire e) :=
  fun key heq ↦ absurd (BridgeError.wire.inj heq) (h key)

theorem blamed_mismatch (expected found : Kind) :
    Blamed p graph (.wire (.typeMismatch expected found)) :=
  blamed_wire fun _ ↦ WireError.noConfusion

/-! ## Writing -/

mutual

theorem ofShaped_ends : (value : Value) → (ty : Ty) → graph.Everywhere p ty →
    Ends (fun _ ↦ True) (Blamed p graph) (ofShaped graph (graph.resolve ty) value)
  | .none, ty, hty | .boolean _, ty, hty | .integer _, ty, hty | .string _, ty, hty
  | .bytes _, ty, hty => by
    unfold ofShaped
    cases hshape : graph.resolve ty with
    | ref key => exact .error (blamed_stuck hty hshape)
    | _ => first | exact .ok trivial | exact .error (blamed_mismatch _ _)
  | .float x, ty, hty => by
    unfold ofShaped
    cases hshape : graph.resolve ty with
    | ref key => exact .error (blamed_stuck hty hshape)
    | float =>
      dsimp only
      split
      · exact .ok trivial
      · exact .error fun _ ↦ BridgeError.noConfusion
    | _ => exact .error (blamed_mismatch _ _)
  | .array items, ty, hty => by
    unfold ofShaped
    cases hshape : graph.resolve ty with
    | ref key => exact .error (blamed_stuck hty hshape)
    | array element =>
      exact (ofItems_ends items element (hty.element hshape) []).map fun _ _ ↦ trivial
    | _ => exact .error (blamed_mismatch _ _)
  | .record fields, ty, hty => by
    unfold ofShaped
    cases hshape : graph.resolve ty with
    | ref key => exact .error (blamed_stuck hty hshape)
    | record entries =>
      refine (Ends.foldlM (fun _ ↦ True) trivial fun members _ entry hmem ↦ ?_).bind
        fun _ _ _ ↦ .ok trivial
      exact (ofField_ends fields entry.1 entry.2 (hty.entry hshape hmem)).bind fun _ _ _ ↦
        .ok trivial
    | _ => exact .error (blamed_mismatch _ _)
  | .choice variant payload, ty, hty => by
    unfold ofShaped
    cases hshape : graph.resolve ty with
    | ref key => exact .error (blamed_stuck hty hshape)
    | choice entries =>
      dsimp only
      cases hget : Members.get? variant entries with
      | none => exact .error (blamed_wire fun _ ↦ WireError.noConfusion)
      | some payloadTy =>
        have hpayload := hty.entry hshape (Members.mem_of_get? hget)
        exact (ofShaped_ends payload payloadTy hpayload).bind fun _ _ _ ↦ .ok trivial
    | _ => exact .error (blamed_mismatch _ _)

theorem ofItems_ends : (items : List Value) → (element : Ty) → graph.Everywhere p element →
    (written : List Json) →
    Ends (fun _ ↦ True) (Blamed p graph) (ofItems graph element items written)
  | [], element, hty, written => by
    rw [ofItems]
    exact .ok trivial
  | item :: rest, element, hty, written => by
    rw [ofItems]
    exact (ofShaped_ends item element hty).bind fun json _ _ ↦
      ofItems_ends rest element hty (json :: written)

theorem ofField_ends : (fields : List (String × Value)) → (name : String) → (ty : Ty) →
    graph.Everywhere p ty → Ends (fun _ ↦ True) (Blamed p graph) (ofField graph name ty fields)
  | [], name, ty, hty => by
    rw [ofField]
    exact .error (blamed_wire fun _ ↦ WireError.noConfusion)
  | (key, value) :: rest, name, ty, hty => by
    rw [ofField]
    split
    · exact ofShaped_ends value ty hty
    · exact ofField_ends rest name ty hty

end

theorem ofValue_ends {ty : Ty} (hty : graph.Everywhere p ty) (value : Value) :
    Ends (fun _ ↦ True) (Blamed p graph) (ofValue graph ty value) := ofShaped_ends value ty hty

/-! ## Reading -/

/-- A failure that has nothing to do with a type that is unknown. -/
theorem blamed_form (expected : Kind) (found : Form) :
    Blamed p graph (.unexpectedForm expected found) :=
  fun _ ↦ BridgeError.noConfusion

theorem toByte_ends (json : Json) : Ends (fun _ ↦ True) (Blamed p graph) (toByte json) := by
  have hbad : ∀ item, Blamed p graph (.notByte item) := fun _ _ ↦ BridgeError.noConfusion
  unfold toByte
  split
  · split
    · exact .ok trivial
    · exact .error (hbad _)
  · exact .error (hbad _)

theorem mapM_toByte_ends (items : List Json) :
    Ends (fun _ ↦ True) (Blamed p graph) (items.mapM toByte) := by
  induction items with
  | nil => exact .ok trivial
  | cons item rest ih =>
    rw [List.mapM_cons]
    exact (toByte_ends item).bind fun _ _ _ ↦ ih.bind fun _ _ _ ↦ .ok trivial

mutual

theorem toShaped_ends : (json : Json) → (ty : Ty) → graph.Everywhere p ty →
    Ends (fun _ ↦ True) (Blamed p graph) (toShaped graph (graph.resolve ty) json)
  | .null, ty, hty | .bool _, ty, hty => by
    unfold toShaped
    cases hshape : graph.resolve ty with
    | ref key => exact .error (blamed_stuck hty hshape)
    | _ => first | exact .ok trivial | exact .error (blamed_form _ _)
  | .number n, ty, hty => by
    unfold toShaped
    cases hshape : graph.resolve ty with
    | ref key => exact .error (blamed_stuck hty hshape)
    | integer => cases n with
      | integer i => exact .ok trivial
      | float x => exact .error fun _ ↦ BridgeError.noConfusion
    | _ => first | exact .ok trivial | exact .error (blamed_form _ _)
  | .string s, ty, hty => by
    unfold toShaped
    cases hshape : graph.resolve ty with
    | ref key => exact .error (blamed_stuck hty hshape)
    | integer =>
      dsimp only
      cases Decimal.readInt? s with
      | none => exact .error fun _ ↦ BridgeError.noConfusion
      | some i => exact .ok trivial
    | _ => first | exact .ok trivial | exact .error (blamed_form _ _)
  | .array items, ty, hty => by
    cases hshape : graph.resolve ty with
    | choice entries =>
      -- of the shapes, only a choice looks at the items before it converts them
      exact toPair_ends items entries fun entry hmem ↦ hty.entry hshape hmem
    | _ =>
      unfold toShaped
      first
      | exact .error (blamed_stuck hty hshape)
      | exact .error (blamed_form _ _)
      | exact (mapM_toByte_ends items).map fun _ _ ↦ trivial
      | exact (toItems_ends items _ (hty.element hshape) []).map fun _ _ ↦ trivial
  | .object members, ty, hty => by
    unfold toShaped
    cases hshape : graph.resolve ty with
    | ref key => exact .error (blamed_stuck hty hshape)
    | record entries =>
      refine (Ends.foldlM (fun _ ↦ True) trivial fun fields _ entry hmem ↦ ?_).bind
        fun _ _ _ ↦ .ok trivial
      exact (toField_ends members entry.1 entry.2 (hty.entry hshape hmem)).bind fun _ _ _ ↦
        .ok trivial
    | _ => exact .error (blamed_form _ _)

theorem toPair_ends : (items : List Json) → (entries : List (String × Ty)) →
    (∀ entry ∈ entries, graph.Everywhere p entry.2) →
    Ends (fun _ ↦ True) (Blamed p graph) (toShaped graph (.choice entries) (.array items))
  | [.string variant, payload], entries, hentry => by
    rw [toShaped]
    cases hget : Members.get? variant entries with
    | none => exact .error (blamed_wire fun _ ↦ WireError.noConfusion)
    | some ty =>
      exact (toShaped_ends payload ty (hentry _ (Members.mem_of_get? hget))).map fun _ _ ↦ trivial
  | [], entries, _ | [.null, _], entries, _ | [.bool _, _], entries, _ | [.number _, _], entries, _
  | [.array _, _], entries, _ | [.object _, _], entries, _ => by
    unfold toShaped
    exact .error fun _ ↦ BridgeError.noConfusion
  | [item], entries, _ | item :: _ :: _ :: _, entries, _ => by
    unfold toShaped
    cases item <;> exact .error fun _ ↦ BridgeError.noConfusion

theorem toItems_ends : (items : List Json) → (element : Ty) → graph.Everywhere p element →
    (read : List Value) →
    Ends (fun _ ↦ True) (Blamed p graph) (toItems graph element items read)
  | [], element, hty, read => by
    rw [toItems]
    exact .ok trivial
  | item :: rest, element, hty, read => by
    rw [toItems]
    exact (toShaped_ends item element hty).bind fun value _ _ ↦
      toItems_ends rest element hty (value :: read)

theorem toField_ends : (members : List (String × Json)) → (name : String) → (ty : Ty) →
    graph.Everywhere p ty → Ends (fun _ ↦ True) (Blamed p graph) (toField graph name ty members)
  | [], name, ty, hty => by
    rw [toField]
    exact .error (blamed_wire fun _ ↦ WireError.noConfusion)
  | (key, json) :: rest, name, ty, hty => by
    rw [toField]
    split
    · exact toShaped_ends json ty hty
    · exact toField_ends rest name ty hty

end

theorem toValue_ends {ty : Ty} (hty : graph.Everywhere p ty) (json : Json) :
    Ends (fun _ ↦ True) (Blamed p graph) (toValue graph ty json) := toShaped_ends json ty hty

end SchemaCodec.Json
