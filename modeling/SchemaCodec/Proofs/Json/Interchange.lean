import SchemaCodec.Json.Bridge
import SchemaCodec.Proofs.Bisimulation

/-!
# Bisimilar types in JSON

The bridge to JSON recurses on the tree it converts and chases references at each node of it, so
through two types whose shapes are paired it takes the same way.
-/

namespace SchemaCodec.Json

variable {graph other : Graph} {R : Ty → Ty → Prop}

/-! ## Writing -/

mutual

theorem ofShaped_eq (hR : graph.Pairing other R) : (value : Value) → (ty ty' : Ty) → R ty ty' →
    ofShaped graph (graph.resolve ty) value = ofShaped other (other.resolve ty') value
  | .none, ty, ty', h | .boolean _, ty, ty', h | .integer _, ty, ty', h | .float _, ty, ty', h
  | .string _, ty, ty', h | .bytes _, ty, ty', h => by
    have hpaired := hR ty ty' h
    generalize graph.resolve ty = shape, other.resolve ty' = shape' at hpaired ⊢
    cases hpaired with
    | @leaf b _ hleaf => cases b <;> cases hleaf <;> rfl
    | _ => rfl
  | .array items, ty, ty', h => by
    have hpaired := hR ty ty' h
    unfold ofShaped
    generalize graph.resolve ty = shape, other.resolve ty' = shape' at hpaired ⊢
    cases hpaired with
    | @leaf b _ hleaf => cases b <;> cases hleaf <;> rfl
    | @array element element' helement =>
      exact congrArg (Except.map array) (ofItems_eq hR items element element' helement [])
    | _ => rfl
  | .record fields, ty, ty', h => by
    have hpaired := hR ty ty' h
    unfold ofShaped
    generalize graph.resolve ty = shape, other.resolve ty' = shape' at hpaired ⊢
    cases hpaired with
    | @leaf b _ hleaf => cases b <;> cases hleaf <;> rfl
    | record hentries =>
      refine congrArg₂ Bind.bind (hentries.foldlM_eq (fun members name ty ty' hty ↦ ?_) []) rfl
      exact congrArg (· >>= _) (ofField_eq hR fields name ty ty' hty)
    | _ => rfl
  | .choice variant payload, ty, ty', h => by
    have hpaired := hR ty ty' h
    unfold ofShaped
    generalize graph.resolve ty = shape, other.resolve ty' = shape' at hpaired ⊢
    cases hpaired with
    | @leaf b _ hleaf => cases b <;> cases hleaf <;> rfl
    | choice hentries =>
      rcases hentries.get?_cases variant with ⟨ty, ty', hget, hget', hty⟩ | ⟨hget, hget'⟩
      · dsimp only
        rw [hget, hget']
        exact congrArg (· >>= _) (ofShaped_eq hR payload ty ty' hty)
      · dsimp only
        rw [hget, hget']
    | _ => rfl

theorem ofItems_eq (hR : graph.Pairing other R) : (items : List Value) → (element element' : Ty) →
    R element element' → (written : List Json) →
    ofItems graph element items written = ofItems other element' items written
  | [], _, _, _, _ => rfl
  | item :: rest, element, element', h, written => by
    rw [ofItems, ofItems, ofShaped_eq hR item element element' h]
    exact bind_congr fun json ↦ ofItems_eq hR rest element element' h (json :: written)

theorem ofField_eq (hR : graph.Pairing other R) : (fields : List (String × Value)) →
    (name : String) → (ty ty' : Ty) → R ty ty' →
    ofField graph name ty fields = ofField other name ty' fields
  | [], _, _, _, _ => rfl
  | (key, value) :: rest, name, ty, ty', h => by
    rw [ofField, ofField, ofShaped_eq hR value ty ty' h, ofField_eq hR rest name ty ty' h]

end

theorem ofValue_eq (hR : graph.Pairing other R) {ty ty' : Ty} (h : R ty ty') (value : Value) :
    ofValue graph ty value = ofValue other ty' value := ofShaped_eq hR value ty ty' h

/-! ## Reading -/

mutual

theorem toShaped_eq (hR : graph.Pairing other R) : (json : Json) → (ty ty' : Ty) → R ty ty' →
    toShaped graph (graph.resolve ty) json = toShaped other (other.resolve ty') json
  | .null, ty, ty', h | .bool _, ty, ty', h | .number (.integer _), ty, ty', h
  | .number (.float _), ty, ty', h | .string _, ty, ty', h => by
    have hpaired := hR ty ty' h
    generalize graph.resolve ty = shape, other.resolve ty' = shape' at hpaired ⊢
    cases hpaired with
    | @leaf b _ hleaf => cases b <;> cases hleaf <;> rfl
    | _ => rfl
  | .array items, ty, ty', h => by
    have hpaired := hR ty ty' h
    generalize graph.resolve ty = shape, other.resolve ty' = shape' at hpaired ⊢
    cases hpaired with
    | @leaf b _ hleaf => cases b <;> cases hleaf <;> rfl
    | @array element element' helement =>
      unfold toShaped
      exact congrArg (Except.map Value.array) (toItems_eq hR items element element' helement [])
    | @choice entries entries' hentries => exact toPair_eq hR items entries entries' hentries
    | record => rfl
  | .object members, ty, ty', h => by
    have hpaired := hR ty ty' h
    unfold toShaped
    generalize graph.resolve ty = shape, other.resolve ty' = shape' at hpaired ⊢
    cases hpaired with
    | @leaf b _ hleaf => cases b <;> cases hleaf <;> rfl
    | record hentries =>
      refine congrArg₂ Bind.bind (hentries.foldlM_eq (fun fields name ty ty' hty ↦ ?_) []) rfl
      exact congrArg (· >>= _) (toField_eq hR members name ty ty' hty)
    | _ => rfl

theorem toPair_eq (hR : graph.Pairing other R) : (items : List Json) →
    (entries entries' : List (String × Ty)) → EntriesAlike R entries entries' →
    toShaped graph (.choice entries) (array items)
      = toShaped other (.choice entries') (array items)
  | [string variant, payload], entries, entries', h => by
    unfold toShaped
    rcases h.get?_cases variant with ⟨ty, ty', hget, hget', hty⟩ | ⟨hget, hget'⟩
    · rw [hget, hget']
      exact congrArg (Except.map _) (toShaped_eq hR payload ty ty' hty)
    · rw [hget, hget']
  | [], _, _, _ | [null, _], _, _, _ | [bool _, _], _, _, _ | [number _, _], _, _, _
  | [array _, _], _, _, _ | [object _, _], _, _, _ => rfl
  | [item], _, _, _ | item :: _ :: _ :: _, _, _, _ => by cases item <;> rfl

theorem toItems_eq (hR : graph.Pairing other R) : (items : List Json) → (element element' : Ty) →
    R element element' → (read : List Value) →
    toItems graph element items read = toItems other element' items read
  | [], _, _, _, _ => rfl
  | item :: rest, element, element', h, read => by
    rw [toItems, toItems, toShaped_eq hR item element element' h]
    exact bind_congr fun value ↦ toItems_eq hR rest element element' h (value :: read)

theorem toField_eq (hR : graph.Pairing other R) : (members : List (String × Json)) →
    (name : String) → (ty ty' : Ty) → R ty ty' →
    toField graph name ty members = toField other name ty' members
  | [], _, _, _, _ => rfl
  | (key, json) :: rest, name, ty, ty', h => by
    rw [toField, toField, toShaped_eq hR json ty ty' h, toField_eq hR rest name ty ty' h]

end

theorem toValue_eq (hR : graph.Pairing other R) {ty ty' : Ty} (h : R ty ty') (json : Json) :
    toValue graph ty json = toValue other ty' json := toShaped_eq hR json ty ty' h

end SchemaCodec.Json
