import SchemaCodec.Json.Bridge
import SchemaCodec.Proofs.Decimal
import SchemaCodec.Proofs.Fitting

/-!
# Conversion part by part

The bridge to JSON passes along what it has converted so far, in both directions. Here arrays and
records are taken apart: the items of an array are converted one by one, and so are the fields of a
record, where no name is given twice. With that, what can be converted at all is told from the value
alone: what has a JSON form fits its type.
-/

namespace SchemaCodec

variable {α β ε : Type}

/-- A loop that gathers its results in reverse converts the items one by one. -/
theorem eq_mapM_of_gather {gather : List α → List β → Except ε (List β)} {convert : α → Except ε β}
    (hnil : ∀ done, gather [] done = .ok done.reverse)
    (hcons : ∀ a rest done, gather (a :: rest) done = convert a >>= fun b ↦ gather rest (b :: done))
    (items : List α) (done : List β) :
    gather items done = (items.mapM convert).map (done.reverse ++ ·) := by
  induction items generalizing done with
  | nil => exact (hnil done).trans (congrArg Except.ok (List.append_nil _).symm)
  | cons a rest ih =>
    rw [hcons, List.mapM_cons]
    cases convert a with
    | error e => rfl
    | ok b =>
      change gather rest (b :: done) = _
      rw [ih]
      cases rest.mapM convert with
      | error e => rfl
      | ok results => simp [Except.map, bind, Except.bind, pure, Except.pure]

/-- Entries that are converted one by one, none of them given twice. -/
theorem Members.foldlM_put {κ : Type} [DecidableEq κ] {f : κ × α → Except ε β}
    {entries : Members κ α} (ms : Members κ β) (h : (ms.keys ++ entries.keys).Nodup) :
    entries.foldlM (fun ms entry ↦ do
        let b ← f entry
        .ok (put entry.1 b ms)) ms
      = (entries.mapM f).map fun results ↦ ms ++ entries.keys.zip results := by
  induction entries generalizing ms with
  | nil => exact congrArg Except.ok (List.append_nil ms).symm
  | cons entry rest ih =>
    have hnew : entry.1 ∉ ms.keys := by
      intro hmem
      exact (List.nodup_append.mp h).2.2 _ hmem _ List.mem_cons_self rfl
    rw [List.foldlM_cons, List.mapM_cons]
    cases f entry with
    | error e => rfl
    | ok b =>
      have hrest : ((ms ++ [(entry.1, b)]).keys ++ keys rest).Nodup := by
        rw [keys, List.map_append, ← keys, List.append_assoc]
        exact h
      change rest.foldlM _ (put entry.1 b ms) = _
      rw [put_of_not_mem b hnew, ih _ hrest]
      cases rest.mapM f with
      | error e => rfl
      | ok results => exact congrArg Except.ok (List.append_assoc _ _ _)

namespace Json

/-- The content under the name of an entry, converted to or from its type. -/
def converted (convert : Ty → α → Except BridgeError β) (members : Members String α)
    (entry : String × Ty) : Except BridgeError β :=
  match Members.get? entry.1 members with
  | some a => convert entry.2 a
  | none => .error (.wire (.missingField entry.1))

theorem get?_of_converted {convert : Ty → α → Except BridgeError β} {members : Members String α}
    {entry : String × Ty} {b : β} (h : converted convert members entry = .ok b) :
    ∃ a, Members.get? entry.1 members = some a ∧ convert entry.2 a = .ok b := by
  rw [converted] at h
  split at h
  · next a hget => exact ⟨a, hget, h⟩
  · cases h

theorem converted_of_get? {convert : Ty → α → Except BridgeError β} {members : Members String α}
    {entry : String × Ty} {a : α} (h : Members.get? entry.1 members = some a) :
    converted convert members entry = convert entry.2 a := by
  rw [converted, h]

section

variable {graph : Graph} {ty : Ty}

/-! ## Writing -/

theorem ofField_eq_converted (name : String) (ty : Ty) (fields : Members String Value) :
    ofField graph name ty fields = converted (ofValue graph) fields (name, ty) := by
  induction fields with
  | nil => rfl
  | cons field rest ih =>
    rw [ofField, ih, converted, converted, Members.get?]
    split
    · rfl
    · rfl

theorem ofValue_array {element : Ty} (hshape : graph.resolve ty = .array element)
    (items : List Value) :
    ofValue graph ty (.array items) = (items.mapM (ofValue graph element)).map array := by
  have hgather : ofItems graph element items [] = (items.mapM (ofValue graph element)).map _ :=
    eq_mapM_of_gather (fun _ ↦ by rw [ofItems]) (fun _ _ _ ↦ by rw [ofItems, ofValue]) items []
  rw [ofValue, hshape, ofShaped, hgather]
  cases items.mapM (ofValue graph element) <;> rfl

theorem ofValue_record {entries : List (String × Ty)} (hshape : graph.resolve ty = .record entries)
    (hnodup : (entries.map Prod.fst).Nodup) (fields : Members String Value) :
    ofValue graph ty (.record fields)
      = (entries.mapM (converted (ofValue graph) fields)).map fun results ↦
        object ((entries.map Prod.fst).zip results) := by
  have hfold := Members.foldlM_put (f := converted (ofValue graph) fields) [] hnodup
  rw [ofValue, hshape, ofShaped]
  simp only [ofField_eq_converted]
  refine (congrArg (· >>= _) hfold).trans ?_
  cases entries.mapM (converted (ofValue graph) fields) <;> rfl

theorem ofValue_choice {entries : List (String × Ty)} {variant : String} {payloadTy : Ty}
    (hshape : graph.resolve ty = .choice entries)
    (hget : Members.get? variant entries = some payloadTy) (payload : Value) :
    ofValue graph ty (.choice variant payload)
      = (ofValue graph payloadTy payload).map fun json ↦ array [string variant, json] := by
  rw [ofValue, hshape, ofShaped, hget]
  dsimp only
  rw [← ofValue]
  cases ofValue graph payloadTy payload <;> rfl

/-! ## Reading -/

theorem toField_eq_converted (name : String) (ty : Ty) (members : Members String Json) :
    toField graph name ty members = converted (toValue graph) members (name, ty) := by
  induction members with
  | nil => rfl
  | cons member rest ih =>
    rw [toField, ih, converted, converted, Members.get?]
    split
    · rfl
    · rfl

theorem toValue_array {element : Ty} (hshape : graph.resolve ty = .array element)
    (items : List Json) :
    toValue graph ty (array items) = (items.mapM (toValue graph element)).map .array := by
  have hgather : toItems graph element items [] = (items.mapM (toValue graph element)).map _ :=
    eq_mapM_of_gather (fun _ ↦ by rw [toItems]) (fun _ _ _ ↦ by rw [toItems, toValue]) items []
  rw [toValue, hshape, toShaped, hgather]
  cases items.mapM (toValue graph element) <;> rfl

theorem toValue_record {entries : List (String × Ty)} (hshape : graph.resolve ty = .record entries)
    (hnodup : (entries.map Prod.fst).Nodup) (members : Members String Json) :
    toValue graph ty (object members)
      = (entries.mapM (converted (toValue graph) members)).map fun results ↦
        .record ((entries.map Prod.fst).zip results) := by
  have hfold := Members.foldlM_put (f := converted (toValue graph) members) [] hnodup
  rw [toValue, hshape, toShaped]
  simp only [toField_eq_converted]
  refine (congrArg (· >>= _) hfold).trans ?_
  cases entries.mapM (converted (toValue graph) members) <;> rfl

theorem toValue_choice {entries : List (String × Ty)} {variant : String} {payloadTy : Ty}
    (hshape : graph.resolve ty = .choice entries)
    (hget : Members.get? variant entries = some payloadTy) (payload : Json) :
    toValue graph ty (array [string variant, payload])
      = (toValue graph payloadTy payload).map (.choice variant) := by
  rw [toValue, hshape, toShaped, hget]
  rfl

end

end Json

end SchemaCodec
