import SchemaCodec.Proofs.Outcome
import SchemaCodec.Proofs.Parts
import SchemaCodec.Proofs.Wire.Number
import SchemaCodec.Wire.Fast
import SchemaCodec.Wire.Portable

/-!
# The form of a value

The bytes of a value put together from the bytes of its parts, without an output that is passed
along. Both serializers write this form: one in front of bytes in reverse, the other behind a
buffer, and the latter only as long as the numbers it meets are in range.

## What is met before a failure

`written` lists the numbers in the order in which they are written, up to the first part that has no
form. A record stops at its first missing field and an array at its first unfit item, so of an
integer out of range and another failure the one that is met first decides what is reported.
-/

namespace SchemaCodec.Wire

variable {α : Type}

theorem map_append_map (bytes more : List UInt8) (y : Except WireError (List UInt8)) :
    (y.map (more ++ ·)).map (bytes ++ ·) = y.map (bytes ++ more ++ ·) := by
  cases y with
  | error e => rfl
  | ok a => exact congrArg Except.ok (List.append_assoc bytes more a).symm

/-- The bytes of several parts, one after another. -/
def join (part : α → Except WireError (List UInt8)) : List α → Except WireError (List UInt8)
  | [] => .ok []
  | a :: rest => do
    let bytes ← part a
    (join part rest).map (bytes ++ ·)

theorem join_cons_ok {part : α → Except WireError (List UInt8)} {a : α} {rest : List α}
    {bytes : List UInt8} (h : join part (a :: rest) = .ok bytes) :
    ∃ first others, part a = .ok first ∧ join part rest = .ok others ∧ bytes = first ++ others := by
  obtain ⟨first, hfirst, hmap⟩ := bind_ok h
  obtain ⟨others, hothers, hbytes⟩ := map_ok hmap
  exact ⟨first, others, hfirst, hothers, hbytes⟩

/-- The numbers of several parts, up to the first that has no bytes. -/
def numbersOver (part : α → Except WireError (List UInt8)) (numbers : α → List Number) :
    List α → List Number
  | [] => []
  | a :: rest => numbers a ++ after (part a) fun _ ↦ numbersOver part numbers rest

theorem mem_numbersOver {part : α → Except WireError (List UInt8)} {numbers : α → List Number}
    {items : List α} {n : Number} (h : n ∈ numbersOver part numbers items) :
    ∃ a ∈ items, n ∈ numbers a := by
  induction items with
  | nil => exact absurd h List.not_mem_nil
  | cons a rest ih =>
    rw [numbersOver, List.mem_append, mem_after] at h
    rcases h with h | ⟨_, _, h⟩
    · exact ⟨a, List.mem_cons_self, h⟩
    · obtain ⟨b, hb, hn⟩ := ih h
      exact ⟨b, List.mem_cons_of_mem _ hb, hn⟩

/-- A payload after its length. -/
def blob (payload : List UInt8) : List UInt8 := Groups.write payload.length ++ payload

/-- A field of a record, by the name of an entry. -/
def fieldOf (fields : Members String Value) (entry : String × Ty) : Except WireError Value :=
  match Members.get? entry.1 fields with
  | some field => .ok field
  | none => .error (.missingField entry.1)

theorem get?_of_fieldOf {fields : Members String Value} {entry : String × Ty} {field : Value}
    (h : fieldOf fields entry = .ok field) : Members.get? entry.1 fields = some field := by
  rw [fieldOf] at h
  cases hget : Members.get? entry.1 fields with
  | none => simp [hget] at h
  | some found =>
    rw [hget] at h
    rw [Except.ok.inj h]

/-- The bytes of a value of a type. -/
def form (graph : Graph) : (levels : Nat) → Ty → Value → Except WireError (List UInt8)
  | 0, _, _ => .error (.depthLimitExceeded maxDepth)
  | levels + 1, ty, value =>
    match graph.resolve ty, value with
    | .ref key, _ => .error (.unknownType key)
    | .none, .none => .ok []
    | .boolean, .boolean b => .ok [if b then 1 else 0]
    | .integer, .integer i => .ok (Groups.write i)
    | .float, .float x => .ok x.toBytes
    | .string, .string s => .ok (blob (Text.toBytes s))
    | .bytes, .bytes bs => .ok (blob bs)
    | .array element, .array items =>
      (join (form graph levels element) items).map (Groups.write items.length ++ ·)
    | .record entries, .record fields =>
      join (fun entry ↦ fieldOf fields entry >>= form graph levels entry.2) entries
    | .choice entries, .choice variant payload =>
      match Members.position? variant entries, Members.get? variant entries with
      | some index, some ty => (form graph levels ty payload).map (Groups.write index ++ ·)
      | _, _ => .error (.unknownVariant variant)
    | shape, value => .error (.typeMismatch shape.kind value.kind)

/-- The numbers that are met in writing a value of a type, up to a failure. -/
def written (graph : Graph) : (levels : Nat) → Ty → Value → List Number
  | 0, _, _ => []
  | levels + 1, ty, value =>
    match graph.resolve ty, value with
    | .integer, .integer i => [⟨.integer, i⟩]
    | .string, .string s => [⟨.length, (Text.toBytes s).length⟩]
    | .bytes, .bytes bs => [⟨.length, bs.length⟩]
    | .array element, .array items =>
      ⟨.count, items.length⟩ ::
        numbersOver (form graph levels element) (written graph levels element) items
    | .record entries, .record fields =>
      numbersOver (fun entry ↦ fieldOf fields entry >>= form graph levels entry.2)
        (fun entry ↦ after (fieldOf fields entry) (written graph levels entry.2)) entries
    | .choice entries, .choice variant payload =>
      match Members.position? variant entries, Members.get? variant entries with
      | some index, some ty => ⟨.index, index⟩ :: written graph levels ty payload
      | _, _ => []
    | _, _ => []

/-! ## What has a form -/

/-- A value with its form, by the shape of its type. The forms of its parts have one level less. -/
inductive Formed (graph : Graph) (levels : Nat) (ty : Ty) : Value → List UInt8 → Prop where
  | none (shape : graph.resolve ty = .none) : Formed graph levels ty .none []
  | boolean (shape : graph.resolve ty = .boolean) (b : Bool) :
    Formed graph levels ty (.boolean b) [if b then 1 else 0]
  | integer (shape : graph.resolve ty = .integer) (i : Int) :
    Formed graph levels ty (.integer i) (Groups.write i)
  | float (shape : graph.resolve ty = .float) (x : Binary64) :
    Formed graph levels ty (.float x) x.toBytes
  | string (shape : graph.resolve ty = .string) (s : String) :
    Formed graph levels ty (.string s) (blob (Text.toBytes s))
  | bytes (shape : graph.resolve ty = .bytes) (bs : List UInt8) :
    Formed graph levels ty (.bytes bs) (blob bs)
  | array {element : Ty} (shape : graph.resolve ty = .array element) {items : List Value}
    {others : List UInt8} (parts : join (form graph levels element) items = .ok others) :
    Formed graph levels ty (.array items) (Groups.write items.length ++ others)
  | record {entries : List (String × Ty)} (shape : graph.resolve ty = .record entries)
    {fields : Members String Value} {bytes : List UInt8}
    (parts : join (fun entry ↦ fieldOf fields entry >>= form graph levels entry.2) entries
      = .ok bytes) :
    Formed graph levels ty (.record fields) bytes
  | choice {entries : List (String × Ty)} (shape : graph.resolve ty = .choice entries)
    {variant : String} {payloadTy : Ty} {index : Nat}
    (get : Members.get? variant entries = some payloadTy)
    (position : Members.position? variant entries = some index)
    {payload : Value} {others : List UInt8}
    (part : form graph levels payloadTy payload = .ok others) :
    Formed graph levels ty (.choice variant payload) (Groups.write index ++ others)

theorem formed_of_form {graph : Graph} {levels : Nat} {ty : Ty} {value : Value} {bytes : List UInt8}
    (h : form graph (levels + 1) ty value = .ok bytes) : Formed graph levels ty value bytes := by
  unfold form at h
  split at h
  · cases h
  · next hshape => cases h; exact .none hshape
  · next hshape => cases h; exact .boolean hshape _
  · next hshape => cases h; exact .integer hshape _
  · next hshape => cases h; exact .float hshape _
  · next hshape => cases h; exact .string hshape _
  · next hshape => cases h; exact .bytes hshape _
  · next hshape =>
    obtain ⟨others, hothers, rfl⟩ := map_ok h
    exact .array hshape hothers
  · next hshape => exact .record hshape h
  · next hshape =>
    split at h
    · next hpos hget =>
      obtain ⟨others, hothers, rfl⟩ := map_ok h
      exact .choice hshape hget hpos hothers
    · cases h
  · cases h

/-! ## The portable serializer -/

namespace Portable

theorem emit_eq (bytes out : List UInt8) : emit bytes out = bytes.reverse ++ out :=
  List.reverseAux_eq

/-- In front of an output in reverse. -/
theorem foldlM_eq_join {step : List UInt8 → α → Except WireError (List UInt8)}
    {part : α → Except WireError (List UInt8)} {items : List α}
    (h : ∀ a ∈ items, ∀ out, step out a = (part a).map (·.reverse ++ out)) (out : List UInt8) :
    items.foldlM step out = (join part items).map (·.reverse ++ out) := by
  induction items generalizing out with
  | nil => rfl
  | cons a rest ih =>
    have hrest := ih fun b hb ↦ h b (List.mem_cons_of_mem _ hb)
    rw [List.foldlM_cons, h a List.mem_cons_self, join]
    cases part a with
    | error e => rfl
    | ok bytes =>
      change rest.foldlM step (bytes.reverse ++ out) = Except.map _ (Except.map _ _)
      rw [hrest]
      cases join part rest with
      | error e => rfl
      | ok more => simp [Except.map]

theorem write_eq_form (graph : Graph) (levels : Nat) (ty : Ty) (value : Value) (out : List UInt8) :
    write graph levels ty value out = (form graph levels ty value).map (·.reverse ++ out) := by
  induction levels generalizing ty value out with
  | zero => rfl
  | succ levels ih =>
    unfold write form
    cases graph.resolve ty with
    | ref key => rfl
    | none => cases value <;> rfl
    | boolean => cases value <;> rfl
    | integer => cases value with
      | integer i => exact congrArg Except.ok (emit_eq _ _)
      | _ => rfl
    | float => cases value with
      | float x => exact congrArg Except.ok (emit_eq _ _)
      | _ => rfl
    | string => cases value with
      | string s => simp [emitBlob, emit_eq, blob, Except.map]
      | _ => rfl
    | bytes => cases value with
      | bytes bs => simp [emitBlob, emit_eq, blob, Except.map]
      | _ => rfl
    | array element => cases value with
      | array items =>
        dsimp only
        rw [foldlM_eq_join fun item _ out ↦ ih element item out, emit_eq]
        cases join (form graph levels element) items with
        | error e => rfl
        | ok bytes => simp [Except.map]
      | _ => rfl
    | record entries => cases value with
      | record fields =>
        refine foldlM_eq_join (fun entry _ out ↦ ?_) out
        rw [fieldOf]
        cases Members.get? entry.1 fields with
        | none => rfl
        | some field => exact ih entry.2 field out
      | _ => rfl
    | choice entries => cases value with
      | choice variant payload =>
        dsimp only
        cases Members.position? variant entries with
        | none => rfl
        | some index => cases Members.get? variant entries with
          | none => rfl
          | some ty =>
            dsimp only
            rw [ih, emit_eq]
            cases form graph levels ty payload with
            | error e => rfl
            | ok bytes => simp [Except.map]
      | _ => rfl

theorem encode_eq_form (graph : Graph) (ty : Ty) (value : Value) :
    encode graph ty value = form graph maxDepth ty value := by
  rw [encode, write_eq_form]
  cases form graph maxDepth ty value with
  | error e => rfl
  | ok bytes => simp [Except.map]

end Portable

/-! ## The fast serializer -/

namespace Fast

theorem pushInteger_follows (role : Role) (n : Int) (buffer : Array UInt8) :
    Follows Array.toList [⟨role, n⟩] (pushInteger n buffer)
      (.ok (buffer.toList ++ Groups.write n)) := by
  refine ⟨fun h ↦ ?_, fun h ↦ ?_⟩
  · have hn : Groups.Word.InRange n := Number.allInRange_singleton.mp h
    rw [pushInteger, Groups.Word.ofInt?_of_inRange hn]
    refine congrArg Except.ok ?_
    rw [Groups.Word.toList_write, Groups.Word.toInt_ofInt hn]
  · have hn : ¬Groups.Word.InRange n := mt Number.allInRange_singleton.mpr h
    rw [pushInteger, Groups.Word.ofInt?_of_not_inRange hn]

theorem pushCount_follows (role : Role) (n : Nat) (buffer : Array UInt8) :
    Follows Array.toList [⟨role, n⟩] (pushCount n buffer) (.ok (buffer.toList ++ Groups.write n)) :=
  pushInteger_follows role n buffer

theorem pushBlob_follows (payload : List UInt8) (buffer : Array UInt8) :
    Follows Array.toList [⟨.length, payload.length⟩] (pushBlob payload buffer)
      (.ok (buffer.toList ++ blob payload)) := by
  have hcount := pushCount_follows .length payload.length buffer
  rw [pushBlob, blob, ← List.append_assoc]
  generalize pushCount payload.length buffer = x at hcount ⊢
  have hlist : ∀ out : Array UInt8, (out.appendList payload).toList = out.toList ++ payload :=
    fun out ↦ Array.toList_appendList
  exact hcount.map (f := (·.appendList payload)) (g := (· ++ payload)) hlist

/-- A number, and then what follows on it. -/
theorem pushCount_bind_follows (role : Role) (n : Nat) (buffer : Array UInt8)
    {k : Array UInt8 → Except WireError (Array UInt8)} {numbers : List Number}
    {y : Except WireError (List UInt8)}
    (h : ∀ out : Array UInt8, Follows Array.toList numbers (k out) (y.map (out.toList ++ ·))) :
    Follows Array.toList (⟨role, n⟩ :: numbers) (pushCount n buffer >>= k)
      ((y.map (Groups.write n ++ ·)).map (buffer.toList ++ ·)) := by
  have hbind := (pushCount_follows role n buffer).bind (w := Array.toList) (k := k)
    (l := fun out ↦ y.map (out ++ ·)) (m := fun _ ↦ numbers) fun out _ ↦ h out
  rw [map_append_map]
  exact hbind

/-- Behind a buffer. -/
theorem foldlM_follows {step : Array UInt8 → α → Except WireError (Array UInt8)}
    {part : α → Except WireError (List UInt8)} {numbers : α → List Number} {items : List α}
    (h : ∀ a ∈ items, ∀ buffer : Array UInt8,
      Follows Array.toList (numbers a) (step buffer a) ((part a).map (buffer.toList ++ ·)))
    (buffer : Array UInt8) :
    Follows Array.toList (numbersOver part numbers items) (items.foldlM step buffer)
      ((join part items).map (buffer.toList ++ ·)) := by
  induction items generalizing buffer with
  | nil =>
    refine ⟨fun _ ↦ ?_, fun hr ↦ absurd Number.allInRange_nil hr⟩
    exact congrArg Except.ok (List.append_nil _).symm
  | cons a rest ih =>
    have hrest := ih fun b hb ↦ h b (List.mem_cons_of_mem _ hb)
    have hstep := (h a List.mem_cons_self buffer).bind (w := Array.toList)
      (k := fun buffer ↦ rest.foldlM step buffer)
      (l := fun out ↦ (join part rest).map (out ++ ·))
      (m := fun _ ↦ numbersOver part numbers rest) fun out _ ↦ hrest out
    -- the bytes of the first part move from the front of the rest to the end of the buffer
    have hjoin : ((part a).map (buffer.toList ++ ·) >>= fun out ↦ (join part rest).map (out ++ ·))
        = (join part (a :: rest)).map (buffer.toList ++ ·) := by
      rw [join]
      cases part a with
      | error e => rfl
      | ok bytes => exact (map_append_map _ _ _).symm
    rw [after_map, hjoin] at hstep
    exact hstep

theorem write_follows (graph : Graph) (levels : Nat) (ty : Ty) (value : Value)
    (buffer : Array UInt8) :
    Follows Array.toList (written graph levels ty value) (write graph levels ty value buffer)
      ((form graph levels ty value).map (buffer.toList ++ ·)) := by
  induction levels generalizing ty value buffer with
  | zero => exact .error _
  | succ levels ih =>
    unfold write form written
    cases graph.resolve ty with
    | ref key => exact .error _
    | none => cases value with
      | none => simpa [Except.map] using Follows.ok (v := Array.toList) buffer
      | _ => exact .error _
    | boolean => cases value with
      | boolean b => simpa [Except.map] using Follows.ok (v := Array.toList) (buffer.push _)
      | _ => exact .error _
    | integer => cases value with
      | integer i => exact pushInteger_follows .integer i buffer
      | _ => exact .error _
    | float => cases value with
      | float x => simpa [Except.map] using Follows.ok (v := Array.toList) (buffer.appendList _)
      | _ => exact .error _
    | string => cases value with
      | string s => exact pushBlob_follows (Text.toBytes s) buffer
      | _ => exact .error _
    | bytes => cases value with
      | bytes bs => exact pushBlob_follows bs buffer
      | _ => exact .error _
    | array element => cases value with
      | array items =>
        exact pushCount_bind_follows .count items.length buffer fun out ↦
          foldlM_follows (fun item _ out ↦ ih element item out) out
      | _ => exact .error _
    | record entries => cases value with
      | record fields =>
        refine foldlM_follows (fun entry _ out ↦ ?_) buffer
        rw [fieldOf]
        cases Members.get? entry.1 fields with
        | none => exact .error _
        | some field => exact ih entry.2 field out
      | _ => exact .error _
    | choice entries => cases value with
      | choice variant payload =>
        dsimp only
        cases Members.position? variant entries with
        | none => exact .error _
        | some index => cases Members.get? variant entries with
          | none => exact .error _
          | some ty =>
            exact pushCount_bind_follows .index index buffer fun out ↦ ih ty payload out
      | _ => exact .error _

/-- The fast serializer writes the form as long as the numbers it meets are in range. -/
theorem encode_follows (graph : Graph) (ty : Ty) (value : Value) :
    Follows id (written graph maxDepth ty value) (encode graph ty value)
      (form graph maxDepth ty value) := by
  have h := (write_follows graph maxDepth ty value #[]).map (w := id) (f := Array.toList)
    (g := id) fun _ ↦ rfl
  have hform : ((form graph maxDepth ty value).map ((#[] : Array UInt8).toList ++ ·)).map id
      = form graph maxDepth ty value := by
    cases form graph maxDepth ty value <;> rfl
  rw [hform] at h
  exact h

end Fast

/-! ## Numbers that are no integers of the value

Lengths, counts and positions come from lists, so they are in range as soon as the lists could stand
in memory. -/

theorem sizesInRange_written {graph : Graph} {levels : Nat} {ty : Ty} {value : Value}
    (hty : graph.Everywhere (fun part ↦ part.entries.length < 2 ^ 63) ty) (hv : value.Addressable) :
    Number.SizesInRange (written graph levels ty value) := by
  intro n hn
  induction levels generalizing ty value with
  | zero => exact absurd hn List.not_mem_nil
  | succ levels ih =>
    have hextent := hv value value.self_mem_parts
    have hself := hty.resolve.self
    unfold written at hn
    cases hshape : graph.resolve ty with
    | integer => cases value with
      | integer i =>
        rw [hshape, List.mem_singleton] at hn
        exact .inl (hn ▸ rfl)
      | _ => simp [hshape] at hn
    | string => cases value with
      | string s =>
        rw [hshape, List.mem_singleton] at hn
        exact .inr (hn ▸ Groups.Word.inRange_natCast hextent)
      | _ => simp [hshape] at hn
    | bytes => cases value with
      | bytes bs =>
        rw [hshape, List.mem_singleton] at hn
        exact .inr (hn ▸ Groups.Word.inRange_natCast hextent)
      | _ => simp [hshape] at hn
    | array element => cases value with
      | array items =>
        rw [hshape, List.mem_cons] at hn
        rcases hn with rfl | hn
        · exact .inr (Groups.Word.inRange_natCast hextent)
        · obtain ⟨item, hmem, hn⟩ := mem_numbersOver hn
          exact ih (hty.element hshape) (hv.item hmem) hn
      | _ => simp [hshape] at hn
    | record entries => cases value with
      | record fields =>
        rw [hshape] at hn
        obtain ⟨entry, hmem, hn⟩ := mem_numbersOver hn
        obtain ⟨field, hfield, hn⟩ := mem_after.mp hn
        have hget := Members.mem_of_get? (get?_of_fieldOf hfield)
        exact ih (hty.entry hshape hmem) (hv.field hget) hn
      | _ => simp [hshape] at hn
    | choice entries => cases value with
      | choice variant payload =>
        rw [hshape] at hn hself
        dsimp only at hn
        cases hget : Members.get? variant entries with
        | none =>
          rw [Members.position?_of_get?_none hget, hget] at hn
          exact absurd hn List.not_mem_nil
        | some payloadTy =>
          obtain ⟨index, hpos, hat⟩ := Members.position?_of_get? hget
          -- the position of a variant is below the number of entries
          have hlt : index < entries.length := (List.getElem?_eq_some_iff.mp hat).1
          rw [hpos, hget, List.mem_cons] at hn
          rcases hn with rfl | hn
          · exact .inr (Groups.Word.inRange_natCast (lt_trans hlt hself))
          · exact ih (hty.entry hshape (Members.mem_of_get? hget)) hv.payload hn
      | _ => simp [hshape] at hn
    | _ => simp [hshape] at hn

/-! ## Failures -/

/-- The failures of writing. Only the last depends on the graph. -/
inductive Refusal (p : Ty → Prop) (graph : Graph) : WireError → Prop where
  | tooDeep : Refusal p graph (.depthLimitExceeded maxDepth)
  | missingField (name : String) : Refusal p graph (.missingField name)
  | unknownVariant (name : String) : Refusal p graph (.unknownVariant name)
  | typeMismatch (expected found : Kind) : Refusal p graph (.typeMismatch expected found)
  | unknownType {key : Key} (stuck : graph.Stuck p key) : Refusal p graph (.unknownType key)

theorem join_ends {bad : WireError → Prop} {part : α → Except WireError (List UInt8)}
    {items : List α} (h : ∀ a ∈ items, Ends (fun _ ↦ True) bad (part a)) :
    Ends (fun _ ↦ True) bad (join part items) := by
  induction items with
  | nil => exact .ok trivial
  | cons a rest ih =>
    refine (h a List.mem_cons_self).bind fun bytes _ _ ↦ ?_
    exact (ih fun b hb ↦ h b (List.mem_cons_of_mem _ hb)).map fun _ _ ↦ trivial

theorem fieldOf_ends (p : Ty → Prop) (graph : Graph) (fields : Members String Value)
    (entry : String × Ty) : Ends (fun _ ↦ True) (Refusal p graph) (fieldOf fields entry) := by
  rw [fieldOf]
  cases Members.get? entry.1 fields with
  | none => exact .error (.missingField entry.1)
  | some field => exact .ok trivial

theorem form_ends {p : Ty → Prop} {graph : Graph} {levels : Nat} {ty : Ty} {value : Value}
    (hty : graph.Everywhere p ty) :
    Ends (fun _ ↦ True) (Refusal p graph) (form graph levels ty value) := by
  induction levels generalizing ty value with
  | zero => exact .error .tooDeep
  | succ levels ih =>
    unfold form
    cases hshape : graph.resolve ty with
    | ref key => exact .error (.unknownType ⟨ty, hty, hshape⟩)
    | array element => cases value with
      | array items =>
        exact (join_ends fun _ _ ↦ ih (hty.element hshape)).map fun _ _ ↦ trivial
      | _ => exact .error (.typeMismatch _ _)
    | record entries => cases value with
      | record fields =>
        refine join_ends fun entry hmem ↦ ?_
        exact (fieldOf_ends p graph fields entry).bind fun _ _ _ ↦ ih (hty.entry hshape hmem)
      | _ => exact .error (.typeMismatch _ _)
    | choice entries => cases value with
      | choice variant payload =>
        dsimp only
        cases hget : Members.get? variant entries with
        | none =>
          rw [Members.position?_of_get?_none hget]
          exact .error (.unknownVariant variant)
        | some payloadTy =>
          obtain ⟨index, hpos, -⟩ := Members.position?_of_get? hget
          rw [hpos]
          exact (ih (hty.entry hshape (Members.mem_of_get? hget))).map fun _ _ ↦ trivial
      | _ => exact .error (.typeMismatch _ _)
    | _ => cases value <;> first | exact .ok trivial | exact .error (.typeMismatch _ _)

end SchemaCodec.Wire
