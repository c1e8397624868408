import SchemaCodec.Proofs.Json.Conversion
import SchemaCodec.Proofs.Wire.Parity
import SchemaCodec.Proofs.Wire.RoundTrip

/-!
# Round trips through JSON

What the bridge writes it reads back, up to fields that are not declared, and what it reads it can
write again. Reading accepts far more than writing gives: further members in any order, integers as
texts with signs and underscores, integers in the place of floats. All this is gone from the value
that is read, so that its own JSON form is a normal form.

The one thing that is on the wire and not in JSON are floats that are no numbers. Since a JSON text
holds no such number, and its integers are no larger than a 64-bit word, nothing that was read has
such floats.

## Why names must be distinct

A field whose name is given twice is converted as both types, and one of the results is kept. It
need not be of the other type, so that what was written is not read and what was read is not
written.
-/

namespace SchemaCodec

/-! ## Numbers -/

/-- A number that a JSON text can hold: an integer that a 64-bit word holds, signed or unsigned, or
a finite float. -/
def JsonNumber.Legal : JsonNumber → Prop
  | integer i => -2 ^ 63 ≤ i ∧ i < 2 ^ 64
  | float x => x.isFinite = true

instance : DecidablePred JsonNumber.Legal
  | .integer i => inferInstanceAs (Decidable (-2 ^ 63 ≤ i ∧ i < 2 ^ 64))
  | .float x => inferInstanceAs (Decidable (x.isFinite = true))

namespace Json

mutual

/-- The numbers at all depths. -/
def numbers : Json → List JsonNumber
  | number n => [n]
  | array items => itemsNumbers items
  | object members => membersNumbers members
  | _ => []

def itemsNumbers : List Json → List JsonNumber
  | [] => []
  | item :: rest => item.numbers ++ itemsNumbers rest

def membersNumbers : List (String × Json) → List JsonNumber
  | [] => []
  | (_, json) :: rest => json.numbers ++ membersNumbers rest

end

/-- All numbers at all depths are such as a JSON text can hold. -/
def Legal (json : Json) : Prop := ∀ n ∈ json.numbers, n.Legal

instance : DecidablePred Legal := fun _ ↦ inferInstanceAs (Decidable (∀ n ∈ _, _))

theorem Legal.item {items : List Json} (h : (array items).Legal) {item : Json}
    (hitem : item ∈ items) : item.Legal := by
  intro n hn
  refine h n ?_
  rw [numbers]
  clear h
  induction items with
  | nil => exact absurd hitem List.not_mem_nil
  | cons first rest ih =>
    rw [itemsNumbers, List.mem_append]
    rcases List.mem_cons.mp hitem with rfl | hitem
    · exact .inl hn
    · exact .inr (ih hitem)

theorem Legal.member {members : List (String × Json)} (h : (object members).Legal)
    {member : String × Json} (hmember : member ∈ members) : member.2.Legal := by
  intro n hn
  refine h n ?_
  rw [numbers]
  clear h
  induction members with
  | nil => exact absurd hmember List.not_mem_nil
  | cons first rest ih =>
    rw [membersNumbers, List.mem_append]
    rcases List.mem_cons.mp hmember with rfl | hmember
    · exact .inl hn
    · exact .inr (ih hmember)

section

variable {graph : Graph} {ty : Ty} {value : Value}

/-! ## Scalars -/

theorem toShaped_ofInteger (i : Int) :
    toShaped graph .integer (ofInteger i) = .ok (.integer i) := by
  rw [ofInteger]
  split
  · rfl
  · rw [toShaped, Decimal.readInt?_intText]

theorem mapM_toByte_ofByte (bs : List UInt8) : (bs.map ofByte).mapM toByte = .ok bs := by
  have hbyte : ∀ b : UInt8, toByte (ofByte b) = .ok b := by
    intro b
    have hword := b.toNat_lt
    have hlt : (0 : Int) ≤ b.toNat ∧ (b.toNat : Int) < 256 := by omega
    rw [ofByte, ofInt, toByte, if_pos hlt, Int.toNat_natCast, UInt8.ofNat_toNat]
  induction bs with
  | nil => rfl
  | cons b rest ih =>
    rw [List.map_cons, List.mapM_cons, bind_of_ok (hbyte b), bind_of_ok ih]
    rfl

/-! ## From values to JSON and back -/

/-- What has a JSON form fits. -/
theorem fits_of_ofValue : (value : Value) → (ty : Ty) →
    graph.Everywhere (fun part ↦ (part.entries.map Prod.fst).Nodup) ty → {json : Json} →
    ofValue graph ty value = .ok json → value.Fits graph ty
  | .none, ty, _, _, h | .boolean _, ty, _, _, h | .integer _, ty, _, _, h | .float _, ty, _, _, h
  | .string _, ty, _, _, h | .bytes _, ty, _, _, h => by
    unfold ofValue ofShaped at h
    cases hshape : graph.resolve ty with
    | none | boolean | integer | float | string | bytes =>
      rw [hshape] at h
      first | cases h; done | constructor; exact hshape
    | _ =>
      rw [hshape] at h
      cases h
  | .array items, ty, hnames, _, h => by
    cases hshape : graph.resolve ty with
    | array element =>
      rw [ofValue_array hshape] at h
      obtain ⟨jsons, hjsons, -⟩ := map_ok h
      obtain ⟨g, -, hg⟩ := mapM_ok hjsons
      have helement := hnames.element hshape
      exact .array hshape fun item hitem ↦ fits_of_ofValue item element helement (hg item hitem)
    | _ =>
      unfold ofValue ofShaped at h
      rw [hshape] at h
      cases h
  | .record fields, ty, hnames, _, h => by
    cases hshape : graph.resolve ty with
    | record entries =>
      have hself := hnames.resolve.self
      rw [hshape] at hself
      rw [ofValue_record hshape hself] at h
      obtain ⟨jsons, hjsons, -⟩ := map_ok h
      obtain ⟨g, -, hg⟩ := mapM_ok hjsons
      have hfield : ∀ entry ∈ entries, ∃ field, Members.get? entry.1 fields = some field ∧
          Value.Fits graph entry.2 field := by
        intro entry hentry
        obtain ⟨field, hget, hjson⟩ := get?_of_converted (hg entry hentry)
        have hmem := Members.mem_of_get? hget
        exact ⟨field, hget, fits_of_ofValue field entry.2 (hnames.entry hshape hentry) hjson⟩
      choose! field hget hfits using hfield
      exact .record hshape hget hfits
    | _ =>
      unfold ofValue ofShaped at h
      rw [hshape] at h
      cases h
  | .choice variant payload, ty, hnames, _, h => by
    cases hshape : graph.resolve ty with
    | choice entries =>
      cases hget : Members.get? variant entries with
      | none =>
        rw [ofValue, hshape, ofShaped, hget] at h
        cases h
      | some payloadTy =>
        rw [ofValue_choice hshape hget] at h
        obtain ⟨json, hjson, -⟩ := map_ok h
        have hpayload := hnames.entry hshape (Members.mem_of_get? hget)
        exact .choice hshape hget (fits_of_ofValue payload payloadTy hpayload hjson)
    | _ =>
      unfold ofValue ofShaped at h
      rw [hshape] at h
      cases h
termination_by value => sizeOf value
decreasing_by
  · have := List.sizeOf_lt_of_mem hitem
    simp
    omega
  · have := List.sizeOf_lt_of_mem hmem
    simp at this ⊢
    omega
  · simp

def AllFinite (value : Value) : Prop := ∀ x ∈ value.floats, x.isFinite = true

/-- A failure that is due to a float of a value. -/
def NotFinite (value : Value) (e : BridgeError) : Prop :=
  ∃ x ∈ value.floats, x.isFinite = false ∧ e = .notFinite x

/-- The JSON form of a value is read back as its canonical form, or a float of this form is to
blame. -/
def Returns (graph : Graph) (ty : Ty) (value : Value) : Prop :=
  Ends (fun json ↦ toValue graph ty json = .ok (value.canon graph ty) ∧
      AllFinite (value.canon graph ty))
    (NotFinite (value.canon graph ty)) (ofValue graph ty value)

theorem NotFinite.of_subset {part : Value} {e : BridgeError} (h : NotFinite part e)
    (hsubset : part.floats ⊆ value.floats) : NotFinite value e := by
  obtain ⟨x, hx, hfinite, he⟩ := h
  exact ⟨x, hsubset hx, hfinite, he⟩

/-- A value without parts. -/
theorem Returns.of_eq {json : Json} (hcanon : value.canon graph ty = value)
    (hfloats : value.floats = []) (hof : ofValue graph ty value = .ok json)
    (hto : toValue graph ty json = .ok value) : Returns graph ty value := by
  rw [Returns, hof, hcanon]
  refine .ok ⟨hto, ?_⟩
  rw [AllFinite, hfloats]
  exact fun x hx ↦ absurd hx List.not_mem_nil

theorem returns_array {element : Ty} {items : List Value}
    (hshape : graph.resolve ty = .array element)
    (h : ∀ item ∈ items, Returns graph element item) : Returns graph ty (.array items) := by
  have heach : ∀ item ∈ items, Ends
      (fun json ↦ toValue graph element json = .ok (item.canon graph element) ∧
        AllFinite (item.canon graph element))
      (NotFinite (.array (items.map (Value.canon graph element))))
      (ofValue graph element item) := by
    intro item hitem
    refine (h item hitem).imp (fun _ h ↦ h) fun e he ↦ he.of_subset fun x hx ↦ ?_
    rw [Value.floats_array]
    exact List.mem_flatMap.mpr ⟨_, List.mem_map_of_mem hitem, hx⟩
  rw [Returns, ofValue_array hshape, Value.canon_array items hshape]
  refine (Ends.mapM heach).map ?_
  rintro jsons ⟨g, rfl, hg⟩
  constructor
  · have hback : items.mapM (toValue graph element ∘ g)
        = .ok (items.map (Value.canon graph element)) :=
      mapM_of_ok fun item hitem ↦ (hg item hitem).2.1
    rw [toValue_array hshape, List.mapM_map, hback]
    rfl
  · intro x hx
    rw [Value.floats_array] at hx
    obtain ⟨_, hmem, hx⟩ := List.mem_flatMap.mp hx
    obtain ⟨item, hitem, rfl⟩ := List.mem_map.mp hmem
    exact (hg item hitem).2.2 x hx

theorem returns_record {entries : List (String × Ty)} {fields : Members String Value}
    {field : String × Ty → Value} (hshape : graph.resolve ty = .record entries)
    (hnodup : (entries.map Prod.fst).Nodup)
    (hget : ∀ entry ∈ entries, Members.get? entry.1 fields = some (field entry))
    (h : ∀ entry ∈ entries, Returns graph entry.2 (field entry)) :
    Returns graph ty (.record fields) := by
  have hcanon := Value.canon_record_of_fields hshape hnodup hget
  have heach : ∀ entry ∈ entries, Ends
      (fun json ↦ toValue graph entry.2 json = .ok ((field entry).canon graph entry.2) ∧
        AllFinite ((field entry).canon graph entry.2))
      (NotFinite (Value.canon graph ty (.record fields)))
      (converted (ofValue graph) fields entry) := by
    intro entry hentry
    rw [converted_of_get? (hget entry hentry), hcanon]
    refine (h entry hentry).imp (fun _ h ↦ h) fun e he ↦ he.of_subset fun x hx ↦ ?_
    rw [Value.floats_record]
    exact List.mem_flatMap.mpr ⟨_, List.mem_map_of_mem hentry, hx⟩
  rw [Returns, ofValue_record hshape hnodup]
  refine (Ends.mapM heach).map ?_
  rintro jsons ⟨g, rfl, hg⟩
  rw [List.zip_map', hcanon]
  constructor
  · -- each member is found under the name of its entry
    have hmembers : ∀ entry ∈ entries, converted (toValue graph)
        (entries.map fun entry ↦ (entry.1, g entry)) entry
          = .ok ((field entry).canon graph entry.2) := by
      intro entry hentry
      rw [converted_of_get? (Members.get?_map_of_mem hnodup hentry)]
      exact (hg entry hentry).2.1
    rw [toValue_record hshape hnodup, mapM_of_ok hmembers, Except.map, List.zip_map']
  · intro x hx
    rw [Value.floats_record] at hx
    obtain ⟨_, hmem, hx⟩ := List.mem_flatMap.mp hx
    obtain ⟨entry, hentry, rfl⟩ := List.mem_map.mp hmem
    exact (hg entry hentry).2.2 x hx

theorem returns_choice {entries : List (String × Ty)} {variant : String} {payloadTy : Ty}
    {payload : Value} (hshape : graph.resolve ty = .choice entries)
    (hget : Members.get? variant entries = some payloadTy) (h : Returns graph payloadTy payload) :
    Returns graph ty (.choice variant payload) := by
  rw [Returns, ofValue_choice hshape hget, Value.canon_choice payload hshape hget]
  refine Ends.map (h.imp (fun _ h ↦ h) fun e he ↦ he.of_subset ?_) fun json hjson ↦ ⟨?_, ?_⟩
  · rw [Value.floats_choice]
    exact fun x hx ↦ hx
  · rw [toValue_choice hshape hget, hjson.1]
    rfl
  · rw [AllFinite, Value.floats_choice]
    exact hjson.2

/-- What fits is read back from its JSON form, by induction on why it fits. -/
theorem returns_of_fits
    (hnames : graph.Everywhere (fun part ↦ (part.entries.map Prod.fst).Nodup) ty)
    (h : value.Fits graph ty) : Returns graph ty value := by
  induction h with
  | none hshape | boolean hshape _ | string hshape _ =>
    refine .of_eq ?_ rfl (by rw [ofValue, hshape]; rfl) (by rw [toValue, hshape]; rfl)
    rw [Value.canon, hshape]
    rfl
  | integer hshape i =>
    refine .of_eq ?_ rfl (by rw [ofValue, hshape]; rfl) ?_
    · rw [Value.canon, hshape]
      rfl
    · rw [toValue, hshape, toShaped_ofInteger]
  | bytes hshape bs =>
    refine .of_eq ?_ rfl (by rw [ofValue, hshape]; rfl) ?_
    · rw [Value.canon, hshape]
      rfl
    · rw [toValue, hshape, toShaped, mapM_toByte_ofByte]
      rfl
  | @float ty hshape x =>
    have hcanon : Value.canon graph ty (.float x) = .float x := by
      rw [Value.canon, hshape]
      rfl
    have hfloats : (Value.float x).floats = [x] := rfl
    rw [Returns, hcanon, ofValue, hshape, ofShaped]
    split
    · next hfinite =>
      refine .ok ⟨by rw [toValue, hshape]; rfl, ?_⟩
      rw [AllFinite, hfloats]
      exact List.forall_mem_singleton.mpr hfinite
    · next hfinite =>
      exact .error ⟨x, hfloats ▸ List.mem_singleton.mpr rfl, Bool.eq_false_iff.mpr hfinite, rfl⟩
  | array hshape _ ih =>
    exact returns_array hshape fun item hitem ↦ ih item hitem (hnames.element hshape)
  | record hshape hget _ ih =>
    have hself := hnames.resolve.self
    rw [hshape] at hself
    exact returns_record hshape hself hget fun entry hentry ↦
      ih entry hentry (hnames.entry hshape hentry)
  | choice hshape hget _ ih =>
    exact returns_choice hshape hget (ih (hnames.entry hshape (Members.mem_of_get? hget)))

/-! ## From JSON to values and back -/

/-- A value that is of a type and in no need of being made canonical, with floats that are
numbers. -/
structure Normal (graph : Graph) (ty : Ty) (value : Value) : Prop where
  fits : value.Fits graph ty
  canon : value.canon graph ty = value
  finite : AllFinite value

theorem isFinite_toFloat {n : JsonNumber} (h : n.Legal) : (toFloat n).isFinite = true := by
  cases n with
  | integer i => exact Decimal.isFinite_ofInt (by have := h.1; have := h.2; omega)
  | float x => exact h

theorem normal_array {element : Ty} {items : List Value}
    (hshape : graph.resolve ty = .array element) (h : ∀ item ∈ items, Normal graph element item) :
    Normal graph ty (.array items) := by
  refine ⟨.array hshape fun item hitem ↦ (h item hitem).fits, ?_, fun x hx ↦ ?_⟩
  · rw [Value.canon_array items hshape]
    have hsame : items.map (Value.canon graph element) = items.map id :=
      List.map_congr_left fun item hitem ↦ (h item hitem).canon
    rw [hsame, List.map_id]
  · rw [Value.floats_array] at hx
    obtain ⟨item, hitem, hx⟩ := List.mem_flatMap.mp hx
    exact (h item hitem).finite x hx

theorem normal_record {entries : List (String × Ty)} {field : String × Ty → Value}
    (hshape : graph.resolve ty = .record entries) (hnodup : (entries.map Prod.fst).Nodup)
    (h : ∀ entry ∈ entries, Normal graph entry.2 (field entry)) :
    Normal graph ty (.record (entries.map fun entry ↦ (entry.1, field entry))) := by
  have hget : ∀ entry ∈ entries, Members.get? entry.1
      (entries.map fun entry ↦ (entry.1, field entry)) = some (field entry) :=
    fun entry hentry ↦ Members.get?_map_of_mem hnodup hentry
  refine ⟨.record hshape hget fun entry hentry ↦ (h entry hentry).fits, ?_, fun x hx ↦ ?_⟩
  · rw [Value.canon_record_of_fields hshape hnodup hget]
    refine congrArg Value.record (List.map_congr_left fun entry hentry ↦ ?_)
    rw [(h entry hentry).canon]
  · rw [Value.floats_record] at hx
    obtain ⟨_, hmem, hx⟩ := List.mem_flatMap.mp hx
    obtain ⟨entry, hentry, rfl⟩ := List.mem_map.mp hmem
    exact (h entry hentry).finite x hx

theorem normal_choice {entries : List (String × Ty)} {variant : String} {payloadTy : Ty}
    {payload : Value} (hshape : graph.resolve ty = .choice entries)
    (hget : Members.get? variant entries = some payloadTy) (h : Normal graph payloadTy payload) :
    Normal graph ty (.choice variant payload) := by
  refine ⟨.choice hshape hget h.fits, ?_, ?_⟩
  · rw [Value.canon_choice payload hshape hget, h.canon]
  · rw [AllFinite, Value.floats_choice]
    exact h.finite

/-- A value without parts and without floats. -/
theorem Normal.of_leaf (hfits : value.Fits graph ty)
    (hcanon : ∀ shape, value.canonShaped graph shape = value) (hfloats : value.floats = []) :
    Normal graph ty value := by
  refine ⟨hfits, hcanon _, ?_⟩
  rw [AllFinite, hfloats]
  exact fun x hx ↦ absurd hx List.not_mem_nil

/-- What is read from JSON is normal: by induction on the size of what is read, with one case for
each way in which a shape and a form can meet. -/
theorem normal_of_toValue {json : Json}
    (hnames : graph.Everywhere (fun part ↦ (part.entries.map Prod.fst).Nodup) ty)
    (hlegal : json.Legal) (h : toValue graph ty json = .ok value) : Normal graph ty value := by
  induction hsize : sizeOf json using Nat.strongRec generalizing ty json value with | ind size ih
  subst hsize
  have hread := h
  unfold toValue toShaped at h
  split at h
  · cases h
  · next hshape =>
    cases h
    exact .of_leaf (.none hshape) (fun shape ↦ by cases shape <;> rfl) rfl
  · next b hshape =>
    cases h
    exact .of_leaf (.boolean hshape b) (fun shape ↦ by cases shape <;> rfl) rfl
  · next i hshape =>
    cases h
    exact .of_leaf (.integer hshape i) (fun shape ↦ by cases shape <;> rfl) rfl
  · cases h
  · next s hshape =>
    split at h
    · next i _ =>
      cases h
      exact .of_leaf (.integer hshape i) (fun shape ↦ by cases shape <;> rfl) rfl
    · cases h
  · next n hshape =>
    cases h
    refine ⟨.float hshape _, by rw [Value.canon, hshape]; rfl, ?_⟩
    exact List.forall_mem_singleton.mpr (isFinite_toFloat (hlegal n (List.mem_singleton.mpr rfl)))
  · next s hshape =>
    cases h
    exact .of_leaf (.string hshape s) (fun shape ↦ by cases shape <;> rfl) rfl
  · next items hshape =>
    obtain ⟨bs, -, rfl⟩ := map_ok h
    exact .of_leaf (.bytes hshape bs) (fun shape ↦ by cases shape <;> rfl) rfl
  · next element items hshape =>
    rw [toValue_array hshape] at hread
    obtain ⟨values, hvalues, rfl⟩ := map_ok hread
    obtain ⟨g, rfl, hg⟩ := mapM_ok hvalues
    refine normal_array hshape (List.forall_mem_map.mpr fun item hitem ↦ ?_)
    have hlt : sizeOf item < sizeOf (array items) := by
      have hitems := List.sizeOf_lt_of_mem hitem
      simp
      omega
    exact ih _ hlt (hnames.element hshape) (hlegal.item hitem) (hg item hitem) rfl
  · next entries members hshape =>
    have hself := hnames.resolve.self
    rw [hshape] at hself
    rw [toValue_record hshape hself] at hread
    obtain ⟨values, hvalues, rfl⟩ := map_ok hread
    obtain ⟨g, rfl, hg⟩ := mapM_ok hvalues
    rw [List.zip_map']
    refine normal_record hshape hself fun entry hentry ↦ ?_
    obtain ⟨json, hget, hjson⟩ := get?_of_converted (hg entry hentry)
    have hmem := Members.mem_of_get? hget
    have hlt : sizeOf json < sizeOf (object members) := by
      have hmembers := List.sizeOf_lt_of_mem hmem
      simp at hmembers ⊢
      omega
    exact ih _ hlt (hnames.entry hshape hentry) (hlegal.member hmem) hjson rfl
  · next entries variant payload hshape =>
    split at h
    · cases h
    · next payloadTy hget =>
      obtain ⟨value, hpayload, rfl⟩ := map_ok h
      have hentry := hnames.entry hshape (Members.mem_of_get? hget)
      have hmem : payload ∈ [string variant, payload] := List.mem_cons_of_mem _ List.mem_cons_self
      have hlt : sizeOf payload < sizeOf (array [string variant, payload]) := by
        simp
        omega
      exact normal_choice hshape hget (ih _ hlt hentry (hlegal.item hmem) hpayload rfl)
  · cases h
  · cases h

end

open Wire

/-- **Round trip through JSON.** What has a JSON form is read back from it as its canonical form.
And what the portable serializer can write has a JSON form exactly if all floats of its canonical
form are numbers; if it has none, one of these floats is what is reported. -/
theorem toValue_ofValue {graph : Graph} {ty : Ty} (hgraph : graph.DistinctNames)
    (hty : ty.DistinctNames) (value : Value) :
    (∀ json, ofValue graph ty value = .ok json →
      toValue graph ty json = .ok (value.canon graph ty)) ∧
    ∀ bytes, Serializer.portable.encode graph ty value = .ok bytes →
      ((∃ json, ofValue graph ty value = .ok json) ↔ AllFinite (value.canon graph ty)) ∧
      ∀ e, ofValue graph ty value = .error e → NotFinite (value.canon graph ty) e := by
  have hnames := hgraph.everywhere hty
  refine ⟨fun json hjson ↦ ?_, fun bytes hbytes ↦ ?_⟩
  · have hreturns := returns_of_fits hnames (fits_of_ofValue value ty hnames hjson)
    exact (hreturns.good_of_eq hjson).1
  · have hreturns := returns_of_fits hnames (fits_of_form (form_of_encode hbytes))
    refine ⟨⟨?_, fun hfinite ↦ ?_⟩, fun e he ↦ hreturns.bad_of_eq he⟩
    · rintro ⟨json, hjson⟩
      exact (hreturns.good_of_eq hjson).2
    · cases hjson : ofValue graph ty value with
      | ok json => exact ⟨json, rfl⟩
      | error e =>
        obtain ⟨x, hx, hbad, -⟩ := hreturns.bad_of_eq hjson
        rw [hfinite x hx] at hbad
        cases hbad

/-- A list of integers that refers to itself. -/
def chains : Graph :=
  let chain := Key.qualified "M" "Chain"
  Graph.builtins.insert chain
    (.choice [("end", .none), ("link", .record [("head", .integer), ("tail", .ref chain)])])

/-- A link with a field that is not declared, and an integer that no 64-bit word holds. -/
theorem toValue_ofValue_chain :
    let ty := Ty.ref (.qualified "M" "Chain")
    let json := array [string "link",
      object [("head", string "18446744073709551616"), ("tail", array [string "end", null])]]
    ofValue chains ty (.choice "link" (.record [("tail", .choice "end" .none), ("other", .none),
      ("head", .integer (2 ^ 64))])) = .ok json ∧
    toValue chains ty json = .ok (.choice "link" (.record [("head", .integer (2 ^ 64)),
      ("tail", .choice "end" .none)])) := by
  intro ty json
  have hjson : ofValue chains ty (.choice "link" (.record [("tail", .choice "end" .none),
      ("other", .none), ("head", .integer (2 ^ 64))])) = .ok json := by rfl
  exact ⟨hjson, (toValue_ofValue (by decide) (by decide) _).1 json hjson⟩

/-- **What was read from JSON.** The portable serializer can write it unless it is too deep, and so
can the fast one, unless one of its integers is out of range. It has a JSON form, from which it is
read back as it is. -/
theorem toValue_writable {graph : Graph} {ty : Ty} {json : Json} {value : Value}
    (hgraph : graph.DistinctNames) (hty : ty.DistinctNames) (hlegal : json.Legal)
    (h : toValue graph ty json = .ok value) :
    (∀ e, Serializer.portable.encode graph ty value = .error e → e = .depthLimitExceeded maxDepth) ∧
    (∀ e, Serializer.fast.encode graph ty value = .error e →
      e = .depthLimitExceeded maxDepth ∨ e = .integerOverflow) ∧
    (graph.Addressable → ty.Addressable → value.Addressable →
      Serializer.fast.encode graph ty value = .error .integerOverflow →
      ∃ i ∈ value.integers, ¬Groups.Word.InRange i) ∧
    ∃ json', ofValue graph ty value = .ok json' ∧ toValue graph ty json' = .ok value := by
  have hnames := hgraph.everywhere hty
  have hnormal := normal_of_toValue hnames hlegal h
  have hform := form_of_fits hnormal.fits maxDepth
  refine ⟨fun e he ↦ ?_, fun e he ↦ ?_, fun hg ht hv he ↦ ?_, ?_⟩
  · rw [Serializer.encode, Portable.encode_eq_form] at he
    exact hform.bad_of_eq he
  · exact ((Fast.encode_follows graph ty value).ends hform).bad_of_eq he
  · obtain ⟨n, hn, hrole, hrange⟩ := (encode_integerOverflow_iff hg ht hv).mp he
    exact ⟨n.value, mem_integers_of_mem_written hn hrole, hrange⟩
  · have hreturns := returns_of_fits hnames hnormal.fits
    rw [Returns, hnormal.canon] at hreturns
    cases hjson : ofValue graph ty value with
    | ok json' => exact ⟨json', rfl, (hreturns.good_of_eq hjson).1⟩
    | error e =>
      obtain ⟨x, hx, hbad, -⟩ := hreturns.bad_of_eq hjson
      rw [hnormal.finite x hx] at hbad
      cases hbad

/-- A text with a sign and an underscore, an integer in the place of a float, and a member that is
not declared. -/
theorem toValue_writable_pair :
    let ty := Ty.record [("id", .integer), ("rate", .float)]
    let json := object [("rate", ofInt 3), ("id", string "+1_0"), ("note", null)]
    let value := Value.record [("id", .integer 10), ("rate", .float 0x4008000000000000)]
    toValue .builtins ty json = .ok value ∧
    (∀ e, Serializer.portable.encode .builtins ty value = .error e →
      e = .depthLimitExceeded maxDepth) ∧
    ∃ json', ofValue .builtins ty value = .ok json' ∧ toValue .builtins ty json' = .ok value := by
  intro ty json value
  have hread : toValue .builtins ty json = .ok value := by rfl
  have hwritable := toValue_writable (by decide) (by decide) (by decide) hread
  exact ⟨hread, hwritable.1, hwritable.2.2.2⟩

/-! ## A name that is given twice -/

/-- A record with two fields of one name, which are records with a field of different names. -/
def overlaid : Ty :=
  .record [("a", .record [("p", .none)]), ("a", .record [("q", .none)])]

/-- Of the two fields the second is kept, and it is not of the type that is declared first. -/
theorem toValue_ofValue_overlaid :
    Graph.builtins.DistinctNames ∧
    ofValue .builtins overlaid (.record [("a", .record [("p", .none), ("q", .none)])])
      = .ok (object [("a", object [("q", null)])]) ∧
    Value.canon .builtins overlaid (.record [("a", .record [("p", .none), ("q", .none)])])
      = .record [("a", .record [("q", .none)])] ∧
    toValue .builtins overlaid (object [("a", object [("q", null)])])
      = .error (.wire (.missingField "p")) :=
  ⟨by decide, rfl, rfl, rfl⟩

/-- What was read as both types is kept as the second, and it cannot be written as the first. -/
theorem toValue_writable_overlaid :
    Graph.builtins.DistinctNames ∧
    (object [("a", object [("p", null), ("q", null)])]).Legal ∧
    toValue .builtins overlaid (object [("a", object [("p", null), ("q", null)])])
      = .ok (.record [("a", .record [("q", .none)])]) ∧
    Serializer.portable.encode .builtins overlaid (.record [("a", .record [("q", .none)])])
      = .error (.missingField "p") := by
  refine ⟨by decide, by decide, rfl, ?_⟩
  exact (Portable.encode_eq_form _ _ _).trans rfl

end Json

end SchemaCodec
