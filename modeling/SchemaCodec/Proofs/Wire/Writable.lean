import SchemaCodec.Proofs.Fitting
import SchemaCodec.Proofs.Wire.RoundTrip

/-!
# What can be written

A value can be written as a type exactly if it fits the type and is not too deep there. The fast
serializer asks for one thing more: it holds integers in words, so those that it meets have to be in
range. Nothing else decides, whatever the graph looks like.

## The levels of a visit

Writing visits a value along its type, and a visit has its level: the value itself is visited on the
first, and each step into an item, a declared field or a payload leads one level down. References
are chased on the spot and take no level. Fields that are not declared are never visited, so neither
their depth nor their integers count, and a field whose name the type gives twice is visited twice,
as two types.

## Why levels are counted along the type

The depth of the canonical form would not do. Of a field that is visited as two types it keeps the
second alone, and the first may have led further down.
-/

namespace SchemaCodec

namespace Value

/-! ## Visits -/

/-- Writing a value as a type visits a part of it, on a level. -/
inductive Visits (graph : Graph) : Ty → Value → (level : Nat) → (part : Value) → Prop where
  | self (ty : Ty) (value : Value) : Visits graph ty value 1 value
  | item {ty element : Ty} {items : List Value} {item part : Value} {level : Nat}
    (shape : graph.resolve ty = .array element) (mem : item ∈ items)
    (own : Visits graph element item level part) : Visits graph ty (.array items) (level + 1) part
  | field {ty : Ty} {entries : List (String × Ty)} {fields : Members String Value}
    {entry : String × Ty} {field part : Value} {level : Nat}
    (shape : graph.resolve ty = .record entries) (mem : entry ∈ entries)
    (get : Members.get? entry.1 fields = some field)
    (own : Visits graph entry.2 field level part) :
    Visits graph ty (.record fields) (level + 1) part
  | payload {ty : Ty} {entries : List (String × Ty)} {variant : String} {payloadTy : Ty}
    {payload part : Value} {level : Nat} (shape : graph.resolve ty = .choice entries)
    (get : Members.get? variant entries = some payloadTy)
    (own : Visits graph payloadTy payload level part) :
    Visits graph ty (.choice variant payload) (level + 1) part

/-- No part of a value is visited below a level. -/
def Within (graph : Graph) (ty : Ty) (value : Value) (levels : Nat) : Prop :=
  ∀ level part, Visits graph ty value level part → level ≤ levels

section

variable {graph : Graph} {ty : Ty} {value : Value} {levels : Nat}

/-- Below the first level there is nothing. -/
theorem Within.levels_pos (h : Within graph ty value levels) : 0 < levels :=
  h 1 value (.self ty value)

namespace Within

theorem item {element : Ty} {items : List Value} (h : Within graph ty (.array items) (levels + 1))
    (hshape : graph.resolve ty = .array element) {item : Value} (hmem : item ∈ items) :
    Within graph element item levels := by
  intro level part hvisit
  exact Nat.le_of_succ_le_succ (h _ _ (.item hshape hmem hvisit))

theorem field {entries : List (String × Ty)} {fields : Members String Value}
    (h : Within graph ty (.record fields) (levels + 1))
    (hshape : graph.resolve ty = .record entries) {entry : String × Ty} (hmem : entry ∈ entries)
    {field : Value} (hget : Members.get? entry.1 fields = some field) :
    Within graph entry.2 field levels := by
  intro level part hvisit
  exact Nat.le_of_succ_le_succ (h _ _ (.field hshape hmem hget hvisit))

theorem payload {entries : List (String × Ty)} {variant : String} {payload : Value}
    (h : Within graph ty (.choice variant payload) (levels + 1))
    (hshape : graph.resolve ty = .choice entries) {payloadTy : Ty}
    (hget : Members.get? variant entries = some payloadTy) :
    Within graph payloadTy payload levels := by
  intro level part hvisit
  exact Nat.le_of_succ_le_succ (h _ _ (.payload hshape hget hvisit))

end Within

end

end Value

namespace Wire

open Value

variable {α : Type} {graph : Graph} {ty : Ty} {value : Value} {levels : Nat} {bytes : List UInt8}

/-! ## Fitting, and how deep -/

/-- What has a form is visited within the levels of the form, by induction on the visit. -/
theorem within_of_form (h : form graph levels ty value = .ok bytes) :
    Within graph ty value levels := by
  intro level part hvisit
  induction hvisit generalizing levels bytes with
  | self ty value =>
    by_contra hlevels
    obtain rfl : levels = 0 := by omega
    cases h
  | item hshape hmem _ ih =>
    obtain _ | levels := levels
    · cases h
    · cases formed_of_form h with
      | array hfound hparts =>
        obtain rfl := Ty.array.inj (hshape.symm.trans hfound)
        obtain ⟨own, hown⟩ := exists_of_join hparts hmem
        exact Nat.succ_le_succ (ih hown)
  | field hshape hmem hget _ ih =>
    obtain _ | levels := levels
    · cases h
    · cases formed_of_form h with
      | record hfound hparts =>
        obtain rfl := Ty.record.inj (hshape.symm.trans hfound)
        obtain ⟨own, hown⟩ := exists_of_join hparts hmem
        obtain ⟨field, hfield, hform⟩ := bind_ok hown
        obtain rfl := Option.some_inj.mp (hget.symm.trans (get?_of_fieldOf hfield))
        exact Nat.succ_le_succ (ih hform)
  | payload hshape hget _ ih =>
    obtain _ | levels := levels
    · cases h
    · cases formed_of_form h with
      | choice hfound hfoundTy _ hpart =>
        obtain rfl := Ty.choice.inj (hshape.symm.trans hfound)
        obtain rfl := Option.some_inj.mp (hget.symm.trans hfoundTy)
        exact Nat.succ_le_succ (ih hpart)

/-- What fits and is visited within some levels has a form in these levels, by induction on why it
fits. -/
theorem form_of_within (h : Fits graph ty value) (hwithin : Within graph ty value levels) :
    Ends (fun _ ↦ True) (fun _ ↦ False) (form graph levels ty value) := by
  induction h generalizing levels with
  | none hshape | boolean hshape _ | integer hshape _ | float hshape _ | string hshape _
  | bytes hshape _ =>
    obtain ⟨levels, rfl⟩ := Nat.exists_eq_succ_of_ne_zero hwithin.levels_pos.ne'
    unfold form
    rw [hshape]
    exact .ok trivial
  | array hshape _ ih =>
    obtain ⟨levels, rfl⟩ := Nat.exists_eq_succ_of_ne_zero hwithin.levels_pos.ne'
    unfold form
    rw [hshape]
    exact (join_ends fun item hmem ↦ ih item hmem (hwithin.item hshape hmem)).map fun _ _ ↦ trivial
  | record hshape hget _ ih =>
    obtain ⟨levels, rfl⟩ := Nat.exists_eq_succ_of_ne_zero hwithin.levels_pos.ne'
    unfold form
    rw [hshape]
    refine join_ends fun entry hmem ↦ ?_
    rw [fieldOf, hget entry hmem]
    exact ih entry hmem (hwithin.field hshape hmem (hget entry hmem))
  | choice hshape hget _ ih =>
    obtain ⟨levels, rfl⟩ := Nat.exists_eq_succ_of_ne_zero hwithin.levels_pos.ne'
    obtain ⟨index, hposition, -⟩ := Members.position?_of_get? hget
    unfold form
    rw [hshape]
    dsimp only
    rw [hposition, hget]
    exact (ih (hwithin.payload hshape hget)).map fun _ _ ↦ trivial

/-- A value has a form in some levels exactly if it fits and is visited within them. -/
theorem exists_form_iff : (∃ bytes, form graph levels ty value = .ok bytes) ↔
    Fits graph ty value ∧ Within graph ty value levels := by
  constructor
  · rintro ⟨bytes, hform⟩
    exact ⟨fits_of_form hform, within_of_form hform⟩
  · rintro ⟨hfits, hwithin⟩
    have hends := form_of_within hfits hwithin
    cases hform : form graph levels ty value with
    | ok bytes => exact ⟨bytes, rfl⟩
    | error e => exact (hends.bad_of_eq hform).elim

/-! ## Integers -/

theorem mem_numbersOver_of_join {part : α → Except WireError (List UInt8)}
    {numbers : α → List Number} {items : List α} (h : join part items = .ok bytes) {a : α}
    (ha : a ∈ items) {n : Number} (hn : n ∈ numbers a) : n ∈ numbersOver part numbers items := by
  induction items generalizing bytes with
  | nil => exact absurd ha List.not_mem_nil
  | cons b rest ih =>
    obtain ⟨first, others, hfirst, hothers, -⟩ := join_cons_ok h
    rw [numbersOver, List.mem_append, mem_after]
    rcases List.mem_cons.mp ha with rfl | ha
    · exact .inl hn
    · exact .inr ⟨first, hfirst, ih hothers ha⟩

/-- An integer that is met in writing is visited. -/
theorem visits_of_mem_written {i : Int} (h : ⟨.integer, i⟩ ∈ written graph levels ty value) :
    ∃ level, Visits graph ty value level (.integer i) := by
  induction levels generalizing ty value with
  | zero => exact absurd h List.not_mem_nil
  | succ levels ih =>
    unfold written at h
    split at h
    · obtain rfl : i = _ := (Number.mk.inj (List.mem_singleton.mp h)).2
      exact ⟨1, .self _ _⟩
    · cases (Number.mk.inj (List.mem_singleton.mp h)).1
    · cases (Number.mk.inj (List.mem_singleton.mp h)).1
    · next hshape =>
      rcases List.mem_cons.mp h with h | h
      · cases (Number.mk.inj h).1
      · obtain ⟨item, hmem, h⟩ := mem_numbersOver h
        obtain ⟨level, hvisit⟩ := ih h
        exact ⟨level + 1, .item hshape hmem hvisit⟩
    · next hshape =>
      obtain ⟨entry, hmem, h⟩ := mem_numbersOver h
      obtain ⟨field, hfield, h⟩ := mem_after.mp h
      obtain ⟨level, hvisit⟩ := ih h
      exact ⟨level + 1, .field hshape hmem (get?_of_fieldOf hfield) hvisit⟩
    · next hshape =>
      split at h
      · next hget =>
        rcases List.mem_cons.mp h with h | h
        · cases (Number.mk.inj h).1
        · obtain ⟨level, hvisit⟩ := ih h
          exact ⟨level + 1, .payload hshape hget hvisit⟩
      · exact absurd h List.not_mem_nil
    · exact absurd h List.not_mem_nil

/-- An integer that is visited is met in writing, if nothing stops the writing before. -/
theorem mem_written_of_visits {part : Value} {level : Nat}
    (hvisit : Visits graph ty value level part) {i : Int} (hpart : part = .integer i)
    (h : form graph levels ty value = .ok bytes) :
    ⟨.integer, i⟩ ∈ written graph levels ty value := by
  induction hvisit generalizing levels bytes with
  | self ty value =>
    obtain _ | levels := levels
    · cases h
    · subst hpart
      cases formed_of_form h with
      | integer hshape =>
        unfold written
        rw [hshape]
        exact List.mem_singleton.mpr rfl
  | item hshape hmem _ ih =>
    obtain _ | levels := levels
    · cases h
    · cases formed_of_form h with
      | array hfound hparts =>
        obtain rfl := Ty.array.inj (hshape.symm.trans hfound)
        obtain ⟨own, hown⟩ := exists_of_join hparts hmem
        unfold written
        rw [hshape]
        exact List.mem_cons_of_mem _ (mem_numbersOver_of_join hparts hmem (ih hpart hown))
  | field hshape hmem hget _ ih =>
    obtain _ | levels := levels
    · cases h
    · cases formed_of_form h with
      | record hfound hparts =>
        obtain rfl := Ty.record.inj (hshape.symm.trans hfound)
        obtain ⟨own, hown⟩ := exists_of_join hparts hmem
        obtain ⟨field, hfield, hform⟩ := bind_ok hown
        obtain rfl := Option.some_inj.mp (hget.symm.trans (get?_of_fieldOf hfield))
        unfold written
        rw [hshape]
        refine mem_numbersOver_of_join hparts hmem (mem_after.mpr ⟨_, hfield, ?_⟩)
        exact ih hpart hform
  | payload hshape hget _ ih =>
    obtain _ | levels := levels
    · cases h
    · cases formed_of_form h with
      | choice hfound hfoundTy hposition hpayload =>
        obtain rfl := Ty.choice.inj (hshape.symm.trans hfound)
        obtain rfl := Option.some_inj.mp (hget.symm.trans hfoundTy)
        unfold written
        rw [hshape]
        dsimp only
        rw [hposition, hget]
        exact List.mem_cons_of_mem _ (ih hpart hpayload)

/-- Where a value has a form, the integers met in writing it are in range exactly if those visited
are. -/
theorem integersInRange_written_iff (h : form graph levels ty value = .ok bytes) :
    Number.IntegersInRange (written graph levels ty value) ↔
      ∀ level i, Visits graph ty value level (.integer i) → Groups.Word.InRange i := by
  constructor
  · intro hrange level i hvisit
    exact hrange _ (mem_written_of_visits hvisit rfl h) rfl
  · intro hrange n hn hrole
    obtain ⟨role, i⟩ := n
    obtain rfl : role = .integer := hrole
    obtain ⟨level, hvisit⟩ := visits_of_mem_written hn
    exact hrange level i hvisit

/-! ## Both serializers -/

theorem exists_encode_iff :
    (∃ bytes, Serializer.portable.encode graph ty value = .ok bytes) ↔
      Fits graph ty value ∧ Within graph ty value maxDepth := by
  rw [← exists_form_iff]
  exact exists_congr fun bytes ↦ by rw [Serializer.encode, Portable.encode_eq_form]

theorem exists_fast_encode_iff (hg : graph.Addressable) (ht : ty.Addressable)
    (hv : value.Addressable) :
    (∃ bytes, Serializer.fast.encode graph ty value = .ok bytes) ↔
      (Fits graph ty value ∧ Within graph ty value maxDepth) ∧
        ∀ level i, Visits graph ty value level (.integer i) → Groups.Word.InRange i := by
  have hsizes : Number.SizesInRange (written graph maxDepth ty value) :=
    sizesInRange_written (hg.everywhere ht) hv
  have hrange := Number.allInRange_iff hsizes
  rw [← exists_form_iff]
  constructor
  · rintro ⟨bytes, hencode⟩
    have hform := form_of_encode hencode
    refine ⟨⟨bytes, hform⟩, (integersInRange_written_iff hform).mp ?_⟩
    exact hrange.mp (allInRange_of_encode hencode rfl)
  · rintro ⟨⟨bytes, hform⟩, hint⟩
    refine ⟨bytes, encode_of_form hform fun _ ↦ hrange.mpr ?_⟩
    exact (integersInRange_written_iff hform).mpr hint

/-- **What can be written.** The portable serializer writes exactly the values that fit and of which
no part is visited below the greatest depth. The fast one writes those of them whose visited
integers words can hold. A value that fits and is too deep is refused for its depth. -/
theorem encode_ok_iff_fits (graph : Graph) (ty : Ty) (value : Value) :
    ((∃ bytes, Serializer.portable.encode graph ty value = .ok bytes) ↔
      Fits graph ty value ∧ Within graph ty value maxDepth) ∧
    (graph.Addressable → ty.Addressable → value.Addressable →
      ((∃ bytes, Serializer.fast.encode graph ty value = .ok bytes) ↔
        (Fits graph ty value ∧ Within graph ty value maxDepth) ∧
          ∀ level i, Visits graph ty value level (.integer i) → Groups.Word.InRange i)) ∧
    (Fits graph ty value → ¬Within graph ty value maxDepth →
      Serializer.portable.encode graph ty value = .error (.depthLimitExceeded maxDepth)) := by
  refine ⟨exists_encode_iff, exists_fast_encode_iff, ?_⟩
  intro hfits hdeep
  rw [Serializer.encode, Portable.encode_eq_form]
  have hends := form_of_fits hfits maxDepth
  cases hform : form graph maxDepth ty value with
  | ok bytes => exact absurd (within_of_form hform) hdeep
  | error e => rw [hends.bad_of_eq hform]

/-! ### A list of lists -/

/-- Lists whose items are such lists. -/
def nests : Graph :=
  Graph.builtins.insert (.qualified "M" "Nest") (.array (.ref (.qualified "M" "Nest")))

/-- A list in as many others. -/
def nest : Nat → Value
  | 0 => .array []
  | depth + 1 => .array [nest depth]

theorem fits_nest (depth : Nat) : Fits nests (.ref (.qualified "M" "Nest")) (nest depth) := by
  induction depth with
  | zero => exact .array rfl fun _ h ↦ absurd h List.not_mem_nil
  | succ depth ih => exact .array rfl (List.forall_mem_singleton.mpr ih)

/-- The innermost list is visited on the last level, and nothing below it. -/
theorem within_nest_iff (depth levels : Nat) :
    Within nests (.ref (.qualified "M" "Nest")) (nest depth) levels ↔ depth < levels := by
  constructor
  · intro h
    refine h (depth + 1) (.array []) ?_
    clear h
    induction depth with
    | zero => exact .self _ _
    | succ depth ih => exact .item rfl List.mem_cons_self ih
  · intro h
    induction depth generalizing levels with
    | zero =>
      rintro level part (_ | ⟨-, hmem, -⟩)
      · exact h
      · exact absurd hmem List.not_mem_nil
    | succ depth ih =>
      rintro level part (_ | ⟨hshape, hmem, hvisit⟩)
      · omega
      · cases hshape
        obtain rfl := List.mem_singleton.mp hmem
        have hlevel := ih (levels - 1) (by omega) _ _ hvisit
        omega

/-- A list in 1023 others can be written, and one in 1024 others is too deep. -/
theorem encode_ok_iff_fits_nest :
    let ty := Ty.ref (.qualified "M" "Nest")
    Fits nests ty (nest 1023) ∧ Fits nests ty (nest 1024) ∧
    (∃ bytes, Serializer.portable.encode nests ty (nest 1023) = .ok bytes) ∧
    Serializer.portable.encode nests ty (nest 1024) = .error (.depthLimitExceeded 1024) ∧
    (∃ bytes, Serializer.fast.encode .builtins .integer (.integer 64) = .ok bytes) ∧
    ¬∃ bytes, Serializer.fast.encode .builtins .integer (.integer (2 ^ 63)) = .ok bytes := by
  intro ty
  have hwithin : Within nests ty (nest 1023) maxDepth :=
    (within_nest_iff 1023 1024).mpr (by decide)
  have hdeep : ¬Within nests ty (nest 1024) maxDepth :=
    mt (within_nest_iff 1024 1024).mp (by decide)
  have hinteger : ∀ {level i part}, Visits .builtins .integer (.integer i) level part →
      level = 1 ∧ part = .integer i := by
    intro level i part hvisit
    cases hvisit
    exact ⟨rfl, rfl⟩
  refine ⟨fits_nest 1023, fits_nest 1024, ?_, ?_, ?_, ?_⟩
  · exact (encode_ok_iff_fits nests ty _).1.mpr ⟨fits_nest 1023, hwithin⟩
  · exact (encode_ok_iff_fits nests ty _).2.2 (fits_nest 1024) hdeep
  · refine ((encode_ok_iff_fits _ _ _).2.1 (by decide) (by decide) (by decide)).mpr ⟨⟨?_, ?_⟩, ?_⟩
    · exact .integer rfl 64
    · intro level part hvisit
      rw [(hinteger hvisit).1]
      decide
    · intro level i hvisit
      obtain rfl := Value.integer.inj (hinteger hvisit).2
      decide
  · intro hencode
    obtain ⟨-, hints⟩ :=
      ((encode_ok_iff_fits _ _ _).2.1 (by decide) (by decide) (by decide)).mp hencode
    exact absurd (hints 1 (2 ^ 63) (.self _ _)) (by decide)

end Wire

end SchemaCodec
