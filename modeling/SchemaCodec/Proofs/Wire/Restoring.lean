import SchemaCodec.Proofs.Canonical
import SchemaCodec.Proofs.Scalar
import SchemaCodec.Proofs.Wire.Form
import SchemaCodec.Proofs.Wire.Reading

/-!
# Reading what was written

The portable reader restores the canonical form of a value from its bytes, whatever follows on them,
if the budget of the source covers the elements that the bytes announce. If it does not, some array
is refused, since every claim on the budget is made before the elements are read and nothing is ever
given back.

Restoring is closed under sequencing: bytes that stand one after another are restored one after
another, and what they announce adds up. So one case for each shape is enough.
-/

namespace SchemaCodec.Wire

/-! ## Announced elements -/

/-- The array elements that a number announces. -/
def Number.announced (n : Number) : Nat :=
  match n.role with
  | .count => n.value.toNat
  | _ => 0

/-- The array elements that are announced at all depths. -/
def claimed (numbers : List Number) : Nat := (numbers.map Number.announced).sum

@[simp] theorem claimed_append (numbers more : List Number) :
    claimed (numbers ++ more) = claimed numbers + claimed more := by
  rw [claimed, List.map_append, List.sum_append, ← claimed, ← claimed]

/-! ## Restoring -/

variable {α β : Type}

/-- From these bytes, and with whatever follows, a reading gives `a` and claims what is announced,
if the budget allows; and it meets no numbers but those that were written. -/
structure Restores (read : Portable.Source → Except WireError (α × Portable.Source))
    (numbers : Portable.Source → List Number) (bytes : List UInt8) (a : α) (put : List Number) :
    Prop where
  succeeds : ∀ rest budget, claimed put ≤ budget →
    read ⟨bytes ++ rest, budget⟩ = .ok (a, ⟨rest, budget - claimed put⟩)
  exhausts : ∀ rest budget, budget < claimed put →
    ∃ count available, read ⟨bytes ++ rest, budget⟩ = .error (.elementLimitExceeded count available)
  meets : ∀ rest budget, numbers ⟨bytes ++ rest, budget⟩ ⊆ put

namespace Restores

variable {read : Portable.Source → Except WireError (α × Portable.Source)}
  {numbers : Portable.Source → List Number}
  {bytes more : List UInt8} {a : α} {b : β} {put rest : List Number}

/-- A reading that announces nothing. -/
theorem of_eq (hput : claimed put = 0)
    (h : ∀ rest budget, read ⟨bytes ++ rest, budget⟩ = .ok (a, ⟨rest, budget⟩))
    (hmeets : ∀ rest budget, numbers ⟨bytes ++ rest, budget⟩ ⊆ put) :
    Restores read numbers bytes a put := by
  refine ⟨fun rest budget _ ↦ ?_, fun rest budget hlt ↦ ?_, hmeets⟩
  · rw [h, hput, Nat.sub_zero]
  · rw [hput] at hlt
    exact absurd hlt (Nat.not_lt_zero budget)

theorem bind {k : α × Portable.Source → Except WireError (β × Portable.Source)}
    {m : α × Portable.Source → List Number}
    (h : Restores read numbers bytes a put)
    (hk : Restores (fun source ↦ k (a, source)) (fun source ↦ m (a, source)) more b rest) :
    Restores (fun source ↦ read source >>= k)
      (fun source ↦ numbers source ++ after (read source) m) (bytes ++ more) b (put ++ rest) := by
  -- if the first reading succeeds at all, it leaves the second one where its bytes begin
  have hread : ∀ tail budget r, read ⟨bytes ++ more ++ tail, budget⟩ = .ok r →
      r = (a, ⟨more ++ tail, budget - claimed put⟩) := by
    intro tail budget r hr
    rw [List.append_assoc] at hr
    by_cases hle : claimed put ≤ budget
    · rw [h.succeeds _ _ hle] at hr
      exact (Except.ok.inj hr).symm
    · obtain ⟨count, available, herror⟩ := h.exhausts (more ++ tail) budget (by omega)
      rw [herror] at hr
      exact absurd hr (by simp)
  refine ⟨fun tail budget hle ↦ ?_, fun tail budget hlt ↦ ?_, fun tail budget n hn ↦ ?_⟩
  · rw [claimed_append] at hle ⊢
    rw [List.append_assoc, bind_of_ok (h.succeeds _ _ (by omega)), hk.succeeds _ _ (by omega),
      Nat.sub_sub]
  · rw [claimed_append] at hlt
    rw [List.append_assoc]
    by_cases hle : claimed put ≤ budget
    · rw [bind_of_ok (h.succeeds _ _ hle)]
      exact hk.exhausts tail (budget - claimed put) (by omega)
    · obtain ⟨count, available, herror⟩ := h.exhausts (more ++ tail) budget (by omega)
      exact ⟨count, available, bind_of_error herror k⟩
  · rw [List.mem_append, mem_after] at hn
    rcases hn with hn | ⟨r, hr, hn⟩
    · rw [List.append_assoc] at hn
      exact List.mem_append_left _ (h.meets _ _ hn)
    · rw [hread tail budget r hr] at hn
      exact List.mem_append_right _ (hk.meets _ _ hn)

/-- A reading that is completed by what reads nothing. -/
theorem map {k : α × Portable.Source → Except WireError (β × Portable.Source)}
    (h : Restores read numbers bytes a put) (hk : ∀ source, k (a, source) = .ok (b, source)) :
    Restores (fun source ↦ read source >>= k) numbers bytes b put := by
  refine ⟨fun rest budget hle ↦ ?_, fun rest budget hlt ↦ ?_, h.meets⟩
  · rw [bind_of_ok (h.succeeds _ _ hle), hk]
  · obtain ⟨count, available, herror⟩ := h.exhausts rest budget hlt
    exact ⟨count, available, bind_of_error herror k⟩

end Restores

namespace Portable

/-! ## Numbers and payloads -/

theorem spelledAt_write (role : Role) (n : Int) (rest : List UInt8) (budget : Nat) :
    spelledAt role ⟨Groups.write n ++ rest, budget⟩ = [⟨role, n⟩] := by
  rw [spelledAt, Groups.spelled_of_read (Groups.read_write_append n rest)]
  rfl

theorem readInteger_write (n : Int) (rest : List UInt8) (budget : Nat) :
    readInteger ⟨Groups.write n ++ rest, budget⟩ = .ok (n, ⟨rest, budget⟩) :=
  bind_of_ok (Groups.read_write_append n rest) _

theorem readInteger_restores {role : Role} (n : Int) (h : claimed [⟨role, n⟩] = 0) :
    Restores readInteger (spelledAt role) (Groups.write n) n [⟨role, n⟩] := by
  refine .of_eq h (readInteger_write n) fun rest budget ↦ ?_
  rw [spelledAt_write]
  exact List.Subset.refl _

theorem readLength_write {n : Nat} (h : n < 2 ^ 63) (rest : List UInt8) (budget : Nat) :
    readLength ⟨Groups.write n ++ rest, budget⟩ = .ok (n, ⟨rest, budget⟩) := by
  have hlt : n < lengthBound := h.trans (by norm_num [lengthBound])
  have hlength : lengthOf n = .ok n := by
    rw [lengthOf, if_pos ⟨Int.natCast_nonneg n, Int.ofNat_lt.mpr hlt⟩, Int.toNat_natCast]
  rw [readLength, bind_of_ok (readInteger_write n rest budget)]
  exact bind_of_ok hlength _

theorem take_append (bytes rest : List UInt8) (budget : Nat) :
    take bytes.length ⟨bytes ++ rest, budget⟩ = .ok (bytes, ⟨rest, budget⟩) := by
  rw [take_eq, if_pos (by simp), List.take_left, List.drop_left]

theorem take_restores (bytes : List UInt8) :
    Restores (take bytes.length) (fun _ ↦ []) bytes bytes [] :=
  .of_eq rfl (take_append bytes) fun _ _ ↦ List.Subset.refl _

theorem readBlob_restores {payload : List UInt8} (h : payload.length < 2 ^ 63) :
    Restores readBlob (spelledAt .length) (blob payload) payload [⟨.length, payload.length⟩] := by
  refine .of_eq rfl (fun rest budget ↦ ?_) fun rest budget ↦ ?_
  · rw [readBlob, blob, List.append_assoc, bind_of_ok (readLength_write h _ budget)]
    exact take_append payload rest budget
  · rw [blob, List.append_assoc, spelledAt_write]
    exact List.Subset.refl _

/-! ## Arrays and records -/

/-- Reads a count and claims so many elements. -/
def readClaim (source : Source) : Except WireError (Nat × Source) := do
  let (count, source) ← readLength source
  let budget ← claim source.budget count
  .ok (count, { source with budget })

theorem readClaim_restores {count : Nat} (h : count < 2 ^ 63) :
    Restores readClaim (spelledAt .count) (Groups.write count) count [⟨.count, count⟩] := by
  have hclaimed : claimed [⟨.count, count⟩] = count := Int.toNat_natCast count
  refine ⟨fun rest budget hle ↦ ?_, fun rest budget hlt ↦ ?_, fun rest budget ↦ ?_⟩
  · rw [hclaimed] at hle ⊢
    rw [readClaim, bind_of_ok (readLength_write h rest budget)]
    exact bind_of_ok (if_neg (not_lt.mpr hle)) _
  · rw [hclaimed] at hlt
    rw [readClaim, bind_of_ok (readLength_write h rest budget)]
    exact ⟨count, budget, bind_of_error (if_pos hlt) _⟩
  · rw [spelledAt_write]
    exact List.Subset.refl _

theorem readClaim_bind (source : Source) (k : Nat × Source → Except WireError (α × Source)) :
    readClaim source >>= k = readLength source >>= fun r ↦
      claim r.2.budget r.1 >>= fun budget ↦ k (r.1, { r.2 with budget }) := by
  rw [readClaim, bind_assoc]
  refine congrArg (readLength source >>= ·) (funext fun r ↦ ?_)
  exact bind_assoc _ _ _

theorem after_readClaim (source : Source) (m : Nat × Source → List Number) :
    after (readClaim source) m = after (readLength source) fun r ↦
      after (claim r.2.budget r.1) fun budget ↦ m (r.1, { r.2 with budget }) := by
  rw [readClaim]
  cases readLength source with
  | error e => rfl
  | ok r =>
    change after (claim r.2.budget r.1 >>= _) m = after (claim r.2.budget r.1) _
    cases claim r.2.budget r.1 <;> rfl

theorem readItems_restores {read : Source → Except WireError (Value × Source)}
    {numbers : Source → List Number} {part : Value → Except WireError (List UInt8)}
    {f : Value → Value} {put : Value → List Number} {items : List Value} {bytes : List UInt8}
    (h : ∀ item ∈ items, ∀ bytes, part item = .ok bytes →
      Restores read numbers bytes (f item) (put item))
    (hbytes : join part items = .ok bytes) (before : List Value) :
    Restores (readItems read items.length before) (itemNumbers read numbers items.length) bytes
      (before.reverse ++ items.map f) (numbersOver part put items) := by
  induction items generalizing bytes before with
  | nil =>
    rw [← Except.ok.inj hbytes, List.map_nil, List.append_nil]
    exact .of_eq rfl (fun _ _ ↦ rfl) fun _ _ ↦ List.Subset.refl _
  | cons item rest ih =>
    obtain ⟨first, others, hfirst, hothers, rfl⟩ := join_cons_ok hbytes
    have hitem := h item List.mem_cons_self first hfirst
    have hrest := ih (fun other hmem ↦ h other (List.mem_cons_of_mem _ hmem)) hothers
      (f item :: before)
    rw [List.reverse_cons, List.append_assoc, List.singleton_append, ← List.map_cons] at hrest
    rw [numbersOver, hfirst]
    exact hitem.bind (k := fun r ↦ readItems read rest.length (r.1 :: before) r.2)
      (m := fun r ↦ itemNumbers read numbers rest.length r.2) hrest

theorem readFields_restores {read : Ty → Source → Except WireError (Value × Source)}
    {numbers : Ty → Source → List Number} {part : String × Ty → Except WireError (List UInt8)}
    {f : String × Ty → Option (String × Value)} {put : String × Ty → List Number}
    {entries : List (String × Ty)} {bytes : List UInt8}
    (h : ∀ entry ∈ entries, ∀ bytes, part entry = .ok bytes →
      ∃ field, f entry = some (entry.1, field) ∧
        Restores (read entry.2) (numbers entry.2) bytes field (put entry))
    (hbytes : join part entries = .ok bytes) (before : Members String Value) :
    Restores (readFields read entries before) (fieldNumbers read numbers entries) bytes
      ((entries.filterMap f).foldl (fun ms p ↦ Members.put p.1 p.2 ms) before)
      (numbersOver part put entries) := by
  induction entries generalizing bytes before with
  | nil =>
    rw [← Except.ok.inj hbytes]
    exact .of_eq rfl (fun _ _ ↦ rfl) fun _ _ ↦ List.Subset.refl _
  | cons entry rest ih =>
    obtain ⟨first, others, hfirst, hothers, rfl⟩ := join_cons_ok hbytes
    obtain ⟨field, hfield, hentry⟩ := h entry List.mem_cons_self first hfirst
    have hrest := ih (fun other hmem ↦ h other (List.mem_cons_of_mem _ hmem)) hothers
      (Members.put entry.1 field before)
    rw [numbersOver, hfirst, List.filterMap_cons_some hfield, List.foldl_cons]
    exact hentry.bind (k := fun r ↦ readFields read rest (Members.put entry.1 r.1 before) r.2)
      (m := fun r ↦ fieldNumbers read numbers rest r.2) hrest

theorem form_restores {graph : Graph} {levels : Nat} {ty : Ty} {value : Value} {bytes : List UInt8}
    (hv : value.Addressable) (h : form graph levels ty value = .ok bytes) :
    Restores (read graph levels ty) (met graph levels ty) bytes (value.canon graph ty)
      (written graph levels ty value) := by
  induction levels generalizing ty value bytes with
  | zero => cases h
  | succ levels ih =>
    have hextent := hv value value.self_mem_parts
    change Restores (fun source ↦ read graph (levels + 1) ty source)
      (fun source ↦ met graph (levels + 1) ty source) bytes _ _
    unfold read met written
    cases formed_of_form h with
    | none hshape =>
      rw [hshape, Value.canon, hshape]
      exact .of_eq rfl (fun _ _ ↦ rfl) fun _ _ ↦ List.Subset.refl _
    | boolean hshape b =>
      rw [hshape, Value.canon, hshape]
      exact (take_restores [if b then 1 else 0]).map fun _ ↦ by cases b <;> rfl
    | integer hshape i =>
      rw [hshape, Value.canon, hshape]
      exact (readInteger_restores i rfl).map fun _ ↦ rfl
    | float hshape x =>
      rw [hshape, Value.canon, hshape]
      have htake := take_restores x.toBytes
      rw [Binary64.length_toBytes] at htake
      exact htake.map fun _ ↦ by dsimp only; rw [Binary64.ofBytes_toBytes]; rfl
    | string hshape s =>
      rw [hshape, Value.canon, hshape]
      exact (readBlob_restores hextent).map fun _ ↦ by dsimp only; rw [Text.ofBytes?_toBytes]; rfl
    | bytes hshape bs =>
      rw [hshape, Value.canon, hshape]
      exact (readBlob_restores hextent).map fun _ ↦ rfl
    | @array element hshape items others hparts =>
      rw [hshape, Value.canon_array items hshape]
      have hitem : ∀ item ∈ items, ∀ bytes, form graph levels element item = .ok bytes →
          Restores (read graph levels element) (met graph levels element) bytes
            (item.canon graph element) (written graph levels element item) :=
        fun _ hmem _ hform ↦ ih (hv.item hmem) hform
      have hitems := readItems_restores hitem hparts []
      -- the count is read and claimed in one step, which announces the items at once
      have hcount := (readClaim_restores hextent).bind
        (k := fun r ↦ readItems (read graph levels element) r.1 [] r.2 >>= fun r ↦
          .ok (Value.array r.1, r.2))
        (m := fun r ↦ itemNumbers (read graph levels element) (met graph levels element) r.1 r.2)
        (hitems.map (b := Value.array (items.map (Value.canon graph element))) fun _ ↦ rfl)
      simp only [readClaim_bind, after_readClaim] at hcount
      exact hcount
    | @record entries hshape fields _ hparts =>
      rw [hshape, Value.canon_record fields hshape]
      refine (readFields_restores (f := Value.kept graph fields) (fun entry _ bytes hpart ↦ ?_)
        hparts []).map fun _ ↦ rfl
      obtain ⟨field, hfield, hform⟩ := bind_ok hpart
      have hget := get?_of_fieldOf hfield
      refine ⟨field.canon graph entry.2, by rw [Value.kept, hget]; rfl, ?_⟩
      rw [hfield]
      exact ih (hv.field (Members.mem_of_get? hget)) hform
    | @choice entries hshape variant payloadTy index hget hpos payload others hpart =>
      rw [hshape, Value.canon_choice payload hshape hget]
      obtain ⟨found, hfound, hat⟩ := Members.position?_of_get? hget
      cases hpos.symm.trans hfound
      have hentry : entryAt? entries index = some (variant, payloadTy) := by
        rw [entryAt?, if_pos (Int.natCast_nonneg index), Int.toNat_natCast, hat]
      have hpayload := (ih hv.payload hpart).map
        (b := Value.choice variant (payload.canon graph payloadTy))
        (k := fun r ↦ .ok (Value.choice variant r.1, r.2)) fun _ ↦ rfl
      have hindex : Restores readInteger (spelledAt .index) (Groups.write index) (index : Int)
          [⟨.index, index⟩] := readInteger_restores index rfl
      simp only [hpos, hget]
      refine hindex.bind ?_
      simp only [hentry]
      exact hpayload

end Portable

end SchemaCodec.Wire
