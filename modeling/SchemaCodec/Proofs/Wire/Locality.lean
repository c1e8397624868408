import SchemaCodec.Proofs.Wire.Restoring
import SchemaCodec.Proofs.Wire.RoundTrip

/-!
# Reading is local

What a reader makes of its input is settled by the bytes it has read. Bytes that are put behind the
input go into the rest, and only three failures can turn into something else: two that say that the
input ended, and one that says that it was too short for the elements it announces, since the budget
grows with the input.

A written value is therefore never read from a part of its bytes, and no written value is the
beginning of another one of the same type.

## Why numbers are compared

The fast reader differs from the portable one only where a number is out of range. So it is local as
soon as the numbers met do not change. The one number that does change is one that was cut off, and
then more groups never bring it back into range.
-/

namespace SchemaCodec

namespace Wire

/-- The failures that bytes behind the input can turn into something else. -/
inductive Starved : WireError → Prop where
  | unexpectedEnd (needed available : Nat) : Starved (.unexpectedEnd needed available)
  | unterminatedInteger : Starved .unterminatedInteger
  | elementLimitExceeded (count available : Nat) : Starved (.elementLimitExceeded count available)

variable {α β : Type}

namespace Portable

/-- A source with bytes put behind it. The budget grows with them. -/
def Source.followedBy (source : Source) (more : List UInt8) : Source :=
  ⟨source.bytes ++ more, source.budget + more.length⟩

@[simp] theorem Source.bytes_followedBy (source : Source) (more : List UInt8) :
    (source.followedBy more).bytes = source.bytes ++ more := rfl

@[simp] theorem Source.budget_followedBy (source : Source) (more : List UInt8) :
    (source.followedBy more).budget = source.budget + more.length := rfl

/-! ## Locality -/

/-- Bytes behind the source go into the rest, and do not change a failure unless it is one of those
that more input can mend. Neither do they change the numbers met, but for one that is cut off. -/
structure Local (read : Source → Except WireError (α × Source)) (numbers : Source → List Number) :
    Prop where
  succeeds : ∀ {source a later}, read source = .ok (a, later) → ∀ more,
    read (source.followedBy more) = .ok (a, later.followedBy more) ∧
      numbers (source.followedBy more) = numbers source
  fails : ∀ {source e}, read source = .error e → ¬Starved e → ∀ more,
    read (source.followedBy more) = .error e ∧
      numbers (source.followedBy more) = numbers source
  ranges : ∀ source more, Number.AllInRange (numbers (source.followedBy more)) →
    Number.AllInRange (numbers source)

namespace Local

variable {read : Source → Except WireError (α × Source)} {numbers : Source → List Number}

theorem ok (a : α) : Local (fun source ↦ .ok (a, source)) fun _ ↦ [] := by
  refine ⟨fun h more ↦ ⟨?_, rfl⟩, fun h ↦ ?_, fun _ _ h ↦ h⟩
  · cases h
    rfl
  · cases h

theorem error (e : WireError) : Local (α := α) (fun _ ↦ .error e) fun _ ↦ [] := by
  refine ⟨fun h ↦ ?_, fun h _ more ↦ ⟨h, rfl⟩, fun _ _ h ↦ h⟩
  cases h

theorem bind {k : α × Source → Except WireError (β × Source)} {m : α × Source → List Number}
    (h : Local read numbers)
    (hk : ∀ a, Local (fun source ↦ k (a, source)) fun source ↦ m (a, source)) :
    Local (fun source ↦ read source >>= k)
      fun source ↦ numbers source ++ after (read source) m := by
  refine ⟨fun {source b last} hread more ↦ ?_, fun {source e} hread hmend more ↦ ?_,
    fun source more hrange ↦ ?_⟩
  · obtain ⟨⟨a, later⟩, hfirst, hsecond⟩ := bind_ok hread
    obtain ⟨hok, hnumbers⟩ := h.succeeds hfirst more
    obtain ⟨hnext, hmore⟩ := (hk a).succeeds hsecond more
    rw [bind_of_ok hok, hok, hfirst, hnumbers]
    exact ⟨hnext, congrArg (numbers source ++ ·) hmore⟩
  · cases hfirst : read source with
    | error e' =>
      rw [bind_of_error hfirst] at hread
      cases hread
      obtain ⟨herror, hnumbers⟩ := h.fails hfirst hmend more
      rw [bind_of_error herror, herror, hnumbers]
      exact ⟨rfl, rfl⟩
    | ok r =>
      obtain ⟨a, later⟩ := r
      rw [bind_of_ok hfirst] at hread
      obtain ⟨hok, hnumbers⟩ := h.succeeds hfirst more
      obtain ⟨hnext, hmore⟩ := (hk a).fails hread hmend more
      rw [bind_of_ok hok, hok, hnumbers]
      exact ⟨hnext, congrArg (numbers source ++ ·) hmore⟩
  · rw [Number.allInRange_append] at hrange ⊢
    refine ⟨h.ranges source more hrange.1, ?_⟩
    cases hfirst : read source with
    | error e => exact Number.allInRange_nil
    | ok r =>
      -- what comes second starts from the same place, with the bytes behind it
      rw [(h.succeeds hfirst more).1] at hrange
      exact (hk r.1).ranges r.2 more hrange.2

/-- What comes second may meet no numbers. -/
theorem bind_nil {k : α × Source → Except WireError (β × Source)} (h : Local read numbers)
    (hk : ∀ a, Local (fun source ↦ k (a, source)) fun _ ↦ []) :
    Local (fun source ↦ read source >>= k) numbers := by
  have hbind := h.bind (m := fun _ ↦ []) hk
  have hnil : (fun source ↦ numbers source ++ after (read source) fun _ ↦ []) = numbers := by
    funext source
    rw [show (after (read source) fun _ ↦ []) = [] by cases read source <;> rfl, List.append_nil]
  rw [hnil] at hbind
  exact hbind

end Local

/-! ## Numbers and payloads -/

theorem take_local (count : Nat) : Local (take count) fun _ ↦ [] := by
  refine ⟨fun {source a later} h more ↦ ⟨?_, rfl⟩, fun {source e} h hmend ↦ ?_, fun _ _ h ↦ h⟩
  · rw [take_eq] at h ⊢
    split at h
    · next hle =>
      cases h
      rw [Source.bytes_followedBy, if_pos (by rw [List.length_append]; omega),
        List.take_append_of_le_length hle, List.drop_append_of_le_length hle]
      rfl
    · cases h
  · rw [take_eq] at h
    split at h
    · cases h
    · cases h
      exact absurd (.unexpectedEnd _ _) hmend

theorem readInteger_local (role : Role) : Local readInteger (spelledAt role) := by
  refine ⟨fun {source n later} h more ↦ ?_, fun {source e} h hmend ↦ ?_, fun source more h ↦ ?_⟩
  · obtain ⟨⟨m, rest⟩, hread, hrest⟩ := bind_ok h
    cases hrest
    have happend := Groups.read_append hread more
    refine ⟨bind_of_ok happend _, ?_⟩
    rw [spelledAt, spelledAt, Source.bytes_followedBy, Groups.spelled_of_read happend,
      Groups.spelled_of_read hread]
  · -- both failures of reading a number say that the input ended
    have hstarved : Starved e := by
      cases hread : Groups.read source.bytes with
      | ok r =>
        rw [readInteger, bind_of_ok hread] at h
        cases h
      | error e' =>
        rw [readInteger, bind_of_error hread] at h
        cases h
        rcases Groups.read_error hread with rfl | rfl
        · exact .unexpectedEnd 1 0
        · exact .unterminatedInteger
    exact absurd hstarved hmend
  · rw [Fast.allInRange_spelledAt] at h ⊢
    exact Groups.Word.inRange_spelled_of_append h

theorem readLength_local (role : Role) : Local readLength (spelledAt role) := by
  refine (readInteger_local role).bind_nil fun n ↦ ?_
  dsimp only
  cases lengthOf n with
  | error e => exact .error e
  | ok length => exact .ok length

theorem readBlob_local : Local readBlob (spelledAt .length) :=
  (readLength_local .length).bind_nil fun length ↦ take_local length

/-! ## Arrays and records -/

theorem claim_local (count : Nat) :
    Local (fun source ↦ claim source.budget count >>= fun budget ↦
      .ok (count, { source with budget })) fun _ ↦ [] := by
  refine ⟨fun {source a later} h more ↦ ⟨?_, rfl⟩, fun {source e} h hmend ↦ ?_, fun _ _ h ↦ h⟩
  · obtain ⟨budget, hclaim, hlater⟩ := bind_ok h
    cases hlater
    rw [claim] at hclaim
    split at hclaim
    · cases hclaim
    · next hle =>
      cases hclaim
      have hmore : claim (source.followedBy more).budget count
          = .ok (source.budget - count + more.length) := by
        rw [claim, Source.budget_followedBy, if_neg (by omega)]
        exact congrArg Except.ok (by omega)
      rw [bind_of_ok hmore]
      rfl
  · rw [claim] at h
    split at h
    · cases h
      exact absurd (.elementLimitExceeded _ _) hmend
    · cases h

theorem readClaim_local : Local readClaim (spelledAt .count) :=
  (readLength_local .count).bind_nil claim_local

theorem readItems_local {read : Source → Except WireError (Value × Source)}
    {numbers : Source → List Number} (h : Local read numbers) (count : Nat) (items : List Value) :
    Local (readItems read count items) (itemNumbers read numbers count) := by
  induction count generalizing items with
  | zero => exact .ok items.reverse
  | succ count ih =>
    exact h.bind (k := fun r ↦ readItems read count (r.1 :: items) r.2)
      (m := fun r ↦ itemNumbers read numbers count r.2) fun item ↦ ih (item :: items)

theorem readFields_local {read : Ty → Source → Except WireError (Value × Source)}
    {numbers : Ty → Source → List Number} (h : ∀ ty, Local (read ty) (numbers ty))
    (entries : List (String × Ty)) (fields : Members String Value) :
    Local (readFields read entries fields) (fieldNumbers read numbers entries) := by
  induction entries generalizing fields with
  | nil => exact .ok fields
  | cons entry rest ih =>
    exact (h entry.2).bind (k := fun r ↦ readFields read rest (Members.put entry.1 r.1 fields) r.2)
      (m := fun r ↦ fieldNumbers read numbers rest r.2) fun field ↦
        ih (Members.put entry.1 field fields)

theorem read_local (graph : Graph) (levels : Nat) (ty : Ty) :
    Local (read graph levels ty) (met graph levels ty) := by
  induction levels generalizing ty with
  | zero => exact .error _
  | succ levels ih =>
    change Local (fun source ↦ read graph (levels + 1) ty source)
      fun source ↦ met graph (levels + 1) ty source
    unfold read met
    cases graph.resolve ty with
    | ref key => exact .error _
    | none => exact .ok _
    | boolean => exact (take_local 1).bind_nil fun _ ↦ .ok _
    | integer => exact (readInteger_local .integer).bind_nil fun _ ↦ .ok _
    | float => exact (take_local 8).bind_nil fun _ ↦ .ok _
    | string =>
      refine readBlob_local.bind_nil fun bytes ↦ ?_
      dsimp only
      cases Text.ofBytes? bytes with
      | none => exact .error _
      | some s => exact .ok _
    | bytes => exact readBlob_local.bind_nil fun _ ↦ .ok _
    | array element =>
      -- the count is read and claimed in one step
      have hitems := fun count ↦ (readItems_local (ih element) count []).bind_nil
        (k := fun r ↦ .ok (Value.array r.1, r.2)) fun items ↦ .ok (Value.array items)
      have hcount := readClaim_local.bind
        (k := fun r ↦ readItems (read graph levels element) r.1 [] r.2 >>= fun r ↦
          .ok (Value.array r.1, r.2))
        (m := fun r ↦ itemNumbers (read graph levels element) (met graph levels element) r.1 r.2)
        hitems
      simp only [readClaim_bind, after_readClaim] at hcount
      exact hcount
    | record entries =>
      exact (readFields_local ih entries []).bind_nil fun _ ↦ .ok _
    | choice entries =>
      dsimp only
      refine (readInteger_local .index).bind fun index ↦ ?_
      dsimp only
      cases entryAt? entries index with
      | none => exact .error _
      | some entry =>
        exact (ih entry.2).bind_nil (k := fun r ↦ .ok (Value.choice entry.1 r.1, r.2))
          fun payload ↦ .ok (Value.choice entry.1 payload)

/-! ## Whole inputs -/

theorem followedBy_whole (data more : List UInt8) :
    Source.followedBy ⟨data, elementBudget data.length⟩ more
      = ⟨data ++ more, elementBudget (data ++ more).length⟩ := by
  rw [Source.followedBy, elementBudget, elementBudget, List.length_append]
  exact congrArg (Source.mk (data ++ more)) (Nat.add_right_comm _ _ _)

theorem decode_append {graph : Graph} {ty : Ty} {data : List UInt8} {value : Value}
    {rest : List UInt8} (h : decode graph ty data = .ok (value, rest)) (more : List UInt8) :
    decode graph ty (data ++ more) = .ok (value, rest ++ more) ∧
      metIn graph ty (data ++ more) = metIn graph ty data := by
  obtain ⟨⟨read, later⟩, hread, hvalue⟩ := bind_ok h
  cases hvalue
  have hlocal := (read_local graph maxDepth ty).succeeds hread more
  rw [followedBy_whole] at hlocal
  exact ⟨bind_of_ok hlocal.1 _, hlocal.2⟩

theorem decode_append_error {graph : Graph} {ty : Ty} {data : List UInt8} {e : WireError}
    (h : decode graph ty data = .error e) (hmend : ¬Starved e) (more : List UInt8) :
    decode graph ty (data ++ more) = .error e ∧
      metIn graph ty (data ++ more) = metIn graph ty data := by
  cases hread : read graph maxDepth ty ⟨data, elementBudget data.length⟩ with
  | ok r =>
    rw [decode, bind_of_ok hread] at h
    cases h
  | error e' =>
    rw [decode, bind_of_error hread] at h
    cases h
    have hlocal := (read_local graph maxDepth ty).fails hread hmend more
    rw [followedBy_whole] at hlocal
    exact ⟨bind_of_error hlocal.1 _, hlocal.2⟩

theorem allInRange_metIn_of_append {graph : Graph} {ty : Ty} {data more : List UInt8}
    (h : Number.AllInRange (metIn graph ty (data ++ more))) :
    Number.AllInRange (metIn graph ty data) := by
  rw [metIn, ← followedBy_whole] at h
  exact (read_local graph maxDepth ty).ranges _ more h

end Portable

section

variable {graph : Graph} {ty : Ty} {serializer : Serializer}

theorem decode_append {data : List UInt8} {value : Value} {rest : List UInt8}
    (h : serializer.decode graph ty data = .ok (value, rest)) (more : List UInt8) :
    serializer.decode graph ty (data ++ more) = .ok (value, rest ++ more) := by
  have hrange := allInRange_of_decode h
  rw [decode_eq_portable hrange] at h
  obtain ⟨happend, hmet⟩ := Portable.decode_append h more
  rw [decode_eq_portable fun hfast ↦ hmet ▸ hrange hfast]
  exact happend

theorem decode_append_error {data : List UInt8} {e : WireError}
    (h : serializer.decode graph ty data = .error e) (hmend : ¬Starved e) (more : List UInt8) :
    serializer.decode graph ty (data ++ more) = .error e := by
  by_cases hrange : serializer = .fast → Number.AllInRange (metIn graph ty data)
  · rw [decode_eq_portable hrange] at h
    obtain ⟨happend, hmet⟩ := Portable.decode_append_error h hmend more
    rw [decode_eq_portable fun hfast ↦ hmet ▸ hrange hfast]
    exact happend
  · -- the number out of range is still met, and still out of range
    obtain ⟨rfl, hout⟩ := Classical.not_imp.mp hrange
    rw [Serializer.decode, (Fast.decode_follows graph ty data).overflows hout] at h
    cases h
    exact (Fast.decode_follows graph ty (data ++ more)).overflows
      (mt Portable.allInRange_metIn_of_append hout)

/-! ## What was written -/

/-- A written value is read to its end, or it has more elements than the budget covers. -/
theorem decode_written {value : Value} {bytes : List UInt8} (hv : value.Addressable)
    (h : serializer.encode graph ty value = .ok bytes) :
    Ends (fun r ↦ r.2 = []) Starved (serializer.decode graph ty bytes) := by
  have hrestores := Portable.form_restores hv (form_of_encode h)
  have hrange : serializer = .fast → Number.AllInRange (metIn graph ty bytes) := by
    intro hfast n hn
    have hmeets := hrestores.meets [] (elementBudget bytes.length)
    rw [List.append_nil] at hmeets
    exact allInRange_of_encode h hfast n (hmeets hn)
  rw [decode_eq_portable hrange, Serializer.decode, Portable.decode]
  by_cases hle : claimed (written graph maxDepth ty value) ≤ elementBudget bytes.length
  · have hread := hrestores.succeeds [] _ hle
    rw [List.append_nil] at hread
    rw [bind_of_ok hread]
    exact .ok rfl
  · obtain ⟨count, available, hread⟩ := hrestores.exhausts [] _ (not_le.mp hle)
    rw [List.append_nil] at hread
    rw [bind_of_error hread]
    exact .error (.elementLimitExceeded count available)

/-- A part of a written value is never read as a value. -/
theorem decode_truncated {value : Value} {bytes part : List UInt8} (hv : value.Addressable)
    (h : serializer.encode graph ty value = .ok bytes) (hpart : part <+: bytes)
    (hne : part ≠ bytes) : ∃ e, Starved e ∧ serializer.decode graph ty part = .error e := by
  obtain ⟨more, rfl⟩ := hpart
  have hwhole := decode_written hv h
  cases hdecode : serializer.decode graph ty part with
  | ok r =>
    -- the rest would not be empty when the missing bytes are put behind it
    have hrest : r.2 ++ more = [] := hwhole.good_of_eq (decode_append hdecode more)
    exact absurd (by rw [(List.append_eq_nil_iff.mp hrest).2, List.append_nil]) hne
  | error e =>
    refine ⟨e, ?_, rfl⟩
    by_contra hmend
    exact hmend (hwhole.bad_of_eq (decode_append_error hdecode hmend more))

/-- No written value is the beginning of another one of the same type. The budget plays no part:
with one that covers both values, the same bytes are read once and leave one rest. -/
theorem eq_of_written_prefix {value other : Value} {bytes more : List UInt8}
    (hv : value.Addressable) (ho : other.Addressable)
    (h : form graph maxDepth ty value = .ok bytes)
    (hother : form graph maxDepth ty other = .ok (bytes ++ more)) : more = [] := by
  have hfirst := (Portable.form_restores hv h).succeeds more
    (claimed (written graph maxDepth ty value) + claimed (written graph maxDepth ty other))
    (Nat.le_add_right _ _)
  have hsecond := (Portable.form_restores ho hother).succeeds []
    (claimed (written graph maxDepth ty value) + claimed (written graph maxDepth ty other))
    (Nat.le_add_left _ _)
  rw [List.append_nil, hfirst, Except.ok.injEq, Prod.mk.injEq, Portable.Source.mk.injEq] at hsecond
  exact hsecond.2.1

/-- **Locality.** Bytes behind the input go into the rest, and change a failure only where the input
was too short. So no proper part of a written value is read, and no written value is the beginning
of another one of the same type. -/
theorem decode_locality (graph : Graph) (ty : Ty) (serializer : Serializer) :
    (∀ data more value rest, serializer.decode graph ty data = .ok (value, rest) →
      serializer.decode graph ty (data ++ more) = .ok (value, rest ++ more)) ∧
    (∀ data more e, serializer.decode graph ty data = .error e → ¬Starved e →
      serializer.decode graph ty (data ++ more) = .error e) ∧
    (∀ value bytes, value.Addressable → serializer.encode graph ty value = .ok bytes →
      (∀ part, part <+: bytes → part ≠ bytes →
        ∃ e, Starved e ∧ serializer.decode graph ty part = .error e) ∧
      (∀ other otherBytes, other.Addressable →
        serializer.encode graph ty other = .ok otherBytes → bytes <+: otherBytes →
        bytes = otherBytes)) := by
  refine ⟨fun data more value rest h ↦ decode_append h more,
    fun data more e h hmend ↦ decode_append_error h hmend more, fun value bytes hv h ↦ ⟨?_, ?_⟩⟩
  · exact fun part hpart hne ↦ decode_truncated hv h hpart hne
  · rintro other _ ho hother ⟨more, rfl⟩
    have hnil := eq_of_written_prefix hv ho (form_of_encode h) (form_of_encode hother)
    rw [hnil, List.append_nil]

/-- Two flags and a byte behind them, and the same flags with the last one cut off. -/
theorem decode_locality_flags :
    Serializer.fast.decode .builtins (.array .boolean) ([0x82, 0x01, 0x00] ++ [0x07])
      = .ok (.array [.boolean true, .boolean false], [0x07]) ∧
    Serializer.portable.decode .builtins (.array .boolean) ([0xc1] ++ [0x01])
      = .error (.invalidLength (-63)) ∧
    (∃ e, Starved e ∧
      Serializer.fast.decode .builtins (.array .boolean) [0x82, 0x01] = .error e) ∧
    ∀ other, other.Addressable →
      Serializer.fast.encode .builtins (.array .boolean) other ≠ .ok [0x82, 0x01, 0x00, 0x00] := by
  have hfast := decode_locality .builtins (.array .boolean) .fast
  have hportable := decode_locality .builtins (.array .boolean) .portable
  have hflags := hfast.2.2 (.array [.boolean true, .boolean false]) [0x82, 0x01, 0x00]
    (by decide) rfl
  have hread : Serializer.fast.decode .builtins (.array .boolean) [0x82, 0x01, 0x00]
      = .ok (.array [.boolean true, .boolean false], []) :=
    (decode_eq_portable fun _ ↦ by decide).trans rfl
  refine ⟨hfast.1 [0x82, 0x01, 0x00] [0x07] _ [] hread,
    hportable.2.1 [0xc1] [0x01] _ rfl (by rintro ⟨⟩),
    hflags.1 [0x82, 0x01] (by decide) (by decide), fun other ho hother ↦ ?_⟩
  exact absurd (hflags.2 other _ ho hother (by decide)) (by decide)

end

end Wire

end SchemaCodec
