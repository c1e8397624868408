import SchemaCodec.Proofs.Outcome
import SchemaCodec.Proofs.Parts
import SchemaCodec.Proofs.Wire.Number
import SchemaCodec.Wire.Fast
import SchemaCodec.Wire.Portable

/-!
# Reading the two ways

The fast reader follows the portable one. A cursor over the whole data is viewed as the bytes from
its position on, with the same budget; nothing has to be assumed of the position, since beyond the
end there are no bytes on either side.

## What is met on malformed input

`met` lists the numbers that the bytes spell where the portable reader looks for one, up to its end
or its first failure. An integer that is cut off is among them with what there is of it: the fast
reader may find it too large before it finds it unterminated. Where the next part begins is settled
by the reader itself, so `met` says nothing about the format of its own.
-/

namespace SchemaCodec.Wire

/-! ## The numbers met -/

/-- The number spelled at the front of a source, if any byte is left. -/
def spelledAt (role : Role) (source : Portable.Source) : List Number :=
  (Groups.spelled source.bytes).toList.map fun n ↦ ⟨role, n⟩

/-- The numbers met in reading a number of items. -/
def itemNumbers (read : Portable.Source → Except WireError (Value × Portable.Source))
    (numbers : Portable.Source → List Number) : (count : Nat) → Portable.Source → List Number
  | 0, _ => []
  | count + 1, source =>
    numbers source ++ after (read source) fun r ↦ itemNumbers read numbers count r.2

/-- The numbers met in reading a field for each entry. -/
def fieldNumbers (read : Ty → Portable.Source → Except WireError (Value × Portable.Source))
    (numbers : Ty → Portable.Source → List Number) :
    List (String × Ty) → Portable.Source → List Number
  | [], _ => []
  | entry :: entries, source =>
    numbers entry.2 source ++
      after (read entry.2 source) fun r ↦ fieldNumbers read numbers entries r.2

/-- The numbers that are met in reading a value of a type, up to a failure. -/
def met (graph : Graph) : (levels : Nat) → Ty → Portable.Source → List Number
  | 0, _, _ => []
  | levels + 1, ty, source =>
    match graph.resolve ty with
    | .integer => spelledAt .integer source
    | .string | .bytes => spelledAt .length source
    | .array element =>
      spelledAt .count source ++ after (Portable.readLength source) fun r ↦
        after (claim r.2.budget r.1) fun budget ↦
          itemNumbers (Portable.read graph levels element) (met graph levels element) r.1
            { r.2 with budget }
    | .record entries => fieldNumbers (Portable.read graph levels) (met graph levels) entries source
    | .choice entries =>
      spelledAt .index source ++ after (Portable.readInteger source) fun r ↦
        match Portable.entryAt? entries r.1 with
        | none => []
        | some entry => met graph levels entry.2 r.2
    | _ => []

/-- The numbers that are met in decoding, up to a failure. -/
def metIn (graph : Graph) (ty : Ty) (data : List UInt8) : List Number :=
  met graph maxDepth ty ⟨data, elementBudget data.length⟩

/-! ## Payloads -/

theorem splitOff_go (count : Nat) (bytes taken : List UInt8) :
    Portable.splitOff.go count bytes taken
      = if count ≤ bytes.length then some (taken.reverse ++ bytes.take count, bytes.drop count)
        else none := by
  induction count generalizing bytes taken with
  | zero => simp [Portable.splitOff.go]
  | succ count ih =>
    cases bytes with
    | nil => simp [Portable.splitOff.go]
    | cons byte rest => simp [Portable.splitOff.go, ih]

theorem take_eq (count : Nat) (source : Portable.Source) :
    Portable.take count source
      = if count ≤ source.bytes.length
        then .ok (source.bytes.take count, { source with bytes := source.bytes.drop count })
        else .error (.unexpectedEnd count source.bytes.length) := by
  rw [Portable.take, Portable.splitOff, splitOff_go]
  split <;> simp_all

/-! ## Cursors as sources -/

namespace Fast

/-- What a cursor has before it. -/
def sourceAt (data : Array UInt8) (cursor : Cursor) : Portable.Source :=
  ⟨data.toList.drop cursor.pos, cursor.budget⟩

/-- A result with a cursor, as a result with a source. -/
def view {α : Type} (data : Array UInt8) (r : α × Cursor) : α × Portable.Source :=
  (r.1, sourceAt data r.2)

theorem length_sourceAt (data : Array UInt8) (cursor : Cursor) :
    (sourceAt data cursor).bytes.length = data.size - cursor.pos := by
  rw [sourceAt, List.length_drop, Array.length_toList]

theorem take_follows (data : Array UInt8) (count : Nat) (cursor : Cursor) :
    Follows (view data) [] (take data count cursor)
      (Portable.take count (sourceAt data cursor)) := by
  rw [take_eq, length_sourceAt, take]
  by_cases h : count ≤ data.size - cursor.pos
  · rw [if_neg (by omega), if_pos h]
    have hbytes : (data.extract cursor.pos (cursor.pos + count)).toList
        = (data.toList.drop cursor.pos).take count := by
      rw [Array.toList_extract, List.extract_eq_take_drop, Nat.add_sub_cancel_left]
    have hok := Follows.ok (v := view data)
      ((data.extract cursor.pos (cursor.pos + count)).toList,
        ({ cursor with pos := cursor.pos + count } : Cursor))
    simpa [view, sourceAt, hbytes] using hok
  · rw [if_pos (by omega), if_neg h]
    exact .error _

theorem allInRange_spelledAt (role : Role) (source : Portable.Source) :
    Number.AllInRange (spelledAt role source)
      ↔ ∀ n ∈ Groups.spelled source.bytes, Groups.Word.InRange n := by
  rw [Number.AllInRange, spelledAt, List.forall_mem_map]
  simp only [Option.mem_toList, Option.mem_def]

theorem readWord_follows (role : Role) (data : Array UInt8) (cursor : Cursor) :
    Follows (fun r ↦ (r.1.toInt, sourceAt data r.2)) (spelledAt role (sourceAt data cursor))
      (readWord data cursor) (Portable.readInteger (sourceAt data cursor)) := by
  have hread : Follows (Groups.Word.viewAt data) (spelledAt role (sourceAt data cursor))
      (Groups.Word.readAt data cursor.pos) (Groups.read (sourceAt data cursor).bytes) := by
    have hrange := allInRange_spelledAt role (sourceAt data cursor)
    exact ⟨fun h ↦ Groups.Word.readAt_of_inRange rfl (hrange.mp h),
      fun h ↦ Groups.Word.readAt_of_not_inRange rfl (mt hrange.mpr h)⟩
  exact hread.bind_nil fun r ↦ .ok (r.1, { cursor with pos := r.2 })

theorem readCount_follows (role : Role) (data : Array UInt8) (cursor : Cursor) :
    Follows (view data) (spelledAt role (sourceAt data cursor)) (readCount data cursor)
      (Portable.readLength (sourceAt data cursor)) := by
  refine (readWord_follows role data cursor).bind_nil fun r ↦ ?_
  obtain ⟨word, next⟩ := r
  have hrange := Groups.Word.inRange_toInt word
  dsimp only
  by_cases h : word.toInt < 0
  · rw [if_pos (Int64.lt_iff_toInt_lt.mpr h), lengthOf, if_neg (by omega)]
    exact .error _
  · have hbound : word.toInt < lengthBound := lt_trans hrange.2 (by norm_num [lengthBound])
    rw [if_neg (mt Int64.lt_iff_toInt_lt.mp h), lengthOf, if_pos ⟨by omega, hbound⟩]
    exact .ok (v := view data) (word.toInt.toNat, next)

theorem readBlob_follows (data : Array UInt8) (cursor : Cursor) :
    Follows (view data) (spelledAt .length (sourceAt data cursor)) (readBlob data cursor)
      (Portable.readBlob (sourceAt data cursor)) :=
  (readCount_follows .length data cursor).bind_nil fun r ↦ take_follows data r.1 r.2

/-- Items behind an array, and in front of a list in reverse. -/
theorem readItems_follows {data : Array UInt8} {read : Cursor → Except WireError (Value × Cursor)}
    {unbounded : Portable.Source → Except WireError (Value × Portable.Source)}
    {numbers : Portable.Source → List Number}
    (h : ∀ cursor, Follows (view data) (numbers (sourceAt data cursor)) (read cursor)
      (unbounded (sourceAt data cursor)))
    (count : Nat) (items : Array Value) (cursor : Cursor) :
    Follows (fun r ↦ (r.1.toList, sourceAt data r.2))
      (itemNumbers unbounded numbers count (sourceAt data cursor))
      (readItems read count items cursor)
      (Portable.readItems unbounded count items.toList.reverse (sourceAt data cursor)) := by
  induction count generalizing items cursor with
  | zero =>
    rw [readItems, Portable.readItems, itemNumbers, List.reverse_reverse]
    exact .ok (v := fun r ↦ (r.1.toList, sourceAt data r.2)) (items, cursor)
  | succ count ih =>
    have hbind : readItems read (count + 1) items cursor
        = read cursor >>= fun r ↦ readItems read count (items.push r.1) r.2 := by
      rw [readItems]
      cases read cursor <;> rfl
    rw [hbind]
    refine (h cursor).bind fun r _ ↦ ?_
    have hnext := ih (items.push r.1) r.2
    rw [Array.toList_push, List.reverse_append] at hnext
    exact hnext

/-- One field per entry, as a loop and by recursion. -/
theorem readFields_follows {data : Array UInt8}
    {read : Ty → Cursor → Except WireError (Value × Cursor)}
    {unbounded : Ty → Portable.Source → Except WireError (Value × Portable.Source)}
    {numbers : Ty → Portable.Source → List Number}
    (h : ∀ ty cursor, Follows (view data) (numbers ty (sourceAt data cursor)) (read ty cursor)
      (unbounded ty (sourceAt data cursor)))
    (entries : List (String × Ty)) (fields : Members String Value) (cursor : Cursor) :
    Follows (view data) (fieldNumbers unbounded numbers entries (sourceAt data cursor))
      (entries.foldlM (fun (state : Members String Value × Cursor) entry ↦ do
        let (field, cursor) ← read entry.2 state.2
        .ok (Members.put entry.1 field state.1, cursor)) (fields, cursor))
      (Portable.readFields unbounded entries fields (sourceAt data cursor)) := by
  induction entries generalizing fields cursor with
  | nil => exact .ok (v := view data) (fields, cursor)
  | cons entry rest ih =>
    rw [List.foldlM_cons, bind_assoc, Portable.readFields, fieldNumbers]
    exact (h entry.2 cursor).bind fun r _ ↦ ih (Members.put entry.1 r.1 fields) r.2

theorem entryAt?_toInt (entries : List (String × Ty)) (word : Int64) :
    Portable.entryAt? entries word.toInt
      = if word < 0 then none else entries[word.toInt.toNat]? := by
  have hlt : word < 0 ↔ ¬0 ≤ word.toInt := by
    rw [Int64.lt_iff_toInt_lt, not_le]
    rfl
  rw [Portable.entryAt?]
  by_cases h : 0 ≤ word.toInt
  · rw [if_pos h, if_neg (mt hlt.mp (not_not.mpr h))]
  · rw [if_neg h, if_pos (hlt.mpr h)]

theorem read_follows (graph : Graph) (data : Array UInt8) (levels : Nat) (ty : Ty)
    (cursor : Cursor) :
    Follows (view data) (met graph levels ty (sourceAt data cursor))
      (read graph data levels ty cursor)
      (Portable.read graph levels ty (sourceAt data cursor)) := by
  induction levels generalizing ty cursor with
  | zero => exact .error _
  | succ levels ih =>
    unfold read Portable.read met
    cases graph.resolve ty with
    | ref key => exact .error _
    | none => exact .ok (v := view data) (Value.none, cursor)
    | boolean =>
      exact (take_follows data 1 cursor).bind_nil fun r ↦
        .ok (v := view data) (Value.boolean (r.1 != [0]), r.2)
    | integer =>
      exact (readWord_follows .integer data cursor).bind_nil fun r ↦
        .ok (v := view data) (Value.integer r.1.toInt, r.2)
    | float =>
      exact (take_follows data 8 cursor).bind_nil fun r ↦
        .ok (v := view data) (Value.float (Binary64.ofBytes r.1), r.2)
    | string =>
      refine (readBlob_follows data cursor).bind_nil fun r ↦ ?_
      dsimp only [view]
      cases Text.ofBytes? r.1 with
      | none => exact .error _
      | some s => exact .ok (v := view data) (Value.string s, r.2)
    | bytes =>
      exact (readBlob_follows data cursor).bind_nil fun r ↦
        .ok (v := view data) (Value.bytes r.1, r.2)
    | array element =>
      refine (readCount_follows .count data cursor).bind fun r _ ↦ ?_
      -- both make the same claim on the same budget
      have hclaim : Follows id [] (claim r.2.budget r.1) (claim r.2.budget r.1) := by
        cases claim r.2.budget r.1 with
        | error e => exact .error e
        | ok budget => exact .ok (v := id) budget
      refine hclaim.bind fun budget _ ↦ ?_
      have hitems := readItems_follows (fun cursor ↦ ih element cursor) r.1 #[]
        { r.2 with budget }
      exact hitems.bind_nil fun r ↦ .ok (v := view data) (Value.array r.1.toList, r.2)
    | record entries =>
      exact (readFields_follows ih entries [] cursor).bind_nil fun r ↦
        .ok (v := view data) (Value.record r.1, r.2)
    | choice entries =>
      refine (readWord_follows .index data cursor).bind fun r _ ↦ ?_
      dsimp only
      rw [entryAt?_toInt]
      generalize (if r.1 < 0 then none else entries[r.1.toInt.toNat]?) = entry
      cases entry with
      | none => exact .error _
      | some entry =>
        exact (ih entry.2 r.2).bind_nil fun s ↦ .ok (v := view data) (Value.choice entry.1 s.1, s.2)

/-- The fast serializer reads what the portable one does as long as the numbers it meets are in
range. -/
theorem decode_follows (graph : Graph) (ty : Ty) (data : List UInt8) :
    Follows id (metIn graph ty data) (decode graph ty data) (Portable.decode graph ty data) := by
  have h := read_follows graph data.toArray maxDepth ty ⟨0, elementBudget data.length⟩
  refine h.bind_nil fun r ↦ ?_
  exact .ok (v := id) (r.1, data.drop r.2.pos)

end Fast

/-! ## Outcomes

A reading that succeeds has taken from its source and added nothing. So where the source could stand
in memory, a length, a count or a position was in range, or there would not have been so many bytes,
elements or entries. -/

/-- No more is left of a source than a list in memory can hold. -/
def Portable.Source.Addressable (source : Portable.Source) : Prop :=
  source.bytes.length < 2 ^ 63 ∧ source.budget < 2 ^ 63

/-- Between two sources, if all that is read and all lists of entries could stand in memory, only
integers were met out of range. -/
def Bounded (p : Ty → Prop) (numbers : List Number) (source later : Portable.Source) : Prop :=
  (∀ part, p part → part.entries.length < 2 ^ 63) → source.Addressable →
    later.Addressable ∧ Number.SizesInRange numbers

/-- The failures of reading. Only the last depends on the graph. -/
inductive Fault (p : Ty → Prop) (graph : Graph) : WireError → Prop where
  | unexpectedEnd (needed available : Nat) : Fault p graph (.unexpectedEnd needed available)
  | unterminatedInteger : Fault p graph .unterminatedInteger
  | invalidLength (length : Int) : Fault p graph (.invalidLength length)
  | invalidChoiceIndex (index : Int) (count : Nat) : Fault p graph (.invalidChoiceIndex index count)
  | invalidUtf8 : Fault p graph .invalidUtf8
  | elementLimitExceeded (count available : Nat) :
    Fault p graph (.elementLimitExceeded count available)
  | tooDeep : Fault p graph (.depthLimitExceeded maxDepth)
  | unknownType {key : Key} (stuck : graph.Stuck p key) : Fault p graph (.unknownType key)

section Outcomes

variable {p : Ty → Prop} {graph : Graph}

namespace Bounded

variable {numbers more : List Number} {source later last : Portable.Source}

theorem nil (hbytes : later.bytes.length ≤ source.bytes.length)
    (hbudget : later.budget ≤ source.budget) : Bounded p [] source later := by
  intro _ hs
  refine ⟨⟨lt_of_le_of_lt hbytes hs.1, lt_of_le_of_lt hbudget hs.2⟩, ?_⟩
  intro n hn
  exact absurd hn List.not_mem_nil

theorem trans (h : Bounded p numbers source later) (hmore : Bounded p more later last) :
    Bounded p (numbers ++ more) source last := by
  intro hp hs
  obtain ⟨hlater, hnumbers⟩ := h hp hs
  obtain ⟨hlast, hrest⟩ := hmore hp hlater
  exact ⟨hlast, List.forall_mem_append.mpr ⟨hnumbers, hrest⟩⟩

/-- A number that is no integer is in range if it is a length in memory. -/
theorem spelledAt {role : Role} {n : Int} (h : Bounded p [] source later)
    (hn : Groups.spelled source.bytes = some n)
    (hrange : (∀ part, p part → part.entries.length < 2 ^ 63) → source.Addressable →
      role = .integer ∨ Groups.Word.InRange n) :
    Bounded p (Wire.spelledAt role source) source later := by
  intro hp hs
  refine ⟨(h hp hs).1, ?_⟩
  intro number hnumber
  rw [Wire.spelledAt, hn, Option.toList_some, List.map_singleton, List.mem_singleton] at hnumber
  subst hnumber
  exact hrange hp hs

end Bounded

namespace Portable

theorem take_ends (count : Nat) (source : Source) :
    Ends (fun r ↦ count ≤ source.bytes.length ∧ Bounded p [] source r.2) (Fault p graph)
      (take count source) := by
  rw [take_eq]
  split
  · next h =>
    refine .ok ⟨h, .nil ?_ le_rfl⟩
    rw [List.length_drop]
    exact Nat.sub_le _ _
  · exact .error (.unexpectedEnd _ _)

theorem readInteger_ends (source : Source) :
    Ends (fun r ↦ Groups.spelled source.bytes = some r.1 ∧
      r.2.bytes.length ≤ source.bytes.length ∧ r.2.budget = source.budget) (Fault p graph)
      (readInteger source) := by
  rw [readInteger]
  cases hread : Groups.read source.bytes with
  | error e =>
    refine .error ?_
    rcases Groups.read_error hread with rfl | rfl
    · exact .unexpectedEnd 1 0
    · exact .unterminatedInteger
  | ok r => exact .ok ⟨Groups.spelled_of_read hread, (Groups.length_of_read hread).le, rfl⟩

theorem readLength_ends (source : Source) :
    Ends (fun r ↦ Groups.spelled source.bytes = some (r.1 : Int) ∧
      r.2.bytes.length ≤ source.bytes.length ∧ r.2.budget = source.budget) (Fault p graph)
      (readLength source) := by
  refine (readInteger_ends source).bind fun r _ hr ↦ ?_
  dsimp only
  rw [lengthOf]
  split
  · next h =>
    refine .ok ⟨?_, hr.2⟩
    rw [Int.toNat_of_nonneg h.1]
    exact hr.1
  · exact .error (.invalidLength _)

theorem readBlob_ends (source : Source) :
    Ends (fun r ↦ Bounded p (spelledAt .length source) source r.2) (Fault p graph)
      (readBlob source) := by
  refine (readLength_ends source).bind fun r _ hr ↦ ?_
  obtain ⟨hspelled, hbytes, hbudget⟩ := hr
  refine (take_ends r.1 r.2).imp (fun t ht ↦ ?_) fun _ he ↦ he
  -- so many bytes were there, so their number is in range
  have hle : r.1 ≤ source.bytes.length := ht.1.trans hbytes
  refine (Bounded.trans (.nil hbytes hbudget.le) ht.2).spelledAt hspelled fun _ hs ↦ .inr ?_
  exact Groups.Word.inRange_natCast (lt_of_le_of_lt hle hs.1)

theorem claim_ends (budget count : Nat) :
    Ends (fun left ↦ count ≤ budget ∧ left ≤ budget) (Fault p graph) (claim budget count) := by
  rw [claim]
  split
  · exact .error (.elementLimitExceeded _ _)
  · exact .ok ⟨by omega, Nat.sub_le _ _⟩

theorem readItems_ends {read : Source → Except WireError (Value × Source)}
    {numbers : Source → List Number}
    (h : ∀ source, Ends (fun r ↦ Bounded p (numbers source) source r.2) (Fault p graph)
      (read source))
    (count : Nat) (items : List Value) (source : Source) :
    Ends (fun r ↦ Bounded p (itemNumbers read numbers count source) source r.2) (Fault p graph)
      (readItems read count items source) := by
  induction count generalizing items source with
  | zero => exact .ok (.nil le_rfl le_rfl)
  | succ count ih =>
    refine (h source).bind fun r hread hr ↦ ?_
    rw [itemNumbers, hread]
    exact (ih (r.1 :: items) r.2).imp (fun _ ht ↦ hr.trans ht) fun _ he ↦ he

theorem readFields_ends {read : Ty → Source → Except WireError (Value × Source)}
    {numbers : Ty → Source → List Number} {entries : List (String × Ty)}
    (h : ∀ entry ∈ entries, ∀ source,
      Ends (fun r ↦ Bounded p (numbers entry.2 source) source r.2) (Fault p graph)
        (read entry.2 source))
    (fields : Members String Value) (source : Source) :
    Ends (fun r ↦ Bounded p (fieldNumbers read numbers entries source) source r.2) (Fault p graph)
      (readFields read entries fields source) := by
  induction entries generalizing fields source with
  | nil => exact .ok (.nil le_rfl le_rfl)
  | cons entry rest ih =>
    refine (h entry List.mem_cons_self source).bind fun r hread hr ↦ ?_
    rw [fieldNumbers, hread]
    refine (ih (fun other hmem ↦ h other (List.mem_cons_of_mem _ hmem)) _ r.2).imp ?_ fun _ he ↦ he
    exact fun _ ht ↦ hr.trans ht

theorem mem_of_entryAt? {entries : List (String × Ty)} {index : Int} {entry : String × Ty}
    (h : entryAt? entries index = some entry) :
    entry ∈ entries ∧ 0 ≤ index ∧ index < entries.length := by
  rw [entryAt?] at h
  split at h
  · next hpos =>
    have hlt := (List.getElem?_eq_some_iff.mp h).1
    exact ⟨List.mem_of_getElem? h, hpos, by omega⟩
  · exact absurd h (by simp)

theorem read_ends {levels : Nat} {ty : Ty} {source : Source} (hty : graph.Everywhere p ty) :
    Ends (fun r ↦ Bounded p (met graph levels ty source) source r.2) (Fault p graph)
      (read graph levels ty source) := by
  induction levels generalizing ty source with
  | zero => exact .error .tooDeep
  | succ levels ih =>
    have hself := hty.resolve.self
    unfold read met
    cases hshape : graph.resolve ty with
    | ref key => exact .error (.unknownType ⟨ty, hty, hshape⟩)
    | none => exact .ok (.nil le_rfl le_rfl)
    | boolean => exact (take_ends 1 source).bind fun _ _ hr ↦ .ok hr.2
    | integer =>
      refine (readInteger_ends source).bind fun r _ hr ↦ .ok ?_
      exact (Bounded.nil hr.2.1 hr.2.2.le).spelledAt hr.1 fun _ _ ↦ .inl rfl
    | float => exact (take_ends 8 source).bind fun _ _ hr ↦ .ok hr.2
    | string =>
      refine (readBlob_ends source).bind fun r _ hr ↦ ?_
      dsimp only
      cases Text.ofBytes? r.1 with
      | none => exact .error .invalidUtf8
      | some s => exact .ok hr
    | bytes => exact (readBlob_ends source).bind fun _ _ hr ↦ .ok hr
    | array element =>
      refine (readLength_ends source).bind fun r hlength hr ↦ ?_
      refine (claim_ends r.2.budget r.1).bind fun budget hclaim hb ↦ ?_
      -- so many elements were left in the budget, so their number is in range
      have hcount : Bounded p (spelledAt .count source) source { r.2 with budget } := by
        have htaken : Bounded p [] source { r.2 with budget } :=
          .nil hr.2.1 (hb.2.trans hr.2.2.le)
        refine htaken.spelledAt hr.1 fun _ hs ↦ .inr ?_
        exact Groups.Word.inRange_natCast (lt_of_le_of_lt (hb.1.trans hr.2.2.le) hs.2)
      have hread : ∀ source, Ends (fun r ↦ Bounded p (met graph levels element source) source r.2)
          (Fault p graph) (read graph levels element source) := fun _ ↦ ih (hty.element hshape)
      have hitems := readItems_ends hread r.1 [] { r.2 with budget }
      simp only [hlength, hclaim, after]
      exact hitems.bind fun _ _ ht ↦ .ok (hcount.trans ht)
    | record entries =>
      have hread : ∀ entry ∈ entries, ∀ source,
          Ends (fun r ↦ Bounded p (met graph levels entry.2 source) source r.2) (Fault p graph)
            (read graph levels entry.2 source) := fun entry hmem _ ↦ ih (hty.entry hshape hmem)
      have hfields := readFields_ends hread [] source
      exact hfields.bind fun _ _ ht ↦ .ok ht
    | choice entries =>
      rw [hshape] at hself
      refine (readInteger_ends source).bind fun r hread hr ↦ ?_
      simp only [hread, after]
      cases hat : entryAt? entries r.1 with
      | none => exact .error (.invalidChoiceIndex _ _)
      | some entry =>
        obtain ⟨hmem, hpos, hlt⟩ := mem_of_entryAt? hat
        -- there is an entry at the position, so the position is in range
        have hindex : Bounded p (spelledAt .index source) source r.2 := by
          refine (Bounded.nil hr.2.1 hr.2.2.le).spelledAt hr.1 fun hp _ ↦ .inr ?_
          have hentries : entries.length < 2 ^ 63 := hp _ hself
          exact ⟨by omega, by omega⟩
        exact (ih (hty.entry hshape hmem)).bind fun _ _ ht ↦ .ok (hindex.trans ht)

end Portable

end Outcomes

end SchemaCodec.Wire
