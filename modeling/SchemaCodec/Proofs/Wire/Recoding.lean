import SchemaCodec.Proofs.Groups.Shortest
import SchemaCodec.Proofs.Wire.Restoring
import SchemaCodec.Proofs.Wire.RoundTrip

/-!
# Writing what was read

A value that was read can be written again as the same type, with at most as many bytes as it was
read from. A reader is more liberal than a writer in two places only: an integer may stand behind
groups that repeat its sign, and any byte but zero is taken for true. The first makes the written
form shorter. So bytes of the same number differ from those that were read only where a flag was
read.

## Why names must be distinct

A record that gives a name twice is read as if the fields were different ones, and the last of them
is kept. It is then written for both, and need not be of the type of the first.
-/

namespace SchemaCodec

/-! ## Values with exactly the declared fields -/

namespace Value

mutual

/-- A value is of a type whose references have been chased, and every record in it has exactly the
fields that are declared, in their order. -/
def ExactShaped (graph : Graph) : (shape : Ty) → Value → Prop
  | .none, none => True
  | .boolean, boolean _ => True
  | .integer, integer _ => True
  | .float, float _ => True
  | .string, string _ => True
  | .bytes, bytes _ => True
  | .array element, array items => ExactItems graph element items
  | .record entries, record fields => ExactFields graph entries fields
  | .choice entries, choice variant payload =>
    match Members.get? variant entries with
    | some ty => ExactShaped graph (graph.resolve ty) payload
    | Option.none => False
  | _, _ => False

def ExactItems (graph : Graph) (element : Ty) : List Value → Prop
  | [] => True
  | item :: rest =>
    ExactShaped graph (graph.resolve element) item ∧ ExactItems graph element rest

/-- One field for each entry, of the same name and exact. -/
def ExactFields (graph : Graph) : List (String × Ty) → List (String × Value) → Prop
  | [], [] => True
  | (name, ty) :: entries, (key, value) :: fields =>
    key = name ∧ ExactShaped graph (graph.resolve ty) value ∧ ExactFields graph entries fields
  | _, _ => False

end

/-- A value is of a type, and every record in it has exactly the fields that are declared, in their
order. -/
def Exact (graph : Graph) (ty : Ty) (value : Value) : Prop :=
  ExactShaped graph (graph.resolve ty) value

section

variable {graph : Graph} {ty : Ty}

theorem exact_array {element : Ty} {items : List Value} (h : graph.resolve ty = .array element)
    (hitems : ∀ item ∈ items, item.Exact graph element) : (array items).Exact graph ty := by
  rw [Exact, h, ExactShaped]
  induction items with
  | nil => trivial
  | cons item rest ih =>
    exact ⟨hitems item List.mem_cons_self,
      ih fun other hmem ↦ hitems other (List.mem_cons_of_mem _ hmem)⟩

theorem exact_choice {entries : List (String × Ty)} {variant : String} {payloadTy : Ty}
    {payload : Value} (h : graph.resolve ty = .choice entries)
    (hget : Members.get? variant entries = some payloadTy)
    (hpayload : payload.Exact graph payloadTy) : (choice variant payload).Exact graph ty := by
  rw [Exact, h, ExactShaped, hget]
  exact hpayload

end

end Value

/-! ## Members of distinct names -/

namespace Members

variable {κ α : Type} [DecidableEq κ]

theorem get?_append_of_not_mem {key : κ} {before after : Members κ α} (h : key ∉ before.keys) :
    get? key (before ++ after) = get? key after := by
  induction before with
  | nil => rfl
  | cons entry rest ih =>
    rw [keys, List.map_cons, List.mem_cons, not_or] at h
    rw [List.cons_append, get?, if_neg (Ne.symm h.1), ih h.2]

/-- Where no key is given twice, what stands at a position is found under its key. -/
theorem get?_of_getElem? {ms : Members κ α} {index : Nat} {key : κ} {a : α}
    (h : ms.keys.Nodup) (hat : ms[index]? = some (key, a)) :
    get? key ms = some a ∧ position? key ms = some index := by
  induction ms generalizing index with
  | nil => cases hat
  | cons entry rest ih =>
    rw [keys, List.map_cons, List.nodup_cons] at h
    cases index with
    | zero =>
      rw [List.getElem?_cons_zero, Option.some_inj] at hat
      rw [hat, get?, position?, if_pos rfl, if_pos rfl]
      exact ⟨rfl, rfl⟩
    | succ index =>
      rw [List.getElem?_cons_succ] at hat
      have hne : entry.1 ≠ key := by
        rintro rfl
        exact h.1 (List.mem_map.mpr ⟨_, List.mem_of_getElem? hat, rfl⟩)
      obtain ⟨hget, hpos⟩ := ih h.2 hat
      rw [get?, position?, if_neg hne, if_neg hne, hget, hpos]
      exact ⟨rfl, rfl⟩

end Members

namespace Wire

/-! ## Where flags are read -/

/-- The places noted after a step, which are none if the step fails. -/
def thereafter {β : Type} (y : Except WireError β) (places : β → List Nat) : List Nat :=
  match y with
  | .ok b => places b
  | .error _ => []

def itemFlags (read : Portable.Source → Except WireError (Value × Portable.Source))
    (flags : Portable.Source → List Nat) : (count : Nat) → Portable.Source → List Nat
  | 0, _ => []
  | count + 1, source =>
    flags source ++ thereafter (read source) fun r ↦ itemFlags read flags count r.2

/-- The places of flags in reading a field for each entry. -/
def fieldFlags (read : Ty → Portable.Source → Except WireError (Value × Portable.Source))
    (flags : Ty → Portable.Source → List Nat) : List (String × Ty) → Portable.Source → List Nat
  | [], _ => []
  | entry :: entries, source =>
    flags entry.2 source ++
      thereafter (read entry.2 source) fun r ↦ fieldFlags read flags entries r.2

/-- Where bytes are taken for flags in reading a value of a type. A place is told by the number of
bytes from there to the end of the input. -/
def flags (graph : Graph) : (levels : Nat) → Ty → Portable.Source → List Nat
  | 0, _, _ => []
  | levels + 1, ty, source =>
    match graph.resolve ty with
    | .boolean => [source.bytes.length]
    | .array element =>
      thereafter (Portable.readClaim source) fun r ↦
        itemFlags (Portable.read graph levels element) (flags graph levels element) r.1 r.2
    | .record entries => fieldFlags (Portable.read graph levels) (flags graph levels) entries source
    | .choice entries =>
      thereafter (Portable.readInteger source) fun r ↦
        match Portable.entryAt? entries r.1 with
        | none => []
        | some entry => flags graph levels entry.2 r.2
    | _ => []

/-- The positions in the data at which bytes are taken for flags. -/
def flagsIn (graph : Graph) (ty : Ty) (data : List UInt8) : List Nat :=
  (flags graph maxDepth ty ⟨data, elementBudget data.length⟩).map (data.length - ·)

/-! ## Recoding -/

/-- Between two sources stands what `bytes` can replace: they are no longer, they are the same but
for flags if they are as long, and the numbers in them were met. -/
structure Recodes (numbers : List Number) (flags : List Nat) (source later : Portable.Source)
    (bytes : List UInt8) (put : List Number) : Prop where
  suffix : later.bytes <:+ source.bytes
  length_le : bytes.length + later.bytes.length ≤ source.bytes.length
  agrees : bytes.length + later.bytes.length = source.bytes.length →
    ∀ i < bytes.length, bytes[i]? = source.bytes[i]? ∨ source.bytes.length - i ∈ flags
  meets : put ⊆ numbers

namespace Recodes

variable {numbers more put rest : List Number} {flags others : List Nat}
  {source mid later : Portable.Source} {bytes tail : List UInt8}

theorem of_eq (h : source.bytes = bytes ++ later.bytes) (hmeets : put ⊆ numbers) :
    Recodes numbers flags source later bytes put := by
  refine ⟨⟨bytes, h.symm⟩, ?_, fun _ i hi ↦ .inl ?_, hmeets⟩
  · rw [h, List.length_append]
  · rw [h, List.getElem?_append_left hi]

theorem refl (source : Portable.Source) : Recodes [] [] source source [] [] :=
  of_eq rfl (List.Subset.refl _)

/-- Behind further bytes, which are dropped. -/
theorem of_behind {dropped : List UInt8} (h : source.bytes = dropped ++ bytes ++ later.bytes)
    (hmeets : put ⊆ numbers) : Recodes numbers flags source later bytes put := by
  cases dropped with
  | nil => exact of_eq h hmeets
  | cons byte dropped =>
    have hlength := congrArg List.length h
    simp only [List.length_append, List.length_cons] at hlength
    exact ⟨⟨_, h.symm⟩, by omega, fun heq ↦ by omega, hmeets⟩

/-- A byte that is taken for a flag can be replaced by any other. -/
theorem flag {byte : UInt8} (h : source.bytes = byte :: later.bytes) (new : UInt8) :
    Recodes [] [source.bytes.length] source later [new] [] := by
  refine ⟨⟨[byte], h.symm⟩, ?_, fun _ i hi ↦ .inr ?_, List.Subset.refl _⟩
  · exact (congrArg List.length h).trans (Nat.add_comm _ _) |>.ge
  · rw [Nat.lt_one_iff.mp hi]
    exact List.mem_singleton.mpr rfl

theorem trans (h : Recodes numbers flags source mid bytes put)
    (hmore : Recodes more others mid later tail rest) :
    Recodes (numbers ++ more) (flags ++ others) source later (bytes ++ tail) (put ++ rest) := by
  have hfirst := h.length_le
  have hsecond := hmore.length_le
  refine ⟨hmore.suffix.trans h.suffix, ?_, fun heq i hi ↦ ?_, ?_⟩
  · rw [List.length_append]
    omega
  · rw [List.length_append] at heq hi
    by_cases hlt : i < bytes.length
    · rw [List.getElem?_append_left hlt]
      exact (h.agrees (by omega) i hlt).imp_right (List.mem_append_left _)
    · -- the second part begins where the first one ends
      obtain ⟨consumed, hconsumed⟩ := h.suffix
      have hlength := congrArg List.length hconsumed
      rw [List.length_append] at hlength
      have hskip : source.bytes[i]? = mid.bytes[i - bytes.length]? := by
        rw [← hconsumed, List.getElem?_append_right (by omega)]
        congr 1
        omega
      rw [List.getElem?_append_right (by omega), hskip]
      refine (hmore.agrees (by omega) _ (by omega)).imp_right fun hmem ↦ ?_
      have hplace : mid.bytes.length - (i - bytes.length) = source.bytes.length - i := by omega
      exact List.mem_append_right _ (hplace ▸ hmem)
  · intro n hn
    rcases List.mem_append.mp hn with hn | hn
    · exact List.mem_append_left _ (h.meets hn)
    · exact List.mem_append_right _ (hmore.meets hn)

end Recodes

namespace Portable

/-! ## Numbers and payloads -/

theorem take_ok {count : Nat} {source later : Source} {payload : List UInt8}
    (h : take count source = .ok (payload, later)) :
    source.bytes = payload ++ later.bytes ∧ payload.length = count := by
  rw [take_eq] at h
  split at h
  · next hle =>
    cases h
    exact ⟨(List.take_append_drop count source.bytes).symm, List.length_take_of_le hle⟩
  · cases h

theorem readInteger_recodes (role : Role) {source later : Source} {n : Int}
    (h : readInteger source = .ok (n, later)) :
    Recodes (spelledAt role source) [] source later (Groups.write n) [⟨role, n⟩] := by
  obtain ⟨⟨m, rest⟩, hread, hlater⟩ := bind_ok h
  cases hlater
  obtain ⟨k, hbytes⟩ := Groups.eq_write_of_read hread
  refine .of_behind hbytes ?_
  rw [spelledAt, Groups.spelled_of_read hread]
  exact List.Subset.refl _

theorem lengthOf_ok {n : Int} {length : Nat} (h : lengthOf n = .ok length) : n = length := by
  rw [lengthOf] at h
  split at h
  · next hn =>
    cases h
    exact (Int.toNat_of_nonneg hn.1).symm
  · cases h

theorem readLength_recodes (role : Role) {source later : Source} {length : Nat}
    (h : readLength source = .ok (length, later)) :
    Recodes (spelledAt role source) [] source later (Groups.write length) [⟨role, length⟩] := by
  obtain ⟨⟨n, rest⟩, hread, hlength⟩ := bind_ok h
  obtain ⟨found, hfound, hlater⟩ := bind_ok hlength
  cases hlater
  rw [← lengthOf_ok hfound]
  exact readInteger_recodes role hread

theorem readBlob_recodes {source later : Source} {payload : List UInt8}
    (h : readBlob source = .ok (payload, later)) :
    Recodes (spelledAt .length source) [] source later (blob payload)
      [⟨.length, payload.length⟩] := by
  obtain ⟨⟨length, mid⟩, hlength, htake⟩ := bind_ok h
  obtain ⟨hbytes, hcount⟩ := take_ok htake
  have hfirst := readLength_recodes .length hlength
  have hsecond : Recodes [] [] mid later payload [] := .of_eq hbytes (List.Subset.refl _)
  have hboth := hfirst.trans hsecond
  rw [List.append_nil, List.append_nil, List.append_nil, ← hcount] at hboth
  exact hboth

theorem readClaim_recodes {source later : Source} {count : Nat}
    (h : readClaim source = .ok (count, later)) :
    Recodes (spelledAt .count source) [] source later (Groups.write count) [⟨.count, count⟩] := by
  obtain ⟨⟨length, mid⟩, hlength, hclaim⟩ := bind_ok h
  obtain ⟨budget, -, hlater⟩ := bind_ok hclaim
  cases hlater
  -- a claim leaves the bytes as they are
  have hread := readLength_recodes .count hlength
  exact ⟨hread.suffix, hread.length_le, hread.agrees, hread.meets⟩

/-! ## Arrays and records -/

theorem readItems_recodes {read : Source → Except WireError (Value × Source)}
    {numbers : Source → List Number} {flags : Source → List Nat}
    {part : Value → Except WireError (List UInt8)} {put : Value → List Number} {good : Value → Prop}
    (h : ∀ {source value later}, read source = .ok (value, later) →
      ∃ bytes, part value = .ok bytes ∧ good value ∧
        Recodes (numbers source) (flags source) source later bytes (put value))
    {count : Nat} {before items : List Value} {source later : Source}
    (hread : readItems read count before source = .ok (items, later)) :
    ∃ found bytes, items = before.reverse ++ found ∧ found.length = count ∧
      (∀ item ∈ found, good item) ∧ join part found = .ok bytes ∧
      Recodes (itemNumbers read numbers count source) (itemFlags read flags count source)
        source later bytes (numbersOver part put found) := by
  induction count generalizing before source with
  | zero =>
    cases hread
    exact ⟨[], [], (List.append_nil _).symm, rfl, fun _ hmem ↦ absurd hmem List.not_mem_nil, rfl,
      .refl _⟩
  | succ count ih =>
    obtain ⟨⟨item, mid⟩, hitem, hrest⟩ := bind_ok hread
    obtain ⟨first, hfirst, hgood, hrecodes⟩ := h hitem
    obtain ⟨found, others, rfl, rfl, hall, hothers, hmore⟩ := ih hrest
    refine ⟨item :: found, first ++ others, ?_, rfl, List.forall_mem_cons.mpr ⟨hgood, hall⟩, ?_, ?_⟩
    · rw [List.reverse_cons, List.append_assoc, List.singleton_append]
    · rw [join, bind_of_ok hfirst, hothers]
      rfl
    · rw [itemNumbers, itemFlags, hitem, numbersOver, hfirst]
      exact hrecodes.trans hmore

theorem readFields_recodes {graph : Graph} {levels : Nat}
    {numbers : Ty → Source → List Number} {flags : Ty → Source → List Nat}
    {entries : List (String × Ty)}
    (h : ∀ entry ∈ entries, ∀ {source value later},
      read graph levels entry.2 source = .ok (value, later) →
      ∃ bytes, form graph levels entry.2 value = .ok bytes ∧ value.Exact graph entry.2 ∧
        Recodes (numbers entry.2 source) (flags entry.2 source) source later bytes
          (written graph levels entry.2 value))
    {before all : Members String Value} {source later : Source}
    (hnames : (before.keys ++ entries.map Prod.fst).Nodup)
    (hread : readFields (read graph levels) entries before source = .ok (all, later)) :
    ∃ found bytes, all = before ++ found ∧ Value.ExactFields graph entries found ∧
      join (fun entry ↦ fieldOf all entry >>= form graph levels entry.2) entries = .ok bytes ∧
      Recodes (fieldNumbers (read graph levels) numbers entries source)
        (fieldFlags (read graph levels) flags entries source) source later bytes
        (numbersOver (fun entry ↦ fieldOf all entry >>= form graph levels entry.2)
          (fun entry ↦ after (fieldOf all entry) (written graph levels entry.2)) entries) := by
  induction entries generalizing before source with
  | nil =>
    cases hread
    exact ⟨[], [], (List.append_nil _).symm, trivial, rfl, .refl _⟩
  | cons entry rest ih =>
    obtain ⟨⟨field, mid⟩, hfield, hrest⟩ := bind_ok hread
    obtain ⟨first, hfirst, hexact, hrecodes⟩ := h entry List.mem_cons_self hfield
    -- the name is new, so the field goes to the end
    have hnew : entry.1 ∉ before.keys := by
      intro hmem
      exact (List.nodup_append.mp hnames).2.2 _ hmem _ List.mem_cons_self rfl
    dsimp only at hrest
    rw [Members.put_of_not_mem field hnew] at hrest
    have hkeys : (Members.keys (before ++ [(entry.1, field)]) ++ rest.map Prod.fst).Nodup := by
      rw [Members.keys, List.map_append, List.append_assoc]
      exact hnames
    obtain ⟨found, others, rfl, hfound, hothers, hmore⟩ :=
      ih (fun other hmem ↦ h other (List.mem_cons_of_mem _ hmem)) hkeys hrest
    have hall : before ++ [(entry.1, field)] ++ found = before ++ (entry.1, field) :: found :=
      List.append_assoc _ _ _
    have hget : fieldOf (before ++ [(entry.1, field)] ++ found) entry = .ok field := by
      rw [fieldOf, hall, Members.get?_append_of_not_mem hnew, Members.get?, if_pos rfl]
    refine ⟨(entry.1, field) :: found, first ++ others, hall, ⟨rfl, hexact, hfound⟩, ?_, ?_⟩
    · rw [join, bind_of_ok hget, bind_of_ok hfirst, hothers]
      rfl
    · rw [fieldNumbers, fieldFlags, hfield, numbersOver, hget, bind_of_ok rfl, hfirst]
      exact hrecodes.trans hmore

/-! ## Values -/

/-- The bytes that stand for a flag are one byte, and the flag is written as one byte. -/
theorem take_flag {source later : Source} {payload : List UInt8}
    (h : take 1 source = .ok (payload, later)) (b : Bool) :
    Recodes [] [source.bytes.length] source later [if b then 1 else 0] [] := by
  obtain ⟨hbytes, hcount⟩ := take_ok h
  obtain ⟨byte, rfl⟩ := List.length_eq_one_iff.mp hcount
  exact .flag hbytes _

/-- A value that was read is exact, and what it is written as takes the place of what was read. -/
def Recoded (graph : Graph) (levels : Nat) (ty : Ty) (source later : Source) (value : Value) :
    Prop :=
  ∃ bytes, form graph levels ty value = .ok bytes ∧ value.Exact graph ty ∧
    Recodes (met graph levels ty source) (flags graph levels ty source) source later bytes
      (written graph levels ty value)

section

variable {graph : Graph} {levels : Nat} {ty : Ty} {source later : Source} {value : Value}

theorem array_recoded {element : Ty} (hshape : graph.resolve ty = .array element)
    (hitem : ∀ {source later value}, read graph levels element source = .ok (value, later) →
      Recoded graph levels element source later value)
    (h : read graph (levels + 1) ty source = .ok (value, later)) :
    Recoded graph (levels + 1) ty source later value := by
  unfold read at h
  rw [hshape] at h
  -- the count is read and claimed in one step
  have hsplit : (readClaim source >>= fun r ↦
      readItems (read graph levels element) r.1 [] r.2 >>= fun r ↦
        .ok (Value.array r.1, r.2)) = .ok (value, later) := by
    rw [readClaim_bind]
    exact h
  obtain ⟨⟨count, mid⟩, hclaim, hrest⟩ := bind_ok hsplit
  obtain ⟨⟨items, last⟩, hitems, hvalue⟩ := bind_ok hrest
  cases hvalue
  obtain ⟨_, others, rfl, rfl, hall, hothers, hmore⟩ := readItems_recodes hitem hitems
  have hboth := (readClaim_recodes hclaim).trans hmore
  have hmet := after_readClaim source fun r ↦
    itemNumbers (read graph levels element) (met graph levels element) r.1 r.2
  rw [hclaim] at hmet
  unfold Recoded form met flags written
  simp only [hshape]
  refine ⟨Groups.write items.length ++ others, ?_, Value.exact_array hshape hall, ?_⟩
  · exact congrArg (Except.map _) hothers
  · rw [← hmet, hclaim]
    exact hboth

theorem record_recoded {entries : List (String × Ty)} (hshape : graph.resolve ty = .record entries)
    (hnames : (Members.keys entries).Nodup)
    (hfield : ∀ entry ∈ entries, ∀ {source later value},
      read graph levels entry.2 source = .ok (value, later) →
        Recoded graph levels entry.2 source later value)
    (h : read graph (levels + 1) ty source = .ok (value, later)) :
    Recoded graph (levels + 1) ty source later value := by
  unfold read at h
  rw [hshape] at h
  obtain ⟨⟨fields, last⟩, hfields, hvalue⟩ := bind_ok h
  cases hvalue
  have hnone : (Members.keys ([] : Members String Value) ++ entries.map Prod.fst).Nodup := hnames
  obtain ⟨found, bytes, rfl, hexact, hbytes, hrecodes⟩ :=
    readFields_recodes (fun entry hmem _ _ _ ↦ hfield entry hmem) hnone hfields
  unfold Recoded form met flags written Value.Exact
  simp only [hshape]
  exact ⟨bytes, hbytes, hexact, hrecodes⟩

theorem choice_recoded {entries : List (String × Ty)} (hshape : graph.resolve ty = .choice entries)
    (hnames : (Members.keys entries).Nodup)
    (hpayload : ∀ entry ∈ entries, ∀ {source later value},
      read graph levels entry.2 source = .ok (value, later) →
        Recoded graph levels entry.2 source later value)
    (h : read graph (levels + 1) ty source = .ok (value, later)) :
    Recoded graph (levels + 1) ty source later value := by
  unfold read at h
  rw [hshape] at h
  obtain ⟨⟨index, mid⟩, hindex, hrest⟩ := bind_ok h
  dsimp only at hrest
  cases hentry : entryAt? entries index with
  | none =>
    rw [hentry] at hrest
    cases hrest
  | some entry =>
    rw [hentry] at hrest
    obtain ⟨⟨payload, last⟩, hread, hvalue⟩ := bind_ok hrest
    cases hvalue
    obtain ⟨hmem, hpos, -⟩ := mem_of_entryAt? hentry
    obtain ⟨others, hothers, hexact, hmore⟩ := hpayload entry hmem hread
    have hat : entries[index.toNat]? = some entry := by
      rw [entryAt?, if_pos hpos] at hentry
      exact hentry
    -- no name is given twice, so the variant is found where it was read
    obtain ⟨hget, hposition⟩ := Members.get?_of_getElem? hnames hat
    have hboth := (readInteger_recodes .index hindex).trans hmore
    unfold Recoded form met flags written
    simp only [hshape, hposition, hget]
    refine ⟨Groups.write index.toNat ++ others, ?_, Value.exact_choice hshape hget hexact, ?_⟩
    · rw [hothers]
      rfl
    · simp only [hindex, after, thereafter, hentry]
      rw [Int.toNat_of_nonneg hpos]
      exact hboth

end

theorem read_recodes {graph : Graph} {levels : Nat} {ty : Ty} {source later : Source}
    {value : Value} (hty : graph.Everywhere (fun part ↦ (part.entries.map Prod.fst).Nodup) ty)
    (h : read graph levels ty source = .ok (value, later)) :
    Recoded graph levels ty source later value := by
  induction levels generalizing ty source later value with
  | zero => cases h
  | succ levels ih =>
    have hself := hty.resolve.self
    have hread := h
    unfold read at h
    unfold Recoded form met flags written
    cases hshape : graph.resolve ty with
    | ref key =>
      rw [hshape] at h
      cases h
    | none =>
      rw [hshape] at h
      cases h
      exact ⟨[], rfl, by rw [Value.Exact, hshape]; trivial, .refl source⟩
    | boolean =>
      rw [hshape] at h
      obtain ⟨⟨payload, rest⟩, htake, hvalue⟩ := bind_ok h
      cases hvalue
      exact ⟨_, rfl, by rw [Value.Exact, hshape]; trivial, take_flag htake _⟩
    | integer =>
      rw [hshape] at h
      obtain ⟨⟨n, rest⟩, hread, hvalue⟩ := bind_ok h
      cases hvalue
      exact ⟨_, rfl, by rw [Value.Exact, hshape]; trivial, readInteger_recodes .integer hread⟩
    | float =>
      rw [hshape] at h
      obtain ⟨⟨payload, rest⟩, htake, hvalue⟩ := bind_ok h
      cases hvalue
      obtain ⟨hbytes, hcount⟩ := take_ok htake
      rw [← Binary64.toBytes_ofBytes hcount] at hbytes
      exact ⟨_, rfl, by rw [Value.Exact, hshape]; trivial, .of_eq hbytes (List.Subset.refl _)⟩
    | string =>
      rw [hshape] at h
      obtain ⟨⟨payload, rest⟩, hread, hvalue⟩ := bind_ok h
      dsimp only at hvalue
      cases htext : Text.ofBytes? payload with
      | none =>
        rw [htext] at hvalue
        cases hvalue
      | some s =>
        rw [htext] at hvalue
        cases hvalue
        rw [← Text.toBytes_of_ofBytes? htext] at hread
        exact ⟨_, rfl, by rw [Value.Exact, hshape]; trivial, readBlob_recodes hread⟩
    | bytes =>
      rw [hshape] at h
      obtain ⟨⟨payload, rest⟩, hread, hvalue⟩ := bind_ok h
      cases hvalue
      exact ⟨_, rfl, by rw [Value.Exact, hshape]; trivial, readBlob_recodes hread⟩
    | array element =>
      have hrecoded := array_recoded hshape (fun hitem ↦ ih (hty.element hshape) hitem) hread
      unfold Recoded form met flags written at hrecoded
      simpa only [hshape] using hrecoded
    | record entries =>
      rw [hshape] at hself
      have hrecoded := record_recoded hshape hself
        (fun entry hmem _ _ _ hfield ↦ ih (hty.entry hshape hmem) hfield) hread
      unfold Recoded form met flags written at hrecoded
      simpa only [hshape] using hrecoded
    | choice entries =>
      rw [hshape] at hself
      have hrecoded := choice_recoded hshape hself
        (fun entry hmem _ _ _ hpayload ↦ ih (hty.entry hshape hmem) hpayload) hread
      unfold Recoded form met flags written at hrecoded
      simpa only [hshape] using hrecoded

end Portable

section

variable {graph : Graph} {ty : Ty} {serializer : Serializer}

/-- **Recoding.** What was read is exact and can be written again, in no more bytes than were read.
Where it takes as many, the bytes are those that were read, but for flags. -/
theorem encode_decode {data rest : List UInt8} {value : Value} (hgraph : graph.DistinctNames)
    (hty : ty.DistinctNames) (h : serializer.decode graph ty data = .ok (value, rest)) :
    ∃ consumed bytes, data = consumed ++ rest ∧ value.Exact graph ty ∧
      serializer.encode graph ty value = .ok bytes ∧ bytes.length ≤ consumed.length ∧
      (bytes.length = consumed.length →
        ∀ i, bytes[i]? ≠ consumed[i]? → i ∈ flagsIn graph ty data) := by
  have hrange := allInRange_of_decode h
  rw [decode_eq_portable hrange] at h
  obtain ⟨⟨_, later⟩, hread, hvalue⟩ := bind_ok h
  cases hvalue
  obtain ⟨bytes, hform, hexact, hrecodes⟩ :=
    Portable.read_recodes (hgraph.everywhere hty) hread
  obtain ⟨consumed, rfl⟩ := hrecodes.suffix
  have hlength := hrecodes.length_le
  rw [List.length_append] at hlength
  -- the numbers written are among those that were met, so they are in range too
  have hencode : serializer.encode graph ty value = .ok bytes :=
    encode_of_form hform fun hfast n hn ↦ hrange hfast n (hrecodes.meets hn)
  refine ⟨consumed, bytes, rfl, hexact, hencode, by omega, fun heq i hne ↦ ?_⟩
  have hi : i < bytes.length := by
    by_contra hge
    rw [List.getElem?_eq_none (by omega), List.getElem?_eq_none (by omega)] at hne
    exact hne rfl
  have hsame := hrecodes.agrees (by rw [List.length_append, heq]) i hi
  rw [List.getElem?_append_left (by omega)] at hsame
  have hplace := hsame.resolve_left hne
  exact List.mem_map.mpr ⟨_, hplace, Nat.sub_sub_self (by rw [List.length_append]; omega)⟩

/-- A count behind a group that repeats its sign, and a flag that is neither zero nor one. -/
theorem encode_decode_flags :
    ∃ consumed bytes, [0x00, 0x82, 0x2a, 0x00] = consumed ++ [] ∧
      (Value.array [.boolean true, .boolean false]).Exact .builtins (.array .boolean) ∧
      Serializer.fast.encode .builtins (.array .boolean) (.array [.boolean true, .boolean false])
        = .ok bytes ∧
      bytes.length ≤ consumed.length ∧
      (bytes.length = consumed.length →
        ∀ i, bytes[i]? ≠ consumed[i]? →
          i ∈ flagsIn .builtins (.array .boolean) [0x00, 0x82, 0x2a, 0x00]) := by
  have hdecode : Serializer.fast.decode .builtins (.array .boolean) [0x00, 0x82, 0x2a, 0x00]
      = .ok (.array [.boolean true, .boolean false], []) :=
    (decode_eq_portable fun _ ↦ by decide).trans rfl
  exact encode_decode (by decide) (by decide) hdecode

/-- The field that is read last is kept, and it is not of the type that is declared first. -/
theorem encode_decode_doubled :
    Graph.builtins.DistinctNames ∧
    Serializer.portable.decode .builtins (.record [("a", .integer), ("a", .boolean)]) [0x81, 0x01]
      = .ok (.record [("a", .boolean true)], []) ∧
    Serializer.portable.encode .builtins (.record [("a", .integer), ("a", .boolean)])
      (.record [("a", .boolean true)]) = .error (.typeMismatch .integer .boolean) := by
  refine ⟨by decide, rfl, ?_⟩
  exact (Portable.encode_eq_form _ _ _).trans rfl

end

end Wire

end SchemaCodec
