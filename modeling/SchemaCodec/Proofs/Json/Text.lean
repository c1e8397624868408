import SchemaCodec.Json.Shape
import SchemaCodec.Proofs.Json.Scalars

/-!
# JSON texts are read back, up to a depth

The text of a value without floats is read as this value, in either layout and with any blanks
around it, as long as its arrays and objects nest at most as deep as the reader allows; the text of
any other value is refused. A reader that knows the shape of the value does the same, provided that
the shape has a part for every member.

## One lemma for both readers

The reader of any value and the reader for a shape differ in how they choose the readers of the
parts, and in nothing else. So what is proved of an array or an object is proved of any reader whose
parts are read right (`reads_array`, `reads_object`), and each of the two readers supplies its own
choice.
-/

namespace SchemaCodec.Json

/-! ## Depth -/

mutual

/-- How deep arrays and objects nest in a value; those without parts count too. -/
def depth : Json → Nat
  | array items => itemsDepth items + 1
  | object members => membersDepth members + 1
  | _ => 0

def itemsDepth : List Json → Nat
  | [] => 0
  | item :: rest => max item.depth (itemsDepth rest)

def membersDepth : List (String × Json) → Nat
  | [] => 0
  | (_, json) :: rest => max json.depth (membersDepth rest)

end

/-- A value, unless it nests deeper than a number of levels. -/
def within (levels : Nat) (json : Json) : Option Json :=
  if json.depth ≤ levels then some json else none

/-- A value without floats, all of whose numbers are held by a 64-bit word. -/
inductive Exact : Json → Prop
  | null : Exact null
  | bool (b : Bool) : Exact (bool b)
  | integer {i : Int} (h : FitsWord i) : Exact (ofInt i)
  | string (s : String) : Exact (string s)
  | array {items : List Json} (h : ∀ item ∈ items, Exact item) : Exact (array items)
  | object {members : List (String × Json)} (h : ∀ member ∈ members, Exact member.2) :
    Exact (object members)

/-! ## What is written -/

section

variable (layout : Layout) (level : Nat)

/-- The characters of a value that stands at a level of nesting. -/
def chars (json : Json) : List Char := (append layout level json "").toList

/-- The characters of the items after the first one, with the closing bracket. -/
def itemsChars (items : List Json) : List Char := (appendItems layout level items "").toList

/-- The characters of the members after the first one, with the closing brace. -/
def membersChars (members : List (String × Json)) : List Char :=
  (appendMembers layout level members "").toList

end

theorem appendString_empty (out s : String) : appendString out s = out ++ appendString "" s := by
  apply String.toList_inj.mp
  simp [appendString_eq]

mutual

/-- What is appended does not depend on the output. -/
theorem append_eq (layout : Layout) (level : Nat) : (json : Json) → (out : String) →
    append layout level json out = out ++ append layout level json ""
  | null, out | bool _, out | number _, out | array [], out | object [], out => by simp [append]
  | string s, out => by rw [append, append, appendString_empty]
  | array (item :: rest), out => by
    rw [append, append, appendItems_eq _ _ rest, append_eq _ _ item, appendItems_eq _ _ rest
      (append _ _ item _), append_eq _ _ item ("" ++ "[" ++ _)]
    simp [String.append_assoc]
  | object ((key, json) :: rest), out => by
    rw [append, append, appendMembers_eq _ _ rest, append_eq _ _ json, appendMembers_eq _ _ rest
      (append _ _ json _), append_eq _ _ json (appendString ("" ++ _ ++ _) key ++ _),
      appendString_empty, appendString_empty ("" ++ _ ++ _)]
    simp [String.append_assoc]

theorem appendItems_eq (layout : Layout) (level : Nat) : (items : List Json) → (out : String) →
    appendItems layout level items out = out ++ appendItems layout level items ""
  | [], out => by simp [appendItems, String.append_assoc]
  | item :: rest, out => by
    rw [appendItems, appendItems, appendItems_eq _ _ rest, append_eq _ _ item,
      appendItems_eq _ _ rest (append _ _ item _), append_eq _ _ item ("" ++ "," ++ _)]
    simp [String.append_assoc]

theorem appendMembers_eq (layout : Layout) (level : Nat) : (members : List (String × Json)) →
    (out : String) →
    appendMembers layout level members out = out ++ appendMembers layout level members ""
  | [], out => by simp [appendMembers, String.append_assoc]
  | (key, json) :: rest, out => by
    rw [appendMembers, appendMembers, appendMembers_eq _ _ rest, append_eq _ _ json,
      appendMembers_eq _ _ rest (append _ _ json _),
      append_eq _ _ json (appendString ("" ++ _ ++ _) key ++ _), appendString_empty,
      appendString_empty ("" ++ _ ++ _)]
    simp [String.append_assoc]

end

section

variable (layout : Layout) (level : Nat)

theorem chars_string (s : String) : chars layout level (string s) = quoted s := by
  rw [chars, append, appendString_eq]
  rfl

theorem chars_array_nil : chars layout level (array []) = ['[', ']'] := by
  simp [chars, append]

theorem chars_array_cons (item : Json) (rest : List Json) :
    chars layout level (array (item :: rest)) = '[' :: ((layout.lineBreak (level + 1)).toList ++
      (chars layout (level + 1) item ++ itemsChars layout level rest)) := by
  rw [chars, append, appendItems_eq, append_eq]
  simp [chars, itemsChars]

theorem chars_object_nil : chars layout level (object []) = ['{', '}'] := by
  simp [chars, append]

theorem chars_object_cons (key : String) (json : Json) (rest : List (String × Json)) :
    chars layout level (object ((key, json) :: rest))
      = '{' :: ((layout.lineBreak (level + 1)).toList ++ (quoted key ++ (layout.colon.toList ++
        (chars layout (level + 1) json ++ membersChars layout level rest)))) := by
  rw [chars, append, appendMembers_eq, append_eq]
  simp [chars, membersChars, appendString_eq]

theorem itemsChars_nil :
    itemsChars layout level [] = (layout.lineBreak level).toList ++ [']'] := by
  simp [itemsChars, appendItems]

theorem itemsChars_cons (item : Json) (rest : List Json) :
    itemsChars layout level (item :: rest) = ',' :: ((layout.lineBreak (level + 1)).toList ++
      (chars layout (level + 1) item ++ itemsChars layout level rest)) := by
  rw [itemsChars, appendItems, appendItems_eq, append_eq]
  simp [chars, itemsChars]

theorem membersChars_nil :
    membersChars layout level [] = (layout.lineBreak level).toList ++ ['}'] := by
  simp [membersChars, appendMembers]

theorem membersChars_cons (key : String) (json : Json) (rest : List (String × Json)) :
    membersChars layout level ((key, json) :: rest)
      = ',' :: ((layout.lineBreak (level + 1)).toList ++ (quoted key ++ (layout.colon.toList ++
        (chars layout (level + 1) json ++ membersChars layout level rest)))) := by
  rw [membersChars, appendMembers, appendMembers_eq, append_eq]
  simp [chars, membersChars, appendString_eq]

end

/-! ## Blanks and beginnings -/

def Blank (cs : List Char) : Prop := ∀ c ∈ cs, isBlank c = true

theorem blank_nil : Blank [] := fun _ h ↦ absurd h List.not_mem_nil

theorem blank_lineBreak (layout : Layout) (level : Nat) :
    Blank (layout.lineBreak level).toList := by
  cases layout with
  | compact => exact blank_nil
  | indented =>
    intro c hc
    have hchar : c = '\n' ∨ level ≠ 0 ∧ c = ' ' := by simpa [Layout.lineBreak] using hc
    obtain rfl | ⟨-, rfl⟩ := hchar <;> rfl

theorem exists_colon (layout : Layout) :
    ∃ gap, Blank gap ∧ layout.colon.toList = ':' :: gap := by
  cases layout with
  | compact => exact ⟨[], blank_nil, rfl⟩
  | indented => exact ⟨[' '], by simp [Blank, isBlank], rfl⟩

theorem skipBlank_append {blanks : List Char} (h : Blank blanks) (cs : List Char) :
    skipBlank (blanks ++ cs) = skipBlank cs := List.dropWhile_append_of_pos h

theorem skipBlank_cons {c : Char} (h : isBlank c = false) (cs : List Char) :
    skipBlank (c :: cs) = c :: cs := List.dropWhile_cons_of_neg (by simp [h])

/-- A number ends at a character that is no part of one, and at blanks. -/
theorem endsNumber_append {blanks rest : List Char} (hblanks : Blank blanks)
    (hrest : EndsNumber rest) : EndsNumber (blanks ++ rest) := by
  cases blanks with
  | nil => exact hrest
  | cons c blanks =>
    rintro d hd
    obtain rfl : c = d := by simpa using hd
    have hc := hblanks c List.mem_cons_self
    simp only [isBlank, Bool.or_eq_true, decide_eq_true_eq] at hc
    obtain ((rfl | rfl) | rfl) | rfl := hc <;> decide

theorem endsNumber_itemsChars (layout : Layout) (level : Nat) (items : List Json)
    (tail : List Char) : EndsNumber (itemsChars layout level items ++ tail) := by
  cases items with
  | nil =>
    rw [itemsChars_nil, List.append_assoc]
    exact endsNumber_append (blank_lineBreak layout level) (by simp [EndsNumber])
  | cons item rest => rw [itemsChars_cons]; simp [EndsNumber]

theorem endsNumber_membersChars (layout : Layout) (level : Nat) (members : List (String × Json))
    (tail : List Char) : EndsNumber (membersChars layout level members ++ tail) := by
  cases members with
  | nil =>
    rw [membersChars_nil, List.append_assoc]
    exact endsNumber_append (blank_lineBreak layout level) (by simp [EndsNumber])
  | cons member rest => rw [membersChars_cons]; simp [EndsNumber]

/-- A value does not start with a blank, nor with what closes an array. -/
theorem exists_chars {json : Json} (h : Exact json) (layout : Layout) (level : Nat) :
    ∃ c cs, chars layout level json = c :: cs ∧ isBlank c = false ∧ c ≠ ']' := by
  cases h with
  | null => exact ⟨'n', ['u', 'l', 'l'], by simp [chars, append], rfl, by decide⟩
  | bool b =>
    cases b with
    | false => exact ⟨'f', ['a', 'l', 's', 'e'], by simp [chars, append], rfl, by decide⟩
    | true => exact ⟨'t', ['r', 'u', 'e'], by simp [chars, append], rfl, by decide⟩
  | @integer i _ =>
    obtain ⟨c, cs, htext, hc⟩ := exists_intText i
    have hc := hc.imp And.left And.left
    exact ⟨c, cs, by simp [chars, append, ofInt, numberText, htext], isBlank_of_signOrDigit hc,
      ne_of_signOrDigit hc (by decide)⟩
  | string s => exact ⟨'"', _, chars_string layout level s, rfl, by decide⟩
  | @array items _ =>
    cases items with
    | nil => exact ⟨'[', _, chars_array_nil layout level, rfl, by decide⟩
    | cons item rest => exact ⟨'[', _, chars_array_cons layout level item rest, rfl, by decide⟩
  | @object members _ =>
    cases members with
    | nil => exact ⟨'{', _, chars_object_nil layout level, rfl, by decide⟩
    | cons member rest =>
      exact ⟨'{', _, chars_object_cons layout level member.1 member.2 rest, rfl, by decide⟩

/-! ## Arrays and objects -/

/-- A reader finds a value behind blanks, at a level of nesting and with as many levels to go, in a
text of at most `length` characters. -/
def Reads (layout : Layout) (level length levels : Nat)
    (read : List Char → Option (Json × List Char)) (json : Json) : Prop :=
  ∀ blanks rest, Blank blanks → EndsNumber rest →
    (chars layout level json ++ rest).length ≤ length →
      read (blanks ++ (chars layout level json ++ rest)) = (within levels json).map (·, rest)

section

variable {layout : Layout} {level length levels : Nat}

/-- An item is read, and then what follows it decides. -/
theorem readItems_item {value : Nat → List Char → Option (Json × List Char)} {item : Json}
    {cs more : List Char} {position : Nat}
    (hitem : value position cs = (within levels item).map (·, more)) (fuel : Nat)
    (read : List Json) :
    readItems value (fuel + 1) position read cs = (within levels item).bind fun item ↦
      match skipBlank more with
      | ',' :: cs => readItems value fuel (position + 1) (item :: read) cs
      | ']' :: cs => some (array (item :: read).reverse, cs)
      | _ => none := by
  rw [readItems, hitem]
  cases within levels item <;> rfl

/-- The items of an array are read if each of them is. -/
theorem readItems_chars {value : Nat → List Char → Option (Json × List Char)} {tail : List Char}
    (rest : List Json) : ∀ (item : Json) (fuel position : Nat) (read : List Json)
      (blanks : List Char), rest.length < fuel → Blank blanks →
    (chars layout (level + 1) item ++ (itemsChars layout level rest ++ tail)).length ≤ length →
    (∀ i json, (item :: rest)[i]? = some json →
      Reads layout (level + 1) length levels (value (position + i)) json) →
    readItems value fuel position read
        (blanks ++ (chars layout (level + 1) item ++ (itemsChars layout level rest ++ tail)))
      = if itemsDepth (item :: rest) ≤ levels then some (array (read.reverse ++ item :: rest), tail)
        else none := by
  induction rest with
  | nil =>
    intro item fuel position read blanks hfuel hblanks hlength hvalue
    obtain ⟨fuel, rfl⟩ := Nat.exists_eq_add_one_of_ne_zero (Nat.ne_of_gt hfuel)
    have hitem := hvalue 0 item rfl blanks _ hblanks (endsNumber_itemsChars _ _ _ _) hlength
    rw [Nat.add_zero] at hitem
    rw [readItems_item hitem, within, itemsDepth, itemsDepth, Nat.max_zero]
    by_cases hdepth : item.depth ≤ levels
    · rw [if_pos hdepth, if_pos hdepth, itemsChars_nil, List.append_assoc,
        skipBlank_append (blank_lineBreak layout level)]
      simp [skipBlank, isBlank]
    · rw [if_neg hdepth, if_neg hdepth]
      rfl
  | cons next rest ih =>
    intro item fuel position read blanks hfuel hblanks hlength hvalue
    obtain ⟨fuel, rfl⟩ := Nat.exists_eq_add_one_of_ne_zero (Nat.ne_of_gt (Nat.zero_lt_of_lt hfuel))
    have hitem := hvalue 0 item rfl blanks _ hblanks (endsNumber_itemsChars _ _ _ _) hlength
    rw [Nat.add_zero] at hitem
    rw [readItems_item hitem, within, itemsDepth]
    by_cases hdepth : item.depth ≤ levels
    · have hlonger : (chars layout (level + 1) next ++
          (itemsChars layout level rest ++ tail)).length ≤ length := by
        rw [itemsChars_cons] at hlength
        simp only [List.length_append, List.length_cons] at hlength ⊢
        omega
      have hvalues : ∀ i json, (next :: rest)[i]? = some json →
          Reads layout (level + 1) length levels (value (position + 1 + i)) json := by
        intro i json hi
        have hnext := hvalue (i + 1) json hi
        rwa [← Nat.add_assoc, Nat.add_right_comm] at hnext
      have hrest := ih next fuel (position + 1) (item :: read) _ (Nat.lt_of_succ_lt_succ hfuel)
        (blank_lineBreak layout (level + 1)) hlonger hvalues
      rw [if_pos hdepth, itemsChars_cons]
      simp only [Option.bind_some, List.cons_append, List.append_assoc,
        skipBlank_cons (c := ',') rfl, hrest]
      simp [hdepth]
    · rw [if_neg hdepth, if_neg (by omega)]
      rfl

/-- A member is a key, a colon and the content behind blanks, and then what follows it decides. -/
theorem readMembers_member {value : String → List Char → Option (Json × List Char)} {key : String}
    {json : Json} {blanks gap more : List Char} (hblanks : Blank blanks)
    (hcolon : layout.colon.toList = ':' :: gap)
    (hjson : value key (gap ++ (chars layout (level + 1) json ++ more))
      = (within levels json).map (·, more)) (fuel : Nat) (read : List (String × Json)) :
    readMembers value (fuel + 1) read (blanks ++ (quoted key ++ (layout.colon.toList ++
        (chars layout (level + 1) json ++ more))))
      = (within levels json).bind fun json ↦
        match skipBlank more with
        | ',' :: cs => readMembers value fuel ((key, json) :: read) cs
        | '}' :: cs => some (object ((key, json) :: read).reverse, cs)
        | _ => none := by
  have hkey : skipBlank (quoted key ++ (layout.colon.toList ++
      (chars layout (level + 1) json ++ more))) = '"' :: ((quoted key).tail ++
        (layout.colon.toList ++ (chars layout (level + 1) json ++ more))) :=
    skipBlank_cons rfl _
  rw [readMembers, skipBlank_append hblanks, hkey]
  simp only [readString_quoted, hcolon, Option.bind_eq_bind, Option.bind_some, List.cons_append,
    skipBlank_cons (c := ':') rfl, hjson]
  cases within levels json <;> rfl

/-- The members of an object are read if the content of each of them is. -/
theorem readMembers_chars {value : String → List Char → Option (Json × List Char)}
    {tail : List Char} (rest : List (String × Json)) : ∀ (key : String) (json : Json) (fuel : Nat)
      (read : List (String × Json)) (blanks : List Char), rest.length < fuel → Blank blanks →
    (chars layout (level + 1) json ++ (membersChars layout level rest ++ tail)).length ≤ length →
    (∀ member ∈ (key, json) :: rest,
      Reads layout (level + 1) length levels (value member.1) member.2) →
    readMembers value fuel read (blanks ++ (quoted key ++ (layout.colon.toList ++
        (chars layout (level + 1) json ++ (membersChars layout level rest ++ tail)))))
      = if membersDepth ((key, json) :: rest) ≤ levels then
          some (object (read.reverse ++ (key, json) :: rest), tail)
        else none := by
  obtain ⟨gap, hgap, hcolon⟩ := exists_colon layout
  induction rest with
  | nil =>
    intro key json fuel read blanks hfuel hblanks hlength hvalue
    obtain ⟨fuel, rfl⟩ := Nat.exists_eq_add_one_of_ne_zero (Nat.ne_of_gt hfuel)
    have hjson := hvalue (key, json) List.mem_cons_self gap _ hgap
      (endsNumber_membersChars _ _ _ _) hlength
    rw [readMembers_member hblanks hcolon hjson, within, membersDepth, membersDepth, Nat.max_zero]
    by_cases hdepth : json.depth ≤ levels
    · rw [if_pos hdepth, if_pos hdepth, membersChars_nil, List.append_assoc,
        skipBlank_append (blank_lineBreak layout level)]
      simp [skipBlank, isBlank]
    · rw [if_neg hdepth, if_neg hdepth]
      rfl
  | cons next rest ih =>
    intro key json fuel read blanks hfuel hblanks hlength hvalue
    obtain ⟨fuel, rfl⟩ := Nat.exists_eq_add_one_of_ne_zero (Nat.ne_of_gt (Nat.zero_lt_of_lt hfuel))
    have hjson := hvalue (key, json) List.mem_cons_self gap _ hgap
      (endsNumber_membersChars _ _ _ _) hlength
    rw [readMembers_member hblanks hcolon hjson, within, membersDepth]
    by_cases hdepth : json.depth ≤ levels
    · have hlonger : (chars layout (level + 1) next.2 ++
          (membersChars layout level rest ++ tail)).length ≤ length := by
        rw [membersChars_cons] at hlength
        simp only [List.length_append, List.length_cons] at hlength ⊢
        omega
      have hrest := ih next.1 next.2 fuel ((key, json) :: read) _ (Nat.lt_of_succ_lt_succ hfuel)
        (blank_lineBreak layout (level + 1)) hlonger
        fun member h ↦ hvalue member (List.mem_cons_of_mem _ h)
      rw [if_pos hdepth, membersChars_cons]
      simp only [Option.bind_some, List.cons_append, List.append_assoc,
        skipBlank_cons (c := ',') rfl, hrest]
      simp [hdepth]
    · rw [if_neg hdepth, if_neg (by omega)]
      rfl

theorem length_lt_itemsChars (layout : Layout) (level : Nat) (items : List Json) :
    items.length < (itemsChars layout level items).length := by
  induction items with
  | nil => simp [itemsChars_nil]
  | cons item rest ih =>
    simp only [itemsChars_cons, List.length_cons, List.length_append]
    omega

theorem length_lt_membersChars (layout : Layout) (level : Nat) (members : List (String × Json)) :
    members.length < (membersChars layout level members).length := by
  induction members with
  | nil => simp [membersChars_nil]
  | cons member rest ih =>
    obtain ⟨key, json⟩ := member
    simp only [membersChars_cons, List.length_cons, List.length_append]
    omega

/-- What both readers make of an array, from behind its bracket. -/
def readArray (value : Nat → List Char → Option (Json × List Char)) (length : Nat)
    (cs : List Char) : Option (Json × List Char) :=
  match skipBlank cs with
  | ']' :: rest => some (array [], rest)
  | _ => readItems value length 0 [] cs

/-- What both readers make of an object, from behind its brace. -/
def readObject (value : String → List Char → Option (Json × List Char)) (length : Nat)
    (cs : List Char) : Option (Json × List Char) :=
  match skipBlank cs with
  | '}' :: rest => some (object [], rest)
  | _ => readMembers value length [] cs

/-- An array is read if its items are. -/
theorem reads_array {read : List Char → Option (Json × List Char)}
    {value : Nat → List Char → Option (Json × List Char)}
    (hread : ∀ blanks cs, Blank blanks → read (blanks ++ '[' :: cs) = readArray value length cs)
    {items : List Json} (hexact : ∀ item ∈ items, Exact item)
    (hitems : ∀ i item, items[i]? = some item →
      Reads layout (level + 1) length levels (value i) item) :
    Reads layout level length (levels + 1) read (array items) := by
  intro blanks rest hblanks hrest hlength
  cases items with
  | nil =>
    rw [chars_array_nil, List.cons_append, hread blanks _ hblanks]
    rfl
  | cons item items =>
    rw [chars_array_cons] at hlength ⊢
    rw [List.cons_append, hread blanks _ hblanks, List.append_assoc, List.append_assoc]
    -- the bracket does not close at once, since no value starts with what closes it
    obtain ⟨c, cs, htext, hblank, hclose⟩ :=
      exists_chars (hexact item List.mem_cons_self) layout (level + 1)
    have hopen : readArray value length ((layout.lineBreak (level + 1)).toList ++
        (chars layout (level + 1) item ++ (itemsChars layout level items ++ rest)))
        = readItems value length 0 [] ((layout.lineBreak (level + 1)).toList ++
          (chars layout (level + 1) item ++ (itemsChars layout level items ++ rest))) := by
      rw [readArray, skipBlank_append (blank_lineBreak layout (level + 1)), htext, List.cons_append,
        skipBlank_cons hblank]
      split
      · next heq => exact absurd (List.cons.inj heq).1 hclose
      · rfl
    have hcount := length_lt_itemsChars layout level items
    have hlonger : (chars layout (level + 1) item ++
        (itemsChars layout level items ++ rest)).length ≤ length := by
      simp only [List.cons_append, List.length_cons, List.length_append] at hlength ⊢
      omega
    have hfuel : items.length < length := by
      simp only [List.length_append] at hlonger
      omega
    have hvalues : ∀ i json, (item :: items)[i]? = some json →
        Reads layout (level + 1) length levels (value (0 + i)) json := by
      simpa using hitems
    rw [hopen, readItems_chars items item length 0 [] _ hfuel (blank_lineBreak layout (level + 1))
      hlonger hvalues, within, depth]
    simp only [Nat.add_le_add_iff_right]
    split <;> rfl

/-- An object is read if the contents of its members are. -/
theorem reads_object {read : List Char → Option (Json × List Char)}
    {value : String → List Char → Option (Json × List Char)}
    (hread : ∀ blanks cs, Blank blanks → read (blanks ++ '{' :: cs) = readObject value length cs)
    {members : List (String × Json)}
    (hmembers : ∀ member ∈ members,
      Reads layout (level + 1) length levels (value member.1) member.2) :
    Reads layout level length (levels + 1) read (object members) := by
  intro blanks rest hblanks hrest hlength
  cases members with
  | nil =>
    rw [chars_object_nil, List.cons_append, hread blanks _ hblanks]
    rfl
  | cons member members =>
    obtain ⟨key, json⟩ := member
    rw [chars_object_cons] at hlength ⊢
    rw [List.cons_append, hread blanks _ hblanks]
    simp only [List.append_assoc]
    have hopen : readObject value length ((layout.lineBreak (level + 1)).toList ++ (quoted key ++
        (layout.colon.toList ++ (chars layout (level + 1) json ++
          (membersChars layout level members ++ rest)))))
        = readMembers value length [] ((layout.lineBreak (level + 1)).toList ++ (quoted key ++
          (layout.colon.toList ++ (chars layout (level + 1) json ++
            (membersChars layout level members ++ rest))))) := by
      rw [readObject, skipBlank_append (blank_lineBreak layout (level + 1)), quoted,
        List.cons_append, skipBlank_cons rfl]
      rfl
    have hcount := length_lt_membersChars layout level members
    have hlonger : (chars layout (level + 1) json ++
        (membersChars layout level members ++ rest)).length ≤ length := by
      simp only [List.cons_append, List.length_cons, List.length_append] at hlength ⊢
      omega
    have hfuel : members.length < length := by
      simp only [List.length_append] at hlonger
      omega
    rw [hopen, readMembers_chars members key json length [] _ hfuel
      (blank_lineBreak layout (level + 1)) hlonger hmembers, within, depth]
    simp only [Nat.add_le_add_iff_right]
    split <;> rfl

/-- Without a level to go, arrays and objects are refused. -/
theorem reads_of_refused {read : List Char → Option (Json × List Char)} {json : Json}
    (hdepth : json.depth ≠ 0)
    (hread : ∀ blanks c cs, Blank blanks → c = '[' ∨ c = '{' → read (blanks ++ c :: cs) = none) :
    Reads layout level length 0 read json := by
  intro blanks rest hblanks hrest hlength
  rw [within, if_neg (by omega)]
  cases json with
  | array items =>
    cases items with
    | nil => rw [chars_array_nil]; exact hread blanks '[' _ hblanks (.inl rfl)
    | cons item items => rw [chars_array_cons]; exact hread blanks '[' _ hblanks (.inl rfl)
  | object members =>
    cases members with
    | nil => rw [chars_object_nil]; exact hread blanks '{' _ hblanks (.inr rfl)
    | cons member members =>
      rw [chars_object_cons]
      exact hread blanks '{' _ hblanks (.inr rfl)
  | _ => exact absurd rfl hdepth

/-! ## The two readers -/

theorem readValue_append {blanks : List Char} (h : Blank blanks) (length levels : Nat)
    (cs : List Char) : readValue length levels (blanks ++ cs) = readValue length levels cs := by
  rw [readValue.eq_def length levels (blanks ++ cs), readValue.eq_def length levels cs]
  dsimp only
  rw [skipBlank_append h]

theorem word?_append (word : String) (json : Json) (rest : List Char) :
    word? word json (word.toList ++ rest) = some (json, rest) := by
  simp [word?, ← String.length_toList]

/-- A digit or a sign begins a number. -/
theorem readValue_number {c : Char} (h : c = '-' ∨ c.isDigit = true) (cs : List Char) :
    readValue length levels (c :: cs) = (do
      let (parts, rest) ← numberParts? (c :: cs)
      let n ← parts.number?
      some (number n, rest)) := by
  have hother : ∀ d ∈ ['[', '{', '"', 'n', 't', 'f'], c ≠ d := forall_ne_of_signOrDigit h rfl
  rw [readValue.eq_def]
  dsimp only
  rw [skipBlank_cons (isBlank_of_signOrDigit h)]
  split
  all_goals first
    | rfl
    | next heq => exact absurd (List.cons.inj heq).1 (hother _ (by decide))

/-- A scalar is read at every level. -/
theorem reads_scalar {json : Json} (hexact : Exact json) (hdepth : json.depth = 0) :
    Reads layout level length levels (readValue length levels) json := by
  intro blanks rest hblanks hrest hlength
  rw [readValue_append hblanks, within, if_pos (by omega)]
  cases hexact with
  | null =>
    have htext : chars layout level null ++ rest = 'n' :: ("ull".toList ++ rest) := by
      simp [chars, append]
    rw [htext, readValue.eq_def]
    exact word?_append "ull" null rest
  | bool b =>
    cases b with
    | false =>
      have htext : chars layout level (bool false) ++ rest = 'f' :: ("alse".toList ++ rest) := by
        simp [chars, append]
      rw [htext, readValue.eq_def]
      exact word?_append "alse" (bool false) rest
    | true =>
      have htext : chars layout level (bool true) ++ rest = 't' :: ("rue".toList ++ rest) := by
        simp [chars, append]
      rw [htext, readValue.eq_def]
      exact word?_append "rue" (bool true) rest
  | @integer i h =>
    have htext : chars layout level (ofInt i) = (Decimal.intText i).toList := by
      simp [chars, append, ofInt, numberText]
    have hparts := numberParts?_intText i hrest
    obtain ⟨c, cs, hcons, hc⟩ := exists_intText i
    rw [hcons, List.cons_append] at hparts
    rw [htext, hcons, List.cons_append, readValue_number (hc.imp And.left And.left), hparts]
    simp only [Option.bind_eq_bind, Option.bind_some, number?_of_fitsWord h]
    rfl
  | string s =>
    have htext : chars layout level (string s) ++ rest = '"' :: ((quoted s).tail ++ rest) := by
      rw [chars_string]
      rfl
    rw [htext, readValue.eq_def]
    exact congrArg (Option.map _) (readString_quoted s rest)
  | array h => exact absurd hdepth (Nat.succ_ne_zero _)
  | object h => exact absurd hdepth (Nat.succ_ne_zero _)

/-- A value is read by the reader of any value. -/
theorem readValue_reads {json : Json} (h : Exact json) (level levels : Nat) :
    Reads layout level length levels (readValue length levels) json := by
  induction h generalizing level levels with
  | array hitems ih =>
    cases levels with
    | zero =>
      refine reads_of_refused (Nat.succ_ne_zero _) fun blanks c cs hblanks hc ↦ ?_
      rw [readValue_append hblanks]
      obtain rfl | rfl := hc <;> rfl
    | succ levels =>
      have hread : ∀ blanks cs, Blank blanks → readValue length (levels + 1) (blanks ++ '[' :: cs)
          = readArray (fun _ ↦ readValue length levels) length cs := by
        intro blanks cs hblanks
        rw [readValue_append hblanks]
        rfl
      exact reads_array hread hitems fun i item hi ↦
        ih item (List.mem_of_getElem? hi) (level + 1) levels
  | object hmembers ih =>
    cases levels with
    | zero =>
      refine reads_of_refused (Nat.succ_ne_zero _) fun blanks c cs hblanks hc ↦ ?_
      rw [readValue_append hblanks]
      obtain rfl | rfl := hc <;> rfl
    | succ levels =>
      have hread : ∀ blanks cs, Blank blanks → readValue length (levels + 1) (blanks ++ '{' :: cs)
          = readObject (fun _ ↦ readValue length levels) length cs := by
        intro blanks cs hblanks
        rw [readValue_append hblanks]
        rfl
      exact reads_object hread fun member hmember ↦ ih member hmember (level + 1) levels
  | null => exact reads_scalar .null rfl
  | bool b => exact reads_scalar (.bool b) rfl
  | integer h => exact reads_scalar (.integer h) rfl
  | string s => exact reads_scalar (.string s) rfl

end

/-- A value all of whose arrays and objects have the parts that a shape speaks of. -/
inductive Known : Shape → Json → Prop
  | any (json : Json) : Known .any json
  | items {each : Shape} {items : List Json} (h : ∀ item ∈ items, Known each item) :
    Known (.items each) (array items)
  | parts {known : List (String × Shape)} {members : List (String × Json)}
    (hkey : ∀ member ∈ members, (Members.get? member.1 known).isSome)
    (h : ∀ member ∈ members, ∀ shape, Members.get? member.1 known = some shape →
      Known shape member.2) :
    Known (.parts known) (object members)

section

variable {layout : Layout} {level length levels : Nat}

theorem readShaped_append {blanks : List Char} (h : Blank blanks) (length levels : Nat)
    (shape : Shape) (cs : List Char) :
    readShaped length levels shape (blanks ++ cs) = readShaped length levels shape cs := by
  cases levels with
  | zero => cases shape <;> simp only [readShaped, readValue_append h]
  | succ levels => cases shape <;> simp only [readShaped, readValue_append h, skipBlank_append h]

/-- What the reader for a shape makes of the value of a member. -/
def readKnown (length levels : Nat) (known : List (String × Shape)) (key : String)
    (cs : List Char) : Option (Json × List Char) :=
  match Members.get? key known with
  | some shape => readShaped length levels shape cs
  | none => (skipValue length cs).map fun rest ↦ (null, rest)

theorem readKnown_of_get? {known : List (String × Shape)} {key : String} {shape : Shape}
    (h : Members.get? key known = some shape) (length levels : Nat) :
    readKnown length levels known key = readShaped length levels shape := by
  funext cs
  rw [readKnown, h]

/-- A value of a shape is read by the reader for this shape. -/
theorem readShaped_reads {shape : Shape} {json : Json} (hknown : Known shape json)
    (hexact : Exact json) (level levels : Nat) :
    Reads layout level length levels (readShaped length levels shape) json := by
  induction hknown generalizing level levels with
  | any json =>
    have hany : readShaped length levels .any = readValue length levels := by
      funext cs
      cases levels <;> rfl
    rw [hany]
    exact readValue_reads hexact level levels
  | @items each items hitems ih =>
    obtain _ | _ | _ | _ | hexact := hexact
    cases levels with
    | zero =>
      exact readValue_reads (.array hexact) level 0
    | succ levels =>
      have hread : ∀ blanks cs, Blank blanks →
          readShaped length (levels + 1) (.items each) (blanks ++ '[' :: cs)
            = readArray (fun _ ↦ readShaped length levels each) length cs := by
        intro blanks cs hblanks
        rw [readShaped_append hblanks]
        rfl
      refine reads_array hread hexact fun i item hi ↦ ?_
      have hitem := List.mem_of_getElem? hi
      exact ih item hitem (hexact item hitem) (level + 1) levels
  | @parts known members hkey hmembers ih =>
    obtain _ | _ | _ | _ | _ | hexact := hexact
    cases levels with
    | zero => exact readValue_reads (.object hexact) level 0
    | succ levels =>
      have hread : ∀ blanks cs, Blank blanks →
          readShaped length (levels + 1) (.parts known) (blanks ++ '{' :: cs)
            = readObject (readKnown length levels known) length cs := by
        intro blanks cs hblanks
        rw [readShaped_append hblanks]
        rfl
      refine reads_object hread fun member hmember ↦ ?_
      obtain ⟨shape, hshape⟩ := Option.isSome_iff_exists.mp (hkey member hmember)
      rw [readKnown_of_get? hshape]
      exact ih member hmember shape hshape (hexact member hmember) (level + 1) levels

end

/-! ## Texts -/

/-- A text that holds one value is read as this value, unless it nests too deep. -/
theorem ofWhole_render {layout : Layout} {levels : Nat} {json : Json}
    {read : List Char → Option (Json × List Char)}
    (h : Reads layout 0 (render layout json).toList.length levels read json) :
    ofWhole read (render layout json) = within levels json := by
  have htext : (render layout json).toList = [] ++ (chars layout 0 json ++ []) := by
    rw [List.append_nil, List.nil_append]
    rfl
  have hread := h [] [] blank_nil (by simp [EndsNumber]) (by rw [htext]; rfl)
  rw [ofWhole, htext, hread]
  cases within levels json <;> rfl

/-- A reader that knows the shape of a value without floats reads its text as this value, up to the
greatest depth. -/
theorem parseShaped?_render {shape : Shape} {json : Json} (hknown : Known shape json)
    (hexact : Exact json) (layout : Layout) :
    parseShaped? shape (render layout json) = within maxNesting json :=
  ofWhole_render (readShaped_reads hknown hexact 0 maxNesting)

end SchemaCodec.Json
