import Mathlib.Data.List.Induction
import Mathlib.Data.String.Basic
import SchemaCodec.Hex
import SchemaCodec.Proofs.Outcome

/-!
# Hexadecimal input is read exactly

A text is read as bytes exactly if it spells their written form: white space aside, without a mark
in front and with its letters in lower case, it is that form. So what is written is read back, and
nothing is read that is no spelling, such as a sign, a digit of another script or half a byte.

## Why no character is cut

The digits are read in pairs here. A reader may as well cut a text at every second byte and read
each piece as a number, and then a piece could end inside a character, which is a failure of its
own, or begin with a sign, which is no failure of a number. Neither comes up, since such a reader
looks at all characters first: a digit is one byte long, so that the offset of a digit is the number
of digits before it, and no sign is a digit.
-/

namespace SchemaCodec.Hex

/-! ## Digits -/

/-- All digits are ASCII characters. -/
theorem lt_of_digitValue? {c : Char} {n : Nat} (h : digitValue? c = some n) :
    n < 16 ∧ c.toNat < 128 := by
  rw [digitValue?] at h
  split_ifs at h with hdigit hlower hupper
  · have hle : c.toNat ≤ 57 := hdigit.2
    have hn : c.toNat - 48 = n := Option.some_inj.mp h
    omega
  · have hle : c.toNat ≤ 102 := hlower.2
    have hn : c.toNat - 97 + 10 = n := Option.some_inj.mp h
    omega
  · have hle : c.toNat ≤ 70 := hupper.2
    have hn : c.toNat - 65 + 10 = n := Option.some_inj.mp h
    omega

/-- A character has a value exactly if it is the digit of this value in either case. -/
theorem digitValue?_eq_some_iff {c : Char} {n : Nat} :
    digitValue? c = some n ↔ n < 16 ∧ c.toLower = digit n := by
  have hascii : ∀ k < 128, ∀ n < 16,
      digitValue? (Char.ofNat k) = some n ↔ (Char.ofNat k).toLower = digit n := by decide +kernel
  by_cases hc : c.toNat < 128
  · have hvalue := hascii c.toNat hc n
    rw [Char.ofNat_toNat] at hvalue
    constructor
    · intro h
      have hn := (lt_of_digitValue? h).1
      exact ⟨hn, (hvalue hn).mp h⟩
    · rintro ⟨hn, hlower⟩
      exact (hvalue hn).mpr hlower
  · -- beyond ASCII there are no digits, and no letters that have a lower case
    have hdigits : ∀ n < 16, (digit n).toNat < 128 := by decide
    have hlower : c.toLower = c := dif_neg fun hupper ↦ by
      have hle : c.toNat ≤ 90 := hupper.2
      omega
    refine iff_of_false (fun h ↦ hc (lt_of_digitValue? h).2) ?_
    rintro ⟨hn, hdigit⟩
    rw [hlower] at hdigit
    exact hc (hdigit ▸ hdigits n hn)

/-- A digit is one byte long. -/
theorem utf8Size_of_digitValue? {c : Char} {n : Nat} (h : digitValue? c = some n) :
    c.utf8Size = 1 := by
  have hle : c.toNat ≤ 127 := Nat.le_of_lt_succ (lt_of_digitValue? h).2
  exact Char.utf8Size_eq_one_iff.mpr hle

/-! ## Spellings -/

/-- Characters spell bytes: in lower case they are the digits of the bytes. -/
def Spells (cs : List Char) (bytes : List UInt8) : Prop :=
  cs.map Char.toLower = bytes.flatMap digits

/-- A byte is spelled by the digits of its halves. -/
theorem lower_pair_iff {high low : Char} {byte : UInt8} :
    [high.toLower, low.toLower] = digits byte ↔
      ∃ h l, digitValue? high = some h ∧ digitValue? low = some l ∧
        byte = UInt8.ofNat (16 * h + l) := by
  have hbyte : byte.toNat < 256 := byte.toNat_lt
  rw [digits, List.cons.injEq, List.cons.injEq]
  constructor
  · rintro ⟨hhigh, hlow, -⟩
    refine ⟨byte.toNat / 16, byte.toNat % 16, digitValue?_eq_some_iff.mpr ⟨by omega, hhigh⟩,
      digitValue?_eq_some_iff.mpr ⟨by omega, hlow⟩, ?_⟩
    rw [Nat.div_add_mod, UInt8.ofNat_toNat]
  · rintro ⟨h, l, hhigh, hlow, rfl⟩
    obtain ⟨hh, hhigh⟩ := digitValue?_eq_some_iff.mp hhigh
    obtain ⟨hl, hlow⟩ := digitValue?_eq_some_iff.mp hlow
    have htoNat : (UInt8.ofNat (16 * h + l)).toNat = 16 * h + l :=
      UInt8.toNat_ofNat_of_lt' (show 16 * h + l < 256 by omega)
    rw [htoNat, show (16 * h + l) / 16 = h by omega, show (16 * h + l) % 16 = l by omega]
    exact ⟨hhigh, hlow, rfl⟩

theorem Spells.length_eq {cs : List Char} {bytes : List UInt8} (h : Spells cs bytes) :
    cs.length = 2 * bytes.length := by
  have hlength : ∀ byte ∈ bytes, (digits byte).length = 2 := fun _ _ ↦ rfl
  rw [← List.length_map Char.toLower, h, List.length_flatMap, List.map_congr_left hlength]
  simp [Nat.mul_comm]

theorem spells_nil_iff {bytes : List UInt8} : Spells [] bytes ↔ bytes = [] := by
  constructor
  · intro h
    have hlength : 0 = 2 * bytes.length := h.length_eq
    exact List.length_eq_zero_iff.mp (by omega)
  · rintro rfl
    rfl

theorem not_spells_singleton (c : Char) (bytes : List UInt8) : ¬Spells [c] bytes := by
  intro h
  have hlength : 1 = 2 * bytes.length := h.length_eq
  omega

theorem spells_cons_iff {high low : Char} {rest : List Char} {bytes : List UInt8} :
    Spells (high :: low :: rest) bytes ↔ ∃ byte more, bytes = byte :: more ∧
      [high.toLower, low.toLower] = digits byte ∧ Spells rest more := by
  constructor
  · intro h
    cases bytes with
    | nil => cases h
    | cons byte more =>
      have happend : [high.toLower, low.toLower] ++ rest.map Char.toLower
          = digits byte ++ more.flatMap digits := h
      obtain ⟨hpair, hrest⟩ := List.append_inj happend rfl
      exact ⟨byte, more, rfl, hpair, hrest⟩
  · rintro ⟨byte, more, rfl, hpair, hrest⟩
    rw [Spells, List.flatMap_cons, ← hpair, ← hrest]
    rfl

/-- Characters spell some bytes exactly if they are digits and their number is even. -/
theorem exists_spells_iff {cs : List Char} : (∃ bytes, Spells cs bytes) ↔
    cs.length % 2 = 0 ∧ ∀ c ∈ cs, (digitValue? c).isSome = true := by
  induction cs using List.twoStepInduction with
  | nil => exact iff_of_true ⟨[], rfl⟩ ⟨rfl, fun _ h ↦ absurd h List.not_mem_nil⟩
  | singleton c =>
    refine iff_of_false ?_ fun h ↦ absurd h.1 Nat.one_ne_zero
    rintro ⟨bytes, h⟩
    exact not_spells_singleton c bytes h
  | cons_cons high low rest ih =>
    constructor
    · rintro ⟨bytes, h⟩
      obtain ⟨byte, more, rfl, hpair, hmore⟩ := spells_cons_iff.mp h
      obtain ⟨h, l, hhigh, hlow, -⟩ := lower_pair_iff.mp hpair
      obtain ⟨heven, hrest⟩ := ih.mp ⟨more, hmore⟩
      refine ⟨(Nat.add_mod_right _ 2).trans heven, ?_⟩
      exact List.forall_mem_cons.mpr ⟨Option.isSome_of_eq_some hhigh,
        List.forall_mem_cons.mpr ⟨Option.isSome_of_eq_some hlow, hrest⟩⟩
    · rintro ⟨heven, hall⟩
      obtain ⟨hhigh, hall⟩ := List.forall_mem_cons.mp hall
      obtain ⟨hlow, hrest⟩ := List.forall_mem_cons.mp hall
      obtain ⟨h, hhigh⟩ := Option.isSome_iff_exists.mp hhigh
      obtain ⟨l, hlow⟩ := Option.isSome_iff_exists.mp hlow
      obtain ⟨more, hmore⟩ := ih.mpr ⟨(Nat.add_mod_right _ 2).symm.trans heven, hrest⟩
      exact ⟨_, spells_cons_iff.mpr ⟨_, more, rfl,
        lower_pair_iff.mpr ⟨h, l, hhigh, hlow, rfl⟩, hmore⟩⟩

/-! ## Reading pairs -/

theorem readOnto_eq_some_iff {cs : List Char} {read result : List UInt8} :
    readOnto cs read = some result ↔
      ∃ bytes, Spells cs bytes ∧ result = bytes.reverse ++ read := by
  fun_induction readOnto cs read with
  | case1 read =>
    constructor
    · intro h
      exact ⟨[], rfl, (Option.some_inj.mp h).symm⟩
    · rintro ⟨bytes, h, rfl⟩
      rw [spells_nil_iff.mp h]
      rfl
  | case2 read high low rest ih =>
    constructor
    · intro h
      obtain ⟨hv, hhigh, h⟩ := Option.bind_eq_some_iff.mp h
      obtain ⟨lv, hlow, h⟩ := Option.bind_eq_some_iff.mp h
      obtain ⟨more, hmore, rfl⟩ := (ih hv lv).mp h
      have hpair := lower_pair_iff.mpr ⟨hv, lv, hhigh, hlow, rfl⟩
      exact ⟨_, spells_cons_iff.mpr ⟨_, more, rfl, hpair, hmore⟩, by simp⟩
    · rintro ⟨bytes, h, rfl⟩
      obtain ⟨byte, more, rfl, hpair, hmore⟩ := spells_cons_iff.mp h
      obtain ⟨hv, lv, hhigh, hlow, rfl⟩ := lower_pair_iff.mp hpair
      rw [hhigh, hlow]
      exact (ih hv lv).mpr ⟨more, hmore, by simp⟩
  | case3 read c =>
    refine iff_of_false (fun h ↦ by cases h) ?_
    rintro ⟨bytes, h, -⟩
    exact not_spells_singleton c bytes h

theorem decode?_eq_some_iff {text : String} {bytes : List UInt8} :
    decode? text = some bytes ↔ Spells (plainDigits text) bytes := by
  rw [decode?, Option.map_eq_some_iff]
  constructor
  · rintro ⟨read, h, rfl⟩
    obtain ⟨bytes, hbytes, rfl⟩ := readOnto_eq_some_iff.mp h
    simpa using hbytes
  · intro h
    exact ⟨bytes.reverse, readOnto_eq_some_iff.mpr ⟨bytes, h, by simp⟩, bytes.reverse_reverse⟩

/-! ## Reading pieces -/

/-- Two offsets between which no piece can be taken out of a text. -/
structure SplitError where
  start : Nat
  stop : Nat

/-- The piece of a text between two offsets of bytes. -/
def piece (text : String) (start stop : Nat) : Except SplitError String :=
  if start ≤ stop ∧ String.Pos.Raw.IsValid text ⟨start⟩ ∧ String.Pos.Raw.IsValid text ⟨stop⟩ then
    .ok (String.Pos.Raw.extract text ⟨start⟩ ⟨stop⟩)
  else .error ⟨start, stop⟩

/-- A number without a plus sign in front. -/
def unsigned : List Char → List Char
  | '+' :: rest => rest
  | cs => cs

/-- The byte that a number in base sixteen is. -/
def byteOf? (number : String) : Option UInt8 := do
  let cs := unsigned number.toList
  if cs.isEmpty then none
  else
    let n ← cs.foldlM (fun n c ↦ (digitValue? c).map (16 * n + ·)) 0
    if n < 256 then some (UInt8.ofNat n) else none

/-- The bytes that the pieces of two bytes from some offsets on are. -/
def readPieces (text : String) : (starts : List Nat) → Except SplitError (Option (List UInt8))
  | [] => .ok (some [])
  | start :: rest => do
    match byteOf? (← piece text start (start + 2)) with
    | some byte => return (← readPieces text rest).map (byte :: ·)
    | none => return none

/-- Reads the digits of a text in pieces, if their number of bytes is even and they are digits. -/
def decodePieces (text : String) : Except SplitError (Option (List UInt8)) :=
  let digits := String.ofList (plainDigits text)
  if digits.utf8ByteSize % 2 = 0 ∧ digits.toList.all (fun c ↦ (digitValue? c).isSome) = true then
    readPieces digits (List.range' 0 (digits.utf8ByteSize / 2) 2)
  else .ok none

/-- Of digits there are as many bytes as characters. -/
theorem utf8Len_of_digits {cs : List Char} (h : ∀ c ∈ cs, (digitValue? c).isSome = true) :
    String.utf8Len cs = cs.length := by
  induction cs with
  | nil => rfl
  | cons c rest ih =>
    obtain ⟨hc, hrest⟩ := List.forall_mem_cons.mp h
    obtain ⟨n, hc⟩ := Option.isSome_iff_exists.mp hc
    rw [String.utf8Len_cons, ih hrest, utf8Size_of_digitValue? hc, List.length_cons]

theorem unsigned_of_digit {c : Char} {n : Nat} (h : digitValue? c = some n) (rest : List Char) :
    unsigned (c :: rest) = c :: rest := by
  have hplus : digitValue? '+' = none := by decide
  rw [unsigned.eq_def]
  split
  · next heq =>
    rw [(List.cons.inj heq).1, hplus] at h
    cases h
  · rfl

theorem byteOf?_pair {high low : Char} {h l : Nat} (hhigh : digitValue? high = some h)
    (hlow : digitValue? low = some l) :
    byteOf? (String.ofList [high, low]) = some (UInt8.ofNat (16 * h + l)) := by
  have hlt : 16 * h + l < 256 := by
    have hh := (lt_of_digitValue? hhigh).1
    have hl := (lt_of_digitValue? hlow).1
    omega
  rw [byteOf?, String.toList_ofList, unsigned_of_digit hhigh]
  simp [hhigh, hlow, hlt]

theorem piece_append (front middle rest : List Char) :
    piece (String.ofList (front ++ middle ++ rest)) (String.utf8Len front)
      (String.utf8Len front + String.utf8Len middle) = .ok (String.ofList middle) := by
  have hvalid (before after : List Char) :
      String.Pos.Raw.IsValid (String.ofList (before ++ after)) ⟨String.utf8Len before⟩ :=
    String.Pos.Raw.isValid_iff_exists_append.mpr ⟨_, _, String.ofList_append,
      (String.rawEndPos_ofList before).symm⟩
  have hstart := hvalid front (middle ++ rest)
  have hstop := hvalid (front ++ middle) rest
  rw [← List.append_assoc] at hstart
  rw [String.utf8Len_append] at hstop
  rw [piece, if_pos ⟨Nat.le_add_right _ _, hstart, hstop⟩, String.extract_of_valid]

/-- Pieces of a text in which digits stand behind other characters are what these digits spell. -/
theorem readPieces_of_spells (front : List Char) {cs : List Char} {bytes : List UInt8}
    (h : Spells cs bytes) :
    readPieces (String.ofList (front ++ cs)) (List.range' (String.utf8Len front) bytes.length 2)
      = .ok (some bytes) := by
  induction cs using List.twoStepInduction generalizing front bytes with
  | nil =>
    rw [spells_nil_iff.mp h]
    rfl
  | singleton c => exact absurd h (not_spells_singleton c bytes)
  | cons_cons high low rest ih =>
    obtain ⟨byte, more, rfl, hpair, hmore⟩ := spells_cons_iff.mp h
    obtain ⟨hv, lv, hhigh, hlow, rfl⟩ := lower_pair_iff.mp hpair
    have hwidth : String.utf8Len [high, low] = 2 := by
      simp [utf8Size_of_digitValue? hhigh, utf8Size_of_digitValue? hlow]
    have hpiece : piece (String.ofList (front ++ high :: low :: rest)) (String.utf8Len front)
        (String.utf8Len front + 2) = .ok (String.ofList [high, low]) := by
      simpa [hwidth] using piece_append front [high, low] rest
    have hrest : readPieces (String.ofList (front ++ high :: low :: rest))
        (List.range' (String.utf8Len front + 2) more.length 2) = .ok (some more) := by
      simpa [hwidth] using ih (front ++ [high, low]) hmore
    rw [List.length_cons, List.range'_succ, readPieces, bind_of_ok hpiece, byteOf?_pair hhigh hlow]
    dsimp only
    rw [bind_of_ok hrest]
    rfl

theorem decodePieces_eq (text : String) : decodePieces text = .ok (decode? text) := by
  have hwidth : (∀ c ∈ plainDigits text, (digitValue? c).isSome = true) →
      (String.ofList (plainDigits text)).utf8ByteSize = (plainDigits text).length := by
    intro hall
    rw [String.utf8ByteSize_ofList, utf8Len_of_digits hall]
  rw [decodePieces, String.toList_ofList]
  by_cases hspelled : ∃ bytes, Spells (plainDigits text) bytes
  · obtain ⟨heven, hall⟩ := exists_spells_iff.mp hspelled
    obtain ⟨bytes, hbytes⟩ := hspelled
    have hhalf : (plainDigits text).length / 2 = bytes.length := by
      rw [hbytes.length_eq, Nat.mul_div_cancel_left _ Nat.two_pos]
    rw [hwidth hall, if_pos ⟨heven, List.all_eq_true.mpr hall⟩, hhalf,
      decode?_eq_some_iff.mpr hbytes]
    exact readPieces_of_spells [] hbytes
  · have hnone : decode? text = none := by
      rw [Option.eq_none_iff_forall_ne_some]
      intro bytes hbytes
      exact hspelled ⟨bytes, decode?_eq_some_iff.mp hbytes⟩
    rw [hnone, if_neg]
    rintro ⟨heven, hdigits⟩
    have hall := List.all_eq_true.mp hdigits
    rw [hwidth hall] at heven
    exact hspelled (exists_spells_iff.mpr ⟨heven, hall⟩)

/-! ## What a text spells -/

/-- Characters without a mark `0x` in front. -/
def unmarked (cs : List Char) : List Char := if ['0', 'x'].isPrefixOf cs then cs.drop 2 else cs

/-- What a text spells: white space is left out, then a mark in front, and what is left is in lower
case. -/
def spelled (text : String) : String :=
  String.ofList ((unmarked (text.toList.filter fun c ↦ !Text.isWhitespace c)).map Char.toLower)

theorem unmarked_plainDigits (text : String) :
    unmarked (text.toList.filter fun c ↦ !Text.isWhitespace c) = plainDigits text := by
  rw [unmarked, plainDigits]
  generalize text.toList.filter (fun c ↦ !Text.isWhitespace c) = visible
  by_cases hmark : ['0', 'x'].isPrefixOf visible
  · obtain ⟨rest, rfl⟩ := List.isPrefixOf_iff_prefix.mp hmark
    rfl
  · rw [if_neg hmark]
    split
    · exact absurd rfl hmark
    · rfl

theorem decode?_eq_some_iff_spelled {text : String} {bytes : List UInt8} :
    decode? text = some bytes ↔ spelled text = encode bytes := by
  rw [decode?_eq_some_iff, spelled, unmarked_plainDigits, encode, String.ofList_inj, Spells]

theorem mem_digits {bytes : List UInt8} {c : Char} (h : c ∈ bytes.flatMap digits) :
    ∃ n < 16, c = digit n := by
  obtain ⟨byte, -, hc⟩ := List.mem_flatMap.mp h
  have hbyte : byte.toNat < 256 := byte.toNat_lt
  rcases List.mem_pair.mp hc with rfl | rfl
  · exact ⟨_, by omega, rfl⟩
  · exact ⟨_, by omega, rfl⟩

/-- What is written spells itself. -/
theorem spelled_encode (bytes : List UInt8) : spelled (encode bytes) = encode bytes := by
  have hdigits : ∀ n < 16, (digit n).toLower = digit n ∧ digit n ≠ 'x' ∧
      Text.isWhitespace (digit n) = false := by decide
  have hall : ∀ c ∈ bytes.flatMap digits, c.toLower = c ∧ c ≠ 'x' ∧
      Text.isWhitespace c = false := by
    intro c hc
    obtain ⟨n, hn, rfl⟩ := mem_digits hc
    exact hdigits n hn
  have hvisible : ∀ c ∈ bytes.flatMap digits, (!Text.isWhitespace c) = true := by
    intro c hc
    rw [(hall c hc).2.2]
    rfl
  have hmark : ¬['0', 'x'].isPrefixOf (bytes.flatMap digits) = true := by
    intro hfront
    obtain ⟨rest, heq⟩ := List.isPrefixOf_iff_prefix.mp hfront
    have hx : 'x' ∈ bytes.flatMap digits := by
      rw [← heq]
      exact List.mem_append_left _ (by decide)
    exact (hall 'x' hx).2.1 rfl
  rw [spelled, encode, String.toList_ofList, List.filter_eq_self.mpr hvisible, unmarked,
    if_neg hmark, List.map_congr_left fun c hc ↦ (hall c hc).1, List.map_id']

/-- **Hexadecimal input is read exactly.** A text is read as bytes if and only if what it spells is
their written form, and else it is refused. Reading it in pieces of two bytes comes to the same and
never cuts a character. What is written is read back. -/
theorem decode?_iff_spelled (text : String) :
    (∀ bytes, decode? text = some bytes ↔ spelled text = encode bytes) ∧
    (decode? text = none ↔ ∀ bytes, spelled text ≠ encode bytes) ∧
    decodePieces text = .ok (decode? text) ∧
    ∀ bytes, decode? (encode bytes) = some bytes := by
  refine ⟨fun _ ↦ decode?_eq_some_iff_spelled, ?_, decodePieces_eq text, fun bytes ↦ ?_⟩
  · rw [Option.eq_none_iff_forall_ne_some]
    exact forall_congr' fun bytes ↦ not_congr decode?_eq_some_iff_spelled
  · exact decode?_eq_some_iff_spelled.mpr (spelled_encode bytes)

/-- A text that has not been looked at can be cut inside a character. -/
example : readPieces "aéb" [0, 2] = .error ⟨0, 2⟩ := rfl

end SchemaCodec.Hex
