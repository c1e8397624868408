import Mathlib.Data.List.Basic
import SchemaCodec.Json.Reader
import SchemaCodec.Json.Writer
import SchemaCodec.Proofs.Decimal

/-!
# Strings and integers of JSON texts

What the writer puts down for a string or an integer is read as this string or this integer,
whatever stands behind it. A string ends at its closing quote. A number has no end of its own: it
runs on as long as digits, a point or an exponent follow, so the text behind it must begin with
something else.
-/

namespace SchemaCodec.Json

/-! ## Strings -/

/-- The characters that stand for one character of a string. -/
def escape (c : Char) : List Char := (appendChar "" c).toList

/-- The characters of a string, in its quotes. -/
def quoted (s : String) : List Char := '"' :: (s.toList.flatMap escape ++ ['"'])

theorem appendChar_eq (out : String) (c : Char) :
    (appendChar out c).toList = out.toList ++ escape c := by
  simp only [escape, appendChar]
  split_ifs <;> simp

theorem appendString_eq (out s : String) :
    (appendString out s).toList = out.toList ++ quoted s := by
  have hchars : ∀ (cs : List Char) (out : String),
      (cs.foldl appendChar out).toList = out.toList ++ cs.flatMap escape := by
    intro cs
    induction cs with
    | nil => simp
    | cons c rest ih => simp [ih, appendChar_eq]
  simp [appendString, hchars, quoted]

/-- The digits of a control character are read as its number. -/
theorem unit?_digits {n : Nat} (h : n < 0x20) :
    unit? '0' '0' (Hex.digit (n / 16)) (Hex.digit (n % 16)) = some n := by
  revert n
  decide

theorem charOfUnit?_toNat {c : Char} (h : c.toNat < 0x20) : charOfUnit? c.toNat = some c := by
  rw [charOfUnit?, if_neg (by omega), Char.ofNat_toNat]

theorem readString_plain {c : Char} (hquote : c ≠ '"') (hslash : c ≠ '\\')
    (hplain : ¬ c.toNat < 0x20) (read rest : List Char) :
    readString read (c :: rest) = readString (c :: read) rest := by
  rw [readString.eq_def]
  split
  all_goals simp_all

/-- What stands for a character is read as this character. -/
theorem readString_escape (c : Char) (read rest : List Char) :
    readString read (escape c ++ rest) = readString (c :: read) rest := by
  rw [escape, appendChar]
  split_ifs with hquote hslash hn hr ht hb hf hcontrol
  all_goals try (subst c; rfl)
  · have htext : ((("" ++ "\\u00").push (Hex.digit (c.toNat / 16))).push
        (Hex.digit (c.toNat % 16))).toList ++ rest
          = '\\' :: 'u' :: '0' :: '0' :: Hex.digit (c.toNat / 16) :: Hex.digit (c.toNat % 16)
            :: rest := by simp
    rw [htext, readString, unit?_digits hcontrol]
    simp only [charOfUnit?_toNat hcontrol]
  · have htext : ("".push c).toList ++ rest = c :: rest := by simp
    rw [htext, readString_plain hquote hslash hcontrol]

/-- A string is read from behind its opening quote up to the closing one. -/
theorem readString_quoted (s : String) (rest : List Char) :
    readString [] ((quoted s).tail ++ rest) = some (s, rest) := by
  have hchars : ∀ (cs read : List Char),
      readString read (cs.flatMap escape ++ '"' :: rest)
        = some (String.ofList (read.reverse ++ cs), rest) := by
    intro cs
    induction cs with
    | nil => intro read; rw [List.append_nil]; rfl
    | cons c cs ih =>
      intro read
      rw [List.flatMap_cons, List.append_assoc, readString_escape, ih, List.reverse_cons,
        List.append_assoc]
      rfl
  have htext : (quoted s).tail ++ rest = s.toList.flatMap escape ++ '"' :: rest := by simp [quoted]
  rw [htext, hchars, List.reverse_nil, List.nil_append, String.ofList_toList]

/-! ## Integers -/

/-- A text that no number runs on into. -/
def EndsNumber (rest : List Char) : Prop :=
  ∀ c ∈ rest.head?, c.isDigit = false ∧ c ≠ '.' ∧ c ≠ 'e' ∧ c ≠ 'E'

theorem foldDigits_toDigits (n : Nat) : Decimal.foldDigits 0 (Nat.toDigits 10 n) = n := by
  have hfold : ∀ (digits : List Char) (m : Nat),
      Decimal.foldDigits m digits = Nat.ofDigitChars 10 digits m := by
    intro digits
    induction digits with
    | nil => intro m; rw [Nat.ofDigitChars_nil]; rfl
    | cons c rest ih =>
      intro m
      rw [Nat.ofDigitChars_cons, ← ih, Nat.mul_comm]
      rfl
  rw [hfold, Nat.ofDigitChars_ten_toDigits]

/-- A positive number is written without a zero in front. -/
theorem exists_toDigits {n : Nat} (h : 0 < n) :
    ∃ c rest, Nat.toDigits 10 n = c :: rest ∧ c ≠ '0' := by
  induction n using Nat.strong_induction_on with
  | _ n ih =>
    rw [Nat.toDigits_eq_if (by decide)]
    split
    · next hsmall =>
      refine ⟨_, [], rfl, ?_⟩
      have hdigit : ∀ m < 10, 0 < m → Nat.digitChar m ≠ '0' := by decide
      exact hdigit n hsmall h
    · next hlarge =>
      obtain ⟨c, rest, htext, hc⟩ := ih (n / 10) (by omega) (by omega)
      exact ⟨c, rest ++ [Nat.digitChar (n % 10)], by rw [htext]; rfl, hc⟩

theorem digitRun?_toDigits (n : Nat) {rest : List Char} (hrest : EndsNumber rest) :
    digitRun? (Nat.toDigits 10 n ++ rest) = some (Nat.toDigits 10 n, rest) := by
  have hdigits : ∀ c ∈ Nat.toDigits 10 n, c.isDigit = true :=
    fun _ ↦ Nat.isDigit_of_mem_toDigits (by decide) (by decide)
  have htake : rest.takeWhile Char.isDigit = [] := by
    cases rest with
    | nil => rfl
    | cons c rest => rw [List.takeWhile_cons_of_neg]; simp [(hrest c rfl).1]
  have hdrop : rest.dropWhile Char.isDigit = rest := by
    cases rest with
    | nil => rfl
    | cons c rest => rw [List.dropWhile_cons_of_neg]; simp [(hrest c rfl).1]
  have hrun : digitRun (Nat.toDigits 10 n ++ rest) = (Nat.toDigits 10 n, rest) := by
    rw [digitRun, List.takeWhile_append_of_pos hdigits, List.dropWhile_append_of_pos hdigits, htake,
      hdrop, List.append_nil]
  rw [digitRun?, hrun]
  exact if_neg (by simp [Nat.toDigits_ne_nil])

/-- The digits of a number are its whole part. -/
theorem wholePart?_toDigits (n : Nat) {rest : List Char} (hrest : EndsNumber rest) :
    wholePart? (Nat.toDigits 10 n ++ rest) = some (Nat.toDigits 10 n, rest) := by
  cases n with
  | zero => rfl
  | succ n =>
    obtain ⟨c, digits, htext, hc⟩ := exists_toDigits n.succ_pos
    have hrun := digitRun?_toDigits (n + 1) hrest
    rw [htext] at hrun ⊢
    rw [List.cons_append, wholePart?.eq_def]
    split
    · next heq => exact absurd (List.cons.inj heq).1 hc
    · exact hrun

theorem fractionPart?_of_endsNumber {rest : List Char} (h : EndsNumber rest) :
    fractionPart? rest = some (none, rest) := by
  rw [fractionPart?.eq_def]
  split
  · exact absurd rfl (h _ rfl).2.1
  · rfl

theorem exponentPart?_of_endsNumber {rest : List Char} (h : EndsNumber rest) :
    exponentPart? rest = some (none, rest) := by
  rw [exponentPart?.eq_def]
  split
  · exact absurd rfl (h _ rfl).2.2.1
  · exact absurd rfl (h _ rfl).2.2.2
  · rfl

/-- The text of an integer starts with its sign or with a digit. -/
theorem exists_intText (i : Int) :
    ∃ c rest, (Decimal.intText i).toList = c :: rest ∧
      (c = '-' ∧ i < 0 ∧ rest = Nat.toDigits 10 i.natAbs ∨
        c.isDigit = true ∧ ¬ i < 0 ∧ c :: rest = Nat.toDigits 10 i.natAbs) := by
  rw [Decimal.intText]
  split
  · next hneg =>
    exact ⟨'-', Nat.toDigits 10 i.natAbs, by simp [Decimal.natText], .inl ⟨rfl, hneg, rfl⟩⟩
  · next hpos =>
    cases hdigits : Nat.toDigits 10 i.natAbs with
    | nil => exact absurd hdigits Nat.toDigits_ne_nil
    | cons c rest =>
      have hdigit : c.isDigit = true := Nat.isDigit_of_mem_toDigits (b := 10) (n := i.natAbs)
        (by decide) (by decide) (hdigits ▸ List.mem_cons_self)
      exact ⟨c, rest, by simp [Decimal.natText, hdigits], .inr ⟨hdigit, hpos, rfl⟩⟩

/-- A sign or a digit is none of the other characters. -/
theorem ne_of_signOrDigit {c d : Char} (hc : c = '-' ∨ c.isDigit = true)
    (hd : d ≠ '-' ∧ d.isDigit = false) : c ≠ d := by
  rintro rfl
  obtain rfl | hdigit := hc
  · exact hd.1 rfl
  · exact Bool.false_ne_true (hd.2.symm.trans hdigit)

theorem forall_ne_of_signOrDigit {c : Char} {others : List Char} (hc : c = '-' ∨ c.isDigit = true)
    (hothers : (others.all fun d ↦ d ≠ '-' && !d.isDigit) = true) : ∀ d ∈ others, c ≠ d := by
  intro d hd
  have hother := List.all_eq_true.mp hothers d hd
  exact ne_of_signOrDigit hc (by simpa using hother)

theorem isBlank_of_signOrDigit {c : Char} (h : c = '-' ∨ c.isDigit = true) : isBlank c = false := by
  have hother : ∀ d ∈ [' ', '\n', '\t', '\r'], c ≠ d := forall_ne_of_signOrDigit h rfl
  simpa [isBlank, and_assoc] using hother

/-- The parts of the text of an integer: a sign and digits. -/
theorem numberParts?_intText (i : Int) {rest : List Char} (h : EndsNumber rest) :
    numberParts? ((Decimal.intText i).toList ++ rest)
      = some (⟨decide (i < 0), Nat.toDigits 10 i.natAbs, none, none⟩, rest) := by
  obtain ⟨c, digits, htext, ⟨rfl, hneg, rfl⟩ | ⟨hdigit, hpos, hdigits⟩⟩ := exists_intText i
  · rw [htext, decide_eq_true hneg, List.cons_append, numberParts?, wholePart?_toDigits _ h]
    simp only [Option.bind_eq_bind, Option.bind_some, fractionPart?_of_endsNumber h,
      exponentPart?_of_endsNumber h]
  · rw [htext, decide_eq_false hpos, List.cons_append, numberParts?, ← List.cons_append, hdigits,
      wholePart?_toDigits _ h]
    · simp only [Option.bind_eq_bind, Option.bind_some, fractionPart?_of_endsNumber h,
        exponentPart?_of_endsNumber h]
    · -- a digit is no sign
      rintro cs heq
      rw [(List.cons.inj heq).1] at hdigit
      exact absurd hdigit (by decide)

/-- An integer that a 64-bit word holds, signed or unsigned. -/
def FitsWord (i : Int) : Prop := -(Nat.pow 2 63 : Int) ≤ i ∧ i < (Nat.pow 2 64 : Int)

/-- Digits and a sign denote the integer that a 64-bit word holds. -/
theorem number?_of_fitsWord {i : Int} (h : FitsWord i) :
    (⟨decide (i < 0), Nat.toDigits 10 i.natAbs, none, none⟩ : NumberParts).number?
      = some (.integer i) := by
  obtain ⟨hlow, hhigh⟩ := h
  rw [Nat.pow_eq] at hlow hhigh
  rw [NumberParts.number?]
  dsimp only
  rw [foldDigits_toDigits]
  by_cases hneg : i < 0
  · have hint : -(i.natAbs : Int) = i := by omega
    have hsize : i.natAbs ≤ Nat.pow 2 63 := by rw [Nat.pow_eq]; omega
    have hpos : 0 < i.natAbs := by omega
    rw [if_neg (by simp [hneg]), if_pos (by simp only [hneg, hpos, hsize]; rfl), hint]
  · have hint : (i.natAbs : Int) = i := by omega
    have hsize : i.natAbs < Nat.pow 2 64 := by rw [Nat.pow_eq]; omega
    rw [if_pos (by simp only [hneg, hsize]; rfl), hint]

end SchemaCodec.Json
