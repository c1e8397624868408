import SchemaCodec.Proofs.Syntax.Tiling

/-!
# Tokens are longest matches

The rules of the language are two tables here, one of fixed texts and one of runs of characters, and
say nothing about their order or about how a text is gone through. A token is right if a rule for
its kind reads it, if no rule reads more at its place, and if it is a keyword where a keyword and a
name are equally long. The lexer does not go through such tables. It looks at the first character
and takes as many more as it can.

## One front for each first character

No two rules begin with the same character, but for the keywords, which are names as well, and the
two ways to end a line, which differ in it. So it is enough to compare a front that some rule reads
with the one token that the first character leads to.

## Characters that no rule reads

These are gathered until something is read again. What is known of them is known from the characters
behind them, so the statement about a text being cut speaks of what comes behind the tokens so far,
as the one about gaps does.

## Why there are no other tokens

Where a rule reads something the longest match is one (`Longest.unique`). Where two lists of tokens
both have characters there at which nothing is read, neither can go on behind the end of the other,
because something is read at that place. So a list of tokens that covers the text and keeps to the
rules is the one that the lexer gives (`eq_lex_iff`).
-/

namespace SchemaCodec.Syntax.Token

/-! ## The rules -/

/-- The tokens that are one text. -/
def fixedTexts : List (Kind × String) :=
  [(.parenOpen, "("), (.parenClose, ")"), (.braceOpen, "\x7b"), (.braceClose, "\x7d"),
    (.comma, ","), (.colon, ":"), (.dot, "."), (.equals, "="), (.kwModule, "module"),
    (.kwRecord, "Record"), (.kwChoice, "Choice"), (.newline, "\n"), (.newline, "\r\n")]

/-- The tokens that are a character of one class and any number of characters of another one. -/
def runs : List (Kind × (Char → Bool) × (Char → Bool)) :=
  [(.id, fun c ↦ c.isAlpha || c = '_', fun c ↦ c.isAlphanum || c = '_'),
    (.whitespace, fun c ↦ c = ' ' || c = '\t', fun c ↦ c = ' ' || c = '\t'),
    (.comment, fun c ↦ c = '#', fun c ↦ c ≠ '\n')]

/-- A rule for the kind reads these characters. -/
inductive Reads (kind : Kind) : List Char → Prop
  | fixed {text : String} (h : (kind, text) ∈ fixedTexts) : Reads kind text.toList
  | run {first more : Char → Bool} (h : (kind, first, more) ∈ runs) {c : Char} {cs : List Char}
    (hc : first c = true) (hcs : ∀ d ∈ cs, more d = true) : Reads kind (c :: cs)

def keywords : List Kind := [.kwModule, .kwRecord, .kwChoice]

/-- A token of this kind at the front of a text is the longest that a rule reads there, and of those
that are as long it is the keyword. -/
structure Longest (kind : Kind) (chars text : List Char) : Prop where
  reads : Reads kind chars
  front : chars <+: text
  longest : ∀ other more, Reads other more → more <+: text → more.length ≤ chars.length
  first : ∀ other, Reads other chars → other = kind ∨ other = .id ∧ kind ∈ keywords

/-- At none of these characters does a rule read anything, in front of the text behind them. -/
def Unread (chars behind : List Char) : Prop :=
  ∀ skipped c rest, chars = skipped ++ c :: rest →
    ∀ kind front, Reads kind front → ¬front <+: c :: rest ++ behind

theorem Reads.ne_garbage {kind : Kind} {chars : List Char} (h : Reads kind chars) :
    kind ≠ .garbage := by
  rintro rfl
  cases h with
  | fixed h => simp [fixedTexts] at h
  | run h => simp [runs] at h

theorem isNameStart_eq (c : Char) : isNameStart c = (c.isAlpha || c = '_') := by
  have hupper : c.isUpper = ('A' ≤ c && c ≤ 'Z') := Bool.decide_and _ _
  have hlower : c.isLower = ('a' ≤ c && c ≤ 'z') := rfl
  have halpha : c.isAlpha = (c.isUpper || c.isLower) := rfl
  rw [isNameStart, halpha, hupper, hlower, Bool.or_comm (_ && _)]

theorem isNamePart_eq (c : Char) : isNamePart c = (c.isAlphanum || c = '_') := by
  rw [isNamePart, isNameStart_eq, Char.isAlphanum, Char.isDigit, Bool.or_right_comm]
  rfl

theorem reads_id {c : Char} {cs : List Char} (hc : isNameStart c = true)
    (hcs : ∀ d ∈ cs, isNamePart d = true) : Reads .id (c :: cs) := by
  have hrule : (Kind.id, isNameStart, isNamePart) ∈ runs := by
    rw [funext isNameStart_eq, funext isNamePart_eq]
    exact List.mem_cons_self
  exact .run hrule hc hcs

theorem reads_wordKind {c : Char} {cs : List Char} (hc : isNameStart c = true)
    (hcs : ∀ d ∈ cs, isNamePart d = true) : Reads (wordKind (c :: cs)) (c :: cs) := by
  rw [wordKind]
  split
  · next h => rw [h]; exact .fixed (by simp [fixedTexts])
  · split
    · next h => rw [h]; exact .fixed (by simp [fixedTexts])
    · split
      · next h => rw [h]; exact .fixed (by simp [fixedTexts])
      · exact reads_id hc hcs

theorem reads_blank {c : Char} {cs : List Char} (hc : isBlank c = true)
    (hcs : ∀ d ∈ cs, isBlank d = true) : Reads .whitespace (c :: cs) := by
  have hrule : (Kind.whitespace, isBlank, isBlank) ∈ runs :=
    List.mem_cons_of_mem _ List.mem_cons_self
  exact .run hrule hc hcs

theorem reads_comment {cs : List Char} (hcs : ∀ d ∈ cs, d ≠ '\n') : Reads .comment ('#' :: cs) :=
  .run (List.mem_cons_of_mem _ (List.mem_cons_of_mem _ List.mem_cons_self)) rfl
    fun d hd ↦ decide_eq_true (hcs d hd)

theorem reads_symbol {c : Char} {kind : Kind} (h : symbolKind? c = some kind) : Reads kind [c] := by
  have hfixed (text : String) (htext : text.toList = [c]) (hrule : (kind, text) ∈ fixedTexts) :
      Reads kind [c] := htext ▸ .fixed hrule
  refine hfixed (String.ofList [c]) String.toList_ofList ?_
  rw [symbolKind?.eq_def] at h
  split at h <;> cases h <;> decide

/-! ## The token at the front -/

theorem lexeme?_word {c : Char} (hc : isNameStart c = true) (cs : List Char) :
    lexeme? (c :: cs)
      = some (wordKind (c :: cs.takeWhile isNamePart), (cs.takeWhile isNamePart).length) := by
  rw [lexeme?.eq_def]
  split
  · next heq => cases heq
  · next heq =>
    obtain ⟨rfl, rfl⟩ := List.cons.inj heq
    exact absurd hc (by decide)
  · next heq =>
    obtain ⟨rfl, rfl⟩ := List.cons.inj heq
    exact if_pos hc

theorem lexeme?_blank {c : Char} (hc : isBlank c = true) (cs : List Char) :
    lexeme? (c :: cs) = some (.whitespace, (cs.takeWhile isBlank).length) := by
  rcases (by simpa [isBlank] using hc : c = ' ' ∨ c = '\t') with rfl | rfl <;> rfl

theorem lexeme?_comment (cs : List Char) :
    lexeme? ('#' :: cs) = some (.comment, (cs.takeWhile (· ≠ '\n')).length) := rfl

theorem lexeme?_symbol {c : Char} {kind : Kind} (h : symbolKind? c = some kind) (cs : List Char) :
    lexeme? (c :: cs) = some (kind, 0) := by
  rw [symbolKind?.eq_def] at h
  split at h <;> cases h <;> rfl

theorem lexeme?_crlf (cs : List Char) : lexeme? ('\r' :: '\n' :: cs) = some (.newline, 1) := rfl

/-- What the lexer takes at the front of a text is what a rule reads. -/
theorem reads_of_lexeme? {c : Char} {rest : List Char} {kind : Kind} {more : Nat}
    (h : lexeme? (c :: rest) = some (kind, more)) : Reads kind (c :: rest.take more) := by
  have htake (p : Char → Bool) : rest.take (rest.takeWhile p).length = rest.takeWhile p :=
    (List.prefix_iff_eq_take.mp (List.takeWhile_prefix p)).symm
  rw [lexeme?.eq_def] at h
  split at h
  · cases h
  · next heq =>
    obtain ⟨rfl, rfl⟩ := List.cons.inj heq
    obtain ⟨rfl, rfl⟩ := Prod.mk.inj (Option.some.inj h)
    have hrule : (Kind.newline, "\r\n") ∈ fixedTexts := by decide
    exact .fixed hrule
  · next heq =>
    obtain ⟨rfl, rfl⟩ := List.cons.inj heq
    split at h
    · next hc =>
      obtain ⟨rfl, rfl⟩ := Prod.mk.inj (Option.some.inj h)
      rw [htake]
      exact reads_wordKind hc fun d hd ↦ List.mem_takeWhile_imp hd
    · split at h
      · next hc =>
        obtain ⟨rfl, rfl⟩ := Prod.mk.inj (Option.some.inj h)
        rw [htake]
        exact reads_blank hc fun d hd ↦ List.mem_takeWhile_imp hd
      · split at h
        · next hc =>
          obtain ⟨rfl, rfl⟩ := Prod.mk.inj (Option.some.inj h)
          rw [htake, hc]
          exact reads_comment fun d hd ↦ by simpa using List.mem_takeWhile_imp hd
        · obtain ⟨found, hfound, hsame⟩ := Option.map_eq_some_iff.mp h
          obtain ⟨rfl, rfl⟩ := Prod.mk.inj hsame
          exact reads_symbol hfound

/-- The token that the lexer takes where a rule reads something: it is no shorter, and if it is no
longer either, it is of the same kind or a keyword. -/
def Beats (found : Kind × Nat) (kind : Kind) (front : List Char) : Prop :=
  front.length ≤ found.2 + 1 ∧
    (front.length = found.2 + 1 → kind = found.1 ∨ kind = .id ∧ found.1 ∈ keywords)

theorem wordKind_cases (word : List Char) : wordKind word = .id ∨ wordKind word ∈ keywords := by
  rw [wordKind]
  split_ifs <;> decide

/-- Words against each other: the lexer takes all characters that can continue a name. -/
theorem beats_word {c : Char} {cs : List Char} {kind : Kind} (hc : isNameStart c = true)
    (hcs : ∀ d ∈ cs, isNamePart d = true) (hkind : kind = .id ∨ kind = wordKind (c :: cs))
    (tail : List Char) : ∃ found, lexeme? (c :: cs ++ tail) = some found ∧
      Beats found kind (c :: cs) := by
  rw [List.cons_append, lexeme?_word hc, List.takeWhile_append_of_pos hcs]
  refine ⟨_, rfl, by simp, fun hlength ↦ ?_⟩
  have htail : tail.takeWhile isNamePart = [] := by simpa using hlength
  rw [htail, List.append_nil]
  rcases hkind with rfl | rfl
  · rcases wordKind_cases (c :: cs) with hid | hkeyword
    · exact .inl hid.symm
    · exact .inr ⟨rfl, hkeyword⟩
  · exact .inl rfl

theorem beats_run {c : Char} {cs : List Char} {kind : Kind} {p : Char → Bool}
    (hcs : ∀ d ∈ cs, p d = true) (tail : List Char) :
    Beats (kind, ((cs ++ tail).takeWhile p).length) kind (c :: cs) := by
  rw [List.takeWhile_append_of_pos hcs]
  exact ⟨by simp, fun _ ↦ .inl rfl⟩

/-- Where a rule reads something, the lexer takes a token that is right against it. -/
theorem exists_lexeme? {kind : Kind} {front text : List Char} (h : Reads kind front)
    (hfront : front <+: text) : ∃ found, lexeme? text = some found ∧ Beats found kind front := by
  obtain ⟨tail, rfl⟩ := hfront
  have hsymbol (c : Char) (hc : symbolKind? c = some kind) :
      ∃ found, lexeme? ([c] ++ tail) = some found ∧ Beats found kind [c] :=
    ⟨_, lexeme?_symbol hc tail, Nat.le_refl _, fun _ ↦ .inl rfl⟩
  have hword (c : Char) (cs : List Char) (hc : isNameStart c = true)
      (hcs : cs.all isNamePart = true) (hkind : wordKind (c :: cs) = kind) :
      ∃ found, lexeme? (c :: cs ++ tail) = some found ∧ Beats found kind (c :: cs) :=
    beats_word hc (List.all_eq_true.mp hcs) (.inr hkind.symm) tail
  cases h with
  | fixed hrule =>
    simp only [fixedTexts, List.mem_cons, Prod.mk.injEq, List.not_mem_nil, or_false] at hrule
    rcases hrule with ⟨rfl, rfl⟩ | ⟨rfl, rfl⟩ | ⟨rfl, rfl⟩ | ⟨rfl, rfl⟩ | ⟨rfl, rfl⟩ | ⟨rfl, rfl⟩ |
      ⟨rfl, rfl⟩ | ⟨rfl, rfl⟩ | ⟨rfl, rfl⟩ | ⟨rfl, rfl⟩ | ⟨rfl, rfl⟩ | ⟨rfl, rfl⟩ | ⟨rfl, rfl⟩
    · exact hsymbol '(' rfl
    · exact hsymbol ')' rfl
    · exact hsymbol '{' rfl
    · exact hsymbol '}' rfl
    · exact hsymbol ',' rfl
    · exact hsymbol ':' rfl
    · exact hsymbol '.' rfl
    · exact hsymbol '=' rfl
    · exact hword 'm' "odule".toList rfl rfl rfl
    · exact hword 'R' "ecord".toList rfl rfl rfl
    · exact hword 'C' "hoice".toList rfl rfl rfl
    · exact hsymbol '\n' rfl
    · exact ⟨_, lexeme?_crlf tail, Nat.le_refl _, fun _ ↦ .inl rfl⟩
  | run hrule hc hcs =>
    simp only [runs, List.mem_cons, Prod.mk.injEq, List.not_mem_nil, or_false] at hrule
    rcases hrule with ⟨rfl, rfl, rfl⟩ | ⟨rfl, rfl, rfl⟩ | ⟨rfl, rfl, rfl⟩
    · have hname : isNameStart _ = true := (isNameStart_eq _).trans hc
      exact beats_word hname (fun d hd ↦ (isNamePart_eq d).trans (hcs d hd)) (.inl rfl) tail
    · exact ⟨_, lexeme?_blank hc _, beats_run hcs tail⟩
    · obtain rfl := of_decide_eq_true hc
      exact ⟨_, lexeme?_comment _, beats_run hcs tail⟩

/-- **The token at the front** is the longest that a rule reads there. -/
theorem longest_of_lexeme? {c : Char} {rest : List Char} {kind : Kind} {more : Nat}
    (h : lexeme? (c :: rest) = some (kind, more)) :
    Longest kind (c :: rest.take more) (c :: rest) := by
  have hlength : (c :: rest.take more).length = more + 1 := by
    rw [List.length_cons, List.length_take, Nat.min_eq_left (lexeme?_le h)]
  have hfront : c :: rest.take more <+: c :: rest :=
    (List.prefix_cons_inj c).mpr (List.take_prefix more rest)
  have hbeats (other : Kind) (front : List Char) (hreads : Reads other front)
      (hfront : front <+: c :: rest) : Beats (kind, more) other front := by
    obtain ⟨found, hfound, hbeats⟩ := exists_lexeme? hreads hfront
    rwa [← Option.some_inj.mp (h.symm.trans hfound)] at hbeats
  refine ⟨reads_of_lexeme? h, hfront, fun other front hreads hother ↦ ?_, fun other hreads ↦ ?_⟩
  · rw [hlength]
    exact (hbeats other front hreads hother).1
  · exact (hbeats other _ hreads hfront).2 hlength

theorem not_prefix_of_lexeme?_none {text : List Char} (h : lexeme? text = none) {kind : Kind}
    {front : List Char} (hreads : Reads kind front) : ¬front <+: text := by
  intro hfront
  obtain ⟨found, hfound, -⟩ := exists_lexeme? hreads hfront
  rw [h] at hfound
  cases hfound

/-! ## All tokens -/

/-- The characters of tokens one after another. -/
def chars (tokens : List Token) : List Char := tokens.flatMap (·.text.toList)

theorem chars_cons (token : Token) (after : List Token) :
    chars (token :: after) = token.text.toList ++ chars after := List.flatMap_cons

/-- Tokens of which each is the longest match in front of those behind it, or holds characters at
which nothing is read, as many as there are. -/
inductive Munched : List Token → Prop
  | nil : Munched []
  | read {token : Token} {after : List Token}
    (h : Longest token.kind token.text.toList (token.text.toList ++ chars after))
    (hafter : Munched after) : Munched (token :: after)
  | unread {token : Token} {after : List Token} (hkind : token.kind = .garbage)
    (htext : token.text.toList ≠ []) (h : Unread token.text.toList (chars after))
    (hnext : ∀ next ∈ after.head?, next.kind ≠ .garbage) (hafter : Munched after) :
    Munched (token :: after)

theorem Unread.nil (behind : List Char) : Unread [] behind := by
  intro skipped c rest heq
  exact absurd heq.symm (by simp)

theorem Unread.snoc {chars behind : List Char} {c : Char} (h : Unread chars (c :: behind))
    (hc : lexeme? (c :: behind) = none) : Unread (chars ++ [c]) behind := by
  intro skipped d rest heq kind front hreads
  rcases List.eq_nil_or_concat' rest with rfl | ⟨between, last, rfl⟩
  · -- the last of the characters is the new one
    obtain ⟨rfl, rfl⟩ : chars = skipped ∧ c = d := by simpa using heq
    exact not_prefix_of_lexeme?_none hc hreads
  · rw [← List.cons_append, ← List.append_assoc] at heq
    obtain ⟨hchars, hlast⟩ := List.append_inj' heq rfl
    rw [← hlast, ← List.cons_append, List.append_assoc]
    exact h skipped d between hchars kind front hreads

/-- The gathered characters become a token at which nothing is read, if there are any. -/
theorem Cut.flush_munched (cut : Cut) (stop : Nat) (later : List Token)
    (h : Unread cut.unread.reverse (chars later)) (hlater : Munched later)
    (hnext : ∀ next ∈ later.head?, next.kind ≠ .garbage) :
    ∃ behind, (cut.flush stop).reverse ++ later = cut.tokens.reverse ++ behind ∧
      chars behind = cut.unread.reverse ++ chars later ∧ Munched behind := by
  rw [flush]
  split
  · next hempty =>
    rw [List.isEmpty_iff] at hempty
    exact ⟨later, rfl, by rw [hempty]; rfl, hlater⟩
  · next hunread =>
    let gathered : Token :=
      ⟨.garbage, stop - Text.width cut.unread, String.ofList cut.unread.reverse⟩
    have htext : gathered.text.toList = cut.unread.reverse := String.toList_ofList
    refine ⟨gathered :: later, by rw [List.reverse_cons, List.append_assoc]; rfl, ?_, ?_⟩
    · rw [chars, List.flatMap_cons, htext, ← chars]
    · refine .unread rfl ?_ (by rwa [htext]) hnext hlater
      rw [htext]
      simpa using hunread

/-- Behind the tokens so far come tokens that make up the gathered characters and what is left of
the text behind the latest token, and each of them is right. -/
theorem cutFrom_munched (offset skip : Nat) (cut : Cut) (text : List Char)
    (hskip : skip ≤ text.length) (hunread : skip ≠ 0 → cut.unread = [])
    (h : Unread cut.unread.reverse (text.drop skip)) :
    ∃ later, cutFrom offset skip cut text = cut.tokens.reverse ++ later ∧
      chars later = cut.unread.reverse ++ text.drop skip ∧ Munched later := by
  induction text generalizing offset skip cut with
  | nil =>
    rw [List.drop_nil] at h ⊢
    obtain ⟨behind, heq, hchars, hbehind⟩ :=
      cut.flush_munched offset [] h .nil (by simp)
    rw [List.append_nil] at heq
    exact ⟨behind, heq, hchars, hbehind⟩
  | cons c rest ih =>
    cases skip with
    | succ skip =>
      exact ih _ skip cut (Nat.le_of_succ_le_succ hskip) (fun _ ↦ hunread (Nat.succ_ne_zero _)) h
    | zero =>
      rw [cutFrom]
      dsimp only
      split
      · next kind more hlexeme =>
        let token : Token := ⟨kind, offset, String.ofList (c :: rest.take more)⟩
        obtain ⟨later, heq, hchars, hlater⟩ := ih (offset + c.utf8Size) more
          ⟨token :: cut.flush offset, []⟩ (lexeme?_le hlexeme) (fun _ ↦ rfl) (.nil _)
        have htoken : token.text.toList = c :: rest.take more := String.toList_ofList
        have htext : token.text.toList ++ chars later = c :: rest := by
          rw [htoken, hchars, List.reverse_nil, List.nil_append, List.cons_append,
            List.take_append_drop]
        have hlongest := longest_of_lexeme? hlexeme
        have hmunched : Munched (token :: later) := by
          refine .read ?_ hlater
          rwa [htext, htoken]
        have hchars' : chars (token :: later) = c :: rest := by
          rw [chars_cons, htext]
        obtain ⟨behind, hflush, hbehind, hall⟩ := cut.flush_munched offset (token :: later)
          (by rwa [hchars']) hmunched (by rintro _ ⟨⟩; exact hlongest.reads.ne_garbage)
        rw [heq, List.reverse_cons, List.append_assoc]
        exact ⟨behind, hflush, by rw [hbehind, hchars']; rfl, hall⟩
      · next hlexeme =>
        obtain ⟨later, heq, hchars, hlater⟩ := ih (offset + c.utf8Size) 0
          { cut with unread := c :: cut.unread } (Nat.zero_le _) (fun h ↦ absurd rfl h) (by
            rw [List.reverse_cons]
            exact h.snoc hlexeme)
        refine ⟨later, heq, ?_, hlater⟩
        rw [hchars, List.reverse_cons, List.append_assoc]
        rfl

theorem lex_munched (source : String) : Munched (lex source) := by
  obtain ⟨later, heq, -, hlater⟩ := cutFrom_munched 0 0 ⟨[], []⟩ source.toList (Nat.zero_le _)
    (fun h ↦ absurd rfl h) (.nil _)
  rw [lex, heq]
  exact hlater

/-! ## What a token says -/

theorem Reads.ne_nil {kind : Kind} {chars : List Char} (h : Reads kind chars) : chars ≠ [] := by
  cases h with
  | fixed h =>
    have hall : ∀ rule ∈ fixedTexts, rule.2.toList ≠ [] := by decide
    exact hall _ h
  | run => exact List.cons_ne_nil _ _

/-- No two tokens at the front of a text are right. -/
theorem Longest.unique {kind other : Kind} {chars more text : List Char}
    (h : Longest kind chars text) (h' : Longest other more text) : kind = other ∧ chars = more := by
  have hlength := Nat.le_antisymm (h'.longest kind chars h.reads h.front)
    (h.longest other more h'.reads h'.front)
  obtain rfl : chars = more := by
    rw [List.prefix_iff_eq_take.mp h.front, List.prefix_iff_eq_take.mp h'.front, hlength]
  refine ⟨?_, rfl⟩
  rcases h.first other h'.reads with rfl | ⟨rfl, hkeyword⟩
  · rfl
  · rcases h'.first kind h.reads with hsame | ⟨-, hid⟩
    · exact hsame
    · exact absurd hid (by decide)

/-- The end of a line is one token, if it is that of a carriage return as well. -/
theorem longest_crlf (tail : List Char) : Longest .newline ['\r', '\n'] ('\r' :: '\n' :: tail) :=
  longest_of_lexeme? (lexeme?_crlf tail)

theorem text_of_newline {chars text : List Char} (h : Longest .newline chars text) :
    chars = ['\n'] ∨ chars = ['\r', '\n'] := by
  cases h.reads with
  | @fixed word hrule =>
    have hall : ∀ rule ∈ fixedTexts, rule.1 = .newline →
        rule.2.toList = ['\n'] ∨ rule.2.toList = ['\r', '\n'] := by decide
    exact hall _ hrule rfl
  | run hrule => simp [runs] at hrule

/-- A comment goes on to the end of the line and stops before it. -/
theorem text_of_comment {chars behind : List Char} (h : Longest .comment chars (chars ++ behind)) :
    '\n' ∉ chars ∧ (behind = [] ∨ ∃ tail, behind = '\n' :: tail) := by
  obtain ⟨cs, rfl, hcs⟩ : ∃ cs, chars = '#' :: cs ∧ ∀ d ∈ cs, d ≠ '\n' := by
    cases h.reads with
    | @fixed word hrule =>
      have hall : ∀ rule ∈ fixedTexts, rule.1 ≠ .comment := by decide
      exact absurd rfl (hall _ hrule)
    | @run _ _ hrule c cs hc hcs =>
      simp only [runs, List.mem_cons, Prod.mk.injEq, List.not_mem_nil, or_false, reduceCtorEq,
        false_and, false_or, true_and] at hrule
      obtain ⟨rfl, rfl⟩ := hrule
      exact ⟨cs, by rw [of_decide_eq_true hc], fun d hd ↦ of_decide_eq_true (hcs d hd)⟩
  refine ⟨fun hmem ↦ ?_, ?_⟩
  · rcases List.mem_cons.mp hmem with heq | hmem
    · exact absurd heq (by decide)
    · exact hcs _ hmem rfl
  · cases behind with
    | nil => exact .inl rfl
    | cons d tail =>
      by_cases hd : d = '\n'
      · exact .inr ⟨tail, by rw [hd]⟩
      · -- the character behind would belong to the comment
        have hmore : Reads .comment ('#' :: (cs ++ [d])) :=
          reads_comment fun e he ↦ by
            rcases List.mem_append.mp he with he | he
            · exact hcs e he
            · rwa [List.mem_singleton.mp he]
        have hle := h.longest .comment _ hmore ⟨tail, by simp⟩
        simp at hle

theorem Munched.tail {token : Token} {after : List Token} (h : Munched (token :: after)) :
    Munched after := by
  cases h with
  | read _ hafter | unread _ _ _ _ hafter => exact hafter

theorem Munched.of_append {before later : List Token} (h : Munched (before ++ later)) :
    Munched later := by
  induction before with
  | nil => exact h
  | cons token before ih => exact ih h.tail

theorem Munched.ne_empty {token : Token} {after : List Token} (h : Munched (token :: after)) :
    token.text ≠ "" := by
  intro hempty
  cases h with
  | read h _ => exact h.reads.ne_nil (by rw [hempty]; rfl)
  | unread _ htext _ _ _ => exact htext (by rw [hempty]; rfl)

/-- Every token has a text. -/
theorem lex_ne_empty (source : String) : ∀ token ∈ lex source, token.text ≠ "" := by
  intro token htoken
  obtain ⟨before, after, h⟩ := List.append_of_mem htoken
  exact (h ▸ lex_munched source).of_append.ne_empty

theorem Munched.longest {token : Token} {after : List Token} (h : Munched (token :: after))
    (hkind : token.kind ≠ .garbage) :
    Longest token.kind token.text.toList (token.text.toList ++ chars after) := by
  cases h with
  | read h _ => exact h
  | unread hgarbage _ _ _ _ => exact absurd hgarbage hkind

theorem Munched.unread_of_garbage {token : Token} {after : List Token}
    (h : Munched (token :: after)) (hkind : token.kind = .garbage) :
    Unread token.text.toList (chars after) ∧ ∀ next ∈ after.head?, next.kind ≠ .garbage := by
  cases h with
  | read h _ => exact absurd hkind h.reads.ne_garbage
  | unread _ _ hunread hnext _ => exact ⟨hunread, hnext⟩

/-- Where something is read the token is the one that is right. -/
theorem Munched.eq_of_longest {token : Token} {after : List Token} (h : Munched (token :: after))
    {kind : Kind} {front : List Char}
    (hlongest : Longest kind front (token.text.toList ++ chars after)) :
    token.kind = kind ∧ token.text.toList = front := by
  cases h with
  | read h _ => exact h.unique hlongest
  | unread _ htext hunread _ _ =>
    obtain ⟨c, rest, hchars⟩ := List.exists_cons_of_ne_nil htext
    rw [hchars] at hunread hlongest
    exact absurd hlongest.front (hunread [] c rest rfl kind front hlongest.reads)

/-! ## No other tokens -/

theorem Munched.eq_nil {tokens : List Token} (h : Munched tokens) (hchars : chars tokens = []) :
    tokens = [] := by
  cases tokens with
  | nil => rfl
  | cons token after =>
    rw [chars_cons] at hchars
    exact absurd (String.toList_eq_nil_iff.mp (List.append_eq_nil_iff.mp hchars).1) h.ne_empty

/-- Characters at which nothing is read stop where a token begins that is read. -/
theorem Munched.unread_ends {after : List Token} (h : Munched after)
    (hnext : ∀ next ∈ after.head?, next.kind ≠ .garbage) {before more behind : List Char}
    (hunread : Unread (before ++ more) behind) (hchars : chars after = more ++ behind) :
    more = [] := by
  by_contra hmore
  obtain ⟨c, rest, rfl⟩ := List.exists_cons_of_ne_nil hmore
  cases after with
  | nil => exact absurd hchars.symm (List.cons_ne_nil _ _)
  | cons next later =>
    have hlongest := h.longest (hnext next rfl)
    rw [← chars_cons, hchars] at hlongest
    exact hunread before c rest rfl next.kind _ hlongest.reads hlongest.front

/-- Tokens that hold the same characters begin with the same kind and the same text. -/
theorem Munched.head_unique {token other : Token} {after later : List Token}
    (h : Munched (token :: after)) (h' : Munched (other :: later))
    (hchars : chars (token :: after) = chars (other :: later)) :
    token.kind = other.kind ∧ token.text.toList = other.text.toList := by
  rw [chars_cons, chars_cons] at hchars
  by_cases htoken : token.kind = .garbage
  · by_cases hother : other.kind = .garbage
    · -- neither of the two can go on where the other one has ended
      refine ⟨htoken.trans hother.symm, ?_⟩
      obtain ⟨hunread, hnext⟩ := h.unread_of_garbage htoken
      obtain ⟨hunread', hnext'⟩ := h'.unread_of_garbage hother
      rcases List.append_eq_append_iff.mp hchars with ⟨more, hlonger, hbehind⟩ |
        ⟨more, hlonger, hbehind⟩
      · rw [hlonger] at hunread'
        rw [hlonger, h.tail.unread_ends hnext hunread' hbehind, List.append_nil]
      · rw [hlonger] at hunread
        rw [hlonger, h'.tail.unread_ends hnext' hunread hbehind, List.append_nil]
    · exact h.eq_of_longest (hchars ▸ h'.longest hother)
  · obtain ⟨hkind, htext⟩ := h'.eq_of_longest (hchars ▸ h.longest htoken)
    exact ⟨hkind.symm, htext.symm⟩

/-- Tokens without gaps that are right are determined by where they begin and what they hold. -/
theorem Munched.unique {tokens others : List Token} (h : Munched tokens) (h' : Munched others)
    (hchars : chars tokens = chars others) {start stop stop' : Nat}
    (htiles : Tiles start tokens stop) (htiles' : Tiles start others stop') : tokens = others := by
  induction tokens generalizing others start with
  | nil => exact (h'.eq_nil hchars.symm).symm
  | cons token after ih =>
    cases others with
    | nil => exact h.eq_nil hchars
    | cons other later =>
      obtain ⟨hkind, htext⟩ := h.head_unique h' hchars
      have hstart : token.start = other.start := htiles.1.trans htiles'.1.symm
      obtain rfl : token = other := by
        rw [Token.mk.injEq]
        exact ⟨hkind, hstart, String.toList_inj.mp htext⟩
      rw [chars_cons, chars_cons, List.append_cancel_left_eq] at hchars
      rw [ih h.tail h'.tail hchars htiles.2 htiles'.2]

/-- **What determines the tokens.** The tokens of a text are the only ones that cover it without
gaps and of which each is the longest match, or holds as many characters as there are at which
nothing is read. -/
theorem eq_lex_iff {source : String} {tokens : List Token} :
    tokens = lex source ↔ Covers 0 tokens source.toList ∧ Munched tokens := by
  constructor
  · rintro rfl
    exact ⟨lex_covers source, lex_munched source⟩
  · rintro ⟨hcovers, hmunched⟩
    have hchars : chars tokens = chars (lex source) :=
      hcovers.text.trans (lex_covers source).text.symm
    exact hmunched.unique (lex_munched source) hchars hcovers.tiles (lex_covers source).tiles

/-! ## The tokens of a text -/

theorem toList_join_text (tokens : List Token) :
    (String.join (tokens.map Token.text)).toList = chars tokens := by
  rw [String.toList_join, List.flatMap_map, chars]

/-- **Main result.** The tokens of a text follow each other without gaps from its beginning to its
end, none of them is empty, and each begins and ends between two characters. A token that some rule
reads is the longest that any rule reads where it begins, and a keyword rather than a name. A
carriage return with a line feed is one token, and a comment stops at the end of its line. At the
characters of any other token nothing is read, and what follows it is read. -/
theorem lex_longest (source : String) :
    Tiles 0 (lex source) source.utf8ByteSize ∧
    ∀ before token after, lex source = before ++ token :: after →
      ∃ front behind, source = front ++ token.text ++ behind ∧
        token.start = front.utf8ByteSize ∧ token.start < token.stop ∧
        (token.kind ≠ .garbage →
          Longest token.kind token.text.toList (token.text ++ behind).toList) ∧
        (token.kind = .newline → token.text = "\n" ∨ token.text = "\r\n") ∧
        (∀ tail, token.text ++ behind = "\r\n" ++ tail →
          token.kind = .newline ∧ token.text = "\r\n") ∧
        (token.kind = .comment → '\n' ∉ token.text.toList ∧
          (behind = "" ∨ ∃ tail, behind = "\n" ++ tail)) ∧
        (token.kind = .garbage → Unread token.text.toList behind.toList ∧
          ∀ next ∈ after.head?, next.kind ≠ .garbage) := by
  refine ⟨lex_tiles source, fun before token after h ↦ ?_⟩
  obtain ⟨hsource, hstart⟩ := start_of_lex h
  have hmunched : Munched (token :: after) := (h ▸ lex_munched source).of_append
  let behind := String.join (after.map Token.text)
  have hbehind : behind.toList = chars after := toList_join_text after
  have hlongest (hkind : token.kind ≠ .garbage) :
      Longest token.kind token.text.toList (token.text ++ behind).toList := by
    rw [String.toList_append, hbehind]
    exact hmunched.longest hkind
  refine ⟨_, behind, hsource, hstart, ?_, hlongest, fun hkind ↦ ?_, fun tail htail ↦ ?_,
    fun hkind ↦ ?_, fun hkind ↦ ?_⟩
  · exact Nat.lt_add_of_pos_right (Nat.pos_of_ne_zero (by simpa using hmunched.ne_empty))
  · have hnewline := hlongest (by rw [hkind]; decide)
    rw [hkind] at hnewline
    simpa [← String.toList_inj] using text_of_newline hnewline
  · have hcrlf := longest_crlf tail.toList
    have htext := congrArg String.toList htail
    rw [String.toList_append, String.toList_append, hbehind] at htext
    rw [← String.toList_inj]
    exact hmunched.eq_of_longest (by rw [htext]; exact hcrlf)
  · have hcomment := hlongest (by rw [hkind]; decide)
    rw [hkind, String.toList_append] at hcomment
    obtain ⟨hline, hend⟩ := text_of_comment hcomment
    refine ⟨hline, hend.imp (fun hnil ↦ ?_) fun ⟨tail, htail⟩ ↦ ⟨String.ofList tail, ?_⟩⟩
    · exact String.toList_inj.mp hnil
    · exact String.toList_inj.mp (by simp [htail])
  · rw [hbehind]
    exact hmunched.unread_of_garbage hkind

/-- A stray carriage return and a letter of another alphabet in front of a comment. -/
def strayed : String := "A\rä1 module# c\r\n\r\n"

theorem lex_longest_strayed :
    lex strayed = [⟨.id, 0, "A"⟩] ++ ⟨.garbage, 1, "\rä1"⟩ :: [⟨.whitespace, 5, " "⟩,
      ⟨.kwModule, 6, "module"⟩, ⟨.comment, 12, "# c\r"⟩, ⟨.newline, 16, "\n"⟩,
      ⟨.newline, 17, "\r\n"⟩] ∧
    ∃ front behind, strayed = front ++ "\rä1" ++ behind ∧
      Unread "\rä1".toList behind.toList := by
  have h : lex strayed = [⟨.id, 0, "A"⟩] ++ ⟨.garbage, 1, "\rä1"⟩ :: [⟨.whitespace, 5, " "⟩,
      ⟨.kwModule, 6, "module"⟩, ⟨.comment, 12, "# c\r"⟩, ⟨.newline, 16, "\n"⟩,
      ⟨.newline, 17, "\r\n"⟩] := by decide
  obtain ⟨front, behind, hsource, -, -, -, -, -, -, hgarbage⟩ := (lex_longest strayed).2 _ _ _ h
  exact ⟨h, front, behind, hsource, (hgarbage rfl).1⟩

end SchemaCodec.Syntax.Token
