import Mathlib.Data.String.Basic
import SchemaCodec.Proofs.Syntax.Names

/-!
# Tokens cover the text

A text is cut without gaps: each token begins where the one before it ends, the first one at the
beginning of the text and the last one with nothing behind it, and the texts of the tokens one after
another are the text. So no rule of the lexer can drop a character or read one twice, and characters
that no rule reads are kept as well.

## The cut in progress

In the middle of a cut there are the tokens so far, the gathered characters behind them, and the
rest of the text, of which some characters belong to the latest token already. Only what comes
behind the tokens so far is described: it covers the gathered characters and the rest from where
the latest token ends.
-/

namespace SchemaCodec

theorem Text.width_eq (cs : List Char) : width cs = String.utf8Len cs := by
  induction cs with
  | nil => rfl
  | cons c cs ih =>
    rw [String.utf8Len_cons, ← ih, Nat.add_comm]
    rfl

namespace Syntax

namespace Token

/-! ## Tokens without gaps -/

/-- Tokens that follow each other without gaps, from one offset to another. -/
def Tiles : Nat → List Token → Nat → Prop
  | start, [], stop => start = stop
  | start, token :: rest, stop => token.start = start ∧ Tiles token.stop rest stop

/-- Tokens that follow each other without gaps from an offset on and make up a text. -/
structure Covers (start : Nat) (tokens : List Token) (text : List Char) : Prop where
  tiles : Tiles start tokens (start + Text.width text)
  text : tokens.flatMap (·.text.toList) = text

variable {start stop : Nat} {tokens later : List Token} {text : List Char}

theorem start_le_stop (token : Token) : token.start ≤ token.stop := Nat.le_add_right _ _

theorem Tiles.le (h : Tiles start tokens stop) : start ≤ stop := by
  induction tokens generalizing start with
  | nil => exact Nat.le_of_eq h
  | cons token rest ih =>
    rw [← h.1]
    exact Nat.le_trans token.start_le_stop (ih h.2)

/-- Tokens at the front may be left out. -/
theorem Tiles.of_append (h : Tiles start (tokens ++ later) stop) :
    ∃ mid, start ≤ mid ∧ Tiles mid later stop := by
  induction tokens generalizing start with
  | nil => exact ⟨start, Nat.le_refl _, h⟩
  | cons token rest ih =>
    obtain ⟨mid, hmid, htiles⟩ := ih h.2
    rw [← h.1]
    exact ⟨mid, Nat.le_trans token.start_le_stop hmid, htiles⟩

/-- Tokens in front take up as many bytes as their texts. -/
theorem Tiles.drop (h : Tiles start (tokens ++ later) stop) :
    Tiles (start + (String.join (tokens.map Token.text)).utf8ByteSize) later stop := by
  induction tokens generalizing start with
  | nil => exact h
  | cons token rest ih =>
    have hrest := ih h.2
    rw [Token.stop, h.1] at hrest
    rwa [List.map_cons, String.join_cons, String.utf8ByteSize_append, ← Nat.add_assoc]

theorem Covers.nil (start : Nat) : Covers start [] [] := ⟨rfl, rfl⟩

theorem Covers.cons {kind : Kind} {chars : List Char}
    (h : Covers (start + Text.width chars) tokens text) :
    Covers start (⟨kind, start, String.ofList chars⟩ :: tokens) (chars ++ text) := by
  refine ⟨⟨rfl, ?_⟩, ?_⟩
  · have hstop : (⟨kind, start, String.ofList chars⟩ : Token).stop = start + Text.width chars := by
      rw [stop, String.utf8ByteSize_ofList, Text.width_eq]
    have hwidth : Text.width (chars ++ text) = Text.width chars + Text.width text := by
      rw [Text.width_eq, Text.width_eq, Text.width_eq, String.utf8Len_append]
    rw [hstop, hwidth, ← Nat.add_assoc]
    exact h.tiles
  · rw [List.flatMap_cons, h.text, String.toList_ofList]

/-! ## Cutting -/

/-- A token is no longer than the text. -/
theorem lexeme?_le {c : Char} {rest : List Char} {kind : Kind} {more : Nat}
    (h : lexeme? (c :: rest) = some (kind, more)) : more ≤ rest.length := by
  have htake (p : Char → Bool) : (rest.takeWhile p).length ≤ rest.length :=
    (List.takeWhile_sublist p).length_le
  rw [lexeme?.eq_def] at h
  split at h
  · cases h
  · next heq =>
    obtain ⟨-, rfl⟩ := List.cons.inj heq
    obtain ⟨-, rfl⟩ := Prod.mk.inj (Option.some.inj h)
    exact Nat.le_add_left _ _
  · next heq =>
    obtain ⟨rfl, rfl⟩ := List.cons.inj heq
    split at h
    · obtain ⟨-, rfl⟩ := Prod.mk.inj (Option.some.inj h)
      exact htake isNamePart
    · split at h
      · obtain ⟨-, rfl⟩ := Prod.mk.inj (Option.some.inj h)
        exact htake isBlank
      · split at h
        · obtain ⟨-, rfl⟩ := Prod.mk.inj (Option.some.inj h)
          exact htake _
        · obtain ⟨_, -, hmore⟩ := Option.map_eq_some_iff.mp h
          obtain ⟨-, rfl⟩ := Prod.mk.inj hmore
          exact Nat.zero_le _

/-- The gathered characters are covered by one token or are none. -/
theorem Cut.flush_covers (cut : Cut) (h : start + Text.width cut.unread = stop)
    (hlater : Covers stop later text) :
    ∃ behind, (cut.flush stop).reverse ++ later = cut.tokens.reverse ++ behind ∧
      Covers start behind (cut.unread.reverse ++ text) := by
  rw [flush]
  split
  · next hempty =>
    rw [List.isEmpty_iff] at hempty
    rw [hempty] at h ⊢
    rw [← h] at hlater
    exact ⟨later, rfl, hlater⟩
  · have hstart : stop - Text.width cut.unread = start := by omega
    have hwidth : Text.width cut.unread.reverse = Text.width cut.unread := by
      rw [Text.width_eq, Text.width_eq, String.utf8Len_reverse]
    rw [hstart, List.reverse_cons, List.append_assoc]
    rw [← h, ← hwidth] at hlater
    exact ⟨_, rfl, hlater.cons⟩

/-- Behind the tokens so far come tokens that cover the gathered characters and what is left of the
text behind the latest token. -/
theorem cutFrom_covers (start offset skip : Nat) (cut : Cut) (text : List Char)
    (hskip : skip ≤ text.length) (hunread : skip ≠ 0 → cut.unread = [])
    (hstart : start + Text.width cut.unread = offset + Text.width (text.take skip)) :
    ∃ later, cutFrom offset skip cut text = cut.tokens.reverse ++ later ∧
      Covers start later (cut.unread.reverse ++ text.drop skip) := by
  induction text generalizing start offset skip cut with
  | nil =>
    obtain rfl : skip = 0 := Nat.le_zero.mp hskip
    obtain ⟨behind, heq, hbehind⟩ := cut.flush_covers hstart (Covers.nil offset)
    rw [List.append_nil] at heq
    exact ⟨behind, heq, hbehind⟩
  | cons c rest ih =>
    cases skip with
    | succ skip =>
      refine ih start _ skip cut (Nat.le_of_succ_le_succ hskip)
        (fun _ ↦ hunread (Nat.succ_ne_zero _)) ?_
      rw [hstart, Nat.add_assoc]
      rfl
    | zero =>
      rw [cutFrom]
      dsimp only
      split
      · next kind more hlexeme =>
        obtain ⟨later, heq, hlater⟩ := ih (offset + Text.width (c :: rest.take more))
          (offset + c.utf8Size) more
          ⟨⟨kind, offset, String.ofList (c :: rest.take more)⟩ :: cut.flush offset, []⟩
          (lexeme?_le hlexeme) (fun _ ↦ rfl) (Nat.add_assoc _ _ _).symm
        obtain ⟨behind, hflush, hbehind⟩ := cut.flush_covers hstart hlater.cons
        rw [heq, List.reverse_cons, List.append_assoc]
        refine ⟨behind, hflush, ?_⟩
        rw [List.reverse_nil, List.nil_append, List.cons_append, List.take_append_drop] at hbehind
        exact hbehind
      · obtain ⟨later, heq, hlater⟩ := ih start (offset + c.utf8Size) 0
          { cut with unread := c :: cut.unread } (Nat.zero_le _) (fun h ↦ absurd rfl h) (by
            change start + (c.utf8Size + Text.width cut.unread) = offset + c.utf8Size + 0
            have hwidth : start + Text.width cut.unread = offset := hstart
            omega)
        refine ⟨later, heq, ?_⟩
        rw [List.reverse_cons, List.append_assoc] at hlater
        exact hlater

theorem lex_covers (source : String) : Covers 0 (lex source) source.toList := by
  obtain ⟨later, heq, hlater⟩ := cutFrom_covers 0 0 0 ⟨[], []⟩ source.toList (Nat.zero_le _)
    (fun h ↦ absurd rfl h) rfl
  rw [lex, heq]
  exact hlater

/-- The tokens of a text follow each other without gaps from its beginning to its end. -/
theorem lex_tiles (source : String) : Tiles 0 (lex source) source.utf8ByteSize := by
  have htiles := (lex_covers source).tiles
  rw [Nat.zero_add, Text.width_eq, String.utf8Len_toList] at htiles
  exact htiles

/-- The texts of the tokens of a text are the text. -/
theorem join_lex (source : String) : String.join ((lex source).map Token.text) = source := by
  rw [← String.toList_inj, String.toList_join, List.flatMap_map]
  exact (lex_covers source).text

/-- A token stands where the texts of the tokens before it end. -/
theorem start_of_lex {source : String} {before after : List Token} {token : Token}
    (h : lex source = before ++ token :: after) :
    source = String.join (before.map Token.text) ++ token.text ++
        String.join (after.map Token.text) ∧
      token.start = (String.join (before.map Token.text)).utf8ByteSize := by
  refine ⟨?_, ?_⟩
  · rw [← join_lex source, h, List.map_append, List.map_cons, String.join_append, String.join_cons,
      String.append_assoc]
  · have htiles := lex_tiles source
    rw [h] at htiles
    rw [htiles.drop.1, Nat.zero_add]

end Token

end Syntax

end SchemaCodec
