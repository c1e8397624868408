import Mathlib.Data.List.TakeWhile
import SchemaCodec.Syntax.Token

/-!
# Names

A name is a text that is cut into one token, which is a name and no keyword. What is said about
names elsewhere rests on their characters alone: the first one may begin a name, and those that
follow may continue one.
-/

namespace SchemaCodec.Syntax

/-- The whole text is one token, and that is a name. -/
def IsName (text : String) : Prop := Token.lex text = [⟨.id, 0, text⟩]

instance (text : String) : Decidable (IsName text) := inferInstanceAs (Decidable (_ = _))

namespace Token

/-! ## The first token -/

/-- Characters that no rule reads become one token behind the others. -/
theorem Cut.flush_eq (cut : Cut) (stop : Nat) :
    ∃ gathered, (cut.flush stop).reverse = cut.tokens.reverse ++ gathered ∧
      (cut.unread ≠ [] → ∃ token, gathered = [token] ∧ token.kind = .garbage) := by
  rw [flush]
  split
  · next hempty =>
    exact ⟨[], (List.append_nil _).symm, fun hne ↦ absurd (List.isEmpty_iff.mp hempty) hne⟩
  · exact ⟨[⟨.garbage, _, _⟩], List.reverse_cons, fun _ ↦ ⟨_, rfl, rfl⟩⟩

/-- Cutting further leaves the tokens as they are, and characters that no rule reads come next if
there are any. -/
theorem cutFrom_eq (offset skip : Nat) (cut : Cut) (text : List Char) :
    ∃ later, cutFrom offset skip cut text = cut.tokens.reverse ++ later ∧
      (cut.unread ≠ [] → ∃ token more, later = token :: more ∧ token.kind = .garbage) := by
  induction text generalizing offset skip cut with
  | nil =>
    obtain ⟨gathered, heq, hgarbage⟩ := cut.flush_eq offset
    refine ⟨gathered, heq, fun hne ↦ ?_⟩
    obtain ⟨token, htoken, hkind⟩ := hgarbage hne
    exact ⟨token, [], htoken, hkind⟩
  | cons c rest ih =>
    cases skip with
    | succ skip => exact ih _ skip cut
    | zero =>
      rw [cutFrom]
      dsimp only
      split
      · next kind more _ =>
        obtain ⟨later, heq, -⟩ := ih (offset + c.utf8Size) more
          ⟨⟨kind, offset, String.ofList (c :: rest.take more)⟩ :: cut.flush offset, []⟩
        obtain ⟨gathered, hflush, hgarbage⟩ := cut.flush_eq offset
        rw [heq, List.reverse_cons, hflush, List.append_assoc, List.append_assoc]
        refine ⟨_, rfl, fun hne ↦ ?_⟩
        obtain ⟨token, rfl, hkind⟩ := hgarbage hne
        exact ⟨token, _, rfl, hkind⟩
      · obtain ⟨later, heq, hgarbage⟩ :=
          ih (offset + c.utf8Size) 0 { cut with unread := c :: cut.unread }
        exact ⟨later, heq, fun _ ↦ hgarbage (List.cons_ne_nil _ _)⟩

/-- Of the rules, only that for words gives a name. -/
theorem lexeme?_id {c : Char} {rest : List Char} {more : Nat}
    (h : lexeme? (c :: rest) = some (.id, more)) :
    isNameStart c = true ∧ more = (rest.takeWhile isNamePart).length := by
  rw [lexeme?.eq_def] at h
  split at h
  · cases h
  · cases h
  · next heq =>
    obtain ⟨rfl, rfl⟩ := List.cons.inj heq
    split at h
    · next hstart =>
      exact ⟨hstart, (congrArg Prod.snd (Option.some_inj.mp h)).symm⟩
    · split at h
      · cases h
      · split at h
        · cases h
        · obtain ⟨kind, hkind, hid⟩ := Option.map_eq_some_iff.mp h
          rw [symbolKind?.eq_def, (Prod.mk.inj hid).1] at hkind
          split at hkind <;> cases hkind

end Token

/-! ## The characters of a name -/

/-- A word of a name: characters of which each may continue a name. -/
def IsWord (chars : List Char) : Prop := ∀ c ∈ chars, Token.isNamePart c = true

open Token in
theorem IsName.toList {text : String} (h : IsName text) :
    ∃ c rest, text.toList = c :: rest ∧ isNameStart c = true ∧ IsWord rest := by
  rw [IsName, lex] at h
  cases hchars : text.toList with
  | nil =>
    rw [hchars] at h
    cases h
  | cons c rest =>
    rw [hchars, cutFrom] at h
    dsimp only at h
    split at h
    · next kind more hlexeme =>
      obtain ⟨later, heq, -⟩ := cutFrom_eq (0 + c.utf8Size) more
        ⟨[⟨kind, 0, String.ofList (c :: rest.take more)⟩], []⟩ rest
      have htoken : (⟨kind, 0, String.ofList (c :: rest.take more)⟩ : Token) = ⟨.id, 0, text⟩ :=
        (List.cons.inj (heq.symm.trans h)).1
      obtain ⟨rfl, -, htext⟩ := Token.mk.inj htoken
      have hwhole : rest.take more = rest := by
        have htoList := congrArg String.toList htext
        rw [String.toList_ofList, hchars] at htoList
        exact (List.cons.inj htoList).2
      obtain ⟨hstart, rfl⟩ := lexeme?_id hlexeme
      refine ⟨c, rest, rfl, hstart, fun d hd ↦ ?_⟩
      rw [← hwhole, ← List.prefix_iff_eq_take.mp (List.takeWhile_prefix _)] at hd
      exact List.mem_takeWhile_imp hd
    · -- the first token would be characters that no rule reads
      obtain ⟨later, heq, hgarbage⟩ := cutFrom_eq (0 + c.utf8Size) 0 ⟨[], [c]⟩ rest
      rw [h] at heq
      obtain ⟨token, more, rfl, hkind⟩ := hgarbage (List.cons_ne_nil _ _)
      rw [← (List.cons.inj heq).1] at hkind
      cases hkind

theorem IsName.isWord {text : String} (h : IsName text) : IsWord text.toList := by
  obtain ⟨c, rest, hchars, hstart, hrest⟩ := h.toList
  rw [hchars]
  refine List.forall_mem_cons.mpr ⟨?_, hrest⟩
  rw [Token.isNamePart, hstart]
  rfl

theorem IsName.dot_not_mem {text : String} (h : IsName text) : '.' ∉ text.toList := by
  intro hdot
  exact absurd (h.isWord '.' hdot) (by decide)

end SchemaCodec.Syntax
