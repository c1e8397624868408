import SchemaCodec.Proofs.Expansion.Naming
import SchemaCodec.Proofs.Syntax.LongestMatch
import SchemaCodec.Proofs.Syntax.Trivia

/-!
# Schemas that are read from texts

What is known of a schema because it was read from a text: its names are names that the lexer reads.
A name of a module, of a declaration or of an entry is the text of a token, the token is the longest
match at its place and no keyword, and so the text on its own is cut into that one token.

## From tokens to modules

The parser is not gone through for this. A text that is read as a module is derived by a phrase, and
a phrase derives the names that it means something by. Limits change nothing either: a text that is
read under limits is read as the same module without them.
-/

namespace SchemaCodec

namespace Syntax

/-! ## Names as tokens -/

namespace Token

/-- Nothing is cut while the rest of a text is passed over. -/
theorem cutFrom_length (offset : Nat) (tokens : List Token) (text : List Char) :
    cutFrom offset text.length ⟨tokens, []⟩ text = tokens.reverse := by
  induction text generalizing offset with
  | nil => rfl
  | cons c rest ih => exact ih (offset + c.utf8Size)

theorem Reads.exists_of_id {chars : List Char} (h : Reads .id chars) :
    ∃ c cs, chars = c :: cs ∧ isNameStart c = true ∧ IsWord cs := by
  cases h with
  | @fixed word hrule =>
    have hall : ∀ rule ∈ fixedTexts, rule.1 ≠ .id := by decide
    exact absurd rfl (hall _ hrule)
  | @run first more hrule c cs hc hcs =>
    simp only [runs, List.mem_cons, Prod.mk.injEq, List.not_mem_nil, reduceCtorEq, false_and,
      or_false, true_and] at hrule
    obtain ⟨rfl, rfl⟩ := hrule
    refine ⟨c, cs, rfl, (isNameStart_eq c).trans hc, fun d hd ↦ ?_⟩
    exact (isNamePart_eq d).trans (hcs d hd)

/-- A text that is read as a name at the front of a longer one is a name on its own. -/
theorem Longest.isName {name : String} {text : List Char}
    (h : Longest .id name.toList text) : IsName name := by
  obtain ⟨c, cs, hchars, hc, hcs⟩ := h.reads.exists_of_id
  have hkind : wordKind (c :: cs) = .id := by
    have hreads := reads_wordKind hc hcs
    rw [← hchars] at hreads
    rcases h.first _ hreads with hid | ⟨-, hkeyword⟩
    · rwa [hchars] at hid
    · exact absurd hkeyword (by decide)
  have hall : cs.takeWhile isNamePart = cs := List.takeWhile_eq_self_iff.mpr hcs
  have hlexeme : lexeme? (c :: cs) = some (.id, cs.length) := by
    rw [lexeme?_word hc, hall, hkind]
  rw [IsName, lex, hchars, cutFrom]
  simp only [hlexeme]
  rw [cutFrom_length, List.take_length, ← hchars, String.ofList_toList]
  rfl

theorem isName_of_lex {source : String} {token : Token} (h : token ∈ lex source)
    (hkind : token.kind = .id) : IsName token.text := by
  obtain ⟨before, after, hlex⟩ := List.append_of_mem h
  have hmunched : Munched (token :: after) := (hlex ▸ lex_munched source).of_append
  have hlongest := hmunched.longest (by rw [hkind]; decide)
  rw [hkind] at hlongest
  exact hlongest.isName

end Token

theorem isName_of_terminals {source name : String}
    (h : Terminal.name name ∈ terminals (Token.lex source)) : IsName name := by
  obtain ⟨token, htoken, hterminal⟩ := List.mem_map.mp h
  rw [Token.terminal] at hterminal
  split at hterminal
  · next hkind =>
    rw [← Terminal.name.inj hterminal]
    exact Token.isName_of_lex (List.mem_of_mem_filter htoken) hkind
  · cases hterminal

/-! ## Names in phrases -/

theorem mem_commaSeparated {items : List (List Terminal)} {item : List Terminal} {t : Terminal}
    (hitem : item ∈ items) (ht : t ∈ item) : t ∈ commaSeparated items := by
  induction items with
  | nil => cases hitem
  | cons first rest ih =>
    rw [commaSeparated]
    cases rest with
    | nil =>
      rw [List.intercalate_singleton]
      exact List.mem_singleton.mp hitem ▸ ht
    | cons next rest =>
      rw [List.intercalate_cons_cons]
      rcases List.mem_cons.mp hitem with rfl | hitem
      · exact List.mem_append_left _ (List.mem_append_left _ ht)
      · exact List.mem_append_right _ (ih hitem)

theorem mem_parenthesized {items : List (List Terminal)} {item : List Terminal} {t : Terminal}
    (hitem : item ∈ items) (ht : t ∈ item) : t ∈ parenthesized items := by
  have hne : items.isEmpty = false := List.isEmpty_eq_false_iff_exists_mem.mpr ⟨item, hitem⟩
  rw [parenthesized, hne]
  refine List.mem_cons_of_mem _ (List.mem_append_left _ ?_)
  exact mem_commaSeparated hitem ht

namespace TypePhrase

mutual

/-- A type derives the names of the entries that it means. -/
theorem mem_yield : (ty : TypePhrase) → ∀ name ∈ ty.expr.entryNames, Terminal.name name ∈ ty.yield
  | braced .record entries, name, h | braced .choice entries, name, h => by
    have hentries := mem_entriesYield entries name h
    rw [yield]
    simp [hentries]
  | ref qualifier target args, name, h => by
    obtain ⟨item, hitem, hmem⟩ := mem_yields args name h
    rw [yield]
    exact List.mem_append_right _ (mem_parenthesized hitem hmem)

theorem mem_entriesYield : (entries : List (String × TypePhrase × Bool)) →
    ∀ name ∈ TypeExpr.membersNames (entriesExprs entries), .name name ∈ entriesYield entries
  | [], _, h => absurd h List.not_mem_nil
  | (first, ty, comma) :: rest, name, h => by
    rw [entriesExprs, TypeExpr.membersNames] at h
    rw [entriesYield]
    rcases List.mem_cons.mp h with rfl | h
    · exact List.mem_cons_self
    · rcases List.mem_append.mp h with h | h
      · simp [mem_yield ty name h]
      · simp [mem_entriesYield rest name h]

theorem mem_yields : (args : List TypePhrase) → ∀ name ∈ TypeExpr.argsNames (exprs args),
    ∃ item ∈ yields args, .name name ∈ item
  | [], _, h => absurd h List.not_mem_nil
  | ty :: rest, name, h => by
    rw [exprs, TypeExpr.argsNames] at h
    rw [yields]
    rcases List.mem_append.mp h with h | h
    · exact ⟨ty.yield, List.mem_cons_self, mem_yield ty name h⟩
    · obtain ⟨item, hitem, hmem⟩ := mem_yields rest name h
      exact ⟨item, List.mem_cons_of_mem _ hitem, hmem⟩

end

end TypePhrase

/-- A phrase derives the names that it means. -/
theorem ModulePhrase.named {phrase : ModulePhrase}
    (h : ∀ name, Terminal.name name ∈ phrase.yield → IsName name) : phrase.module.Named := by
  have hdecls : ∀ decl ∈ phrase.decls, ∀ name, .name name ∈ decl.yield → IsName name := by
    intro decl hdecl name hname
    refine h name (List.mem_cons_of_mem _ (List.mem_cons_of_mem _ ?_))
    exact List.mem_flatMap.mpr ⟨decl, hdecl, hname⟩
  constructor
  · exact h _ (List.mem_cons_of_mem _ List.mem_cons_self)
  · refine List.forall_mem_map.mpr fun decl hdecl ↦ ?_
    exact hdecls decl hdecl _ List.mem_cons_self
  · refine List.forall_mem_map.mpr fun decl hdecl name hname ↦ hdecls decl hdecl name ?_
    refine List.mem_cons_of_mem _ (List.mem_append_right _ (List.mem_cons_of_mem _ ?_))
    exact decl.body.mem_yield name hname

/-! ## Modules -/

/-- Limits take modules away and change none. -/
theorem readModule_unlimited_of_ok {limits : Limits} {origin source : String} {m : Module}
    (h : readModule limits origin source = .ok m) :
    readModule .unlimited origin source = .ok m := by
  cases hparsed : Parsed.ofText limits source with
  | ok parsed =>
    rw [readModule_of_ok (ofText_unlimited_of_ok hparsed), ← readModule_of_ok hparsed, h]
  | error excess =>
    rw [readModule_eq, ofText_eq_error_iff.mp hparsed] at h
    cases h

/-- Under any limits, a text that is read as a module has a phrase that means it. -/
theorem exists_phrase_of_readModule {limits : Limits} {origin source : String} {m : Module}
    (h : readModule limits origin source = .ok m) :
    ∃ phrase : ModulePhrase, phrase.yield = terminals (Token.lex source) ∧ phrase.module = m := by
  have hunlimited := readModule_unlimited_of_ok h
  by_cases hphrase : ∃ phrase : ModulePhrase, phrase.yield = terminals (Token.lex source)
  · obtain ⟨phrase, hyield⟩ := hphrase
    rw [readModule_of_phrase hyield] at hunlimited
    exact ⟨phrase, hyield, Except.ok.inj hunlimited⟩
  · refine absurd hunlimited (readModule_of_no_phrase ?_ origin m)
    exact not_exists.mp hphrase

/-- The names of a module that a text is read as are names that the lexer reads. -/
theorem named_of_readModule {limits : Limits} {origin source : String} {m : Module}
    (h : readModule limits origin source = .ok m) : m.Named := by
  obtain ⟨phrase, hyield, rfl⟩ := exists_phrase_of_readModule h
  refine ModulePhrase.named fun name hname ↦ ?_
  rw [hyield] at hname
  exact isName_of_terminals hname

end Syntax

/-- A text is read as the module, under some limits. -/
def Module.HasText (module : Module) : Prop :=
  ∃ limits origin source, Syntax.readModule limits origin source = .ok module

theorem Module.HasText.named {module : Module} (h : module.HasText) : module.Named := by
  obtain ⟨limits, origin, source, hread⟩ := h
  exact Syntax.named_of_readModule hread

end SchemaCodec
