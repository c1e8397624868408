import SchemaCodec.Proofs.Syntax.Parsing
import SchemaCodec.Syntax.ModuleText

/-!
# Accepted texts

A text is read as a module exactly if its terminals are derived by the grammar, and then the module
is the one that the derivation means. Nothing that the parser does about faulty texts makes a
difference to this: not where a fault is reported, not what is skipped after it, and not the tokens
that a broken declaration leaves to the next one.
-/

namespace SchemaCodec.Syntax

open Parse

def Limits.unlimited : Limits := ⟨none, none⟩

theorem initial_at (source : String) :
    At 8 0 (terminals (Token.lex source)) [] (State.initial source .unlimited) where
  clean := ⟨⟨rfl, rfl⟩, ⟨rfl, rfl⟩, rfl, rfl⟩
  looks := show 8 ≤ maxLooks by decide
  delimiters := rfl
  ahead := rfl
  waiting := fun _ ht ↦ absurd ht List.not_mem_nil
  placed := rfl

/-- A whole text without the node around it. -/
def rootParts (steps : Nat) : Parse Unit := do
  Grammar.header
  Grammar.declarations steps steps
  eatTrivia

theorem rootParts_follows {steps : Nat} {ts : List Terminal} {s : State} (h : At 8 0 ts [] s)
    (hsteps : 2 * ts.length + 2 ≤ steps) :
    Follows (rootParts steps) s (Phrase.readModule steps ts) fun phrase ↦
      At 4 0 [] phrase.trees.reverse := by
  refine (header_follows h).bind
    (fun _ ↦ (declarations_grows steps steps).bind fun _ ↦ eatTrivia_grows) ?_
  rintro - ⟨name, rest⟩ s hheader hs
  obtain ⟨mid, hmodule, hname⟩ := Option.bind_eq_some_iff.mp hheader
  have hts : ts = .symbol .kwModule :: .name name :: rest := by
    rw [Phrase.expect_eq_some.mp hmodule, Phrase.readName_eq_some.mp hname]
  rw [hts, List.length_cons, List.length_cons] at hsteps
  have hdecls : Follows (do Grammar.declarations steps steps; eatTrivia) s
      (Phrase.readDecls steps steps rest) fun decls ↦ At 4 0 []
        ((decls.map DeclPhrase.tree).reverse ++ [.node .moduleHeader
          [Terminal.leaf (.symbol .kwModule), Terminal.leaf (.name name)]]) :=
    (declarations_follows hs (by dsimp only; omega) (by dsimp only; omega)).gives
      (fun _ ↦ eatTrivia_grows) fun _ _ _ hs ↦ (eatTrivia_gives hs).imp fun _ hs ↦ hs.toAt
  refine hdecls.found_bind fun decls s _ hs ↦ ⟨_, rfl, ?_⟩
  simpa [ModulePhrase.trees] using hs

/-- A run goes through the parts of the text and places nothing outside the node around them. -/
theorem run_eq (limits : Limits) (source : String) :
    Parsed.run limits source
      = (.node .root (rootParts (2 * (Token.lex source).length + 2)
          (State.initial source limits)).2.placed.reverse,
        { (rootParts (2 * (Token.lex source).length + 2) (State.initial source limits)).2 with
          placed := [] }) := by
  rw [Parsed.run, Grammar.root]
  rfl

/-- A run has steps enough for the terminals. -/
theorem steps_terminals (tokens : List Token) :
    2 * (terminals tokens).length + 2 ≤ 2 * tokens.length + 2 := by
  have hlength : (terminals tokens).length ≤ tokens.length := by
    rw [terminals, List.length_map]
    exact List.length_filter_le _ _
  omega

variable {source : String}

/-- The run over a text that has a phrase reports nothing, and the bare tree is that of the
phrase. -/
theorem run_of_phrase {phrase : ModulePhrase} (h : phrase.yield = terminals (Token.lex source)) :
    ∃ trees, (Parsed.run .unlimited source).1 = .node .root trees ∧
      Tree.bareForest trees = phrase.trees ∧ (Parsed.run .unlimited source).2.Clean := by
  have hsteps := steps_terminals (Token.lex source)
  have hfollows := rootParts_follows (initial_at source) hsteps
  rw [(Phrase.readModule_eq_some hsteps).mpr h.symm] at hfollows
  refine ⟨_, congrArg Prod.fst (run_eq .unlimited source), ?_, ?_⟩
  · rw [Tree.bareForest_reverse, hfollows.placed, List.reverse_reverse]
  · rw [run_eq]
    exact hfollows.clean

/-- The run over a text that has no phrase reports something. -/
theorem run_of_no_phrase
    (h : ∀ phrase : ModulePhrase, phrase.yield ≠ terminals (Token.lex source)) :
    (Parsed.run .unlimited source).2.reports ≠ [] := by
  have hsteps := steps_terminals (Token.lex source)
  have hfollows := rootParts_follows (initial_at source) hsteps
  have hnone : Phrase.readModule (2 * (Token.lex source).length + 2)
      (terminals (Token.lex source)) = none := by
    rw [Option.eq_none_iff_forall_ne_some]
    exact fun phrase hphrase ↦ h phrase ((Phrase.readModule_eq_some hsteps).mp hphrase).symm
  rw [hnone] at hfollows
  rw [run_eq]
  exact hfollows

/-- What a text is read as depends on its run only. -/
theorem readModule_eq (limits : Limits) (origin source : String) :
    readModule limits origin source = match (Parsed.run limits source).2.excess with
      | some excess => .error (.excess excess)
      | none =>
        if (Parsed.run limits source).2.reports.reverse.any Diagnostic.isError then
          .error (.invalid origin source
            (Diagnostic.filtered (Parsed.run limits source).2.reports.reverse))
        else .ok (Parsed.run limits source).1.outline.module := by
  unfold readModule Parsed.ofText
  obtain ⟨tree, final⟩ := Parsed.run limits source
  dsimp only
  cases final.excess <;> rfl

theorem readModule_of_phrase {phrase : ModulePhrase}
    (h : phrase.yield = terminals (Token.lex source)) (origin : String) :
    readModule .unlimited origin source = .ok phrase.module := by
  obtain ⟨trees, htree, hbare, hclean⟩ := run_of_phrase h
  rw [readModule_eq, hclean.excess, hclean.reports, htree, ModulePhrase.module_outline hbare]
  rfl

theorem readModule_of_no_phrase
    (h : ∀ phrase : ModulePhrase, phrase.yield ≠ terminals (Token.lex source)) (origin : String)
    (m : Module) : readModule .unlimited origin source ≠ .ok m := by
  obtain ⟨d, ds, hreports⟩ := List.exists_cons_of_ne_nil (run_of_no_phrase h)
  have herrors :
      (Parsed.run .unlimited source).2.reports.reverse.any Diagnostic.isError = true := by
    rw [List.any_reverse, hreports]
    rfl
  rw [readModule_eq, herrors]
  split
  · exact fun heq ↦ by cases heq
  · exact fun heq ↦ by cases heq

/-- **The parser accepts the grammar and returns its meaning**: without limits, a text is read as a
module if and only if its terminals have a phrase, and the module is the one that this phrase means.
There is no other phrase, and on the way to it the parser makes no mistake of its own. -/
theorem readModule_accepts (origin source : String) :
    (∀ m, readModule .unlimited origin source = .ok m ↔
      ∃ phrase : ModulePhrase,
        phrase.yield = terminals (Token.lex source) ∧ phrase.module = m) ∧
    (∀ phrase other : ModulePhrase, phrase.yield = terminals (Token.lex source) →
      other.yield = terminals (Token.lex source) → phrase = other) ∧
    (∀ phrase : ModulePhrase, phrase.yield = terminals (Token.lex source) →
      (Parsed.run .unlimited source).2.defect = none) := by
  refine ⟨fun m ↦ ⟨fun hm ↦ ?_, ?_⟩, fun phrase other hphrase hother ↦ ?_, fun phrase hphrase ↦ ?_⟩
  · by_contra hnone
    refine readModule_of_no_phrase (fun phrase hphrase ↦ hnone ⟨phrase, hphrase, ?_⟩) origin m hm
    rw [readModule_of_phrase hphrase] at hm
    exact Except.ok.inj hm
  · rintro ⟨phrase, hphrase, rfl⟩
    exact readModule_of_phrase hphrase origin
  · exact ModulePhrase.yield_injective (hphrase.trans hother.symm)
  · obtain ⟨-, -, -, hclean⟩ := run_of_phrase hphrase
    exact hclean.defect

/-- The phrase of a text in which comments, parameters, arguments and both kinds of comma occur. -/
def boxes : ModulePhrase :=
  ⟨"m", [⟨"Box", ["T", "U"], .braced .record [("a", .ref none "T" [], true),
    ("b", .ref (some "x") "V" [.ref none "U" []], false)]⟩]⟩

set_option maxRecDepth 4000 in
theorem readModule_accepts_boxes :
    readModule .unlimited "m" "module m # boxes\nBox(T, U) = Record \x7b a: T, b: x.V(U) \x7d"
      = .ok ⟨"m", [⟨"Box", ["T", "U"], .record [("a", .ref ⟨none, "T"⟩ []),
        ("b", .ref ⟨some "x", "V"⟩ [.ref ⟨none, "U"⟩ []])]⟩]⟩ :=
  ((readModule_accepts "m" _).1 _).mpr ⟨boxes, by decide, rfl⟩

end SchemaCodec.Syntax
