import SchemaCodec.Proofs.Syntax.Acceptance
import SchemaCodec.Proofs.Syntax.Intact

/-!
# Parsing loses nothing

Whatever a text looks like and whatever limits are set, a parse comes to its end without a mistake
of the parser: no token is placed at the end of the text, no place is looked at too often, a
declaration begins at a name, and no loop runs for longer than the text is. It fails only for a
limit that is set. If no limit was exceeded, the tokens of the tree are those of the text, so the
text can be read off the tree.

## Why the loops end

A round of a loop may place nothing: skipping stops at once in front of a token at which it stops.
Between braces this is a comma, which the round itself places then. Between parentheses the loop
goes on only behind a comma. Between declarations skipping stops at what begins a declaration or a
header, and those are placed by a rule of their own. So a token is placed in each round that is not
the last one, which gives all looks back and takes one of the tokens left.

Types, entries and arguments call each other with one step less each. Twice the number of tokens
left and a few more steps are enough for all of them: behind a type at most two calls come before a
token is placed.

The looks that a rule needs are rounded up. A list begins with 32 of them and leaves 24, the
parentheses around it leave 23, and what is left of a declaration behind its parameters leaves 16,
with which the next round begins.
-/

namespace SchemaCodec.Syntax

open Grammar (Body)

open Parse

section

variable {limits : Limits} {tokens : List Token} {looks fewer left steps : Nat} {s : State}

/-! ## Names and lists -/

theorem qualifiedName_ensures {before : State} {kind : Kind}
    (h : Stays limits tokens looks (left + 1) before s) (hnext : before.next = some kind) :
    Ensures qualifiedName s (Intact limits tokens 32 left) := by
  refine (bump_next h hnext).bind fun _ s' hs ↦ ?_
  by_cases hdot : s'.next = some .dot
  · obtain ⟨left, rfl⟩ := hs.exists_left_of_next hdot
    refine (eat_placed (hs.mono (by decide : 33 ≤ maxLooks)) hdot).ensures fun s'' hs' ↦ ?_
    exact (eatOr_ensures (hs'.mono (by decide : 33 ≤ maxLooks)) (by decide)
      fun hs ↦ report_ensures hs.toIntact _ _).imp fun _ hs ↦ hs.widen (Nat.le_succ _)
  · refine (eat_missing (hs.mono (by decide : 33 ≤ maxLooks)) hdot).ensures fun _ hs ↦ ?_
    exact hs.toIntact

section

variable {items : Parse Unit}

/-- Behind an item come a comma, which is placed, and further items, or no comma. -/
theorem more_ensures (h : Intact limits tokens 25 left s)
    (hitems : ∀ {fewer s}, left = fewer + 1 → Intact limits tokens 32 fewer s →
      Ensures items s (Intact limits tokens 24 fewer)) :
    Ensures (do if ← eat .comma then items) s (Intact limits tokens 24 left) := by
  by_cases hcomma : s.next = some .comma
  · obtain ⟨left, rfl⟩ := h.exists_left_of_next hcomma
    refine (eat_placed h hcomma).ensures fun s' hs ↦ ?_
    exact (hitems rfl (hs.mono (by decide))).imp fun _ hs ↦ hs.widen (Nat.le_succ _)
  · exact (eat_missing h hcomma).ensures fun _ hs ↦ hs.toIntact

theorem between_ensures {before : State} (h : Stays limits tokens looks (left + 1) before s)
    (hnext : before.next = some .parenOpen)
    (hitems : ∀ {s}, Intact limits tokens 32 left s →
      Ensures items s (Intact limits tokens 24 left))
    (hint opened : String) :
    Ensures (between hint opened items) s (Intact limits tokens 23 left) := by
  refine (openDelimiter_stays h.toIntact).bind fun _ s' hs ↦ ?_
  refine (bump_next (h.trans hs) hnext).bind fun _ s'' hs' ↦ ?_
  refine (currentIs_stays (hs'.mono (by decide : 33 ≤ maxLooks)) .parenClose).ensures
    fun s'' hs'' ↦ ?_
  have hclose : ∀ {s}, Intact limits tokens 24 left s →
      Ensures (closeDelimiter .parenClose .unclosedParen opened) s (Intact limits tokens 23 left) :=
    fun hs ↦ closeDelimiter_ensures hs (by decide) _ _ _
  split
  · exact (report_ensures (hs''.toIntact.mono (by decide)) _ _).bind fun _ _ hs ↦ hclose hs
  · exact (hitems hs''.toIntact).bind fun _ _ hs ↦ hclose hs

theorem betweenIfAny_ensures {kind : Kind} (hkind : kind ≠ .root)
    (h : Intact limits tokens 32 left s)
    (hitems : ∀ {tokens fewer s}, left = fewer + 1 → Intact limits tokens 32 fewer s →
      Ensures items s (Intact limits tokens 24 fewer)) (hint opened : String) :
    Ensures (betweenIfAny kind hint opened items) s (Intact limits tokens 23 left) := by
  refine (currentIs_stays h .parenOpen).ensures fun s' hs ↦ ?_
  by_cases hopen : s.next = some .parenOpen
  · rw [decide_eq_true hopen]
    obtain ⟨left, rfl⟩ := h.exists_left_of_next hopen
    exact (node_ensures hkind hs.toIntact fun hs' ↦ between_ensures (hs.trans hs') hopen
      (hitems rfl) hint opened).imp fun _ hs ↦ hs.widen (Nat.le_succ _)
  · rw [decide_eq_false hopen]
    exact hs.toIntact.mono (by decide)

end

/-! ## Types -/

/-- With so many steps, the rules that call each other lose nothing and come to their end. -/
structure IntactAt (limits : Limits) (steps : Nat) : Prop where
  type : ∀ {tokens : List Token} {looks left : Nat} {s : State} (context : String),
    Intact limits tokens (looks + 3) left s → looks ≤ maxLooks → 2 * left + 1 ≤ steps →
      Ensures (Grammar.type steps context) s (Intact limits tokens looks left)
  body : ∀ {tokens : List Token} {left : Nat} {s : State} {kind : Kind} (form : Body),
    Intact limits tokens maxLooks left s → s.next = some kind → 2 * left ≤ steps →
      Ensures (Grammar.body steps form) s (Intact limits tokens 0 left)
  entries : ∀ {tokens : List Token} {left : Nat} {s : State} (form : Body),
    Intact limits tokens 32 left s → 2 * left + 1 ≤ steps →
      Ensures (Grammar.entries steps form) s (Intact limits tokens 24 left)
  reference : ∀ {tokens : List Token} {left : Nat} {s : State} {kind : Kind},
    Intact limits tokens maxLooks left s → s.next = some kind → 2 * left ≤ steps →
      Ensures (Grammar.reference steps) s (Intact limits tokens 0 left)
  arguments : ∀ {tokens : List Token} {left : Nat} {s : State},
    Intact limits tokens 32 left s → 2 * left + 2 ≤ steps →
      Ensures (Grammar.arguments steps) s (Intact limits tokens 24 left)

namespace IntactAt

theorem type_succ (ih : IntactAt limits steps) (context : String)
    (h : Intact limits tokens (looks + 3) left s) (hlooks : looks ≤ maxLooks)
    (hsteps : 2 * left + 1 ≤ steps + 1) :
    Ensures (Grammar.type (steps + 1) context) s (Intact limits tokens looks left) := by
  rw [Grammar.type]
  refine isHalted_bind ?_
  split
  · exact h.mono (Nat.le_add_right _ _)
  have hreport : ∀ {s}, Intact limits tokens looks left s →
      Ensures (report .expectedType (some context)) s (Intact limits tokens looks left) :=
    fun hs ↦ report_ensures hs _ _
  refine (current_stays h).ensures fun s' hs ↦ ?_
  have hless := hs.toIntact.mono (show looks ≤ looks + 2 from Nat.le_add_right _ _)
  split
  · next hnext =>
    exact entered_ensures hless hlooks fun hs' ↦ ih.body .record hs'.toIntact
      ((hs.trans hs').next.trans hnext) (Nat.le_of_succ_le_succ hsteps)
  · next hnext =>
    exact entered_ensures hless hlooks fun hs' ↦ ih.body .choice hs'.toIntact
      ((hs.trans hs').next.trans hnext) (Nat.le_of_succ_le_succ hsteps)
  · next hnext =>
    refine (atDeclStart_stays hs.toIntact).bind fun declares s'' hs' ↦ ?_
    split
    · exact hreport hs'.toIntact
    · exact entered_ensures hs'.toIntact hlooks fun hs'' ↦ ih.reference hs''.toIntact
        (((hs.trans hs').trans hs'').next.trans hnext) (Nat.le_of_succ_le_succ hsteps)
  · exact hreport hless

theorem body_succ (ih : IntactAt limits steps) {kind : Kind} (form : Body)
    (h : Intact limits tokens maxLooks left s) (hnext : s.next = some kind)
    (hsteps : 2 * left ≤ steps + 1) :
    Ensures (Grammar.body (steps + 1) form) s (Intact limits tokens 0 left) := by
  rw [Grammar.body]
  obtain ⟨left, rfl⟩ := h.exists_left_of_next hnext
  have hlook : Intact limits tokens (255 + 1) (left + 1) s := h
  refine (current_stays hlook).ensures fun s' hs ↦ ?_
  have hform : form.kind ≠ .root := by cases form <;> decide
  refine (node_ensures hform hs.toIntact fun {tokens s'} hs' ↦ ?_).imp
    fun _ hs ↦ hs.widen (Nat.le_succ left)
  refine (bump_next (hs.trans hs') hnext).bind fun _ s'' hs ↦ ?_
  refine (currentIs_stays (hs.mono (by decide : 33 ≤ maxLooks)) .braceOpen).ensures
    fun s' hs' ↦ ?_
  by_cases hopen : s''.next = some .braceOpen
  · rw [decide_eq_true hopen]
    obtain ⟨left, rfl⟩ := hs.exists_left_of_next hopen
    refine (openDelimiter_stays hs'.toIntact).bind fun _ s'' hs'' ↦ ?_
    refine (bump_next (hs'.trans hs'') hopen).bind fun _ s' hs ↦ ?_
    refine (ih.entries form (hs.mono (by decide)) (by omega)).bind fun _ s' hs ↦ ?_
    exact (closeDelimiter_ensures hs (by decide) _ _ _).imp fun _ hs ↦
      (hs.mono (Nat.zero_le _)).widen (Nat.le_succ _)
  · rw [decide_eq_false hopen]
    exact (report_ensures hs'.toIntact _ _).imp fun _ hs ↦ hs.mono (Nat.zero_le _)

/-- Behind an entry, or what was skipped in its place, come perhaps a comma, and further entries. -/
theorem entries_next (ih : IntactAt limits steps) (form : Body) (h : Intact limits tokens 33 left s)
    (hsteps : 2 * left + 1 ≤ steps) :
    Ensures (do let _ ← eat .comma; Grammar.entries steps form) s (Intact limits tokens 24 left) :=
  (eat_ensures h (by decide) .comma).bind fun _ _ hs ↦ ih.entries form hs hsteps

theorem entry_ensures (ih : IntactAt limits steps) {kind : Kind}
    (h : Intact limits tokens looks (left + 1) s) (hnext : s.next = some kind)
    (hsteps : 2 * left + 1 ≤ steps) :
    Ensures (node .entry do bump; expect .colon .expectedColon; Grammar.type steps "after `:`") s
      (Intact limits tokens 33 left) := by
  refine node_ensures (by decide) h fun hs ↦ ?_
  refine (bump_next hs hnext).bind fun _ s' hs ↦ ?_
  refine (expect_ensures (hs.mono (by decide : 37 ≤ maxLooks)) (by decide) .colon _).bind
    fun _ s' hs ↦ ?_
  exact ih.type _ hs (by decide) hsteps

theorem entries_succ (ih : IntactAt limits steps) (form : Body) (h : Intact limits tokens 32 left s)
    (hsteps : 2 * left + 1 ≤ steps + 1) :
    Ensures (Grammar.entries (steps + 1) form) s (Intact limits tokens 24 left) := by
  rw [Grammar.entries]
  refine isDone_bind ?_
  split
  · exact h.mono (by decide)
  next hgoes =>
  have hexcess : s.excess = none := excess_of_not_done hgoes
  refine (current_stays h).ensures fun s' hs ↦ ?_
  cases hnext : s.next with
  | none => exact hs.toIntact.mono (by decide)
  | some kind =>
    obtain ⟨left, rfl⟩ := h.exists_left_of_next hnext
    have hsteps : 2 * left + 1 ≤ steps := by omega
    have hkind := hs.next.trans hnext
    have hunder := hs.excess.trans hexcess
    have hwiden : ∀ {s : State}, Intact limits tokens 24 left s →
        Intact limits tokens 24 (left + 1) s := fun hs ↦ hs.widen (Nat.le_succ left)
    cases kind with
    | braceClose => exact hs.toIntact.mono (by decide)
    | id =>
      refine (atDeclStart_stays hs.toIntact).bind fun declares s'' hs' ↦ ?_
      split
      · exact hs'.toIntact.mono (by decide)
      · refine (ih.entry_ensures hs'.toIntact (hs'.next.trans hkind) hsteps).bind
          fun _ _ hs ↦ (ih.entries_next form hs hsteps).imp fun _ ↦ hwiden
    | comma =>
      -- nothing is skipped here, but the comma is placed
      refine (recover_stays hs.toIntact hkind hunder (by decide) _ _).bind fun _ s'' hs' ↦ ?_
      exact (eat_placed hs'.toIntact (hs'.next.trans hkind)).ensures fun _ hs ↦
        (ih.entries form (hs.mono (by decide)) hsteps).imp fun _ ↦ hwiden
    | _ =>
      refine (recover_places hs.toIntact hkind hunder (by decide) _ _).bind fun _ s'' hs' ↦ ?_
      exact (ih.entries_next form (hs'.mono (by decide)) hsteps).imp fun _ ↦ hwiden

theorem reference_succ_ensures (ih : IntactAt limits steps) {kind : Kind}
    (h : Intact limits tokens maxLooks left s) (hnext : s.next = some kind)
    (hsteps : 2 * left ≤ steps + 1) :
    Ensures (Grammar.reference (steps + 1)) s (Intact limits tokens 0 left) := by
  rw [reference_succ]
  obtain ⟨left, rfl⟩ := h.exists_left_of_next hnext
  refine (node_ensures (by decide) h fun hs ↦ (qualifiedName_ensures hs hnext).bind
    fun _ s' hs ↦ ?_).imp fun _ hs ↦ hs.widen (Nat.le_succ left)
  exact (betweenIfAny_ensures (by decide) hs
    (fun hleft hs ↦ ih.arguments hs (by omega)) _ _).imp fun _ hs ↦ hs.mono (Nat.zero_le _)

theorem arguments_succ (ih : IntactAt limits steps) (h : Intact limits tokens 32 left s)
    (hsteps : 2 * left + 2 ≤ steps + 1) :
    Ensures (Grammar.arguments (steps + 1)) s (Intact limits tokens 24 left) := by
  have hnext : ∀ {s}, Intact limits tokens 28 left s →
      Ensures (do if !(← isDone) then if ← eat .comma then Grammar.arguments steps) s
        (Intact limits tokens 24 left) := by
    intro s hs
    refine isDone_bind ?_
    split
    · exact more_ensures (hs.mono (by decide)) fun hleft hs ↦ ih.arguments hs (by omega)
    · exact hs.mono (by decide)
  rw [Grammar.arguments]
  refine (currentIn_stays h .typeFirst).ensures fun s' hs ↦ ?_
  split
  · exact (ih.type _ hs.toIntact (by decide) (by omega)).bind fun _ _ hs ↦ hnext hs
  · exact (recover_ensures hs.toIntact (by decide) _ _ _).bind fun _ _ hs ↦
      hnext (hs.mono (by decide))

end IntactAt

theorem intactAt (limits : Limits) (steps : Nat) : IntactAt limits steps := by
  induction steps with
  | zero =>
    -- a rule that needs a token is never called without a step
    have hnone : ∀ {tokens : List Token} {left : Nat} {s : State} {kind : Kind},
        Intact limits tokens maxLooks left s → s.next = some kind → ¬2 * left ≤ 0 := by
      intro tokens left s kind h hnext hsteps
      obtain ⟨left, rfl⟩ := h.exists_left_of_next hnext
      omega
    constructor
    · exact fun _ _ _ hsteps ↦ by omega
    · exact fun _ h hnext hsteps ↦ absurd hsteps (hnone h hnext)
    · exact fun _ _ hsteps ↦ by omega
    · exact fun h hnext hsteps ↦ absurd hsteps (hnone h hnext)
    · exact fun _ hsteps ↦ by omega
  | succ steps ih =>
    exact ⟨ih.type_succ, ih.body_succ, ih.entries_succ, ih.reference_succ_ensures,
      ih.arguments_succ⟩

/-! ## Declarations -/

theorem parameters_ensures (h : Intact limits tokens 32 left s) (hsteps : left < steps) :
    Ensures (Grammar.parameters steps) s (Intact limits tokens 24 left) := by
  induction steps generalizing left s with
  | zero => exact absurd hsteps (Nat.not_lt_zero _)
  | succ steps ih =>
    rw [parameters_succ]
    refine (eatOr_ensures h (by decide) fun hs ↦
      recover_ensures hs.toIntact (by decide) _ _ _).bind fun _ s' hs ↦ ?_
    exact more_ensures (hs.mono (by decide)) fun hleft hs ↦ ih hs (by omega)

theorem declaration_ensures (h : Intact limits tokens (looks + 1) (left + 1) s)
    (hname : s.next = some .id) (hsteps : 2 * left + 1 ≤ steps) :
    Ensures (Grammar.declaration steps) s (Intact limits tokens 16 left) := by
  rw [declaration_eq]
  have hcurrent := currentIs_stays h .id
  rw [decide_eq_true hname] at hcurrent
  refine hcurrent.ensures fun s' hs ↦ node_ensures (by decide) hs.toIntact fun hs' ↦ ?_
  refine (bump_next (hs.trans hs') hname).bind fun _ s' hs ↦ ?_
  refine (betweenIfAny_ensures (by decide) (hs.mono (by decide))
    (fun hleft hs ↦ parameters_ensures hs (by omega)) _ _).bind fun _ s' hs ↦ ?_
  refine (expect_ensures hs (by decide) _ _).bind fun _ s' hs ↦ ?_
  exact (intactAt limits steps).type _ (hs.mono (by decide)) (by decide) hsteps

theorem repeatedHeader_ensures {kind : Kind} (h : Intact limits tokens looks (left + 1) s)
    (hnext : s.next = some kind) :
    Ensures Grammar.repeatedHeader s (Intact limits tokens 16 left) := by
  refine node_ensures (by decide) h fun hs ↦ (report_stays hs.toIntact _ _).bind
    fun _ s' hs' ↦ ?_
  refine (bump_next (hs.trans hs') hnext).bind fun _ s' hs ↦ ?_
  exact (eat_ensures (hs.mono (by decide)) (by decide) .id).bind fun _ _ hs ↦ hs

/-- The parser stops between declarations only at the end of the text or beyond a limit. -/
theorem declarations_ensures {total : Nat} (h : Intact limits tokens 16 left s)
    (htotal : 2 * left + 1 ≤ total) (hsteps : left < steps) :
    Ensures (Grammar.declarations total steps) s fun s' ↦ Intact limits tokens 0 left s' ∧
      (s'.excess = none → s'.next = none) := by
  induction steps generalizing left s with
  | zero => exact absurd hsteps (Nat.not_lt_zero _)
  | succ steps ih =>
    rw [Grammar.declarations]
    refine isDone_bind ?_
    split
    · next hdone =>
      refine ⟨h.mono (Nat.zero_le _), fun (hexcess : s.excess = none) ↦ ?_⟩
      rw [hexcess, Option.isSome_none, Bool.or_false, List.isEmpty_iff] at hdone
      change s.next = none
      rw [State.next, hdone]
      rfl
    next hgoes =>
    refine (current_stays h).ensures fun s' hs ↦ ?_
    cases hnext : s.next with
    | none => exact ⟨hs.toIntact.mono (by decide), fun _ ↦ hs.next.trans hnext⟩
    | some kind =>
      obtain ⟨left, rfl⟩ := h.exists_left_of_next hnext
      have hkind := hs.next.trans hnext
      refine (current_stays hs.toIntact).ensures fun s'' hs' ↦ ?_
      rw [hkind]
      have hunder := (hs.trans hs').excess.trans (excess_of_not_done hgoes)
      have hrest : ∀ {s}, Intact limits tokens 16 left s →
          Ensures (Grammar.declarations total steps) s fun s' ↦
            Intact limits tokens 0 (left + 1) s' ∧ (s'.excess = none → s'.next = none) :=
        fun hs ↦ (ih hs (by omega) (by omega)).imp fun _ hs ↦
          ⟨hs.1.widen (Nat.le_succ _), hs.2⟩
      cases kind with
      | id =>
        exact (declaration_ensures hs'.toIntact (hs'.next.trans hkind) (by omega)).bind
          fun _ _ ↦ hrest
      | kwModule =>
        exact (repeatedHeader_ensures hs'.toIntact (hs'.next.trans hkind)).bind fun _ _ ↦ hrest
      | _ =>
        exact (recover_places hs'.toIntact (hs'.next.trans hkind) hunder (by decide) _ _).bind
          fun _ _ hs ↦ hrest (hs.mono (by decide))

theorem header_ensures (h : Intact limits tokens maxLooks left s) :
    Ensures Grammar.header s (Intact limits tokens 16 left) := by
  refine (currentIs_stays (h.mono (by decide : 17 ≤ maxLooks)) .kwModule).ensures fun s' hs ↦ ?_
  by_cases hmodule : s.next = some .kwModule
  · rw [decide_eq_true hmodule]
    obtain ⟨left, rfl⟩ := h.exists_left_of_next hmodule
    refine (node_ensures (by decide) hs.toIntact fun hs' ↦
      (bump_next (hs.trans hs') hmodule).bind fun _ s' hs ↦ ?_).imp
      fun _ hs ↦ hs.widen (Nat.le_succ left)
    exact eatOr_ensures (hs.mono (by decide : 17 ≤ maxLooks)) (by decide) fun hs ↦
      report_ensures hs.toIntact _ _
  · rw [decide_eq_false hmodule]
    exact report_ensures hs.toIntact _ _

/-! ## Whole texts -/

theorem initial_intact (limits : Limits) (source : String) :
    Intact limits (Token.lex source) maxLooks (Token.lex source).length
      (State.initial source limits) := by
  have htiles := Token.lex_tiles source
  have hoffset : (State.initial source limits).offset = 0 := State.offset_eq htiles
  rw [← hoffset] at htiles
  exact ⟨rfl, Nat.le_refl _, Nat.le_refl _, rfl, fun _ h ↦ absurd h List.not_mem_nil, htiles,
    fun _ h ↦ absurd h List.not_mem_nil, fun _ h ↦ absurd h List.not_mem_nil, id, rfl,
    fun _ h ↦ (nomatch h)⟩

theorem rootParts_ensures (h : Intact limits tokens maxLooks left s)
    (hsteps : 2 * left + 2 ≤ steps) :
    Ensures (rootParts steps) s fun s' ↦ Intact limits tokens 0 left s' ∧ s'.waiting = [] ∧
      (s'.excess = none → s'.ahead = []) := by
  refine (header_ensures h).bind fun _ s' hs ↦
    (declarations_ensures hs (by omega) (by omega)).bind fun _ s' hs ↦
      (eatTrivia_ensures hs.1).imp fun s'' hs' ↦ ⟨hs'.1.toIntact, hs'.2.1, fun hexcess ↦ ?_⟩
  have hnext := hs.2 (hs'.1.excess.symm.trans hexcess)
  rw [hs'.2.2]
  exact List.head?_eq_none_iff.mp (Option.map_eq_none_iff.mp hnext)

end

/-- A parse gives a result if no limit was exceeded. -/
theorem ofText_eq_ok_iff {limits : Limits} {source : String} {parsed : Parsed} :
    Parsed.ofText limits source = .ok parsed ↔ (Parsed.run limits source).2.excess = none ∧
      ⟨(Parsed.run limits source).1, (Parsed.run limits source).2.reports.reverse⟩ = parsed := by
  rw [Parsed.ofText]
  obtain ⟨tree, final⟩ := Parsed.run limits source
  dsimp only
  cases final.excess with
  | none => exact ⟨fun h ↦ ⟨rfl, Except.ok.inj h⟩, fun h ↦ congrArg Except.ok h.2⟩
  | some excess => exact ⟨fun h ↦ (nomatch h), fun h ↦ (nomatch h.1)⟩

theorem ofText_eq_error_iff {limits : Limits} {source : String} {excess : Excess} :
    Parsed.ofText limits source = .error excess ↔
      (Parsed.run limits source).2.excess = some excess := by
  rw [Parsed.ofText]
  obtain ⟨tree, final⟩ := Parsed.run limits source
  dsimp only
  cases final.excess with
  | none => exact ⟨fun h ↦ (nomatch h), fun h ↦ (nomatch h)⟩
  | some cause => exact ⟨fun h ↦ congrArg some (Except.error.inj h),
      fun h ↦ congrArg Except.error (Option.some_inj.mp h)⟩

/-- **Parsing is lossless**: under any limits, a parse of any text ends without a mistake of the
parser, and it fails only for a limit that is set. Its tree is one node around the whole text, with
no such node inside and nothing beside it; tokens follow each other without gaps, and no span of a
diagnostic ends before it begins. The tokens of the tree and those that an exceeded limit left ahead
are the tokens of the text. If there is a result, its tree holds all of them, and its text is the
text. -/
theorem parse_lossless (limits : Limits) (source : String) :
    (Parsed.run limits source).2.defect = none ∧
    (∀ excess, Parsed.ofText limits source = .error excess → limits.exceeded excess ≠ none) ∧
    ((∃ children, (Parsed.run limits source).1 = .node .root children ∧
        ∀ child ∈ children, child.Inner) ∧
      (Parsed.run limits source).2.placed = [] ∧ (Parsed.run limits source).2.waiting = []) ∧
    (Token.Tiles 0 (Token.lex source) source.utf8ByteSize ∧
      ∀ d ∈ (Parsed.run limits source).2.reports, d.Ordered) ∧
    (Parsed.run limits source).1.tokens ++ (Parsed.run limits source).2.ahead
      = Token.lex source ∧
    ∀ parsed, Parsed.ofText limits source = .ok parsed →
      parsed.tree.tokens = Token.lex source ∧ parsed.tree.text = source := by
  obtain ⟨hparts, hwaiting, hahead⟩ :=
    rootParts_ensures (initial_intact limits source) (Nat.le_refl _)
  have htokens : (Parsed.run limits source).1.tokens ++ (Parsed.run limits source).2.ahead
      = Token.lex source := by
    have hheld := hparts.held
    rw [State.held, hwaiting, List.nil_append, Tree.forestOnto_eq] at hheld
    rw [run_eq]
    exact hheld
  refine ⟨?_, fun excess hfailed ↦ ?_,
    ⟨⟨_, congrArg Prod.fst (run_eq limits source), fun child hchild ↦ ?_⟩, ?_, ?_⟩,
    ⟨Token.lex_tiles source, ?_⟩, htokens, fun parsed hparsed ↦ ?_⟩
  · rw [run_eq]
    exact hparts.defect
  · have hexcess := ofText_eq_error_iff.mp hfailed
    rw [run_eq] at hexcess
    exact hparts.exceeded excess hexcess
  · exact hparts.inner child (List.mem_reverse.mp hchild)
  · rw [run_eq]
  · rw [run_eq]
    exact hwaiting
  · rw [run_eq]
    exact hparts.reports
  · obtain ⟨hexcess, rfl⟩ := ofText_eq_ok_iff.mp hparsed
    rw [run_eq] at hexcess
    have hnone : (Parsed.run limits source).2.ahead = [] := by
      rw [run_eq]
      exact hahead hexcess
    rw [hnone, List.append_nil] at htokens
    refine ⟨htokens, ?_⟩
    rw [Tree.text, htokens, Token.join_lex]

/-- A text without a header, in which an equals sign, a colon, types and both closing delimiters
are missing, with a character that no rule reads. -/
def broken : String := "modul A(T = Record \x7b $ b: , C "

theorem parse_lossless_broken :
    ∃ parsed, Parsed.ofText .standard broken = .ok parsed ∧ parsed.diagnostics.length = 6 ∧
      parsed.tree.tokens = Token.lex broken ∧ parsed.tree.text = broken := by
  have hexcess : (Parsed.run .standard broken).2.excess = none := by decide +kernel
  have hreports : (Parsed.run .standard broken).2.reports.length = 6 := by decide +kernel
  obtain ⟨parsed, hparsed⟩ : ∃ parsed, Parsed.ofText .standard broken = .ok parsed :=
    ⟨_, ofText_eq_ok_iff.mpr ⟨hexcess, rfl⟩⟩
  refine ⟨parsed, hparsed, ?_, (parse_lossless .standard broken).2.2.2.2.2 parsed hparsed⟩
  rw [← (ofText_eq_ok_iff.mp hparsed).2, List.length_reverse, hreports]

end SchemaCodec.Syntax
