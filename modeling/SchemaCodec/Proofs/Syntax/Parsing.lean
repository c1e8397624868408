import SchemaCodec.Proofs.Syntax.Steps

/-!
# The parser reads phrases

Each rule of the parser does what the reader of phrases does: where the reader finds a phrase, the
rule places its tree and reports nothing, and where the reader finds none, the rule reports
something. Since the reader finds exactly the phrases, the parser accepts exactly the texts that the
grammar derives, and its module is the one that the derivation means.

## Steps and looks

Types, entries and arguments call each other, each with one step less. A call comes at most twice
for each terminal, so twice the number of terminals ahead and a few more are always enough. The same
bound holds for each rule from one call to the next, with its own small number added.

A rule looks at what comes next a few times before it moves on, and moving on renews the looks. How
many looks are left is rounded down in each statement: what counts is that some are.
-/

namespace SchemaCodec.Syntax

open Grammar (Body)

open Parse

/-! ## Rules in parts -/

/-- What comes behind a choice comes behind each of its branches. -/
theorem ite_then {α β : Type} (p : Prop) [Decidable p] (x y : Parse α) (k : α → Parse β) :
    (if p then x else y) >>= k = if p then x >>= k else y >>= k := by
  split <;> rfl

/-- Items between parentheses. -/
def between (hint opened : String) (items : Parse Unit) : Parse Unit := do
  openDelimiter
  bump
  if ← currentIs .parenClose then report .emptyList (some hint) else items
  closeDelimiter .parenClose .unclosedParen opened

/-- A node around items between parentheses, if there are any. -/
def betweenIfAny (kind : Kind) (hint opened : String) (items : Parse Unit) : Parse Unit := do
  if ← currentIs .parenOpen then node kind (between hint opened items)

/-- A name, perhaps qualified. -/
def qualifiedName : Parse Unit := do
  bump
  if ← eat .dot then
    if !(← eat .id) then report .expectedTypeName (some "after `.`")

theorem reference_succ (steps : Nat) :
    Grammar.reference (steps + 1) = node .ref (do
      qualifiedName
      betweenIfAny .args "drop `()` or pass a type" "argument list" (Grammar.arguments steps)) := by
  rw [Grammar.reference]
  simp only [qualifiedName, betweenIfAny, between, bind_assoc, pure_bind, ite_then]

theorem declaration_eq (steps : Nat) :
    Grammar.declaration steps = (do
      if !(← currentIs .id) then recordDefect .notAName
      node .decl (do
        bump
        betweenIfAny .params "drop `()` or name a parameter" "parameter list"
          (Grammar.parameters steps)
        expect .equals .expectedEquals
        Grammar.type steps "after `=`")) := by
  rw [Grammar.declaration]
  simp only [betweenIfAny, between, bind_assoc, pure_bind, ite_then]

/-! ## What has been reported stays reported -/

theorem betweenIfAny_grows {items : Parse Unit} (hitems : Grows items) (kind : Kind)
    (hint opened : String) : Grows (betweenIfAny kind hint opened items) :=
  (currentIs_grows .parenOpen).bind fun _ ↦ Grows.ite
    (node_grows (openDelimiter_grows.bind fun _ ↦ bump_grows.bind fun _ ↦
      (currentIs_grows .parenClose).bind fun _ ↦ Grows.ite
        ((report_grows _ _).bind fun _ ↦ closeDelimiter_grows _ _ _)
        (hitems.bind fun _ ↦ closeDelimiter_grows _ _ _)) kind)
    (Grows.pure _)

theorem qualifiedName_grows : Grows qualifiedName :=
  bump_grows.bind fun _ ↦ (eat_grows .dot).bind fun _ ↦ Grows.ite
    ((eat_grows .id).bind fun _ ↦ Grows.ite (report_grows _ _) (Grows.pure _)) (Grows.pure _)

mutual

theorem type_grows : (steps : Nat) → (context : String) → Grows (Grammar.type steps context)
  | 0, _ => recordDefect_grows _
  | steps + 1, context => by
    rw [Grammar.type]
    refine isHalted_grows.bind fun _ ↦ Grows.ite (Grows.pure _) (current_grows.bind fun next ↦ ?_)
    split
    · exact enter_grows.bind fun _ ↦ Grows.ite
        ((body_grows steps .record).bind fun _ ↦ leave_grows) (Grows.pure _)
    · exact enter_grows.bind fun _ ↦ Grows.ite
        ((body_grows steps .choice).bind fun _ ↦ leave_grows) (Grows.pure _)
    · exact atDeclStart_grows.bind fun _ ↦ Grows.ite (report_grows _ _)
        (enter_grows.bind fun _ ↦ Grows.ite
          ((reference_grows steps).bind fun _ ↦ leave_grows) (Grows.pure _))
    · exact report_grows _ _

theorem body_grows : (steps : Nat) → (form : Body) → Grows (Grammar.body steps form)
  | 0, _ => recordDefect_grows _
  | steps + 1, form => by
    rw [Grammar.body]
    exact current_grows.bind fun _ ↦ node_grows (bump_grows.bind fun _ ↦
      (currentIs_grows .braceOpen).bind fun _ ↦ Grows.ite
        (openDelimiter_grows.bind fun _ ↦ bump_grows.bind fun _ ↦
          (entries_grows steps form).bind fun _ ↦ closeDelimiter_grows _ _ _)
        (report_grows _ _)) form.kind

theorem entries_grows : (steps : Nat) → (form : Body) → Grows (Grammar.entries steps form)
  | 0, _ => recordDefect_grows _
  | steps + 1, form => by
    have hnext : Grows (do let _ ← eat .comma; Grammar.entries steps form) :=
      (eat_grows .comma).bind fun _ ↦ entries_grows steps form
    rw [Grammar.entries]
    refine isDone_grows.bind fun _ ↦ Grows.ite (Grows.pure _) (current_grows.bind fun next ↦ ?_)
    dsimp only
    split
    · exact Grows.pure _
    · exact Grows.pure _
    · exact atDeclStart_grows.bind fun _ ↦ Grows.ite (Grows.pure _)
        ((node_grows (bump_grows.bind fun _ ↦ (expect_grows _ _).bind fun _ ↦
          type_grows steps _) .entry).bind fun _ ↦ hnext)
    · exact (recover_grows _ _ _).bind fun _ ↦ hnext

theorem reference_grows : (steps : Nat) → Grows (Grammar.reference steps)
  | 0 => recordDefect_grows _
  | steps + 1 => by
    rw [reference_succ]
    exact node_grows (qualifiedName_grows.bind fun _ ↦
      betweenIfAny_grows (arguments_grows steps) _ _ _) .ref

theorem arguments_grows : (steps : Nat) → Grows (Grammar.arguments steps)
  | 0 => recordDefect_grows _
  | steps + 1 => by
    have hnext : Grows (do if !(← isDone) then if ← eat .comma then Grammar.arguments steps) :=
      isDone_grows.bind fun _ ↦ Grows.ite ((eat_grows .comma).bind fun _ ↦
        Grows.ite (arguments_grows steps) (Grows.pure _)) (Grows.pure _)
    rw [Grammar.arguments]
    exact (currentIn_grows _).bind fun _ ↦ Grows.ite
      ((type_grows steps _).bind fun _ ↦ hnext) ((recover_grows _ _ _).bind fun _ ↦ hnext)

end

theorem parameters_grows (steps : Nat) : Grows (Grammar.parameters steps) := by
  induction steps with
  | zero => exact recordDefect_grows _
  | succ steps ih =>
    have hnext : Grows (do if ← eat .comma then Grammar.parameters steps) :=
      (eat_grows .comma).bind fun _ ↦ Grows.ite ih (Grows.pure _)
    exact (eat_grows .id).bind fun _ ↦ Grows.ite ((recover_grows _ _ _).bind fun _ ↦ hnext) hnext

theorem declaration_grows (steps : Nat) : Grows (Grammar.declaration steps) := by
  have hdecl : Grows (node .decl (do
      bump
      betweenIfAny .params "drop `()` or name a parameter" "parameter list"
        (Grammar.parameters steps)
      expect .equals .expectedEquals
      Grammar.type steps "after `=`")) :=
    node_grows (bump_grows.bind fun _ ↦ (betweenIfAny_grows (parameters_grows steps) _ _ _).bind
      fun _ ↦ (expect_grows _ _).bind fun _ ↦ type_grows steps _) .decl
  rw [declaration_eq]
  exact (currentIs_grows .id).bind fun _ ↦ Grows.ite
    ((recordDefect_grows _).bind fun _ ↦ hdecl) hdecl

theorem repeatedHeader_grows : Grows Grammar.repeatedHeader :=
  node_grows ((report_grows _ _).bind fun _ ↦ bump_grows.bind fun _ ↦ (eat_grows .id).bind fun _ ↦
    Grows.pure _) .moduleHeader

theorem declarations_grows (total steps : Nat) : Grows (Grammar.declarations total steps) := by
  induction steps with
  | zero => exact recordDefect_grows _
  | succ steps ih =>
    rw [Grammar.declarations]
    refine isDone_grows.bind fun _ ↦ Grows.ite (Grows.pure _) (current_grows.bind fun _ ↦
      Grows.ite (Grows.pure _) (current_grows.bind fun next ↦ ?_))
    dsimp only
    split
    · exact (declaration_grows total).bind fun _ ↦ ih
    · exact repeatedHeader_grows.bind fun _ ↦ ih
    · exact (recover_grows _ _ _).bind fun _ ↦ ih

/-! ## Names and lists -/

section

variable {looks delimiters steps : Nat} {ts : List Terminal} {placed : List Tree} {s : State}

theorem name_follows {otherwise : Parse Unit} (h : At (looks + 1) delimiters ts placed s)
    (hother : ∀ {s}, At looks delimiters ts placed s → Fails otherwise s) :
    Follows (do if !(← eat .id) then otherwise) s (Phrase.readName ts) fun c ↦
      At maxLooks delimiters c.2 ((Terminal.name c.1).leaf :: placed) := by
  rcases hname : Phrase.readName ts with - | ⟨name, rest⟩
  · have heat := eat_id_gives_false h hname
    exact heat.fails fun s hs ↦ hother hs
  · rw [Phrase.readName_eq_some.mp hname] at h
    exact (eat_id_gives h).follows fun s hs ↦ hs

theorem qualifiedName_follows {first : String}
    (h : Ready looks delimiters (.name first :: ts) placed s) :
    Follows qualifiedName s (Phrase.readQualified first ts) fun c ↦ At 8 delimiters c.2
      (((qualified c.1.1 c.1.2).map Terminal.leaf).reverse ++ placed) := by
  refine (bump_gives h).follows fun s hs ↦ ?_
  have hfirst : At 10 delimiters ts ((Terminal.name first).leaf :: placed) s :=
    hs.mono (by decide)
  refine (eat_gives (by decide) hfirst (by decide)).follows fun s hs ↦ ?_
  rw [Phrase.readQualified]
  rcases haccept : Phrase.accept (.symbol .dot) ts with ⟨- | -, rest⟩
  · rw [haccept] at hs
    exact hs.mono (by decide)
  · rw [haccept] at hs
    exact (name_follows hs fun hs ↦ report_fails hs _ _).found_bind
      fun c s _ hs ↦ ⟨_, rfl, hs.mono (by decide)⟩

section

variable {α : Type} {yield : α → List Terminal} {tree : α → Tree}
  {readItems : List Terminal → Option (List α × List Terminal)} {items : Parse Unit}

theorem between_follows (hempty : ∀ ts, readItems (.symbol .parenClose :: ts) = none)
    (h : Ready looks delimiters (.symbol .parenOpen :: ts) placed s)
    (hitems : ∀ {placed s}, At 8 (delimiters + 1) ts placed s →
      Follows items s (readItems ts) fun c ↦
        At 8 (delimiters + 1) c.2 ((separatedTrees (c.1.map tree)).reverse ++ placed))
    (hint opened : String) :
    Follows (between hint opened items) s
      (do
        let (found, ts) ← readItems ts
        let ts ← Phrase.expect (.symbol .parenClose) ts
        some (found, ts))
      fun c ↦ At 7 delimiters c.2 (Terminal.leaf (.symbol .parenClose) ::
        ((separatedTrees (c.1.map tree)).reverse ++
          Terminal.leaf (.symbol .parenOpen) :: placed)) := by
  refine (openDelimiter_gives h.toAt).follows fun s hs ↦ (bump_gives hs).follows fun s hs ↦ ?_
  have hopened : At 9 (delimiters + 1) ts (Terminal.leaf (.symbol .parenOpen) :: placed) s :=
    hs.mono (by decide)
  refine (currentIs_gives hopened .parenClose).follows fun s hs ↦ ?_
  rw [← accept_eq_isNext (by decide)]
  rcases haccept : Phrase.accept (.symbol .parenClose) ts with ⟨- | -, rest⟩
  · exact (hitems hs.toAt).bind (fun _ ↦ closeDelimiter_grows _ _ _) fun _ c s _ hs ↦
      (closeDelimiter_follows (by decide) hs (by decide) _ _).found_bind
        fun ts s _ hs ↦ ⟨_, rfl, hs⟩
  · rw [Phrase.accept_true haccept, hempty]
    exact (report_fails hs.toAt _ _).bind fun _ ↦ closeDelimiter_grows _ _ _

theorem betweenIfAny_follows (hsound : Phrase.SoundItems yield readItems)
    (hempty : ∀ ts, readItems (.symbol .parenClose :: ts) = none)
    (h : At 8 delimiters ts placed s)
    (hitems : ∀ {rest placed s}, ts = .symbol .parenOpen :: rest →
      At 8 (delimiters + 1) rest placed s → Follows items s (readItems rest) fun c ↦
        At 8 (delimiters + 1) c.2 ((separatedTrees (c.1.map tree)).reverse ++ placed))
    (kind : Kind) (hint opened : String) :
    Follows (betweenIfAny kind hint opened items) s (Phrase.readParenthesized readItems ts)
      fun c ↦ At 7 delimiters c.2 ((parenthesizedTree kind (c.1.map tree)).reverse ++ placed) := by
  refine (currentIs_gives h .parenOpen).follows fun s hs ↦ ?_
  rw [Phrase.readParenthesized, ← accept_eq_isNext (by decide)]
  rcases haccept : Phrase.accept (.symbol .parenOpen) ts with ⟨- | -, rest⟩
  · rw [(Phrase.accept_false haccept).1] at hs
    exact hs.toAt
  · have hopen := Phrase.accept_true haccept
    rw [hopen] at hs
    refine node_follows hs fun hs ↦
      (between_follows hempty hs (hitems hopen) hint opened).imp fun c s hc hs ↦ ⟨_, ?_, hs⟩
    obtain ⟨⟨found, behind⟩, hfound, hclose⟩ := Option.bind_eq_some_iff.mp hc
    obtain ⟨after, -, hc⟩ := Option.bind_eq_some_iff.mp hclose
    cases hc
    obtain ⟨item, others, rfl⟩ := List.exists_cons_of_ne_nil (hsound hfound).2
    simp [parenthesizedTree]

/-- Behind an item come a comma and further items, or no comma. -/
theorem more_follows {item : α} (hsound : Phrase.SoundItems yield readItems)
    (h : At 9 delimiters ts (tree item :: placed) s)
    (hitems : ∀ {rest placed s}, ts = .symbol .comma :: rest → At 8 delimiters rest placed s →
      Follows items s (readItems rest) fun c ↦
        At 8 delimiters c.2 ((separatedTrees (c.1.map tree)).reverse ++ placed)) :
    Follows (do if ← eat .comma then items) s (Phrase.readMore readItems item ts) fun c ↦
      At 8 delimiters c.2 ((separatedTrees (c.1.map tree)).reverse ++ placed) := by
  refine (eat_gives (by decide) h (by decide)).follows fun s hs ↦ ?_
  rw [Phrase.readMore]
  rcases haccept : Phrase.accept (.symbol .comma) ts with ⟨- | -, rest⟩
  · rw [haccept] at hs
    exact hs
  · rw [haccept] at hs
    refine (hitems (Phrase.accept_true haccept) hs).found_bind ?_
    rintro ⟨found, behind⟩ s hfound hs
    obtain ⟨next, others, rfl⟩ := List.exists_cons_of_ne_nil (hsound hfound).2
    refine ⟨_, rfl, ?_⟩
    simpa [separatedTrees, List.intersperse_cons_cons] using hs

end

/-! ## Types -/

/-- With so many steps, the rules that call each other do what the reader does. -/
structure FollowsAt (steps : Nat) : Prop where
  type : ∀ {delimiters : Nat} {ts : List Terminal} {placed : List Tree} {s : State}
    (context : String), At 4 delimiters ts placed s → 2 * ts.length + 2 ≤ steps →
      Follows (Grammar.type steps context) s (Phrase.readType steps ts) fun c ↦
        At maxLooks delimiters c.2 (c.1.tree :: placed)
  body : ∀ {delimiters : Nat} {ts : List Terminal} {placed : List Tree} {s : State} (form : Body),
    Ready maxLooks delimiters (.symbol form.keyword :: ts) placed s → 2 * ts.length + 3 ≤ steps →
      Follows (Grammar.body steps form) s (Phrase.readBody steps form ts) fun c ↦
        At 0 delimiters c.2 (c.1.tree :: placed)
  entries : ∀ {delimiters : Nat} {ts : List Terminal} {placed : List Tree} {s : State}
    (form : Body), At 8 delimiters ts placed s → 2 * ts.length + 1 ≤ steps →
      Follows (Grammar.entries steps form) s (Phrase.readEntries steps ts) fun c ↦
        At 4 delimiters c.2 ((TypePhrase.entriesTrees c.1).reverse ++ placed)
  reference : ∀ {delimiters : Nat} {ts : List Terminal} {placed : List Tree} {s : State}
    {first : String}, Ready maxLooks delimiters (.name first :: ts) placed s →
      2 * ts.length + 3 ≤ steps →
      Follows (Grammar.reference steps) s (Phrase.readReference steps first ts) fun c ↦
        At 0 delimiters c.2 (c.1.tree :: placed)
  arguments : ∀ {delimiters : Nat} {ts : List Terminal} {placed : List Tree} {s : State},
    At 8 delimiters ts placed s → 2 * ts.length + 3 ≤ steps →
      Follows (Grammar.arguments steps) s (Phrase.readArguments steps ts) fun c ↦
        At 8 delimiters c.2 ((separatedTrees (c.1.map TypePhrase.tree)).reverse ++ placed)

namespace FollowsAt

/-- A type that was entered is left. -/
theorem entered {γ : Type} {inner : Parse Unit} {found : Option γ} {after : γ → List Terminal}
    {trees : γ → List Tree} (h : Ready looks delimiters ts placed s)
    (hinner : ∀ {s}, Ready maxLooks delimiters ts placed s →
      Follows inner s found fun c ↦ At 0 delimiters (after c) (trees c)) :
    Follows (do if ← enter then inner; leave) s found fun c ↦
      At maxLooks delimiters (after c) (trees c) :=
  (enter_gives h).follows fun _ hs ↦ (hinner hs).gives (fun _ ↦ leave_grows)
    fun _ _ _ hs ↦ leave_gives hs

theorem type_succ (ih : FollowsAt steps) (context : String) (h : At 4 delimiters ts placed s)
    (hsteps : 2 * ts.length + 2 ≤ steps + 1) :
    Follows (Grammar.type (steps + 1) context) s (Phrase.readType (steps + 1) ts) fun c ↦
      At maxLooks delimiters c.2 (c.1.tree :: placed) := by
  rw [Grammar.type]
  refine (isHalted_gives h).follows fun _ hsame ↦ ?_
  subst hsame
  refine (current_gives h).follows fun s hs ↦ ?_
  rcases ts with - | ⟨name | kind, ts⟩
  · exact report_fails hs.toAt _ _
  · rw [List.length_cons] at hsteps
    refine (atDeclStart_gives_name hs.toAt).follows fun s hs ↦ ?_
    -- a name in front of an equals sign is no type here, for the parser and for the reader
    rw [Phrase.readType]
    by_cases hequals : ts.head? = some (.symbol .equals)
    · rw [if_pos hequals, decide_eq_true hequals]
      exact report_fails hs.toAt _ _
    · rw [if_neg hequals, decide_eq_false hequals]
      exact entered hs fun hs ↦ ih.reference hs (by omega)
  · rw [List.length_cons] at hsteps
    cases kind with
    | kwRecord => exact entered hs fun hs ↦ ih.body .record hs (by omega)
    | kwChoice => exact entered hs fun hs ↦ ih.body .choice hs (by omega)
    | id => exact absurd List.mem_cons_self hs.symbol_id_not_mem
    | _ => exact report_fails hs.toAt _ _

theorem body_succ (ih : FollowsAt steps) (form : Body)
    (h : Ready maxLooks delimiters (.symbol form.keyword :: ts) placed s)
    (hsteps : 2 * ts.length + 3 ≤ steps + 1) :
    Follows (Grammar.body (steps + 1) form) s (Phrase.readBody (steps + 1) form ts) fun c ↦
      At 0 delimiters c.2 (c.1.tree :: placed) := by
  rw [Grammar.body, Phrase.readBody]
  have hlooks : At (255 + 1) delimiters (.symbol form.keyword :: ts) placed s := h.toAt
  refine (current_gives hlooks).follows fun s hs ↦ ?_
  refine node_follows hs fun hs ↦ (bump_gives hs).follows fun s hs ↦ ?_
  have hkeyword : At 9 delimiters ts [Terminal.leaf (.symbol form.keyword)] s := hs.mono (by decide)
  refine (currentIs_gives hkeyword .braceOpen).follows fun s hs ↦ ?_
  rw [← accept_eq_isNext (by decide), Phrase.expect_eq_accept]
  rcases haccept : Phrase.accept (.symbol .braceOpen) ts with ⟨- | -, rest⟩
  · exact report_fails hs.toAt _ _
  · rw [Phrase.accept_true haccept] at hs hsteps
    rw [List.length_cons] at hsteps
    refine (openDelimiter_gives hs.toAt).follows fun s hs ↦ (bump_gives hs).follows fun s hs ↦ ?_
    refine (ih.entries form (hs.mono (by decide)) (by omega)).bind
      (fun _ ↦ closeDelimiter_grows _ _ _) fun _ c s _ hs ↦ ?_
    have hentries := hs.mono (show 1 ≤ 4 by decide)
    refine (closeDelimiter_follows (by decide) hentries (by decide) _ _).found_bind
      fun ts s _ hs ↦ ⟨_, rfl, _, ?_, hs⟩
    simp [TypePhrase.tree]

theorem entry_follows (ih : FollowsAt steps) {name : String}
    (h : Ready looks delimiters (.name name :: ts) placed s) (hsteps : 2 * ts.length ≤ steps) :
    Follows (node .entry do bump; expect .colon .expectedColon; Grammar.type steps "after `:`") s
      (Phrase.expect (.symbol .colon) ts >>= Phrase.readType steps) fun c ↦
        At maxLooks delimiters c.2 (.node .entry [Terminal.leaf (.name name),
          Terminal.leaf (.symbol .colon), c.1.tree] :: placed) := by
  refine node_follows h fun hs ↦ (bump_gives hs).follows fun s hs ↦ ?_
  have hname : At 9 delimiters ts [Terminal.leaf (.name name)] s := hs.mono (by decide)
  refine (expect_follows (by decide) hname (by decide) _).bind (fun _ ↦ type_grows _ _)
    fun _ rest s hrest hs ↦ ?_
  rw [Phrase.expect_eq_some.mp hrest, List.length_cons] at hsteps
  exact (ih.type "after `:`" (hs.mono (by decide)) (by omega)).imp fun c s _ hs ↦ ⟨_, rfl, hs⟩

/-- Entries that begin with an entry: behind it come perhaps a comma, and further entries. -/
theorem readEntries_name {name : String} (h : ts.head? ≠ some (.symbol .equals)) :
    Phrase.readEntries (steps + 1) (.name name :: ts) = (do
      let (ty, rest) ← Phrase.expect (.symbol .colon) ts >>= Phrase.readType steps
      let (entries, behind) ← Phrase.readEntries steps (Phrase.accept (.symbol .comma) rest).2
      some ((name, ty, (Phrase.accept (.symbol .comma) rest).1) :: entries, behind)) := by
  rw [Phrase.readEntries, if_neg h, bind_assoc]

theorem entries_name (ih : FollowsAt steps) (form : Body) {name : String}
    (h : Ready looks delimiters (.name name :: ts) placed s)
    (hequals : ts.head? ≠ some (.symbol .equals)) (hsteps : 2 * ts.length ≤ steps) :
    Follows
      (do
        node .entry do bump; expect .colon .expectedColon; Grammar.type steps "after `:`"
        let _ ← eat .comma
        Grammar.entries steps form)
      s (Phrase.readEntries (steps + 1) (.name name :: ts)) fun c ↦
        At 4 delimiters c.2 ((TypePhrase.entriesTrees c.1).reverse ++ placed) := by
  rw [readEntries_name hequals]
  refine (entry_follows ih h hsteps).bind
    (fun _ ↦ (eat_grows .comma).bind fun _ ↦ entries_grows steps form) ?_
  rintro - ⟨ty, rest⟩ s hentry hs
  obtain ⟨mid, hcolon, hty⟩ := Option.bind_eq_some_iff.mp hentry
  have hrest := Phrase.length_readType hty
  have hcomma := Phrase.length_accept (.symbol .comma) rest
  rw [Phrase.expect_eq_some.mp hcolon, List.length_cons] at hsteps
  have hentry := hs.mono (show 8 + 1 ≤ maxLooks by decide)
  refine (eat_gives (by decide) hentry (by decide)).follows fun s hs ↦ ?_
  refine (ih.entries form hs (by dsimp only; omega)).found_bind fun c s _ hs ↦ ⟨_, rfl, ?_⟩
  dsimp only at hs ⊢
  rcases hfound : (Phrase.accept (.symbol .comma) rest).1 with - | -
  · rw [hfound] at hs
    simpa [TypePhrase.entriesTrees] using hs
  · rw [hfound] at hs
    simpa [TypePhrase.entriesTrees] using hs

theorem entries_succ (ih : FollowsAt steps) (form : Body) (h : At 8 delimiters ts placed s)
    (hsteps : 2 * ts.length + 1 ≤ steps + 1) :
    Follows (Grammar.entries (steps + 1) form) s (Phrase.readEntries (steps + 1) ts) fun c ↦
      At 4 delimiters c.2 ((TypePhrase.entriesTrees c.1).reverse ++ placed) := by
  rw [Grammar.entries]
  obtain ⟨done, hdone, hend⟩ := isDone_gives h
  refine hdone.follows fun _ hsame ↦ ?_
  subst hsame
  cases done with
  | true =>
    rw [hend rfl] at h ⊢
    exact h.mono (by decide)
  | false =>
    refine (current_gives h).follows fun s hs ↦ ?_
    rcases ts with - | ⟨name | kind, ts⟩
    · exact hs.toAt.mono (by decide)
    · rw [List.length_cons] at hsteps
      refine (atDeclStart_gives_name hs.toAt).follows fun s hs ↦ ?_
      by_cases hequals : ts.head? = some (.symbol .equals)
      · -- the entries end without a report: the brace that is missing is reported behind them
        rw [Phrase.readEntries, if_pos hequals, decide_eq_true hequals]
        exact hs.toAt.mono (by decide)
      · rw [decide_eq_false hequals]
        exact ih.entries_name form hs hequals (by omega)
    · cases kind with
      | braceClose => exact hs.toAt.mono (by decide)
      | id => exact absurd List.mem_cons_self hs.symbol_id_not_mem
      | _ =>
        exact (recover_fails hs.toAt _ _ _).bind fun _ ↦ (eat_grows .comma).bind fun _ ↦
          entries_grows steps form

/-- Empty parentheses hold no arguments. -/
theorem readArguments_close (ts : List Terminal) :
    Phrase.readArguments steps (.symbol .parenClose :: ts) = none := by
  rcases steps with - | - | steps <;> rfl

theorem reference_follows (ih : FollowsAt steps) {first : String}
    (h : Ready maxLooks delimiters (.name first :: ts) placed s)
    (hsteps : 2 * ts.length + 3 ≤ steps + 1) :
    Follows (Grammar.reference (steps + 1)) s (Phrase.readReference (steps + 1) first ts) fun c ↦
      At 0 delimiters c.2 (c.1.tree :: placed) := by
  rw [reference_succ, Phrase.readReference]
  refine node_follows h fun hs ↦ (qualifiedName_follows hs).bind
    (fun _ ↦ betweenIfAny_grows (arguments_grows steps) _ _ _) ?_
  rintro - ⟨⟨qualifier, name⟩, rest⟩ s hname hs
  have hrest := Phrase.length_readQualified hname
  refine (betweenIfAny_follows (Phrase.readArguments_sound steps) readArguments_close hs
    (fun (hopen : rest = _) hs ↦ ih.arguments hs ?_) _ _ _).found_bind
    fun c s _ hs ↦ ⟨_, rfl, _, ?_, hs.mono (by decide)⟩
  · rw [hopen, List.length_cons] at hrest
    omega
  · simp [TypePhrase.tree, TypePhrase.trees_eq]

/-- No type begins with what no type can begin with. -/
theorem readType_none (h : ¬(ts.head?.map Terminal.kind).any KindSet.typeFirst.contains = true) :
    Phrase.readType steps ts = none := by
  have hid : KindSet.typeFirst.contains .id = true := by decide
  have hrecord : KindSet.typeFirst.contains .kwRecord = true := by decide
  have hchoice : KindSet.typeFirst.contains .kwChoice = true := by decide
  rcases steps with - | steps
  · rfl
  rcases ts with - | ⟨name | kind, ts⟩
  · rfl
  · rw [List.head?_cons, Option.map_some, Option.any_some] at h
    exact (h hid).elim
  · cases kind with
    | kwRecord => exact (h hrecord).elim
    | kwChoice => exact (h hchoice).elim
    | _ => rfl

theorem arguments_succ (ih : FollowsAt steps) (h : At 8 delimiters ts placed s)
    (hsteps : 2 * ts.length + 3 ≤ steps + 1) :
    Follows (Grammar.arguments (steps + 1)) s (Phrase.readArguments (steps + 1) ts) fun c ↦
      At 8 delimiters c.2 ((separatedTrees (c.1.map TypePhrase.tree)).reverse ++ placed) := by
  have hgrows : Grows (do if !(← isDone) then if ← eat .comma then Grammar.arguments steps) :=
    isDone_grows.bind fun _ ↦ Grows.ite ((eat_grows .comma).bind fun _ ↦
      Grows.ite (arguments_grows steps) (Grows.pure _)) (Grows.pure _)
  rw [Grammar.arguments, Phrase.readArguments]
  refine (currentIn_gives h .typeFirst).follows fun s hs ↦ ?_
  by_cases hfirst : (ts.head?.map Terminal.kind).any KindSet.typeFirst.contains = true
  · rw [if_pos hfirst]
    refine (ih.type _ (hs.toAt.mono (by decide)) (by omega)).bind (fun _ ↦ hgrows) ?_
    rintro - ⟨ty, rest⟩ s hty hs
    have hrest := Phrase.length_readType hty
    obtain ⟨done, hdone, hend⟩ := isDone_gives hs
    refine hdone.follows fun _ hsame ↦ ?_
    subst hsame
    cases done with
    | true =>
      -- at the end of the text there is no comma
      have hnil : rest = [] := hend rfl
      subst hnil
      exact hs.mono (by decide)
    | false =>
      refine more_follows (Phrase.readArguments_sound steps) (hs.mono (by decide))
        fun (hcomma : rest = _) hs ↦ ih.arguments hs ?_
      rw [hcomma, List.length_cons] at hrest
      omega
  · rw [if_neg hfirst, readType_none hfirst]
    exact (recover_fails hs.toAt _ _ _).bind fun _ ↦ hgrows

end FollowsAt

theorem followsAt (steps : Nat) : FollowsAt steps := by
  induction steps with
  | zero =>
    -- no text is short enough to be read in no steps
    constructor
    · exact fun _ _ hsteps ↦ by omega
    · exact fun _ _ hsteps ↦ by omega
    · exact fun _ _ hsteps ↦ by omega
    · exact fun _ hsteps ↦ by omega
    · exact fun _ hsteps ↦ by omega
  | succ steps ih =>
    exact ⟨ih.type_succ, ih.body_succ, ih.entries_succ, ih.reference_follows, ih.arguments_succ⟩

/-! ## Declarations -/

theorem parameters_succ (steps : Nat) :
    Grammar.parameters (steps + 1) = (do
      (do if !(← eat .id) then recover .expectedParamName "inside `( )`" .listRecovery)
      if ← eat .comma then Grammar.parameters steps) := by
  rw [Grammar.parameters]
  simp only [bind_assoc, pure_bind, ite_then]

/-- Empty parentheses hold no parameters. -/
theorem readParameters_close (ts : List Terminal) :
    Phrase.readParameters steps (.symbol .parenClose :: ts) = none := by
  rcases steps with - | steps <;> rfl

theorem parameters_follows (h : At 8 delimiters ts placed s) (hsteps : ts.length < steps) :
    Follows (Grammar.parameters steps) s (Phrase.readParameters steps ts) fun c ↦
      At 8 delimiters c.2
        ((separatedTrees (c.1.map fun param ↦ Terminal.leaf (.name param))).reverse ++ placed) := by
  induction steps generalizing ts placed s with
  | zero => exact absurd hsteps (Nat.not_lt_zero _)
  | succ steps ih =>
    rw [parameters_succ, Phrase.readParameters]
    refine (name_follows h fun hs ↦ recover_fails hs _ _ _).bind
      (fun _ ↦ (eat_grows .comma).bind fun _ ↦ Grows.ite (parameters_grows steps) (Grows.pure _))
      ?_
    rintro - ⟨name, rest⟩ s hname hs
    rw [Phrase.readName_eq_some.mp hname, List.length_cons] at hsteps
    refine more_follows (Phrase.readParameters_sound steps) (hs.mono (by decide))
      fun (hcomma : rest = _) hs ↦ ih hs ?_
    rw [hcomma, List.length_cons] at hsteps
    omega

/-- The check for a name in front of a declaration records nothing, as the parser only comes here
at a name. -/
theorem declaration_follows {name : String}
    (h : At (looks + 1) delimiters (.name name :: ts) placed s)
    (hsteps : 2 * ts.length + 2 ≤ steps) :
    Follows (Grammar.declaration steps) s (Phrase.readDecl steps name ts) fun c ↦
      At maxLooks delimiters c.2 (c.1.tree :: placed) := by
  rw [declaration_eq, Phrase.readDecl]
  refine (currentIs_gives h .id).follows fun s hs ↦ ?_
  refine node_follows hs fun hs ↦ (bump_gives hs).follows fun s hs ↦ ?_
  refine (betweenIfAny_follows (Phrase.readParameters_sound steps) readParameters_close
    (hs.mono (by decide)) (fun hopen hs ↦ parameters_follows hs ?_) _ _ _).bind
    (fun _ ↦ (expect_grows _ _).bind fun _ ↦ type_grows _ _) ?_
  · rw [hopen, List.length_cons] at hsteps
    omega
  rintro - ⟨params, rest⟩ s hparams hs
  have hrest := Phrase.length_readParenthesized (Phrase.readParameters_sound steps) hparams
  refine (expect_follows (by decide) hs (by decide) _).bind (fun _ ↦ type_grows _ _)
    fun _ behind s hequals hs ↦ ?_
  have hmid : rest = .symbol .equals :: behind := Phrase.expect_eq_some.mp hequals
  rw [hmid, List.length_cons] at hrest
  refine ((followsAt steps).type _ (hs.mono (by decide)) (by omega)).found_bind ?_
  rintro ⟨body, ts⟩ s - hs
  refine ⟨_, rfl, _, ?_, hs⟩
  simp [DeclPhrase.tree]

theorem repeatedHeader_fails (h : Ready looks delimiters ts placed s) :
    Fails Grammar.repeatedHeader s :=
  node_fails h (fun hs ↦ (report_fails hs.toAt _ _).bind fun _ ↦ bump_grows.bind fun _ ↦
    (eat_grows .id).bind fun _ ↦ Grows.pure _) .moduleHeader

theorem declarations_follows {total : Nat} (h : At 8 delimiters ts placed s)
    (htotal : 2 * ts.length + 2 ≤ total) (hsteps : ts.length < steps) :
    Follows (Grammar.declarations total steps) s (Phrase.readDecls total steps ts) fun decls ↦
      At 4 delimiters [] ((decls.map DeclPhrase.tree).reverse ++ placed) := by
  induction steps generalizing ts placed s with
  | zero => exact absurd hsteps (Nat.not_lt_zero _)
  | succ steps ih =>
    rw [Grammar.declarations]
    obtain ⟨done, hdone, hend⟩ := isDone_gives h
    refine hdone.follows fun _ hsame ↦ ?_
    subst hsame
    cases done with
    | true =>
      rw [hend rfl] at h ⊢
      exact h.mono (by decide)
    | false =>
      refine (current_gives h).follows fun s hs ↦ ?_
      rcases ts with - | ⟨next, ts⟩
      · exact hs.toAt.mono (by decide)
      refine (current_gives hs.toAt).follows fun s hs ↦ ?_
      cases next with
      | name name =>
        rw [List.length_cons] at htotal hsteps
        refine (declaration_follows hs.toAt (by omega)).bind
          (fun _ ↦ declarations_grows total steps) ?_
        rintro - ⟨decl, rest⟩ s hdecl hs
        have hrest := Phrase.length_readDecl hdecl
        refine (ih (hs.mono (by decide)) (by dsimp only; omega) (by dsimp only; omega)).found_bind
          fun decls s _ hs ↦ ⟨_, rfl, ?_⟩
        simpa using hs
      | symbol kind =>
        cases kind with
        | id => exact absurd List.mem_cons_self hs.symbol_id_not_mem
        | kwModule => exact (repeatedHeader_fails hs).bind fun _ ↦ declarations_grows total steps
        | _ => exact (recover_fails hs.toAt _ _ _).bind fun _ ↦ declarations_grows total steps

theorem header_follows (h : At 8 delimiters ts placed s) :
    Follows Grammar.header s (Phrase.readHeader ts) fun c ↦ At 8 delimiters c.2
      (.node .moduleHeader [Terminal.leaf (.symbol .kwModule), Terminal.leaf (.name c.1)] ::
        placed) := by
  refine (currentIs_gives h .kwModule).follows fun s hs ↦ ?_
  rw [← accept_eq_isNext (by decide), Phrase.readHeader, Phrase.expect_eq_accept]
  rcases haccept : Phrase.accept (.symbol .kwModule) ts with ⟨- | -, rest⟩
  · exact report_fails hs.toAt _ _
  · rw [Phrase.accept_true haccept] at hs
    refine node_follows hs fun hs ↦ (bump_gives hs).follows fun s hs ↦ ?_
    have hkeyword : At 1 delimiters rest [Terminal.leaf (.symbol .kwModule)] s :=
      hs.mono (by decide)
    exact (name_follows hkeyword fun hs ↦ report_fails hs _ _).imp
      fun c s _ hs ↦ ⟨_, rfl, hs.mono (by decide)⟩

end

end SchemaCodec.Syntax
