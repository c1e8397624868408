import SchemaCodec.Proofs.Syntax.Phrases

/-!
# Reading phrases

Each list of terminals has at most one phrase. This is shown by a reader that looks only at what
comes next and finds the phrase of every list that has one. A text in which no phrase can be found
is refused without a reason: what is said about faulty texts is left to the parser.

## What ends a type

A type that is only a name could go on with a dot or with arguments, and a name in front of an
equals sign begins a declaration. So a type is found wherever none of these comes behind it, and
that is the case in every phrase.
-/

namespace SchemaCodec.Syntax

open Grammar (Body)

namespace Phrase

/-! ## The reader -/

/-- Drops one terminal, which must come next. -/
def expect (terminal : Terminal) : List Terminal → Option (List Terminal)
  | [] => none
  | next :: ts => if next = terminal then some ts else none

/-- Drops one terminal if it comes next, and says whether it did. -/
def accept (terminal : Terminal) : List Terminal → Bool × List Terminal
  | [] => (false, [])
  | next :: ts => if next = terminal then (true, ts) else (false, next :: ts)

def readName : List Terminal → Option (String × List Terminal)
  | .name name :: ts => some (name, ts)
  | _ => none

/-- The name of a reference that begins with a name, and the qualifier in front of it. -/
def readQualified (first : String) (ts : List Terminal) :
    Option ((Option String × String) × List Terminal) :=
  match accept (.symbol .dot) ts with
  | (false, ts) => some ((none, first), ts)
  | (true, ts) => do
    let (name, ts) ← readName ts
    some ((some first, name), ts)

/-- Reads items between parentheses, if there are any. -/
def readParenthesized {α : Type} (readItems : List Terminal → Option (List α × List Terminal))
    (ts : List Terminal) : Option (List α × List Terminal) :=
  match accept (.symbol .parenOpen) ts with
  | (false, ts) => some ([], ts)
  | (true, ts) => do
    let (items, ts) ← readItems ts
    let ts ← expect (.symbol .parenClose) ts
    some (items, ts)

/-- The items that begin with one that was read: those behind a comma, if there is a comma. -/
def readMore {α : Type} (readItems : List Terminal → Option (List α × List Terminal)) (item : α)
    (ts : List Terminal) : Option (List α × List Terminal) :=
  match accept (.symbol .comma) ts with
  | (false, ts) => some ([item], ts)
  | (true, ts) => do
    let (items, ts) ← readItems ts
    some (item :: items, ts)

mutual

def readType : (steps : Nat) → List Terminal → Option (TypePhrase × List Terminal)
  | 0, _ => none
  | steps + 1, ts =>
    match ts with
    | .symbol .kwRecord :: ts => readBody steps .record ts
    | .symbol .kwChoice :: ts => readBody steps .choice ts
    | .name name :: ts =>
      if ts.head? = some (.symbol .equals) then none else readReference steps name ts
    | _ => none

/-- Reads what comes behind the keyword of a type. -/
def readBody : (steps : Nat) → Body → List Terminal → Option (TypePhrase × List Terminal)
  | 0, _, _ => none
  | steps + 1, form, ts => do
    let ts ← expect (.symbol .braceOpen) ts
    let (entries, ts) ← readEntries steps ts
    let ts ← expect (.symbol .braceClose) ts
    some (.braced form entries, ts)

/-- Reads entries up to the closing brace, the end of the text or the next declaration. -/
def readEntries : (steps : Nat) → List Terminal →
    Option (List (String × TypePhrase × Bool) × List Terminal)
  | 0, _ => none
  | steps + 1, ts =>
    match ts with
    | [] => some ([], [])
    | .symbol .braceClose :: ts => some ([], .symbol .braceClose :: ts)
    | .name name :: ts =>
      if ts.head? = some (.symbol .equals) then some ([], .name name :: ts)
      else do
        let ts ← expect (.symbol .colon) ts
        let (ty, ts) ← readType steps ts
        let (comma, ts) := accept (.symbol .comma) ts
        let (rest, ts) ← readEntries steps ts
        some ((name, ty, comma) :: rest, ts)
    | _ => none

/-- Reads what comes behind the first name of a reference. -/
def readReference : (steps : Nat) → (first : String) → List Terminal →
    Option (TypePhrase × List Terminal)
  | 0, _, _ => none
  | steps + 1, first, ts => do
    let ((qualifier, name), ts) ← readQualified first ts
    let (args, ts) ← readParenthesized (readArguments steps) ts
    some (.ref qualifier name args, ts)

/-- Reads types with commas between them. -/
def readArguments : (steps : Nat) → List Terminal → Option (List TypePhrase × List Terminal)
  | 0, _ => none
  | steps + 1, ts => do
    let (ty, ts) ← readType steps ts
    readMore (readArguments steps) ty ts

end

/-- Reads names with commas between them. -/
def readParameters : (steps : Nat) → List Terminal → Option (List String × List Terminal)
  | 0, _ => none
  | steps + 1, ts => do
    let (name, ts) ← readName ts
    readMore (readParameters steps) name ts

/-- Reads what comes behind the name of a declaration. -/
def readDecl (steps : Nat) (name : String) (ts : List Terminal) :
    Option (DeclPhrase × List Terminal) := do
  let (params, ts) ← readParenthesized (readParameters steps) ts
  let ts ← expect (.symbol .equals) ts
  let (body, ts) ← readType steps ts
  some (⟨name, params, body⟩, ts)

/-- Reads declarations up to the end of the text. -/
def readDecls (total : Nat) : (steps : Nat) → List Terminal → Option (List DeclPhrase)
  | 0, _ => none
  | steps + 1, ts =>
    match ts with
    | [] => some []
    | .name name :: ts => do
      let (decl, ts) ← readDecl total name ts
      let rest ← readDecls total steps ts
      some (decl :: rest)
    | _ => none

def readHeader (ts : List Terminal) : Option (String × List Terminal) := do
  let ts ← expect (.symbol .kwModule) ts
  readName ts

def readModule (steps : Nat) (ts : List Terminal) : Option ModulePhrase := do
  let (name, ts) ← readHeader ts
  let decls ← readDecls steps steps ts
  some ⟨name, decls⟩

/-! ## What is read is derived -/

variable {terminal : Terminal} {ts rest : List Terminal}

theorem expect_eq_some : expect terminal ts = some rest ↔ ts = terminal :: rest := by
  cases ts with
  | nil => simp [expect]
  | cons next ts => simp [expect]

theorem accept_true (h : accept terminal ts = (true, rest)) : ts = terminal :: rest := by
  cases ts with
  | nil => cases h
  | cons next ts =>
    rw [accept] at h
    split at h
    · next heq =>
      cases h
      rw [heq]
    · cases h

theorem accept_false (h : accept terminal ts = (false, rest)) :
    ts = rest ∧ ts.head? ≠ some terminal := by
  cases ts with
  | nil =>
    cases h
    exact ⟨rfl, by simp⟩
  | cons next ts =>
    rw [accept] at h
    split at h
    · cases h
    · next hne =>
      cases h
      exact ⟨rfl, by simpa using hne⟩

/-- To expect a terminal is to accept it and to go on only if it came next. -/
theorem expect_eq_accept (terminal : Terminal) (ts : List Terminal) :
    expect terminal ts
      = if (accept terminal ts).1 then some (accept terminal ts).2 else none := by
  cases ts with
  | nil => rfl
  | cons next ts =>
    rw [expect, accept]
    split <;> rfl

theorem readName_eq_some {name : String} :
    readName ts = some (name, rest) ↔ ts = .name name :: rest := by
  cases ts with
  | nil => simp [readName]
  | cons next ts => cases next <;> simp [readName]

/-- What was accepted stands in front of what is left. -/
theorem accept_append {found : Bool} (h : accept terminal ts = (found, rest)) :
    ts = (if found then [terminal] else []) ++ rest := by
  cases found with
  | true => exact accept_true h
  | false => exact (accept_false h).1

theorem length_accept (terminal : Terminal) (ts : List Terminal) :
    (accept terminal ts).2.length ≤ ts.length := by
  rcases haccept : accept terminal ts with ⟨found, rest⟩
  rw [accept_append haccept, List.length_append]
  exact Nat.le_add_left _ _

theorem readQualified_sound {first name : String} {qualifier : Option String}
    (h : readQualified first ts = some ((qualifier, name), rest)) :
    .name first :: ts = qualified qualifier name ++ rest := by
  rw [readQualified] at h
  split at h
  · next haccept =>
    cases h
    rw [(accept_false haccept).1]
    rfl
  · next haccept =>
    obtain ⟨⟨found, behind⟩, hname, h⟩ := Option.bind_eq_some_iff.mp h
    cases h
    rw [accept_true haccept, readName_eq_some.mp hname]
    rfl

section

variable {α : Type} {yield : α → List Terminal}
  {readItems : List Terminal → Option (List α × List Terminal)} {item : α} {items : List α}

/-- What a reader of items finds is derived as items with commas between them, at least one. -/
def SoundItems (yield : α → List Terminal)
    (readItems : List Terminal → Option (List α × List Terminal)) : Prop :=
  ∀ {ts items rest}, readItems ts = some (items, rest) →
    ts = commaSeparated (items.map yield) ++ rest ∧ items ≠ []

theorem readParenthesized_sound (hsound : SoundItems yield readItems)
    (h : readParenthesized readItems ts = some (items, rest)) :
    ts = parenthesized (items.map yield) ++ rest := by
  rw [readParenthesized] at h
  split at h
  · next haccept =>
    cases h
    exact (accept_false haccept).1
  · next haccept =>
    obtain ⟨⟨found, mid⟩, hfound, h⟩ := Option.bind_eq_some_iff.mp h
    obtain ⟨last, hclose, h⟩ := Option.bind_eq_some_iff.mp h
    cases h
    obtain ⟨hitems, hne⟩ := hsound hfound
    have hmid : mid = .symbol .parenClose :: rest := expect_eq_some.mp hclose
    rw [accept_true haccept, hitems, hmid]
    simp [parenthesized, hne]

theorem readMore_sound (hsound : SoundItems yield readItems)
    (h : readMore readItems item ts = some (items, rest)) :
    yield item ++ ts = commaSeparated (items.map yield) ++ rest ∧ items ≠ [] := by
  rw [readMore] at h
  split at h
  · next haccept =>
    cases h
    rw [(accept_false haccept).1]
    simp [commaSeparated]
  · next haccept =>
    obtain ⟨⟨others, last⟩, hothers, h⟩ := Option.bind_eq_some_iff.mp h
    cases h
    obtain ⟨hitems, hne⟩ := hsound hothers
    obtain ⟨other, others, rfl⟩ := List.exists_cons_of_ne_nil hne
    rw [accept_true haccept, hitems]
    simp [commaSeparated, List.intercalate_cons_cons]

end

theorem yields_eq (args : List TypePhrase) :
    TypePhrase.yields args = args.map TypePhrase.yield := by
  induction args with
  | nil => rfl
  | cons ty args ih => rw [TypePhrase.yields, ih, List.map_cons]

mutual

theorem readType_sound : (steps : Nat) → {ts rest : List Terminal} → {ty : TypePhrase} →
    readType steps ts = some (ty, rest) → ts = ty.yield ++ rest
  | 0, _, _, _, h => by
    rw [readType] at h
    cases h
  | steps + 1, ts, rest, ty, h => by
    rw [readType.eq_def] at h
    dsimp only at h
    split at h
    · exact readBody_sound steps h
    · exact readBody_sound steps h
    · split at h
      · cases h
      · exact readReference_sound steps h
    · cases h

theorem readBody_sound : (steps : Nat) → {form : Body} → {ts rest : List Terminal} →
    {ty : TypePhrase} → readBody steps form ts = some (ty, rest) →
    .symbol form.keyword :: ts = ty.yield ++ rest
  | 0, _, _, _, _, h => by
    rw [readBody] at h
    cases h
  | steps + 1, form, ts, rest, ty, h => by
    rw [readBody] at h
    obtain ⟨mid, hopen, h⟩ := Option.bind_eq_some_iff.mp h
    obtain ⟨⟨entries, last⟩, hentries, h⟩ := Option.bind_eq_some_iff.mp h
    obtain ⟨after, hclose, h⟩ := Option.bind_eq_some_iff.mp h
    cases h
    rw [expect_eq_some.mp hopen, readEntries_sound steps hentries, expect_eq_some.mp hclose]
    simp [TypePhrase.yield]

theorem readEntries_sound : (steps : Nat) → {ts rest : List Terminal} →
    {entries : List (String × TypePhrase × Bool)} → readEntries steps ts = some (entries, rest) →
    ts = TypePhrase.entriesYield entries ++ rest
  | 0, _, _, _, h => by
    rw [readEntries] at h
    cases h
  | steps + 1, ts, rest, entries, h => by
    rw [readEntries.eq_def] at h
    dsimp only at h
    split at h
    · cases h
      rfl
    · cases h
      rfl
    · split at h
      · cases h
        rfl
      · obtain ⟨mid, hcolon, h⟩ := Option.bind_eq_some_iff.mp h
        obtain ⟨⟨ty, last⟩, hty, h⟩ := Option.bind_eq_some_iff.mp h
        obtain ⟨⟨others, after⟩, hothers, h⟩ := Option.bind_eq_some_iff.mp h
        cases h
        cases haccept : accept (.symbol .comma) last with
        | mk comma behind =>
          dsimp only at hothers ⊢
          have hbehind : behind = TypePhrase.entriesYield others ++ after :=
            readEntries_sound steps (by rw [haccept] at hothers; exact hothers)
          rw [expect_eq_some.mp hcolon, readType_sound steps hty, accept_append haccept, hbehind]
          simp [TypePhrase.entriesYield]
    · cases h

theorem readReference_sound : (steps : Nat) → {first : String} → {ts rest : List Terminal} →
    {ty : TypePhrase} → readReference steps first ts = some (ty, rest) →
    .name first :: ts = ty.yield ++ rest
  | 0, _, _, _, _, h => by
    rw [readReference] at h
    cases h
  | steps + 1, first, ts, rest, ty, h => by
    rw [readReference] at h
    obtain ⟨⟨⟨qualifier, name⟩, mid⟩, hname, h⟩ := Option.bind_eq_some_iff.mp h
    obtain ⟨⟨args, last⟩, hargs, h⟩ := Option.bind_eq_some_iff.mp h
    cases h
    have hmid : mid = parenthesized (args.map TypePhrase.yield) ++ rest :=
      readParenthesized_sound (readArguments_sound steps) hargs
    rw [readQualified_sound hname, hmid, TypePhrase.yield, yields_eq, List.append_assoc]

theorem readArguments_sound : (steps : Nat) → SoundItems TypePhrase.yield (readArguments steps)
  | 0, _, _, _, h => by
    rw [readArguments] at h
    cases h
  | steps + 1, _, _, _, h => by
    rw [readArguments] at h
    obtain ⟨⟨ty, mid⟩, hty, h⟩ := Option.bind_eq_some_iff.mp h
    rw [readType_sound steps hty]
    exact readMore_sound (readArguments_sound steps) h

end

theorem readParameters_sound (steps : Nat) :
    SoundItems (fun param ↦ [.name param]) (readParameters steps) := by
  induction steps with
  | zero => exact fun h ↦ by cases h
  | succ steps ih =>
    intro ts params rest h
    rw [readParameters] at h
    obtain ⟨⟨name, mid⟩, hname, h⟩ := Option.bind_eq_some_iff.mp h
    rw [readName_eq_some.mp hname]
    exact readMore_sound ih h

theorem readDecl_sound {steps : Nat} {name : String} {decl : DeclPhrase}
    (h : readDecl steps name ts = some (decl, rest)) : .name name :: ts = decl.yield ++ rest := by
  obtain ⟨⟨params, mid⟩, hparams, h⟩ := Option.bind_eq_some_iff.mp h
  obtain ⟨behind, hequals, h⟩ := Option.bind_eq_some_iff.mp h
  obtain ⟨⟨body, last⟩, hbody, h⟩ := Option.bind_eq_some_iff.mp h
  cases h
  have hmid : mid = .symbol .equals :: behind := expect_eq_some.mp hequals
  rw [readParenthesized_sound (readParameters_sound steps) hparams, hmid,
    readType_sound steps hbody]
  simp [DeclPhrase.yield]

theorem readDecls_sound {total steps : Nat} {decls : List DeclPhrase}
    (h : readDecls total steps ts = some decls) : ts = decls.flatMap DeclPhrase.yield := by
  induction steps generalizing ts decls with
  | zero => cases h
  | succ steps ih =>
    rw [readDecls.eq_def] at h
    dsimp only at h
    split at h
    · cases h
      rfl
    · obtain ⟨⟨decl, mid⟩, hdecl, h⟩ := Option.bind_eq_some_iff.mp h
      obtain ⟨others, hothers, h⟩ := Option.bind_eq_some_iff.mp h
      cases h
      rw [List.flatMap_cons, ← ih hothers]
      exact readDecl_sound hdecl
    · cases h

theorem readModule_sound {steps : Nat} {phrase : ModulePhrase}
    (h : readModule steps ts = some phrase) : ts = phrase.yield := by
  obtain ⟨⟨name, mid⟩, hheader, h⟩ := Option.bind_eq_some_iff.mp h
  obtain ⟨behind, hmodule, hname⟩ := Option.bind_eq_some_iff.mp hheader
  obtain ⟨decls, hdecls, h⟩ := Option.bind_eq_some_iff.mp h
  cases h
  rw [expect_eq_some.mp hmodule, readName_eq_some.mp hname, ModulePhrase.yield,
    ← readDecls_sound hdecls]

/-! ## What is derived is read -/

/-- What comes behind a type in a phrase neither continues it nor shows that it is no type. -/
def Ends (rest : List Terminal) : Prop :=
  ∀ next ∈ rest.head?,
    next ≠ .symbol .dot ∧ next ≠ .symbol .parenOpen ∧ next ≠ .symbol .equals

theorem expect_cons (terminal : Terminal) (ts : List Terminal) :
    expect terminal (terminal :: ts) = some ts := if_pos rfl

theorem accept_cons (terminal : Terminal) (ts : List Terminal) :
    accept terminal (terminal :: ts) = (true, ts) := if_pos rfl

theorem accept_of_head?_ne (h : ts.head? ≠ some terminal) :
    accept terminal ts = (false, ts) := by
  cases ts with
  | nil => rfl
  | cons next ts => exact if_neg (by simpa using h)

theorem bind_of_some {α β : Type} {x : Option α} {a : α} (h : x = some a) (k : α → Option β) :
    (x >>= k) = k a := by
  rw [h]
  rfl

theorem ends_cons {next : Terminal} {rest : List Terminal}
    (h : next ≠ .symbol .dot ∧ next ≠ .symbol .parenOpen ∧ next ≠ .symbol .equals) :
    Ends (next :: rest) := by
  intro other hother
  rw [← Option.some_inj.mp hother]
  exact h

theorem Ends.head?_ne (h : Ends rest) (hterminal : terminal = .symbol .dot ∨
    terminal = .symbol .parenOpen ∨ terminal = .symbol .equals) : rest.head? ≠ some terminal := by
  intro hhead
  obtain ⟨hdot, hparen, hequals⟩ := h terminal hhead
  rcases hterminal with heq | heq | heq
  · exact hdot heq
  · exact hparen heq
  · exact hequals heq

/-- Behind a list between parentheses comes what comes behind a type, or its opening parenthesis. -/
theorem head?_parenthesized (h : Ends rest) (items : List (List Terminal))
    (hterminal : terminal = .symbol .dot ∨ terminal = .symbol .equals) :
    (parenthesized items ++ rest).head? ≠ some terminal := by
  rw [parenthesized]
  split
  · exact h.head?_ne (hterminal.imp_right .inr)
  · rcases hterminal with rfl | rfl <;> simp

section

variable {α : Type} {yield : α → List Terminal}
  {readItems : List Terminal → Option (List α × List Terminal)} {item : α} {items : List α}

theorem readParenthesized_complete (hrest : rest.head? ≠ some (.symbol .parenOpen))
    (hitems : items ≠ [] → readItems (commaSeparated (items.map yield) ++
      .symbol .parenClose :: rest) = some (items, .symbol .parenClose :: rest)) :
    readParenthesized readItems (parenthesized (items.map yield) ++ rest) = some (items, rest) := by
  rw [readParenthesized]
  cases items with
  | nil =>
    change (match accept (.symbol .parenOpen) rest with | (false, ts) => _ | (true, ts) => _) = _
    rw [accept_of_head?_ne hrest]
  | cons item items =>
    have hts : parenthesized ((item :: items).map yield) ++ rest = .symbol .parenOpen ::
        (commaSeparated ((item :: items).map yield) ++ .symbol .parenClose :: rest) := by
      simp [parenthesized]
    rw [hts, accept_cons]
    dsimp only
    rw [bind_of_some (hitems (List.cons_ne_nil _ _))]
    exact bind_of_some (expect_cons _ _) _

theorem readMore_last (h : ts.head? ≠ some (.symbol .comma)) :
    readMore readItems item ts = some ([item], ts) := by
  rw [readMore, accept_of_head?_ne h]

theorem readMore_cons (h : readItems ts = some (items, rest)) :
    readMore readItems item (.symbol .comma :: ts) = some (item :: items, rest) := by
  rw [readMore, accept_cons]
  exact bind_of_some h _

end

/-! Each rule of the grammar is a step of the reader. -/

section

variable {steps : Nat}

theorem readBody_braces {form : Body} {entries : List (String × TypePhrase × Bool)}
    (h : readEntries steps ts = some (entries, .symbol .braceClose :: rest)) :
    readBody (steps + 1) form (.symbol .braceOpen :: ts) = some (.braced form entries, rest) := by
  rw [readBody, bind_of_some (expect_cons _ _), bind_of_some h]
  exact bind_of_some (expect_cons _ _) _

theorem readEntries_cons {name : String} {ty : TypePhrase} {comma : Bool}
    {entries : List (String × TypePhrase × Bool)} {last behind : List Terminal}
    (hty : readType steps ts = some (ty, last))
    (hcomma : accept (.symbol .comma) last = (comma, behind))
    (h : readEntries steps behind = some (entries, rest)) :
    readEntries (steps + 1) (.name name :: .symbol .colon :: ts)
      = some ((name, ty, comma) :: entries, rest) := by
  rw [readEntries, if_neg (by simp), bind_of_some (expect_cons _ _), bind_of_some hty]
  dsimp only
  rw [hcomma]
  exact bind_of_some h _

end

/-- A name that may be qualified begins with a name, and the reader finds the rest of it. -/
theorem readQualified_complete (qualifier : Option String) (name : String)
    (h : rest.head? ≠ some (.symbol .dot)) :
    ∃ first ts, qualified qualifier name ++ rest = .name first :: ts ∧
      readQualified first ts = some ((qualifier, name), rest) ∧
      (rest.head? ≠ some (.symbol .equals) → ts.head? ≠ some (.symbol .equals)) := by
  cases qualifier with
  | none =>
    refine ⟨name, rest, rfl, ?_, id⟩
    rw [readQualified, accept_of_head?_ne h]
  | some qualifier =>
    refine ⟨qualifier, .symbol .dot :: .name name :: rest, rfl, ?_, fun _ ↦ by simp⟩
    rw [readQualified, accept_cons]
    rfl

/-- Behind the type of an entry comes a comma, another entry or the closing brace. -/
theorem ends_entries (entries : List (String × TypePhrase × Bool)) (rest : List Terminal) :
    Ends (TypePhrase.entriesYield entries ++ .symbol .braceClose :: rest) ∧
      (TypePhrase.entriesYield entries ++ .symbol .braceClose :: rest).head?
        ≠ some (.symbol .comma) := by
  cases entries with
  | nil => exact ⟨ends_cons (by decide), by simp [TypePhrase.entriesYield]⟩
  | cons entry entries =>
    obtain ⟨name, ty, comma⟩ := entry
    exact ⟨ends_cons (by simp), by simp [TypePhrase.entriesYield]⟩

theorem length_qualified (qualifier : Option String) (name : String) :
    0 < (qualified qualifier name).length := by
  cases qualifier <;> exact Nat.succ_pos _

theorem length_parenthesized {items : List (List Terminal)} (h : items ≠ []) :
    (parenthesized items).length = (commaSeparated items).length + 2 := by
  rw [parenthesized, if_neg (by simpa using h), List.length_cons, List.length_append]
  rfl

theorem length_yield : (ty : TypePhrase) → 0 < ty.yield.length
  | .braced _ _ => Nat.succ_pos _
  | .ref qualifier name _ => by
    rw [TypePhrase.yield, List.length_append]
    exact Nat.add_pos_left (length_qualified qualifier name) _

theorem length_readQualified {first name : String} {qualifier : Option String}
    (h : readQualified first ts = some ((qualifier, name), rest)) : rest.length ≤ ts.length := by
  have hlength := congrArg List.length (readQualified_sound h)
  have hpos := length_qualified qualifier name
  rw [List.length_cons, List.length_append] at hlength
  omega

theorem length_readParenthesized {α : Type} {yield : α → List Terminal}
    {readItems : List Terminal → Option (List α × List Terminal)} {items : List α}
    (hsound : SoundItems yield readItems)
    (h : readParenthesized readItems ts = some (items, rest)) : rest.length ≤ ts.length := by
  rw [readParenthesized_sound hsound h, List.length_append]
  exact Nat.le_add_left _ _

theorem length_readDecl {steps : Nat} {name : String} {decl : DeclPhrase}
    (h : readDecl steps name ts = some (decl, rest)) : rest.length ≤ ts.length := by
  have hlength := congrArg List.length (readDecl_sound h)
  rw [List.length_append, DeclPhrase.yield, List.length_cons, List.length_cons] at hlength
  omega

/-- Reading a type leaves less than there was. -/
theorem length_readType {steps : Nat} {ty : TypePhrase}
    (h : readType steps ts = some (ty, rest)) : rest.length < ts.length := by
  rw [readType_sound steps h, List.length_append]
  exact Nat.lt_add_of_pos_left (length_yield ty)

mutual

theorem readType_complete : (ty : TypePhrase) → {steps : Nat} → {rest : List Terminal} →
    2 * (ty.yield ++ rest).length + 2 ≤ steps → Ends rest →
    readType steps (ty.yield ++ rest) = some (ty, rest)
  | .braced form entries, steps, rest, hsteps, hrest => by
    have hts : (TypePhrase.braced form entries).yield ++ rest
        = .symbol form.keyword :: .symbol .braceOpen ::
          (TypePhrase.entriesYield entries ++ .symbol .braceClose :: rest) := by
      simp [TypePhrase.yield]
    rw [hts] at hsteps ⊢
    simp only [List.length_cons] at hsteps
    obtain ⟨steps, rfl⟩ := Nat.exists_eq_add_of_le' (show 2 ≤ steps by omega)
    have hentries : readEntries steps (TypePhrase.entriesYield entries ++
        .symbol .braceClose :: rest) = some (entries, .symbol .braceClose :: rest) :=
      readEntries_complete entries (by omega)
    cases form <;> exact readBody_braces hentries
  | .ref qualifier name args, steps, rest, hsteps, hrest => by
    have hts : (TypePhrase.ref qualifier name args).yield ++ rest
        = qualified qualifier name ++ (parenthesized (args.map TypePhrase.yield) ++ rest) := by
      rw [TypePhrase.yield, yields_eq, List.append_assoc]
    rw [hts] at hsteps ⊢
    obtain ⟨first, ts, hfirst, hname, hequals⟩ := readQualified_complete qualifier name
      (head?_parenthesized hrest (args.map TypePhrase.yield) (.inl rfl))
    have hequals := hequals (head?_parenthesized hrest (args.map TypePhrase.yield) (.inr rfl))
    have hlength := length_qualified qualifier name
    rw [List.length_append, List.length_append] at hsteps
    obtain ⟨steps, rfl⟩ := Nat.exists_eq_add_of_le' (show 2 ≤ steps by omega)
    rw [hfirst, readType, if_neg hequals, readReference, bind_of_some hname]
    refine bind_of_some (readParenthesized_complete (hrest.head?_ne (.inr (.inl rfl)))
      fun hne ↦ readArguments_complete args hne ?_) _
    rw [length_parenthesized (by simpa using hne)] at hsteps
    rw [List.length_append, List.length_cons]
    omega

theorem readEntries_complete : (entries : List (String × TypePhrase × Bool)) → {steps : Nat} →
    {rest : List Terminal} →
    2 * (TypePhrase.entriesYield entries ++ .symbol .braceClose :: rest).length + 1 ≤ steps →
    readEntries steps (TypePhrase.entriesYield entries ++ .symbol .braceClose :: rest)
      = some (entries, .symbol .braceClose :: rest)
  | [], steps, rest, hsteps => by
    obtain ⟨steps, rfl⟩ := Nat.exists_eq_add_of_le' (show 1 ≤ steps by omega)
    rfl
  | (name, ty, comma) :: entries, steps, rest, hsteps => by
    obtain ⟨hends, hhead⟩ := ends_entries entries rest
    have hts : TypePhrase.entriesYield ((name, ty, comma) :: entries) ++ .symbol .braceClose :: rest
        = .name name :: .symbol .colon :: (ty.yield ++ ((if comma then [.symbol .comma] else []) ++
          (TypePhrase.entriesYield entries ++ .symbol .braceClose :: rest))) := by
      simp [TypePhrase.entriesYield]
    rw [hts] at hsteps ⊢
    have hpos := length_yield ty
    simp only [List.length_cons, List.length_append] at hsteps
    obtain ⟨steps, rfl⟩ := Nat.exists_eq_add_of_le' (show 1 ≤ steps by omega)
    refine readEntries_cons (readType_complete ty ?_ ?_) ?_ (readEntries_complete entries ?_)
    · simp only [List.length_cons, List.length_append]
      omega
    · cases comma with
      | true => exact ends_cons (by decide)
      | false => exact hends
    · cases comma with
      | true => exact accept_cons _ _
      | false => exact accept_of_head?_ne hhead
    · simp only [List.length_cons, List.length_append]
      omega

theorem readArguments_complete : (args : List TypePhrase) → args ≠ [] → {steps : Nat} →
    {rest : List Terminal} →
    2 * (commaSeparated (args.map TypePhrase.yield) ++ .symbol .parenClose :: rest).length + 3
      ≤ steps →
    readArguments steps (commaSeparated (args.map TypePhrase.yield) ++ .symbol .parenClose :: rest)
      = some (args, .symbol .parenClose :: rest)
  | [], hne, _, _, _ => absurd rfl hne
  | [ty], _, steps, rest, hsteps => by
    have hts : commaSeparated ([ty].map TypePhrase.yield) = ty.yield := List.intercalate_singleton
    rw [hts] at hsteps ⊢
    obtain ⟨steps, rfl⟩ := Nat.exists_eq_add_of_le' (show 1 ≤ steps by omega)
    have hclose : Ends (.symbol .parenClose :: rest) := ends_cons (by decide)
    rw [readArguments, bind_of_some (readType_complete ty (by omega) hclose)]
    exact readMore_last (by simp)
  | ty :: next :: args, _, steps, rest, hsteps => by
    have hts : commaSeparated ((ty :: next :: args).map TypePhrase.yield) ++
        .symbol .parenClose :: rest = ty.yield ++ .symbol .comma :: (commaSeparated
          ((next :: args).map TypePhrase.yield) ++ .symbol .parenClose :: rest) := by
      simp [commaSeparated, List.intercalate_cons_cons]
    rw [hts] at hsteps ⊢
    have hpos := length_yield ty
    rw [List.length_append, List.length_cons] at hsteps
    obtain ⟨steps, rfl⟩ := Nat.exists_eq_add_of_le' (show 1 ≤ steps by omega)
    have hcomma : Ends (.symbol .comma ::
        (commaSeparated ((next :: args).map TypePhrase.yield) ++ .symbol .parenClose :: rest)) :=
      ends_cons (by decide)
    have hty : readType steps (ty.yield ++ .symbol .comma ::
        (commaSeparated ((next :: args).map TypePhrase.yield) ++ .symbol .parenClose :: rest))
        = some (ty, .symbol .comma :: (commaSeparated ((next :: args).map TypePhrase.yield) ++
          .symbol .parenClose :: rest)) := by
      refine readType_complete ty ?_ hcomma
      rw [List.length_append, List.length_cons]
      omega
    rw [readArguments, bind_of_some hty]
    exact readMore_cons (readArguments_complete (next :: args) (List.cons_ne_nil _ _) (by omega))

end

theorem readParameters_complete {params : List String} (hne : params ≠ []) {steps : Nat}
    (hsteps : (commaSeparated (params.map fun param ↦ [.name param]) ++
      .symbol .parenClose :: rest).length ≤ steps) :
    readParameters steps (commaSeparated (params.map fun param ↦ [.name param]) ++
      .symbol .parenClose :: rest) = some (params, .symbol .parenClose :: rest) := by
  induction params generalizing steps with
  | nil => exact absurd rfl hne
  | cons param params ih =>
    cases params with
    | nil =>
      have hts : commaSeparated ([param].map fun param ↦ [.name param]) ++
          .symbol .parenClose :: rest = .name param :: .symbol .parenClose :: rest := by
        simp [commaSeparated]
      rw [hts, List.length_cons] at hsteps
      rw [hts]
      obtain ⟨steps, rfl⟩ := Nat.exists_eq_add_of_le' (show 1 ≤ steps by omega)
      rw [readParameters, bind_of_some (readName_eq_some.mpr rfl)]
      exact readMore_last (by simp)
    | cons next params =>
      have hts : commaSeparated ((param :: next :: params).map fun param ↦ [.name param]) ++
          .symbol .parenClose :: rest = .name param :: .symbol .comma ::
            (commaSeparated ((next :: params).map fun param ↦ [.name param]) ++
              .symbol .parenClose :: rest) := by
        simp [commaSeparated, List.intercalate_cons_cons]
      rw [hts, List.length_cons, List.length_cons] at hsteps
      rw [hts]
      obtain ⟨steps, rfl⟩ := Nat.exists_eq_add_of_le' (show 1 ≤ steps by omega)
      rw [readParameters, bind_of_some (readName_eq_some.mpr rfl)]
      exact readMore_cons (ih (List.cons_ne_nil _ _) (by omega))

theorem readDecl_complete (decl : DeclPhrase) {steps : Nat}
    (hsteps : 2 * (decl.yield ++ rest).length + 2 ≤ steps) (hrest : Ends rest) :
    ∃ ts, decl.yield ++ rest = .name decl.name :: ts ∧
      readDecl steps decl.name ts = some (decl, rest) := by
  have hts : decl.yield ++ rest = .name decl.name ::
      (parenthesized (decl.params.map fun param ↦ [.name param]) ++
        .symbol .equals :: (decl.body.yield ++ rest)) := by
    simp [DeclPhrase.yield]
  rw [hts] at hsteps
  simp only [List.length_cons, List.length_append] at hsteps
  refine ⟨_, hts, ?_⟩
  have hparams : readParenthesized (readParameters steps)
      (parenthesized (decl.params.map fun param ↦ [.name param]) ++
        .symbol .equals :: (decl.body.yield ++ rest))
      = some (decl.params, .symbol .equals :: (decl.body.yield ++ rest)) := by
    refine readParenthesized_complete (by simp) fun hne ↦ readParameters_complete hne ?_
    rw [length_parenthesized (by simpa using hne)] at hsteps
    simp only [List.length_cons, List.length_append]
    omega
  rw [readDecl, bind_of_some hparams]
  dsimp only
  rw [bind_of_some (expect_cons _ _)]
  refine bind_of_some (readType_complete decl.body ?_ hrest) _
  rw [List.length_append]
  omega

/-- Behind a declaration comes the name of another one or nothing. -/
theorem ends_decls (decls : List DeclPhrase) : Ends (decls.flatMap DeclPhrase.yield) := by
  cases decls with
  | nil => exact fun _ hnext ↦ by cases hnext
  | cons decl decls => exact ends_cons (by simp)

theorem readDecls_complete {total : Nat} (decls : List DeclPhrase) {steps : Nat}
    (htotal : 2 * (decls.flatMap DeclPhrase.yield).length + 2 ≤ total)
    (hsteps : (decls.flatMap DeclPhrase.yield).length < steps) :
    readDecls total steps (decls.flatMap DeclPhrase.yield) = some decls := by
  induction decls generalizing steps with
  | nil =>
    obtain ⟨steps, rfl⟩ := Nat.exists_eq_add_of_le' (show 1 ≤ steps by omega)
    rfl
  | cons decl decls ih =>
    rw [List.flatMap_cons] at htotal hsteps ⊢
    obtain ⟨ts, hts, hdecl⟩ := readDecl_complete decl htotal (ends_decls decls)
    have hpos : 0 < decl.yield.length := Nat.succ_pos _
    rw [List.length_append] at htotal hsteps
    obtain ⟨steps, rfl⟩ := Nat.exists_eq_add_of_le' (show 1 ≤ steps by omega)
    rw [hts, readDecls, bind_of_some hdecl]
    exact bind_of_some (ih (by omega) (by omega)) _

theorem readModule_complete (phrase : ModulePhrase) {steps : Nat}
    (hsteps : 2 * phrase.yield.length + 2 ≤ steps) :
    readModule steps phrase.yield = some phrase := by
  rw [ModulePhrase.yield] at hsteps ⊢
  simp only [List.length_cons] at hsteps
  have hheader : readHeader (.symbol .kwModule :: .name phrase.name ::
      phrase.decls.flatMap DeclPhrase.yield)
      = some (phrase.name, phrase.decls.flatMap DeclPhrase.yield) := by
    rw [readHeader, bind_of_some (expect_cons _ _)]
    rfl
  rw [readModule, bind_of_some hheader]
  exact bind_of_some (readDecls_complete phrase.decls (by omega) (by omega)) _

/-- The reader finds the phrase of a list of terminals that has one, and no other. -/
theorem readModule_eq_some {phrase : ModulePhrase} {steps : Nat}
    (hsteps : 2 * ts.length + 2 ≤ steps) :
    readModule steps ts = some phrase ↔ ts = phrase.yield := by
  constructor
  · exact readModule_sound
  · rintro rfl
    exact readModule_complete phrase hsteps

end Phrase

/-- **The grammar is unambiguous**: a list of terminals has at most one phrase. -/
theorem ModulePhrase.yield_injective {phrase other : ModulePhrase}
    (h : phrase.yield = other.yield) : phrase = other := by
  have hphrase := Phrase.readModule_complete phrase (Nat.le_refl _)
  rw [h] at hphrase
  have hother := Phrase.readModule_complete other (Nat.le_refl _)
  exact Option.some_inj.mp (hphrase.symm.trans hother)

end SchemaCodec.Syntax
