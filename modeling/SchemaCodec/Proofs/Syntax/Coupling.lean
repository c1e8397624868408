import SchemaCodec.Proofs.Syntax.Acceptance

/-!
# Two runs of the parser side by side

Some properties compare two runs of the parser: one with limits and one without, or one over a text
and one over the same text with other comments. To follow both runs through the whole grammar, a
relation between steps is enough that holds of the operations on the cursor and is kept where steps
are put together. Such a relation is a coupling, and every coupling holds of the whole grammar.

## Why two programs

The number of steps that a loop may take depends on the length of the text, so the two runs need
not be runs of one program. A loop that has no steps left records a mistake of the parser. A
coupling holds of such a loop and of any other one, which means that it says something only about
runs without such a mistake. For this to be of use, a mistake must not be forgotten, so both
programs of a coupling are steady.

## What is known of the tokens ahead

Reading past trivia is put off until the next token is looked at. Some operations are compared only
when this was done in both runs, and it is kept track of whether it was.

## Types

A type is entered, placed as one node and left again. These three belong together: the depth of
types is counted by the first and the last one, the nodes by the one between. A coupling has one
rule for all of them.
-/

namespace SchemaCodec.Syntax

open Grammar (Body)

open Parse

/-- The nodes that are counted as types. -/
def Kind.isType : Kind → Bool
  | record | choice | ref => true
  | _ => false

theorem Grammar.Body.isType_kind (form : Body) : form.kind.isType = true := by cases form <;> rfl

/-! ## What is said of the next word -/

/-- Something is said of the next word, unless something was said of it already. -/
def announce (say : Span → Parse Unit) : Parse Unit := do
  let range ← currentSpan
  if ← claimReport range.start then say range

/-- The report that the innermost delimiter stays open, if there is one. -/
def unclosed (missing : DiagnosticKind) (opened : String) : List Span → Parse Unit
  | [] => return
  | delimiter :: _ => announce fun range ↦
    emit { Diagnostic.plain missing ⟨delimiter.start, range.stop⟩ none with
      related := [(opened ++ " started here", delimiter)] }

/-! ## Steady steps -/

/-- A step that takes nothing back: parts that were placed before it stay, and so do an exceeded
limit and a mistake of the parser. -/
structure Steady {α : Type} (f : Parse α) : Prop where
  placed : ∀ s : State, s.placed <:+ (f s).2.placed
  excess : ∀ (s : State) (excess : Excess), s.excess = some excess → (f s).2.excess = some excess
  defect : ∀ s : State, (f s).2.defect = none → s.defect = none

section

variable {α β : Type} {f : Parse α} {k : α → Parse β}

namespace Steady

/-- A step that changes nothing of this. -/
theorem of_eq (hplaced : ∀ s : State, (f s).2.placed = s.placed)
    (hexcess : ∀ s : State, (f s).2.excess = s.excess)
    (hdefect : ∀ s : State, (f s).2.defect = s.defect) : Steady f where
  placed := fun s ↦ ⟨[], (hplaced s).symm⟩
  excess := fun s _ h ↦ (hexcess s).trans h
  defect := fun s h ↦ (hdefect s).symm.trans h

theorem pure (a : α) : Steady (Pure.pure a) := of_eq (fun _ ↦ rfl) (fun _ ↦ rfl) fun _ ↦ rfl

theorem get : Steady MonadState.get := of_eq (fun _ ↦ rfl) (fun _ ↦ rfl) fun _ ↦ rfl

theorem bind (h : Steady f) (hk : ∀ a, Steady (k a)) : Steady (f >>= k) where
  placed := fun s ↦ (h.placed s).trans ((hk (f s).1).placed (f s).2)
  excess := fun s e he ↦ (hk (f s).1).excess (f s).2 e (h.excess s e he)
  defect := fun s hs ↦ h.defect s ((hk (f s).1).defect (f s).2 hs)

theorem ite {p : Prop} [Decidable p] {x y : Parse α} (hx : Steady x) (hy : Steady y) :
    Steady (if p then x else y) := by
  split
  · exact hx
  · exact hy

end Steady

namespace Parse

open Parse

theorem recordDefect_steady (defect : Defect) : Steady (recordDefect defect) where
  placed := fun _ ↦ List.suffix_refl _
  excess := fun _ _ h ↦ h
  defect := fun _ h ↦ (Option.or_eq_none_iff.mp h).1

theorem recordDefect_ne_none (defect : Defect) (s : State) :
    (recordDefect defect s).2.defect ≠ none := by
  change s.defect.or (some defect) ≠ none
  cases s.defect <;> exact Option.some_ne_none _

theorem recordExcess_steady (excess : Excess) : Steady (recordExcess excess) where
  placed := fun _ ↦ List.suffix_refl _
  excess := fun s e he ↦ by
    change s.excess.or (some excess) = some e
    rw [he, Option.some_or]
  defect := fun _ h ↦ h

theorem settle_steady : Steady settle := .of_eq (fun _ ↦ rfl) (fun _ ↦ rfl) fun _ ↦ rfl

theorem countLook_steady : Steady countLook :=
  Steady.get.bind fun _ ↦ Steady.ite (recordDefect_steady _)
    (.of_eq (fun _ ↦ rfl) (fun _ ↦ rfl) fun _ ↦ rfl)

theorem current_steady : Steady current :=
  settle_steady.bind fun _ ↦ countLook_steady.bind fun _ ↦ Steady.get.bind fun _ ↦ Steady.pure _

theorem followedBy_steady (kind : Kind) : Steady (followedBy kind) :=
  settle_steady.bind fun _ ↦ countLook_steady.bind fun _ ↦ Steady.get.bind fun _ ↦ Steady.pure _

theorem isHalted_steady : Steady isHalted := Steady.get.bind fun _ ↦ Steady.pure _

theorem isDone_steady : Steady isDone := Steady.get.bind fun _ ↦ Steady.pure _

theorem placeTrivia_steady : Steady placeTrivia where
  placed := fun s ↦ by
    change s.placed <:+ (s.waiting.map Tree.token).reverseAux s.placed
    rw [List.reverseAux_eq]
    exact List.suffix_append _ _
  excess := fun _ _ h ↦ h
  defect := fun _ h ↦ h

theorem eatTrivia_steady : Steady eatTrivia := settle_steady.bind fun _ ↦ placeTrivia_steady

theorem countToken_steady : Steady countToken := by
  refine Steady.get.bind fun s ↦ ?_
  split
  · exact Steady.pure _
  · exact recordExcess_steady _
  · exact .of_eq (fun _ ↦ rfl) (fun _ ↦ rfl) fun _ ↦ rfl

theorem bump_steady : Steady bump := by
  refine Steady.get.bind fun s ↦ ?_
  split
  · exact recordDefect_steady _
  · refine Steady.bind (.of_eq (fun _ ↦ rfl) (fun _ ↦ rfl) fun _ ↦ rfl) fun _ ↦
      countToken_steady.bind fun _ ↦ placeTrivia_steady.bind fun _ ↦ ?_
    exact ⟨fun _ ↦ List.suffix_cons _ _, fun _ _ h ↦ h, fun _ h ↦ h⟩

theorem eat_steady (kind : Kind) : Steady (eat kind) :=
  (current_steady.bind fun _ ↦ Steady.pure _).bind fun _ ↦
    Steady.ite (bump_steady.bind fun _ ↦ Steady.pure _) (Steady.pure _)

theorem node_steady {body : Parse Unit} (h : Steady body) (kind : Kind) :
    Steady (node kind body) where
  placed := fun s ↦ (placeTrivia_steady.placed s).trans (List.suffix_cons _ _)
  excess := fun s e he ↦ h.excess { (placeTrivia s).2 with placed := [] } e he
  defect := fun s hs ↦ h.defect { (placeTrivia s).2 with placed := [] } hs

theorem currentSpan_steady : Steady currentSpan :=
  settle_steady.bind fun _ ↦ Steady.get.bind fun _ ↦ Steady.pure _

theorem claimReport_steady (offset : Nat) : Steady (claimReport offset) :=
  Steady.get.bind fun _ ↦ Steady.ite (Steady.pure _)
    (.bind (.of_eq (fun _ ↦ rfl) (fun _ ↦ rfl) fun _ ↦ rfl) fun _ ↦ Steady.pure _)

theorem emit_steady (d : Diagnostic) : Steady (emit d) :=
  .of_eq (fun _ ↦ rfl) (fun _ ↦ rfl) fun _ ↦ rfl

theorem announce_steady {say : Span → Parse Unit} (h : ∀ range, Steady (say range)) :
    Steady (announce say) :=
  currentSpan_steady.bind fun range ↦ (claimReport_steady _).bind fun _ ↦
    Steady.ite (h range) (Steady.pure _)

theorem report_steady (kind : DiagnosticKind) (detail : Option String) :
    Steady (report kind detail) :=
  announce_steady fun _ ↦ Steady.get.bind fun _ ↦ emit_steady _

theorem openDelimiter_steady : Steady openDelimiter :=
  currentSpan_steady.bind fun _ ↦ .of_eq (fun _ ↦ rfl) (fun _ ↦ rfl) fun _ ↦ rfl

theorem closeDelimiter_steady (close : Kind) (missing : DiagnosticKind) (opened : String) :
    Steady (closeDelimiter close missing opened) := by
  refine Steady.get.bind fun s ↦ Steady.bind (.of_eq (fun _ ↦ rfl) (fun _ ↦ rfl) fun _ ↦ rfl)
    fun _ ↦ (eat_steady close).bind fun _ ↦ Steady.ite ?_ (Steady.pure _)
  split
  · exact Steady.pure _
  · exact announce_steady fun _ ↦ emit_steady _

theorem entered_steady {inner : Parse Unit} (h : Steady inner) :
    Steady (do if ← enter then inner; leave) := by
  have henter : Steady enter := Steady.get.bind fun _ ↦ Steady.ite
    ((recordExcess_steady _).bind fun _ ↦ Steady.pure _)
    (.of_eq (fun _ ↦ rfl) (fun _ ↦ rfl) fun _ ↦ rfl)
  have hleave : Steady leave := .of_eq (fun _ ↦ rfl) (fun _ ↦ rfl) fun _ ↦ rfl
  exact henter.bind fun _ ↦ Steady.ite (h.bind fun _ ↦ hleave) (Steady.pure _)

end Parse

end

/-! ## States after some steps -/

section

variable {s : State}

/-- The state in which the parts of a node are placed. -/
def State.inside (s : State) : State := { (placeTrivia s).2 with placed := [] }

/-- The state in which a type is placed that was entered. -/
def State.entered (s : State) : State := { s with depth := s.depth + 1, looks := maxLooks }

theorem bump_nil (h : s.ahead = []) : bump s = recordDefect .placedAtEnd s := by
  obtain ⟨ahead, waiting, placed, reports, delimiters, depth, reportedAt, looks, exec⟩ := s
  obtain rfl : ahead = [] := h
  rfl

theorem bump_counts {t : Token} {rest : List Token} (h : s.ahead = t :: rest) :
    bump s = ((), { s with
      looks := maxLooks
      exec := s.exec.map (· - 1)
      excess := if s.exec = some 0 then s.excess.or (some .exec) else s.excess
      placed := .token t :: (s.waiting.map Tree.token).reverseAux s.placed
      waiting := []
      ahead := rest }) := by
  obtain ⟨ahead, waiting, placed, reports, delimiters, depth, reportedAt, looks, exec⟩ := s
  obtain rfl : ahead = t :: rest := h
  rcases exec with - | - | exec <;> rfl

end

theorem closeDelimiter_run (close : Kind) (missing : DiagnosticKind) (opened : String) (s : State) :
    closeDelimiter close missing opened s
      = (do if !(← eat close) then unclosed missing opened s.delimiters)
        { s with delimiters := s.delimiters.drop 1 } := by
  obtain ⟨ahead, waiting, placed, reports, delimiters⟩ := s
  rcases delimiters <;> rfl

/-- A comma between arguments, which is not looked for when nothing is left. -/
theorem commaUnlessDone_eq (items : Parse Unit) :
    (do if !(← isDone) then if ← eat .comma then items) = isDone >>= fun done ↦
      if done then Pure.pure () else current >>= fun next ↦
        if next = some .comma then (do bump; items) else Pure.pure () := by
  refine congrArg (isDone >>= ·) (funext fun done ↦ ?_)
  cases done
  · simp [eat, currentIs, ite_then]
  · rfl

/-! ## Couplings -/

/-- What is known of the tokens ahead. -/
inductive Footing where
  /-- Nothing. -/
  | loose
  /-- The next one is no trivia. -/
  | settled

/-- What a footing says of a state. -/
def Footing.Holds : Footing → State → Prop
  | loose, _ => True
  | settled, s => s.Settled

/-- A footing says something of the tokens ahead only. -/
theorem Footing.Holds.congr {p : Footing} {s t : State} (h : p.Holds s)
    (hahead : t.ahead = s.ahead) : p.Holds t := by
  rcases p
  · exact trivial
  · intro w hw
    rw [hahead] at hw
    exact h w hw

/-- A step that reads no further. -/
def Rests {α : Type} (f : Parse α) : Prop := ∀ s : State, (f s).2.ahead = s.ahead

/-- A step behind which trivia have been read past. -/
def Settles {α : Type} (f : Parse α) : Prop := ∀ s : State, (f s).2.Settled

section

variable {α β : Type} {f : Parse α} {k : α → Parse β}

namespace Rests

theorem pure (a : α) : Rests (Pure.pure a) := fun _ ↦ rfl

theorem get : Rests MonadState.get := fun _ ↦ rfl

theorem bind (h : Rests f) (hk : ∀ a, Rests (k a)) : Rests (f >>= k) :=
  fun s ↦ (hk (f s).1 (f s).2).trans (h s)

theorem ite {p : Prop} [Decidable p] {x y : Parse α} (hx : Rests x) (hy : Rests y) :
    Rests (if p then x else y) := by
  split
  · exact hx
  · exact hy

end Rests

theorem Settles.bind (h : Settles f) (hk : ∀ a, Rests (k a)) : Settles (f >>= k) := by
  intro s t ht
  have hahead : ((f >>= k) s).2.ahead = (f s).2.ahead := hk (f s).1 (f s).2
  rw [hahead] at ht
  exact h s t ht

end

namespace Parse

open Parse

theorem settle_settles : Settles settle := fun s ↦ not_isTrivia_dropWhile s.ahead

theorem countLook_rests : Rests countLook :=
  Rests.get.bind fun _ ↦ .ite (fun _ ↦ rfl) fun _ ↦ rfl

theorem current_settles : Settles current :=
  settle_settles.bind fun _ ↦ countLook_rests.bind fun _ ↦ Rests.get.bind fun _ ↦ Rests.pure _

theorem followedBy_settles (kind : Kind) : Settles (followedBy kind) :=
  settle_settles.bind fun _ ↦ countLook_rests.bind fun _ ↦ Rests.get.bind fun _ ↦ Rests.pure _

theorem currentSpan_settles : Settles currentSpan :=
  settle_settles.bind fun _ ↦ Rests.get.bind fun _ ↦ Rests.pure _

theorem claimReport_rests (offset : Nat) : Rests (claimReport offset) :=
  Rests.get.bind fun _ ↦ .ite (Rests.pure _) (.bind (fun _ ↦ rfl) fun _ ↦ Rests.pure _)

theorem announce_settles {say : Span → Parse Unit} (h : ∀ range, Rests (say range)) :
    Settles (announce say) :=
  currentSpan_settles.bind fun range ↦ (claimReport_rests _).bind fun _ ↦
    .ite (h range) (Rests.pure _)

theorem report_settles (kind : DiagnosticKind) (detail : Option String) :
    Settles (report kind detail) :=
  announce_settles fun _ ↦ Rests.get.bind fun _ _ ↦ rfl

theorem openDelimiter_settles : Settles openDelimiter := currentSpan_settles.bind fun _ _ ↦ rfl

end Parse

/-- A step that places one type: a node of such a kind, perhaps after a look at the next token. -/
inductive Opens : Parse Unit → Prop
  | stuck (defect : Defect) : Opens (recordDefect defect)
  | node {kind : Kind} {body : Parse Unit} :
    kind.isType = true → Steady body → Opens (node kind body)
  | look {k : Option Kind → Parse Unit} : (∀ next, Opens (k next)) → Opens (current >>= k)

/-- Two steps that place one type, of whose parts a relation holds. -/
inductive Encloses (Related : Parse Unit → Parse Unit → Prop) : Parse Unit → Parse Unit → Prop
  | stuckLeft (defect : Defect) {g : Parse Unit} :
    Opens g → Encloses Related (recordDefect defect) g
  | stuckRight (defect : Defect) {f : Parse Unit} :
    Opens f → Encloses Related f (recordDefect defect)
  | node {kind : Kind} {f g : Parse Unit} : kind.isType = true → Related f g →
    Encloses Related (node kind f) (node kind g)
  | look {k l : Option Kind → Parse Unit} : (∀ next, Encloses Related (k next) (l next)) →
    Encloses Related (current >>= k) (current >>= l)

theorem Opens.steady {f : Parse Unit} (h : Opens f) : Steady f := by
  induction h with
  | stuck defect => exact recordDefect_steady defect
  | node _ hbody => exact node_steady hbody _
  | look _ ih => exact current_steady.bind ih

/-- Both steps place one type each if the parts are steady. -/
theorem Encloses.opens {Related : Parse Unit → Parse Unit → Prop} {f g : Parse Unit}
    (hrelated : ∀ f g, Related f g → Steady f ∧ Steady g) (h : Encloses Related f g) :
    Opens f ∧ Opens g := by
  induction h with
  | stuckLeft defect hg => exact ⟨.stuck defect, hg⟩
  | stuckRight defect hf => exact ⟨hf, .stuck defect⟩
  | node hkind hbody =>
    obtain ⟨hf, hg⟩ := hrelated _ _ hbody
    exact ⟨.node hkind hf, .node hkind hg⟩
  | look _ ih => exact ⟨.look fun next ↦ (ih next).1, .look fun next ↦ (ih next).2⟩

/-- A relation between steps of two runs that holds of the operations of the parser and is kept
where steps are put together. The footings are those before and after the steps. -/
structure Coupling where
  Holds : {α : Type} → Footing → Parse α → Parse α → Footing → Prop
  pure : ∀ {α : Type} (p : Footing) (a : α), Holds p (pure a) (pure a) p
  bind : ∀ {α β : Type} {p q r : Footing} {f g : Parse α} {k l : α → Parse β},
    Holds p f g q → (∀ a, Holds q (k a) (l a) r) → Holds p (f >>= k) (g >>= l) r
  anywhere : ∀ {α : Type} {p q : Footing} {f g : Parse α}, Holds .loose f g q → Holds p f g q
  loosen : ∀ {α : Type} {p q : Footing} {f g : Parse α}, Holds p f g q → Holds p f g .loose
  stuckLeft : ∀ {p q : Footing} (defect : Defect) {g : Parse Unit}, Steady g →
    Holds p (recordDefect defect) g q
  stuckRight : ∀ {p q : Footing} (defect : Defect) {f : Parse Unit}, Steady f →
    Holds p f (recordDefect defect) q
  current : Holds .loose current current .settled
  followedBy : ∀ kind, Holds .loose (followedBy kind) (followedBy kind) .settled
  isHalted : ∀ p, Holds p isHalted isHalted p
  isDone : Holds .settled isDone isDone .settled
  /-- Behind the last token, trivia may be left in one of the runs only. -/
  unlessDone : ∀ {k l : Option Kind → Parse Unit}, k none = Pure.pure () → l none = Pure.pure () →
    (∀ next, Holds .settled (k next) (l next) .loose) →
      Holds .loose (Parse.isDone >>= fun done ↦ if done then Pure.pure () else Parse.current >>= k)
        (Parse.isDone >>= fun done ↦ if done then Pure.pure () else Parse.current >>= l) .loose
  /-- The tokens ahead are used to bound a loop only. -/
  bounded : ∀ {p q : Footing} {k l : Nat → Parse Unit}, (∀ m n, Holds p (k m) (l n) q) →
    Holds p (do k (← get).ahead.length) (do l (← get).ahead.length) q
  bump : Holds .settled bump bump .loose
  eatTrivia : Holds .loose eatTrivia eatTrivia .loose
  report : ∀ kind detail, Holds .loose (report kind detail) (report kind detail) .settled
  openDelimiter : Holds .loose openDelimiter openDelimiter .settled
  closeDelimiter : ∀ close missing opened, Holds .loose (eat close) (eat close) .loose →
    Holds .loose (closeDelimiter close missing opened) (closeDelimiter close missing opened) .loose
  node : ∀ {p q : Footing} {kind : Kind} {f g : Parse Unit}, kind.isType = false →
    Holds p f g q → Holds p (node kind f) (node kind g) q
  entered : ∀ {f g : Parse Unit}, Encloses (Holds .settled · · .loose) f g →
    Holds .settled (do if ← enter then f; leave) (do if ← enter then g; leave) .loose

namespace Coupling

variable {α : Type} {p q : Footing} {m n : Nat} (c : Coupling)

/-! ## Operations -/

theorem ite {b : Prop} [Decidable b] {f g f' g' : Parse α} (h : c.Holds p f g q)
    (h' : c.Holds p f' g' q) : c.Holds p (if b then f else f') (if b then g else g') q := by
  by_cases hb : b
  · rw [if_pos hb, if_pos hb]
    exact h
  · rw [if_neg hb, if_neg hb]
    exact h'

theorem done (p : Footing) : c.Holds p (Pure.pure () : Parse Unit) (Pure.pure ()) .loose :=
  c.loosen (c.pure p ())

theorem currentIs (kind : Kind) :
    c.Holds .loose (currentIs kind) (Parse.currentIs kind) .settled :=
  c.bind c.current fun _ ↦ c.pure _ _

theorem currentIn (kinds : KindSet) :
    c.Holds .loose (currentIn kinds) (Parse.currentIn kinds) .settled :=
  c.bind c.current fun _ ↦ c.pure _ _

theorem atDeclStart : c.Holds .loose atDeclStart Parse.atDeclStart .settled :=
  c.bind (c.currentIs .id) fun _ ↦ c.ite (c.anywhere (c.followedBy .equals)) (c.pure _ _)

theorem eat (kind : Kind) : c.Holds .loose (eat kind) (Parse.eat kind) .loose :=
  c.bind (c.currentIs kind) fun _ ↦
    c.ite (c.bind c.bump fun _ ↦ c.pure _ _) (c.loosen (c.pure _ _))

/-- What may follow a token, or a missing one. -/
theorem eatOr (kind : Kind) {f g : Parse Unit} (h : c.Holds .loose f g .loose) :
    c.Holds .loose (do if !(← Parse.eat kind) then f) (do if !(← Parse.eat kind) then g) .loose :=
  c.bind (c.eat kind) fun _ ↦ c.ite h (c.done _)

theorem closed (close : Kind) (missing : DiagnosticKind) (opened : String) :
    c.Holds .loose (Parse.closeDelimiter close missing opened)
      (Parse.closeDelimiter close missing opened) .loose :=
  c.closeDelimiter close missing opened (c.eat close)

theorem reported (kind : DiagnosticKind) (detail : Option String) :
    c.Holds p (Parse.report kind detail) (Parse.report kind detail) .loose :=
  c.anywhere (c.loosen (c.report kind detail))

theorem expect (kind : Kind) (missing : DiagnosticKind) :
    c.Holds .loose (expect kind missing) (Parse.expect kind missing) .loose :=
  c.eatOr kind (c.reported missing none)

/-! ## Loops -/

/-- Steadiness of both steps is a coupling itself. -/
def steady : Coupling where
  Holds := fun _ f g _ ↦ Steady f ∧ Steady g
  pure := fun _ a ↦ ⟨.pure a, .pure a⟩
  bind := fun h hk ↦ ⟨h.1.bind fun a ↦ (hk a).1, h.2.bind fun a ↦ (hk a).2⟩
  anywhere := id
  loosen := id
  stuckLeft := fun defect _ h ↦ ⟨recordDefect_steady defect, h⟩
  stuckRight := fun defect _ h ↦ ⟨h, recordDefect_steady defect⟩
  current := ⟨current_steady, current_steady⟩
  followedBy := fun kind ↦ ⟨followedBy_steady kind, followedBy_steady kind⟩
  isHalted := fun _ ↦ ⟨isHalted_steady, isHalted_steady⟩
  isDone := ⟨isDone_steady, isDone_steady⟩
  unlessDone := fun _ _ hk ↦
    ⟨isDone_steady.bind fun _ ↦ .ite (.pure _) (current_steady.bind fun a ↦ (hk a).1),
      isDone_steady.bind fun _ ↦ .ite (.pure _) (current_steady.bind fun a ↦ (hk a).2)⟩
  bounded := fun h ↦ ⟨Steady.get.bind fun s ↦ (h s.ahead.length 0).1,
    Steady.get.bind fun s ↦ (h 0 s.ahead.length).2⟩
  bump := ⟨bump_steady, bump_steady⟩
  eatTrivia := ⟨eatTrivia_steady, eatTrivia_steady⟩
  report := fun kind detail ↦ ⟨report_steady kind detail, report_steady kind detail⟩
  openDelimiter := ⟨openDelimiter_steady, openDelimiter_steady⟩
  closeDelimiter := fun close missing opened _ ↦
    ⟨closeDelimiter_steady close missing opened, closeDelimiter_steady close missing opened⟩
  node := fun _ h ↦ ⟨node_steady h.1 _, node_steady h.2 _⟩
  entered := fun h ↦
    have hopens := h.opens fun _ _ h ↦ h
    ⟨entered_steady hopens.1.steady, entered_steady hopens.2.steady⟩

/-- Rules that recurse on their steps are coupled for any two numbers of them if one round of both
is coupled whenever the rest of both is. -/
theorem of_steps {rule rule' : Nat → Parse Unit} (hzero : rule 0 = recordDefect .outOfSteps)
    (hzero' : rule' 0 = recordDefect .outOfSteps)
    (hsucc : ∀ (c : Coupling) {m n : Nat}, c.Holds .loose (rule m) (rule' n) .loose →
      c.Holds .loose (rule (m + 1)) (rule' (n + 1)) .loose) (m n : Nat) :
    c.Holds .loose (rule m) (rule' n) .loose := by
  have hsteady (n : Nat) : steady.Holds .loose (rule n) (rule' n) .loose := by
    induction n with
    | zero =>
      rw [hzero, hzero']
      exact steady.stuckLeft _ (recordDefect_steady _)
    | succ n ih => exact hsucc steady ih
  induction m generalizing n with
  | zero =>
    rw [hzero]
    exact c.stuckLeft _ (hsteady n).2
  | succ m ih =>
    cases n with
    | zero =>
      rw [hzero']
      exact c.stuckRight _ (hsteady (m + 1)).1
    | succ n => exact hsucc c (ih n)

theorem skipTo (kinds : KindSet) (m n : Nat) :
    c.Holds .loose (skipTo kinds m) (Parse.skipTo kinds n) .loose := by
  refine c.of_steps rfl rfl (fun c {m n} ih ↦ ?_) m n
  refine c.bind (c.currentIn kinds) fun found ↦ c.bind c.isDone fun done ↦ ?_
  exact c.ite (c.bind c.bump fun _ ↦ ih) (c.done _)

theorem recover (kind : DiagnosticKind) (detail : String) (kinds : KindSet) :
    c.Holds .loose (recover kind detail kinds) (Parse.recover kind detail kinds) .loose := by
  have hstops : c.Holds .loose (do return (← Parse.currentIn kinds) || (← Parse.isDone))
      (do return (← Parse.currentIn kinds) || (← Parse.isDone)) .settled :=
    c.bind (c.currentIn kinds) fun _ ↦ c.bind c.isDone fun _ ↦ c.pure _ _
  refine c.bind hstops fun _ ↦ c.ite (c.reported _ _) (c.node rfl ?_)
  refine c.bind (c.reported _ _) fun _ ↦ ?_
  exact c.bounded fun m n ↦ c.skipTo kinds (m + 1) (n + 1)

/-- Behind an item come perhaps a comma and further items. -/
theorem more {f g : Parse Unit} (h : c.Holds .loose f g .loose) :
    c.Holds .loose (do if ← Parse.eat .comma then f) (do if ← Parse.eat .comma then g) .loose :=
  c.bind (c.eat .comma) fun _ ↦ c.ite h (c.done _)

/-! ## Names and lists -/

theorem qualifiedName : c.Holds .settled qualifiedName Syntax.qualifiedName .loose :=
  c.bind c.bump fun _ ↦ c.bind (c.eat .dot) fun _ ↦
    c.ite (c.eatOr .id (c.reported _ _)) (c.done _)

theorem betweenIfAny {kind : Kind} (hkind : kind.isType = false) (hint opened : String)
    {f g : Parse Unit} (h : c.Holds .loose f g .loose) :
    c.Holds .loose (betweenIfAny kind hint opened f) (Syntax.betweenIfAny kind hint opened g)
      .loose := by
  refine c.bind (c.currentIs .parenOpen) fun _ ↦ c.ite (c.node hkind ?_) (c.done _)
  refine c.bind (c.anywhere c.openDelimiter) fun _ ↦ c.bind c.bump fun _ ↦ ?_
  refine c.bind (c.currentIs .parenClose) fun _ ↦ ?_
  exact c.ite (c.bind (c.reported _ _) fun _ ↦ c.closed _ _ _)
    (c.bind (c.anywhere h) fun _ ↦ c.closed _ _ _)

/-! ## Types -/

/-- With so many steps each, the rules that call each other are coupled. -/
structure Types (c : Coupling) (m n : Nat) : Prop where
  type : ∀ context, c.Holds .loose (Grammar.type m context) (Grammar.type n context) .loose
  body : ∀ form, Encloses (c.Holds .settled · · .loose) (Grammar.body m form) (Grammar.body n form)
  entries : ∀ form, c.Holds .loose (Grammar.entries m form) (Grammar.entries n form) .loose
  reference : Encloses (c.Holds .settled · · .loose) (Grammar.reference m) (Grammar.reference n)
  arguments : c.Holds .loose (Grammar.arguments m) (Grammar.arguments n) .loose

namespace Types

variable {c : Coupling}

theorem type_succ (h : c.Types m n) (context : String) :
    c.Holds .loose (Grammar.type (m + 1) context) (Grammar.type (n + 1) context) .loose := by
  rw [Grammar.type, Grammar.type]
  refine c.bind (c.isHalted _) fun _ ↦ c.ite (c.done _) (c.bind c.current fun next ↦ ?_)
  split
  · exact c.entered (h.body .record)
  · exact c.entered (h.body .choice)
  · exact c.bind (c.anywhere c.atDeclStart) fun _ ↦ c.ite (c.reported _ _) (c.entered h.reference)
  · exact c.reported _ _

theorem body_succ (h : c.Types m n) (form : Body) :
    Encloses (c.Holds .settled · · .loose) (Grammar.body (m + 1) form)
      (Grammar.body (n + 1) form) := by
  rw [Grammar.body, Grammar.body]
  refine .look fun _ ↦ .node form.isType_kind ?_
  refine c.bind c.bump fun _ ↦ c.bind (c.currentIs .braceOpen) fun _ ↦ c.ite ?_ (c.reported _ _)
  refine c.bind (c.anywhere c.openDelimiter) fun _ ↦ c.bind c.bump fun _ ↦ ?_
  exact c.bind (h.entries form) fun _ ↦ c.closed _ _ _

theorem entries_succ (h : c.Types m n) (form : Body) :
    c.Holds .loose (Grammar.entries (m + 1) form) (Grammar.entries (n + 1) form) .loose := by
  have hnext : c.Holds .loose (do let _ ← Parse.eat .comma; Grammar.entries m form)
      (do let _ ← Parse.eat .comma; Grammar.entries n form) .loose :=
    c.bind (c.eat .comma) fun _ ↦ h.entries form
  rw [Grammar.entries, Grammar.entries]
  refine c.unlessDone rfl rfl fun next ↦ ?_
  split
  · exact c.done _
  · exact c.done _
  · refine c.bind (c.anywhere c.atDeclStart) fun _ ↦ c.ite (c.done _) ?_
    refine c.bind (c.node rfl ?_) fun _ ↦ hnext
    exact c.bind c.bump fun _ ↦ c.bind (c.expect _ _) fun _ ↦ h.type _
  · exact c.bind (c.anywhere (c.recover _ _ _)) fun _ ↦ hnext

theorem reference_succ (h : c.Types m n) :
    Encloses (c.Holds .settled · · .loose) (Grammar.reference (m + 1))
      (Grammar.reference (n + 1)) := by
  rw [Syntax.reference_succ, Syntax.reference_succ]
  exact .node rfl (c.bind c.qualifiedName fun _ ↦ c.betweenIfAny rfl _ _ h.arguments)

theorem arguments_succ (h : c.Types m n) :
    c.Holds .loose (Grammar.arguments (m + 1)) (Grammar.arguments (n + 1)) .loose := by
  have hnext : c.Holds .loose
      (do if !(← Parse.isDone) then if ← Parse.eat .comma then Grammar.arguments m)
      (do if !(← Parse.isDone) then if ← Parse.eat .comma then Grammar.arguments n) .loose := by
    rw [commaUnlessDone_eq, commaUnlessDone_eq]
    refine c.unlessDone rfl rfl fun next ↦ ?_
    exact c.ite (c.bind c.bump fun _ ↦ h.arguments) (c.done _)
  rw [Grammar.arguments, Grammar.arguments]
  refine c.bind (c.currentIn _) fun _ ↦ c.ite ?_ ?_
  · exact c.bind (c.anywhere (h.type _)) fun _ ↦ hnext
  · exact c.bind (c.anywhere (c.recover _ _ _)) fun _ ↦ hnext

theorem succ (h : c.Types m n) : c.Types (m + 1) (n + 1) :=
  ⟨h.type_succ, h.body_succ, h.entries_succ, h.reference_succ, h.arguments_succ⟩

end Types

theorem steady_types (n : Nat) : steady.Types n n := by
  induction n with
  | zero =>
    have hstuck : Steady (recordDefect .outOfSteps) := recordDefect_steady _
    exact ⟨fun _ ↦ ⟨hstuck, hstuck⟩, fun _ ↦ .stuckLeft _ (.stuck _), fun _ ↦ ⟨hstuck, hstuck⟩,
      .stuckLeft _ (.stuck _), ⟨hstuck, hstuck⟩⟩
  | succ n ih => exact ih.succ

theorem types (m n : Nat) : c.Types m n := by
  have hopens {f g : Parse Unit} (h : Encloses (steady.Holds .settled · · .loose) f g) :
      Opens f ∧ Opens g := h.opens fun _ _ h ↦ h
  induction m generalizing n with
  | zero =>
    have hn := steady_types n
    exact ⟨fun context ↦ c.stuckLeft _ (hn.type context).2,
      fun form ↦ .stuckLeft _ (hopens (hn.body form)).2,
      fun form ↦ c.stuckLeft _ (hn.entries form).2, .stuckLeft _ (hopens hn.reference).2,
      c.stuckLeft _ hn.arguments.2⟩
  | succ m ih =>
    cases n with
    | zero =>
      have hm := steady_types (m + 1)
      exact ⟨fun context ↦ c.stuckRight _ (hm.type context).1,
        fun form ↦ .stuckRight _ (hopens (hm.body form)).1,
        fun form ↦ c.stuckRight _ (hm.entries form).1, .stuckRight _ (hopens hm.reference).1,
        c.stuckRight _ hm.arguments.1⟩
    | succ n => exact (ih n).succ

/-! ## Declarations -/

theorem parameters (m n : Nat) :
    c.Holds .loose (Grammar.parameters m) (Grammar.parameters n) .loose := by
  refine c.of_steps rfl rfl (fun c {m n} ih ↦ ?_) m n
  rw [parameters_succ, parameters_succ]
  exact c.bind (c.eatOr .id (c.recover _ _ _)) fun _ ↦ c.more ih

theorem declaration (m n : Nat) :
    c.Holds .loose (Grammar.declaration m) (Grammar.declaration n) .loose := by
  have hdecl : c.Holds .settled
      (Parse.node .decl do
        Parse.bump
        Syntax.betweenIfAny .params "drop `()` or name a parameter" "parameter list"
          (Grammar.parameters m)
        Parse.expect .equals .expectedEquals
        Grammar.type m "after `=`")
      (Parse.node .decl do
        Parse.bump
        Syntax.betweenIfAny .params "drop `()` or name a parameter" "parameter list"
          (Grammar.parameters n)
        Parse.expect .equals .expectedEquals
        Grammar.type n "after `=`") .loose := by
    refine c.node rfl (c.bind c.bump fun _ ↦ ?_)
    refine c.bind (c.betweenIfAny rfl _ _ (c.parameters m n)) fun _ ↦ ?_
    exact c.bind (c.expect _ _) fun _ ↦ (c.types m n).type _
  rw [declaration_eq, declaration_eq]
  refine c.bind (c.currentIs .id) fun _ ↦ c.ite ?_ hdecl
  exact c.bind (c.stuckLeft _ (recordDefect_steady _)) fun _ ↦ hdecl

theorem repeatedHeader :
    c.Holds p Grammar.repeatedHeader Grammar.repeatedHeader .loose :=
  c.anywhere (c.node rfl (c.bind (c.report _ _) fun _ ↦ c.bind c.bump fun _ ↦
    c.bind (c.eat .id) fun _ ↦ c.done _))

theorem declarations (total total' m n : Nat) :
    c.Holds .loose (Grammar.declarations total m) (Grammar.declarations total' n) .loose := by
  refine c.of_steps rfl rfl (fun c {m n} ih ↦ ?_) m n
  rw [Grammar.declarations, Grammar.declarations]
  refine c.unlessDone rfl rfl fun _ ↦ c.ite (c.done _) ?_
  refine c.bind (c.anywhere c.current) fun next ↦ ?_
  split
  · exact c.bind (c.anywhere (c.declaration total total')) fun _ ↦ ih
  · exact c.bind c.repeatedHeader fun _ ↦ ih
  · exact c.bind (c.anywhere (c.recover _ _ _)) fun _ ↦ ih

theorem header : c.Holds .loose Grammar.header Grammar.header .loose :=
  c.bind (c.currentIs .kwModule) fun _ ↦ c.ite
    (c.node rfl (c.bind c.bump fun _ ↦ c.eatOr .id (c.reported _ _))) (c.reported _ _)

/-- **A coupling holds of the whole grammar**, whatever numbers of steps the runs have. -/
theorem rootParts (m n : Nat) :
    c.Holds .loose (rootParts m) (Syntax.rootParts n) .loose :=
  c.bind c.header fun _ ↦ c.bind (c.declarations m n m n) fun _ ↦ c.eatTrivia

end Coupling

/-! ## Whole texts -/

/-- The state behind the parts of a text. -/
def lastState (limits : Limits) (source : String) : State :=
  (rootParts (2 * (Token.lex source).length + 2) (State.initial source limits)).2

/-- The result of a parse that ends in a state. -/
def State.parsed (s : State) : Parsed := ⟨.node .root s.placed.reverse, s.reports.reverse⟩

/-- What a parse gives depends on the last state only. -/
theorem ofText_eq (limits : Limits) (source : String) :
    Parsed.ofText limits source = match (lastState limits source).excess with
      | some excess => .error excess
      | none => .ok (lastState limits source).parsed := by
  rw [Parsed.ofText, run_eq]
  rfl

end SchemaCodec.Syntax
