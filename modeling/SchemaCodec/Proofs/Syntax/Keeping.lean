import SchemaCodec.Proofs.Syntax.WithinLimits

/-!
# What every step of a parse keeps

A property of states holds at the end of a parse if it holds at its beginning and every step keeps
it. The steps are those of the cursor. A property that says nothing about the tree that is being
built or about limits has to be checked for few of them: reading past trivia, placing a token that
is no trivia, reporting, and opening and closing a delimiter.

## Why two runs again

There is one run only, and it is coupled with itself. A loop that has no steps left records a
mistake of the parser, after which nothing is claimed, and a coupling compares such a loop with any
other one. Two runs from one state that make no mistake are the same run, whatever the numbers of
steps, so the property is kept by both or by none.
-/

namespace SchemaCodec.Syntax

open Parse

/-! ## Properties of states -/

/-- What a state says of the text and of what is wrong with it, trees and limits aside. -/
def State.outlook (s : State) : List Token × List Diagnostic × List Span × Option Nat × Nat :=
  (s.ahead, s.reports, s.delimiters, s.reportedAt, s.stop)

theorem outlook_current (s : State) : (current s).2.outlook = (settle s).2.outlook := by
  have hlook (s : State) : (countLook s).2.outlook = s.outlook := by
    change ((if s.looks = 0 then _ else _ : Parse Unit) s).2.outlook = _
    split <;> rfl
  exact hlook (settle s).2

theorem eat_run (kind : Kind) (s : State) : eat kind s
    = if (current s).1 = some kind then (true, (bump (current s).2).2)
      else (false, (current s).2) := by
  have hlook : eat kind = current >>= fun next ↦
      if next = some kind then bump >>= fun _ ↦ Pure.pure true else Pure.pure false := by
    simp [eat, currentIs]
  rw [hlook]
  change (if (current s).1 = some kind then _ else _ : Parse Bool) (current s).2 = _
  split <;> rfl

/-- A property of states that the operations of the cursor keep, and that depends on the outlook of
a state only. -/
structure Kept (inv : State → Prop) : Prop where
  congr : ∀ {s t : State}, inv s → t.outlook = s.outlook → inv t
  settle : ∀ {s : State}, inv s → inv (settle s).2
  next : ∀ {s : State} {t : Token} {rest : List Token}, inv s → s.ahead = t :: rest →
    ¬t.kind.isTrivia = true → inv { s with ahead := rest }
  report : ∀ {s : State} kind detail, inv s → inv (report kind detail s).2
  openDelimiter : ∀ {s : State}, inv s → inv (openDelimiter s).2
  closed : ∀ {s : State}, inv s → inv { s with delimiters := s.delimiters.drop 1 }
  /-- A delimiter that is not closed by the next token. -/
  unclosed : ∀ {s t : State} missing opened, inv s →
    t.outlook = (Parse.settle { s with delimiters := s.delimiters.drop 1 }).2.outlook →
      inv (unclosed missing opened s.delimiters t).2

/-- Two steps that do the same from states with a property and keep it, unless one of them makes a
mistake. -/
structure Keeps (inv : State → Prop) {α : Type} (p : Footing) (f g : Parse α) (q : Footing) :
    Prop where
  left : Steady f
  right : Steady g
  keeps : ∀ s : State, inv s → p.Holds s → (f s).2.defect = none → (g s).2.defect = none →
    f s = g s ∧ inv (f s).2 ∧ q.Holds (f s).2

section

variable {inv : State → Prop} {α β : Type} {p q r : Footing} {f g : Parse α} {k l : α → Parse β}
  {s : State}

/-! ## Steps put together -/

namespace Keeps

theorem of_same (hsteady : Steady f) (h : ∀ s : State, inv s → p.Holds s →
    (f s).2.defect = none → inv (f s).2 ∧ q.Holds (f s).2) : Keeps inv p f f q :=
  ⟨hsteady, hsteady, fun s hs hp hdefect _ ↦ ⟨rfl, h s hs hp hdefect⟩⟩

/-- A step that only looks. -/
theorem of_look (hsteady : Steady f) (h : ∀ s : State, (f s).2 = s) (p : Footing) :
    Keeps inv p f f p := by
  refine .of_same hsteady fun s hs hp _ ↦ ?_
  rw [h]
  exact ⟨hs, hp⟩

theorem pure (p : Footing) (a : α) : Keeps inv p (Pure.pure a) (Pure.pure a) p :=
  .of_look (Steady.pure a) (fun _ ↦ rfl) p

theorem bind (h : Keeps inv p f g q) (hk : ∀ a, Keeps inv q (k a) (l a) r) :
    Keeps inv p (f >>= k) (g >>= l) r := by
  refine ⟨h.left.bind fun a ↦ (hk a).left, h.right.bind fun a ↦ (hk a).right,
    fun s hs hp hleft hright ↦ ?_⟩
  obtain ⟨hsame, hmid, hq⟩ :=
    h.keeps s hs hp ((hk _).left.defect _ hleft) ((hk _).right.defect _ hright)
  have hrun : (g >>= l) s = l (f s).1 (f s).2 := by
    rw [hsame]
    rfl
  rw [hrun] at hright ⊢
  exact (hk (f s).1).keeps (f s).2 hmid hq hleft hright

theorem anywhere (h : Keeps inv .loose f g q) : Keeps inv p f g q :=
  ⟨h.left, h.right, fun s hs _ ↦ h.keeps s hs trivial⟩

theorem loosen (h : Keeps inv p f g q) : Keeps inv p f g .loose := by
  refine ⟨h.left, h.right, fun s hs hp hleft hright ↦ ?_⟩
  obtain ⟨hsame, hafter, -⟩ := h.keeps s hs hp hleft hright
  exact ⟨hsame, hafter, trivial⟩

theorem stuckLeft (defect : Defect) {g : Parse Unit} (h : Steady g) :
    Keeps inv p (recordDefect defect) g q :=
  ⟨recordDefect_steady defect, h, fun s _ _ hleft _ ↦ absurd hleft (recordDefect_ne_none defect s)⟩

theorem stuckRight (defect : Defect) {f : Parse Unit} (h : Steady f) :
    Keeps inv p f (recordDefect defect) q :=
  ⟨h, recordDefect_steady defect, fun s _ _ _ hright ↦
    absurd hright (recordDefect_ne_none defect s)⟩

theorem ite {b : Prop} [Decidable b] {f' g' : Parse α} (h : Keeps inv p f g q)
    (h' : Keeps inv p f' g' q) : Keeps inv p (if b then f else f') (if b then g else g') q := by
  split
  · exact h
  · exact h'

end Keeps

/-! ## Operations of the cursor -/

namespace Kept

theorem current (h : Kept inv) (hs : inv s) : inv (current s).2 :=
  h.congr (h.settle hs) (outlook_current s)

theorem bump (h : Kept inv) (hs : inv s) {t : Token} {rest : List Token}
    (hahead : s.ahead = t :: rest) (hword : ¬t.kind.isTrivia = true) : inv (bump s).2 := by
  rw [bump_counts hahead]
  exact h.congr (h.next hs hahead hword) rfl

theorem bump_keeps (h : Kept inv) : Keeps inv .settled Parse.bump Parse.bump .loose := by
  refine .of_same bump_steady fun s hs hsettled hdefect ↦ ⟨?_, trivial⟩
  rcases hahead : s.ahead with - | ⟨t, rest⟩
  · rw [bump_nil hahead] at hdefect
    exact absurd hdefect (recordDefect_ne_none .placedAtEnd s)
  · exact h.bump hs hahead (hsettled t (by rw [hahead]; rfl))

/-- The token that closes a delimiter is placed, or the delimiter is reported. -/
theorem closeDelimiter (h : Kept inv) (hs : inv s) (close : Kind) (missing : DiagnosticKind)
    (opened : String) : inv (closeDelimiter close missing opened s).2 := by
  rw [closeDelimiter_run]
  let popped : State := { s with delimiters := s.delimiters.drop 1 }
  have hcurrent : inv (Parse.current popped).2 := h.current (h.closed hs)
  by_cases hclose : (Parse.current popped).1 = some close
  · have heat : eat close popped = (true, (Parse.bump (Parse.current popped).2).2) :=
      (eat_run close popped).trans (if_pos hclose)
    change inv ((if !(eat close popped).1 then _ else _ : Parse Unit) (eat close popped).2).2
    rw [heat]
    obtain ⟨t, hhead, -⟩ := Option.map_eq_some_iff.mp hclose
    obtain ⟨rest, hahead⟩ := List.head?_eq_some_iff.mp hhead
    exact h.bump hcurrent hahead (current_settles popped t hhead)
  · have heat : eat close popped = (false, (Parse.current popped).2) :=
      (eat_run close popped).trans (if_neg hclose)
    change inv ((if !(eat close popped).1 then _ else _ : Parse Unit) (eat close popped).2).2
    rw [heat]
    exact h.unclosed missing opened hs (outlook_current popped)

theorem current_keeps (h : Kept inv) : Keeps inv .loose Parse.current Parse.current .settled :=
  .of_same current_steady fun s hs _ _ ↦ ⟨h.current hs, current_settles s⟩

theorem node_keeps (h : Kept inv) {kind : Kind} {f g : Parse Unit} (hbody : Keeps inv p f g q) :
    Keeps inv p (node kind f) (node kind g) q := by
  refine ⟨node_steady hbody.left kind, node_steady hbody.right kind,
    fun s hs hp hleft hright ↦ ?_⟩
  obtain ⟨hsame, hafter, hq⟩ :=
    hbody.keeps s.inside (h.congr hs rfl) (hp.congr rfl) hleft hright
  refine ⟨?_, h.congr hafter rfl, hq.congr rfl⟩
  rw [node_run, node_run, show f { (placeTrivia s).2 with placed := [] } = _ from hsame]
  rfl

theorem encloses_keeps (h : Kept inv) {f g : Parse Unit}
    (hopens : Encloses (Keeps inv .settled · · .loose) f g) : Keeps inv .settled f g .loose := by
  induction hopens with
  | stuckLeft defect hg => exact .stuckLeft defect hg.steady
  | stuckRight defect hf => exact .stuckRight defect hf.steady
  | node _ hbody => exact h.node_keeps hbody
  | look _ ih => exact h.current_keeps.anywhere.bind ih

theorem entered_keeps (h : Kept inv) {f g : Parse Unit}
    (hopens : Encloses (Keeps inv .settled · · .loose) f g) :
    Keeps inv .settled (do if ← enter then f; leave) (do if ← enter then g; leave) .loose := by
  have hinner := h.encloses_keeps hopens
  refine ⟨entered_steady hinner.left, entered_steady hinner.right,
    fun s hs hsettled hleft hright ↦ ?_⟩
  by_cases hroom : s.room = some 0
  · rw [notEntered_run hroom, notEntered_run hroom]
    exact ⟨rfl, h.congr hs rfl, trivial⟩
  · rw [entered_run hroom] at hleft hright ⊢
    rw [entered_run hroom]
    obtain ⟨hsame, hafter, -⟩ :=
      hinner.keeps s.entered (h.congr hs rfl) hsettled hleft hright
    exact ⟨by rw [hsame], h.congr hafter rfl, trivial⟩

/-- A run side by side with itself. -/
def coupling (h : Kept inv) : Coupling where
  Holds := Keeps inv
  pure := Keeps.pure
  bind := Keeps.bind
  anywhere := Keeps.anywhere
  loosen := Keeps.loosen
  stuckLeft := fun defect _ hg ↦ Keeps.stuckLeft defect hg
  stuckRight := fun defect _ hf ↦ Keeps.stuckRight defect hf
  current := h.current_keeps
  followedBy := fun kind ↦ .of_same (followedBy_steady kind) fun s hs _ _ ↦
    ⟨h.current hs, followedBy_settles kind s⟩
  isHalted := fun p ↦ .of_look isHalted_steady (fun _ ↦ rfl) p
  isDone := .of_look isDone_steady (fun _ ↦ rfl) _
  unlessDone := fun _ _ hk ↦ (Keeps.of_look isDone_steady (fun _ ↦ rfl) _).bind fun _ ↦
    .ite (.pure _ _) (h.current_keeps.bind hk)
  bounded := fun hk ↦ ⟨Steady.get.bind fun _ ↦ (hk _ 0).left,
    Steady.get.bind fun _ ↦ (hk 0 _).right,
    fun s ↦ (hk s.ahead.length s.ahead.length).keeps s⟩
  bump := h.bump_keeps
  eatTrivia := .of_same eatTrivia_steady fun _ hs _ _ ↦ ⟨h.congr (h.settle hs) rfl, trivial⟩
  report := fun kind detail ↦ .of_same (report_steady kind detail) fun s hs _ _ ↦
    ⟨h.report kind detail hs, report_settles kind detail s⟩
  openDelimiter := .of_same openDelimiter_steady fun s hs _ _ ↦
    ⟨h.openDelimiter hs, openDelimiter_settles s⟩
  closeDelimiter := fun close missing opened _ ↦
    .of_same (closeDelimiter_steady close missing opened) fun _ hs _ _ ↦
      ⟨h.closeDelimiter hs close missing opened, trivial⟩
  node := fun _ hbody ↦ h.node_keeps hbody
  entered := h.entered_keeps

/-- **A property that the operations keep holds at the end of a parse** if it holds at its
beginning. -/
theorem lastState (h : Kept inv) {limits : Limits} {source : String}
    (hinitial : inv (State.initial source limits)) : inv (lastState limits source) := by
  have hkeeps : Keeps inv .loose (rootParts (2 * (Token.lex source).length + 2))
      (rootParts (2 * (Token.lex source).length + 2)) .loose := h.coupling.rootParts _ _
  have hdefect := (lastState_ensures limits source).1
  exact (hkeeps.keeps _ hinitial trivial hdefect hdefect).2.1

end Kept

end

end SchemaCodec.Syntax
