import SchemaCodec.Proofs.Syntax.Coupling
import SchemaCodec.Proofs.Syntax.Lossless

/-!
# What limits do to a parse

Limits decide whether a parse has a result and never which one. A text of `n` tokens, trivia aside,
whose tree without limits nests types `k` deep, is parsed under limits exactly if the first one is
at least `n` and the second one at least `k`. The result is the one without limits.

## Side by side with a run without limits

A run is compared with one from the same state without limits. While no limit was exceeded, both do
the same. What the limited run may still do was reduced by exactly what it did: by one for each
token other than trivia that it placed, and what it placed nests no deeper than types could still be
entered. Once a limit was exceeded the two runs part, but it is settled by then that the limit is
too low: more tokens were ahead than could be placed, or the other run places a tree that nests
deeper. Neither is undone by what follows, since parts that were placed stay.

## Why the order of excesses does not matter

A parse goes on for a while after a limit was exceeded and may then exceed the other one. Only the
first one is recorded, and the claim about it was settled when it was recorded.
-/

namespace SchemaCodec.Syntax

open Parse

/-! ## Nesting -/

namespace Tree

mutual

/-- How many types are around each other in a tree: the most nodes of types on one way from its
root to a leaf. -/
def nesting : Tree → Nat
  | token _ => 0
  | node kind children => (if kind.isType then 1 else 0) + forestNesting children

def forestNesting : List Tree → Nat
  | [] => 0
  | tree :: trees => max (nesting tree) (forestNesting trees)

end

theorem forestNesting_append (trees others : List Tree) :
    forestNesting (trees ++ others) = max (forestNesting trees) (forestNesting others) := by
  induction trees with
  | nil => exact (Nat.zero_max _).symm
  | cons tree trees ih => rw [List.cons_append, forestNesting, forestNesting, ih, Nat.max_assoc]

theorem forestNesting_reverse (trees : List Tree) :
    forestNesting trees.reverse = forestNesting trees := by
  induction trees with
  | nil => rfl
  | cons tree trees ih =>
    rw [List.reverse_cons, forestNesting_append, ih, forestNesting, forestNesting, forestNesting,
      Nat.max_zero, Nat.max_comm]

theorem forestNesting_map_token (tokens : List Token) : forestNesting (tokens.map token) = 0 := by
  induction tokens with
  | nil => rfl
  | cons t tokens ih => rw [List.map_cons, forestNesting, ih, nesting, Nat.max_self]

end Tree

/-! ## States with and without limits -/

namespace State

/-- The same state without limits. -/
def unlimited (s : State) : State := { s with exec := none, maxDepth := none }

/-- How many tokens are ahead, trivia aside. -/
def left (s : State) : Nat := (terminals s.ahead).length

/-- How many types may still be entered inside each other. -/
def room (s : State) : Option Nat := s.maxDepth.map (· - s.depth)

/-- What limits are about. -/
def gauge (s : State) : Option Excess × Option Nat × Nat × Option Nat × Nat :=
  (s.excess, s.exec, s.depth, s.maxDepth, s.left)

/-- What was placed between two states nests no deeper than so many types. -/
def NestsWithin (most : Nat) (s t : State) : Prop :=
  ∃ trees, t.placed = trees ++ s.placed ∧ Tree.forestNesting trees ≤ most

/-- What was placed between two states nests deeper than so many types. -/
def NestsBeyond (least : Nat) (s t : State) : Prop :=
  ∃ trees, t.placed = trees ++ s.placed ∧ least < Tree.forestNesting trees

/-- Between two states, each token was counted that is ahead no longer. -/
def Spent (s t : State) : Prop := ∃ count, s.left = t.left + count ∧ s.exec = t.exec.map (· + count)

variable {most least : Nat} {s t u : State}

theorem NestsWithin.trans (h : s.NestsWithin most t) (h' : t.NestsWithin most u) :
    s.NestsWithin most u := by
  obtain ⟨earlier, hearlier, hwithin⟩ := h
  obtain ⟨trees, htrees, hwithin'⟩ := h'
  refine ⟨trees ++ earlier, ?_, ?_⟩
  · rw [htrees, hearlier, List.append_assoc]
  · rw [Tree.forestNesting_append]
    exact Nat.max_le.mpr ⟨hwithin', hwithin⟩

theorem NestsBeyond.before (h : s.NestsBeyond least t) (hlater : t.placed <:+ u.placed) :
    s.NestsBeyond least u := by
  obtain ⟨trees, htrees, hbeyond⟩ := h
  obtain ⟨later, hlater⟩ := hlater
  refine ⟨later ++ trees, ?_, ?_⟩
  · rw [← hlater, htrees, List.append_assoc]
  · rw [Tree.forestNesting_append]
    exact Nat.lt_of_lt_of_le hbeyond (Nat.le_max_right _ _)

theorem NestsBeyond.after (h : t.NestsBeyond least u) (hearlier : s.placed <:+ t.placed) :
    s.NestsBeyond least u := by
  obtain ⟨earlier, hearlier⟩ := hearlier
  obtain ⟨trees, htrees, hbeyond⟩ := h
  refine ⟨trees ++ earlier, ?_, ?_⟩
  · rw [htrees, ← hearlier, List.append_assoc]
  · rw [Tree.forestNesting_append]
    exact Nat.lt_of_lt_of_le hbeyond (Nat.le_max_left _ _)

theorem Spent.trans (h : s.Spent t) (h' : t.Spent u) : s.Spent u := by
  obtain ⟨count, hleft, hexec⟩ := h
  obtain ⟨count', hleft', hexec'⟩ := h'
  refine ⟨count' + count, ?_, ?_⟩
  · rw [hleft, hleft', Nat.add_assoc]
  · rw [hexec, hexec', Option.map_map]
    exact congrArg (Option.map · u.exec) (funext fun n ↦ Nat.add_assoc n count' count)

end State

/-! ## What a limit does to a step -/

section

variable {α β : Type}

/-- The steps `f` and `g` do the same from a state, one of them under its limits and the other one
without them. What they place nests within `room`. -/
structure Passed (room : Option Nat) (f g : Parse α) (s : State) (q : Footing) : Prop where
  same : g s.unlimited = ((f s).1, (f s).2.unlimited)
  excess : (f s).2.excess = none
  depth : (f s).2.depth = s.depth
  maxDepth : (f s).2.maxDepth = s.maxDepth
  spent : s.Spent (f s).2
  nests : ∀ most ∈ room, s.NestsWithin most (f s).2
  footing : q.Holds (f s).2

/-- What becomes of the step `f` under the limits of a state, in comparison with the step `g`
without them. -/
inductive Gate (room : Option Nat) (f g : Parse α) (s : State) (q : Footing) : Prop
  /-- Neither limit makes a difference. -/
  | passed (h : Passed room f g s q)
  /-- More tokens are ahead than may be placed. -/
  | overrun (excess : (f s).2.excess = some .exec) (most : Nat) (exec : s.exec = some most)
    (short : most < s.left)
  /-- Without limits, a tree is placed that nests too deep. -/
  | tooDeep (excess : (f s).2.excess = some .recursion) (most : Nat) (deepest : room = some most)
    (nests : s.NestsBeyond most (g s.unlimited).2)

theorem Gate.congr {room : Option Nat} {f g f' g' : Parse α} {s : State} {q : Footing}
    (hf : f' s = f s) (hg : g' s.unlimited = g s.unlimited) (h : Gate room f g s q) :
    Gate room f' g' s q := by
  rcases h with h | ⟨hexcess, most, hexec, hshort⟩ | ⟨hexcess, most, hroom, hnests⟩
  · obtain ⟨hsame, hexcess, hdepth, hmaxDepth, hspent, hnests, hfooting⟩ := h
    rw [← hf] at hsame hexcess hdepth hmaxDepth hspent hnests hfooting
    exact .passed ⟨hg.trans hsame, hexcess, hdepth, hmaxDepth, hspent, hnests, hfooting⟩
  · exact .overrun (by rw [hf, hexcess]) most hexec hshort
  · exact .tooDeep (by rw [hf, hexcess]) most hroom (by rw [hg]; exact hnests)

/-- Two steps that differ only by what limits do. Nothing is said about runs with a mistake of the
parser. -/
structure Gated (p : Footing) (f g : Parse α) (q : Footing) : Prop where
  left : Steady f
  right : Steady g
  gate : ∀ s : State, s.excess = none → p.Holds s → (f s).2.defect = none →
    (g s.unlimited).2.defect = none → Gate s.room f g s q

variable {room : Option Nat} {f g : Parse α} {k l : α → Parse β} {s : State} {p q r : Footing}

theorem Passed.room_eq (h : Passed room f g s q) : (f s).2.room = s.room := by
  rw [State.room, h.maxDepth, h.depth]
  rfl

/-- Without limits, what comes next starts where the limited run is. -/
theorem Passed.run_bind (h : Passed room f g s q) :
    (g >>= l) s.unlimited = l (f s).1 (f s).2.unlimited := by
  change l (g s.unlimited).1 (g s.unlimited).2 = _
  rw [h.same]

/-- What comes behind steps that do the same decides. -/
theorem Passed.bind (h : Passed room f g s q)
    (hk : Gate room (k (f s).1) (l (f s).1) (f s).2 r) : Gate room (f >>= k) (g >>= l) s r := by
  have hright : (g >>= l) s.unlimited = l (f s).1 (f s).2.unlimited := h.run_bind
  rcases hk with hk | ⟨hexcess, most, hexec, hshort⟩ | ⟨hexcess, most, hroom, hnests⟩
  · refine .passed ⟨hright.trans hk.same, hk.excess, hk.depth.trans h.depth,
      hk.maxDepth.trans h.maxDepth, h.spent.trans hk.spent, fun most hmost ↦ ?_, hk.footing⟩
    exact (h.nests most hmost).trans (hk.nests most hmost)
  · obtain ⟨count, hleft, hbefore⟩ := h.spent
    rw [hexec, Option.map_some] at hbefore
    exact .overrun hexcess _ hbefore (by omega)
  · refine .tooDeep hexcess most hroom ?_
    rw [hright]
    obtain ⟨trees, htrees, -⟩ := h.nests most hroom
    exact hnests.after ⟨trees, htrees.symm⟩

/-- Nothing that comes behind an exceeded limit makes a difference. -/
theorem Gate.bind (hleft : ∀ a, Steady (k a)) (hright : ∀ a, Steady (l a)) (h : Gate room f g s q)
    (hk : Passed room f g s q → Gate room (k (f s).1) (l (f s).1) (f s).2 r) :
    Gate room (f >>= k) (g >>= l) s r := by
  rcases h with h | ⟨hexcess, most, hexec, hshort⟩ | ⟨hexcess, most, hroom, hnests⟩
  · exact h.bind (hk h)
  · exact .overrun ((hleft _).excess _ _ hexcess) most hexec hshort
  · exact .tooDeep ((hleft _).excess _ _ hexcess) most hroom
      (hnests.before ((hright _).placed _))

/-! ## Steps that limits do not touch -/

/-- A step that neither reads a limit nor comes closer to one. -/
structure Quiet (f : Parse α) : Prop where
  same : ∀ s : State, f s.unlimited = ((f s).1, (f s).2.unlimited)
  gauge : ∀ s : State, (f s).2.gauge = s.gauge
  nests : ∀ s : State, s.NestsWithin 0 (f s).2

namespace Quiet

theorem of_placed (hsame : ∀ s : State, f s.unlimited = ((f s).1, (f s).2.unlimited))
    (hgauge : ∀ s : State, (f s).2.gauge = s.gauge)
    (hplaced : ∀ s : State, (f s).2.placed = s.placed) : Quiet f :=
  ⟨hsame, hgauge, fun s ↦ ⟨[], hplaced s, Nat.le_refl _⟩⟩

theorem pure (a : α) : Quiet (Pure.pure a : Parse α) :=
  of_placed (fun _ ↦ rfl) (fun _ ↦ rfl) fun _ ↦ rfl

theorem bind (h : Quiet f) (hk : ∀ a, Quiet (k a)) : Quiet (f >>= k) where
  same := fun s ↦ by
    change k (f s.unlimited).1 (f s.unlimited).2 = _
    rw [h.same]
    exact (hk (f s).1).same (f s).2
  gauge := fun s ↦ ((hk (f s).1).gauge (f s).2).trans (h.gauge s)
  nests := fun s ↦ (h.nests s).trans ((hk (f s).1).nests (f s).2)

theorem ite {b : Prop} [Decidable b] {f' : Parse α} (h : Quiet f) (h' : Quiet f') :
    Quiet (if b then f else f') := by
  split
  · exact h
  · exact h'

/-- What is read of a state does not depend on its limits. -/
theorem read {k : State → Parse α} (hsame : ∀ s : State, k s.unlimited = k s)
    (hk : ∀ s, Quiet (k s)) : Quiet (get >>= k) where
  same := fun s ↦ by
    change k s.unlimited s.unlimited = _
    rw [hsame]
    exact (hk s).same s
  gauge := fun s ↦ (hk s).gauge s
  nests := fun s ↦ (hk s).nests s

theorem recordDefect (defect : Defect) : Quiet (recordDefect defect) :=
  of_placed (fun _ ↦ rfl) (fun _ ↦ rfl) fun _ ↦ rfl

theorem settle : Quiet settle := by
  refine of_placed (fun _ ↦ rfl) (fun s ↦ ?_) fun _ ↦ rfl
  have hleft : (Parse.settle s).2.left = s.left :=
    congrArg List.length (terminals_dropWhile s.ahead)
  rw [State.gauge, hleft]
  rfl

theorem countLook : Quiet countLook :=
  read (fun _ ↦ rfl) fun _ ↦
    ite (recordDefect _) (of_placed (fun _ ↦ rfl) (fun _ ↦ rfl) fun _ ↦ rfl)

theorem current : Quiet current :=
  settle.bind fun _ ↦ countLook.bind fun _ ↦ read (fun _ ↦ rfl) fun _ ↦ pure _

theorem followedBy (kind : Kind) : Quiet (followedBy kind) :=
  settle.bind fun _ ↦ countLook.bind fun _ ↦ read (fun _ ↦ rfl) fun _ ↦ pure _

theorem isHalted : Quiet isHalted := read (fun _ ↦ rfl) fun _ ↦ pure _

theorem isDone : Quiet isDone := read (fun _ ↦ rfl) fun _ ↦ pure _

theorem placeTrivia : Quiet placeTrivia := by
  refine ⟨fun _ ↦ rfl, fun _ ↦ rfl, fun s ↦
    ⟨(s.waiting.map Tree.token).reverse, List.reverseAux_eq, ?_⟩⟩
  rw [Tree.forestNesting_reverse, Tree.forestNesting_map_token]

theorem currentSpan : Quiet currentSpan := settle.bind fun _ ↦ read (fun _ ↦ rfl) fun _ ↦ pure _

theorem claimReport (offset : Nat) : Quiet (claimReport offset) :=
  read (fun _ ↦ rfl) fun _ ↦ ite (pure _)
    (bind (of_placed (fun _ ↦ rfl) (fun _ ↦ rfl) fun _ ↦ rfl) fun _ ↦ pure _)

theorem emit (d : Diagnostic) : Quiet (emit d) :=
  of_placed (fun _ ↦ rfl) (fun _ ↦ rfl) fun _ ↦ rfl

theorem announce {say : Span → Parse Unit} (h : ∀ range, Quiet (say range)) :
    Quiet (announce say) :=
  currentSpan.bind fun range ↦ (claimReport _).bind fun _ ↦ ite (h range) (pure _)

theorem report (kind : DiagnosticKind) (detail : Option String) : Quiet (report kind detail) :=
  announce fun _ ↦ read (fun _ ↦ rfl) fun _ ↦ emit _

theorem openDelimiter : Quiet openDelimiter :=
  currentSpan.bind fun _ ↦ of_placed (fun _ ↦ rfl) (fun _ ↦ rfl) fun _ ↦ rfl

theorem passed (h : Quiet f) (hexcess : s.excess = none) (hfooting : q.Holds (f s).2) :
    Passed room f f s q := by
  have hgauge := h.gauge s
  simp only [State.gauge, Prod.mk.injEq] at hgauge
  obtain ⟨hsame, hexec, hdepth, hmaxDepth, hleft⟩ := hgauge
  refine ⟨h.same s, hsame.trans hexcess, hdepth, hmaxDepth, ⟨0, hleft.symm, ?_⟩, fun most _ ↦ ?_,
    hfooting⟩
  · rw [hexec]
    exact Option.map_id'.symm
  · obtain ⟨trees, htrees, hnests⟩ := h.nests s
    exact ⟨trees, htrees, Nat.le_trans hnests (Nat.zero_le _)⟩

theorem loose (h : Quiet f) (hsteady : Steady f) : Gated p f f .loose :=
  ⟨hsteady, hsteady, fun _ hexcess _ _ _ ↦ .passed (h.passed hexcess trivial)⟩

theorem settled (h : Quiet f) (hsteady : Steady f) (hsettles : Settles f) :
    Gated p f f .settled :=
  ⟨hsteady, hsteady, fun s hexcess _ _ _ ↦ .passed (h.passed hexcess (hsettles s))⟩

theorem kept (h : Quiet f) (hsteady : Steady f) (hsame : ∀ s : State, (f s).2 = s) :
    Gated p f f p := by
  refine ⟨hsteady, hsteady, fun s hexcess hp _ _ ↦ .passed (h.passed hexcess ?_)⟩
  rw [hsame]
  exact hp

end Quiet

/-! ## Steps side by side with themselves -/

namespace Gated

theorem pure (p : Footing) (a : α) : Gated p (Pure.pure a) (Pure.pure a) p :=
  (Quiet.pure a).kept (Steady.pure a) fun _ ↦ rfl

theorem bind (h : Gated p f g q) (hk : ∀ a, Gated q (k a) (l a) r) :
    Gated p (f >>= k) (g >>= l) r := by
  refine ⟨h.left.bind fun a ↦ (hk a).left, h.right.bind fun a ↦ (hk a).right,
    fun s hexcess hp hleft hright ↦ ?_⟩
  have hfirst : Gate s.room f g s q :=
    h.gate s hexcess hp ((hk _).left.defect _ hleft) ((hk _).right.defect _ hright)
  refine hfirst.bind (fun a ↦ (hk a).left) (fun a ↦ (hk a).right) fun hpassed ↦ ?_
  rw [← hpassed.room_eq]
  rw [hpassed.run_bind] at hright
  exact (hk (f s).1).gate (f s).2 hpassed.excess hpassed.footing hleft hright

theorem anywhere (h : Gated .loose f g q) : Gated p f g q :=
  ⟨h.left, h.right, fun s hexcess _ ↦ h.gate s hexcess trivial⟩

theorem loosen (h : Gated p f g q) : Gated p f g .loose := by
  refine ⟨h.left, h.right, fun s hexcess hp hleft hright ↦ ?_⟩
  rcases h.gate s hexcess hp hleft hright with h | ⟨hexcess, most, hexec, hshort⟩ |
    ⟨hexcess, most, hroom, hnests⟩
  · exact .passed { h with footing := trivial }
  · exact .overrun hexcess most hexec hshort
  · exact .tooDeep hexcess most hroom hnests

theorem ite {b : Prop} [Decidable b] {f' g' : Parse α} (h : Gated p f g q)
    (h' : Gated p f' g' q) : Gated p (if b then f else f') (if b then g else g') q := by
  by_cases hb : b
  · rw [if_pos hb, if_pos hb]
    exact h
  · rw [if_neg hb, if_neg hb]
    exact h'

/-- What is read of a state does not depend on its limits. -/
theorem read {k l : State → Parse α} (hsame : ∀ s : State, l s.unlimited = l s)
    (hk : ∀ s, Gated p (k s) (l s) q) : Gated p (get >>= k) (get >>= l) q where
  left := Steady.get.bind fun s ↦ (hk s).left
  right := Steady.get.bind fun s ↦ (hk s).right
  gate := fun s hexcess hp hleft hright ↦ by
    have hrun : (get >>= l) s.unlimited = l s s.unlimited := by
      change l s.unlimited s.unlimited = _
      rw [hsame]
    rw [hrun] at hright
    exact Gate.congr (f := k s) (g := l s) rfl hrun ((hk s).gate s hexcess hp hleft hright)

theorem stuckLeft (defect : Defect) {g : Parse Unit} (h : Steady g) :
    Gated p (recordDefect defect) g q :=
  ⟨recordDefect_steady defect, h, fun s _ _ hleft _ ↦ absurd hleft (recordDefect_ne_none defect s)⟩

theorem stuckRight (defect : Defect) {f : Parse Unit} (h : Steady f) :
    Gated p f (recordDefect defect) q :=
  ⟨h, recordDefect_steady defect, fun s _ _ _ hright ↦
    absurd hright (recordDefect_ne_none defect s.unlimited)⟩

end Gated

/-- A token that is placed is counted, and none is left to be counted if the limit is exceeded. -/
theorem bump_gated : Gated .settled bump bump .loose := by
  refine ⟨bump_steady, bump_steady, fun s hexcess hsettled hdefect _ ↦ ?_⟩
  rcases hahead : s.ahead with - | ⟨t, rest⟩
  · rw [bump_nil hahead] at hdefect
    exact absurd hdefect (recordDefect_ne_none .placedAtEnd s)
  have hword : ¬t.kind.isTrivia = true := hsettled t (by rw [hahead]; rfl)
  have hleft : s.left = (terminals rest).length + 1 := by
    rw [State.left, hahead, terminals_token hword, List.length_cons]
  have hrun := bump_counts hahead
  by_cases hexec : s.exec = some 0
  · refine .overrun ?_ 0 hexec (by omega)
    rw [hrun, hexcess]
    exact if_pos hexec
  · rw [if_neg hexec, hexcess] at hrun
    have hspent : s.exec = (s.exec.map (· - 1)).map (· + 1) := by
      rcases hlimit : s.exec with - | - | most
      · rfl
      · exact absurd hlimit hexec
      · rfl
    have htrees : .token t :: (s.waiting.map Tree.token).reverseAux s.placed
        = (t :: s.waiting.reverse).map Tree.token ++ s.placed := by
      rw [List.reverseAux_eq, List.map_cons, List.map_reverse, List.cons_append]
    refine .passed ⟨?_, by rw [hrun], by rw [hrun], by rw [hrun], ⟨1, ?_, ?_⟩, fun most _ ↦ ?_,
      trivial⟩
    · have hrun' := bump_counts (show s.unlimited.ahead = t :: rest from hahead)
      rw [if_neg (show ¬s.unlimited.exec = some 0 from nofun),
        show s.unlimited.excess = none from hexcess] at hrun'
      rw [hrun, hrun']
      rfl
    · rw [hrun]
      exact hleft
    · rw [hrun]
      exact hspent
    · rw [hrun]
      refine ⟨_, htrees, ?_⟩
      rw [Tree.forestNesting_map_token]
      exact Nat.zero_le _

theorem closeDelimiter_gated (close : Kind) (missing : DiagnosticKind) (opened : String)
    (h : Gated .loose (eat close) (eat close) .loose) :
    Gated .loose (closeDelimiter close missing opened) (closeDelimiter close missing opened)
      .loose := by
  refine Gated.read (fun _ ↦ rfl) fun s ↦ ?_
  have hpop : Quiet (modify fun s : State ↦ { s with delimiters := s.delimiters.drop 1 }) :=
    .of_placed (fun _ ↦ rfl) (fun _ ↦ rfl) fun _ ↦ rfl
  have hsteady : Steady (modify fun s : State ↦ { s with delimiters := s.delimiters.drop 1 }) :=
    .of_eq (fun _ ↦ rfl) (fun _ ↦ rfl) fun _ ↦ rfl
  refine (hpop.loose hsteady).bind fun _ ↦ h.bind fun _ ↦ Gated.ite ?_ (Gated.pure _ _)
  split
  · exact Gated.pure _ _
  · exact (Quiet.announce fun _ ↦ Quiet.emit _).loose (announce_steady fun _ ↦ emit_steady _)

/-! ## Nodes -/

theorem node_placed {kind : Kind} {f : Parse Unit} {trees : List Tree}
    (h : (f s.inside).2.placed = trees ++ s.inside.placed) :
    (node kind f s).2.placed
      = (.node kind trees.reverse :: s.waiting.reverse.map Tree.token) ++ s.placed := by
  have houter : (placeTrivia s).2.placed = s.waiting.reverse.map Tree.token ++ s.placed := by
    rw [List.map_reverse]
    exact List.reverseAux_eq
  have hinner : (f s.inside).2.placed = trees := h.trans (List.append_nil trees)
  rw [List.cons_append, ← houter, ← hinner]
  rfl

/-- A node nests as deep as its parts, and deeper by one if it is a type. -/
theorem node_nesting (kind : Kind) (trees : List Tree) (waiting : List Token) :
    Tree.forestNesting (.node kind trees.reverse :: waiting.map Tree.token)
      = Tree.forestNesting trees + if kind.isType then 1 else 0 := by
  rw [Tree.forestNesting, Tree.nesting, Tree.forestNesting_reverse, Tree.forestNesting_map_token,
    Nat.max_zero, Nat.add_comm]

theorem Gate.node (kind : Kind) {f g : Parse Unit} (h : Gate s.room f g s.inside q) :
    Gate (s.room.map (· + if kind.isType then 1 else 0)) (node kind f) (node kind g) s q := by
  rcases h with h | ⟨hexcess, most, hexec, hshort⟩ | ⟨hexcess, most, hroom, trees, htrees, hdeep⟩
  · refine .passed ⟨?_, h.excess, h.depth, h.maxDepth, h.spent, fun most hmost ↦ ?_,
      h.footing.congr rfl⟩
    · rw [node_run, show g { (placeTrivia s.unlimited).2 with placed := [] } = _ from h.same]
      rfl
    · obtain ⟨inner, hinner, rfl⟩ := Option.map_eq_some_iff.mp hmost
      obtain ⟨trees, htrees, hwithin⟩ := h.nests inner hinner
      refine ⟨_, node_placed htrees, ?_⟩
      rw [node_nesting]
      exact Nat.add_le_add_right hwithin _
  · exact .overrun hexcess most hexec hshort
  · refine .tooDeep hexcess _ (Option.map_eq_some_iff.mpr ⟨most, hroom, rfl⟩)
      ⟨_, node_placed htrees, ?_⟩
    rw [node_nesting]
    exact Nat.add_lt_add_right hdeep _

theorem node_gated {kind : Kind} {f g : Parse Unit} (hkind : kind.isType = false)
    (h : Gated p f g q) : Gated p (node kind f) (node kind g) q := by
  refine ⟨node_steady h.left kind, node_steady h.right kind, fun s hexcess hp hleft hright ↦ ?_⟩
  have hbody : Gate s.room f g s.inside q :=
    h.gate s.inside hexcess (hp.congr rfl) hleft hright
  have hnode := hbody.node kind
  rw [hkind] at hnode
  have hroom : s.room.map (· + 0) = s.room := Option.map_id'
  rw [← hroom]
  exact hnode

/-! ## Types -/

/-- A type that is placed counts, if nothing else. -/
theorem Opens.nests {f : Parse Unit} (h : Opens f) (s : State) (hdefect : (f s).2.defect = none) :
    s.NestsBeyond 0 (f s).2 := by
  induction h generalizing s with
  | stuck defect => exact absurd hdefect (recordDefect_ne_none defect s)
  | @node kind body hkind hbody =>
    refine ⟨_, node_placed (List.append_nil _).symm, ?_⟩
    rw [node_nesting, hkind]
    exact Nat.succ_pos _
  | look _ ih =>
    obtain ⟨trees, htrees, -⟩ := Quiet.current.nests s
    exact (ih (current s).1 (current s).2 hdefect).after ⟨trees, htrees.symm⟩

/-- The node of a type takes one level, and its parts the others. -/
theorem Encloses.gate {f g : Parse Unit} (h : Encloses (Gated .settled · · .loose) f g)
    (s : State) (hexcess : s.excess = none) (hsettled : s.Settled)
    (hleft : (f s).2.defect = none) (hright : (g s.unlimited).2.defect = none) :
    Gate (s.room.map (· + 1)) f g s .loose := by
  induction h generalizing s with
  | stuckLeft defect => exact absurd hleft (recordDefect_ne_none defect s)
  | stuckRight defect => exact absurd hright (recordDefect_ne_none defect s.unlimited)
  | @node kind f g hkind hbody =>
    have hinner : Gate s.room f g s.inside .loose :=
      hbody.gate s.inside hexcess hsettled hleft hright
    have hnode := hinner.node kind
    rw [hkind] at hnode
    exact hnode
  | @look k l _ ih =>
    have hpassed : Passed (s.room.map (· + 1)) current current s .settled :=
      Quiet.current.passed hexcess (current_settles s)
    refine hpassed.bind ?_
    rw [hpassed.run_bind] at hright
    rw [← hpassed.room_eq]
    exact ih _ _ hpassed.excess hpassed.footing hleft hright

theorem State.any_maxDepth_iff : s.maxDepth.any (· ≤ s.depth) = true ↔ s.room = some 0 := by
  rw [room]
  rcases s.maxDepth with - | most
  · exact iff_of_false nofun nofun
  · rw [Option.any_some, decide_eq_true_iff, Option.map_some, Option.some_inj,
      Nat.sub_eq_zero_iff_le]

theorem State.room_entered (h : s.room ≠ some 0) : s.entered.room.map (· + 1) = s.room := by
  have hentered : s.entered.room = s.maxDepth.map (· - (s.depth + 1)) := rfl
  rw [room] at h
  rw [hentered, room]
  rcases hlimit : s.maxDepth with - | most
  · rfl
  · rw [hlimit, Option.map_some, Ne, Option.some_inj] at h
    rw [Option.map_some, Option.map_some, Option.map_some, Option.some_inj]
    omega

/-- Without room, nothing of a type is placed. -/
theorem notEntered_run {f : Parse Unit} (h : s.room = some 0) :
    (do if ← enter then f; leave) s
      = ((), { s with excess := s.excess.or (some .recursion) }) := by
  have henter : enter s = (false, { s with excess := s.excess.or (some .recursion) }) := by
    change (if s.maxDepth.any (· ≤ s.depth) = true then _ else _ : Parse Bool) s = _
    rw [if_pos (State.any_maxDepth_iff.mpr h)]
    rfl
  change (if (enter s).1 = true then _ else _ : Parse Unit) (enter s).2 = _
  rw [henter]
  rfl

/-- With room, a type is entered and left again. -/
theorem entered_run {f : Parse Unit} (h : s.room ≠ some 0) :
    (do if ← enter then f; leave) s = leave (f s.entered).2 := by
  have henter : enter s = (true, s.entered) := by
    change (if s.maxDepth.any (· ≤ s.depth) = true then _ else _ : Parse Bool) s = _
    rw [if_neg (State.any_maxDepth_iff.not.mpr h)]
    rfl
  change (if (enter s).1 = true then _ else _ : Parse Unit) (enter s).2 = _
  rw [henter]
  rfl

/-- A type needs room for itself. If there is none, a node is placed without limits all the same. -/
theorem entered_gated {f g : Parse Unit} (h : Encloses (Gated .settled · · .loose) f g) :
    Gated .settled (do if ← enter then f; leave) (do if ← enter then g; leave) .loose := by
  obtain ⟨hopens, hopens'⟩ := h.opens fun _ _ h ↦ ⟨h.left, h.right⟩
  refine ⟨entered_steady hopens.steady, entered_steady hopens'.steady,
    fun s hexcess hsettled hleft hright ↦ ?_⟩
  have hrun' : (do if ← enter then g; leave) s.unlimited
      = leave (g s.entered.unlimited).2 := entered_run nofun
  rw [hrun'] at hright
  by_cases hroom : s.room = some 0
  · refine .tooDeep ?_ 0 hroom ?_
    · rw [notEntered_run hroom, hexcess]
      rfl
    · rw [hrun']
      exact hopens'.nests s.entered.unlimited hright
  · have hrun : (do if ← enter then f; leave) s = leave (f s.entered).2 := entered_run hroom
    rw [hrun] at hleft
    have hgate := h.gate s.entered hexcess hsettled hleft hright
    rw [State.room_entered hroom] at hgate
    rcases hgate with h | ⟨hexcess, most, hexec, hshort⟩ | ⟨hexcess, most, hmost, hnests⟩
    · refine .passed ⟨?_, ?_, ?_, ?_, ?_, ?_, trivial⟩
      · rw [hrun, hrun', h.same]
        rfl
      · rw [hrun]
        exact h.excess
      · rw [hrun]
        exact congrArg (· - 1) h.depth
      · rw [hrun]
        exact h.maxDepth
      · rw [hrun]
        exact h.spent
      · rw [hrun]
        exact h.nests
    · exact .overrun (by rw [hrun]; exact hexcess) most hexec hshort
    · exact .tooDeep (by rw [hrun]; exact hexcess) most hmost (by rw [hrun']; exact hnests)

/-- Limits decide at each step whether it is taken, and nothing else. -/
def gating : Coupling where
  Holds := Gated
  pure := Gated.pure
  bind := Gated.bind
  anywhere := Gated.anywhere
  loosen := Gated.loosen
  stuckLeft := fun defect _ h ↦ Gated.stuckLeft defect h
  stuckRight := fun defect _ h ↦ Gated.stuckRight defect h
  current := Quiet.current.settled current_steady current_settles
  followedBy := fun kind ↦
    (Quiet.followedBy kind).settled (followedBy_steady kind) (followedBy_settles kind)
  isHalted := fun _ ↦ Quiet.isHalted.kept isHalted_steady fun _ ↦ rfl
  isDone := Quiet.isDone.kept isDone_steady fun _ ↦ rfl
  unlessDone := fun _ _ hk ↦ (Quiet.isDone.loose isDone_steady).bind fun _ ↦
    Gated.ite (Gated.pure _ _) ((Quiet.current.settled current_steady current_settles).bind hk)
  bounded := fun h ↦ Gated.read (fun _ ↦ rfl) fun _ ↦ h _ _
  bump := bump_gated
  eatTrivia := (Quiet.settle.bind fun _ ↦ Quiet.placeTrivia).loose eatTrivia_steady
  report := fun kind detail ↦ (Quiet.report kind detail).settled (report_steady kind detail)
    (report_settles kind detail)
  openDelimiter := Quiet.openDelimiter.settled openDelimiter_steady openDelimiter_settles
  closeDelimiter := closeDelimiter_gated
  node := node_gated
  entered := entered_gated

end

/-! ## Whole texts -/

/-- How many tokens of a text are no trivia. -/
def wordCount (source : String) : Nat := (terminals (Token.lex source)).length

theorem lastState_ensures (limits : Limits) (source : String) :
    (lastState limits source).defect = none ∧
      ((lastState limits source).excess = none → (lastState limits source).left = 0) := by
  obtain ⟨hintact, -, hahead⟩ :=
    rootParts_ensures (initial_intact limits source) (Nat.le_refl _)
  refine ⟨hintact.defect, fun hexcess ↦ ?_⟩
  have hnone : (lastState limits source).ahead = [] := hahead hexcess
  rw [State.left, hnone]
  rfl

/-- The parts of a text are placed in the same way within the limits; beyond them, the run ends with
the limit that is too low. -/
theorem rootParts_gate (limits : Limits) (source : String) :
    Gate limits.recursion (rootParts (2 * (Token.lex source).length + 2))
      (rootParts (2 * (Token.lex source).length + 2)) (State.initial source limits) .loose := by
  have hgated : Gated .loose (rootParts (2 * (Token.lex source).length + 2))
      (rootParts (2 * (Token.lex source).length + 2)) .loose := gating.rootParts _ _
  have hroom : (State.initial source limits).room = limits.recursion := Option.map_id'
  rw [← hroom]
  exact hgated.gate _ rfl trivial (lastState_ensures limits source).1
    (lastState_ensures .unlimited source).1

theorem excess_unlimited (source : String) : (lastState .unlimited source).excess = none := by
  obtain ⟨hintact, -, -⟩ :=
    rootParts_ensures (initial_intact .unlimited source) (Nat.le_refl _)
  rw [Option.eq_none_iff_forall_ne_some]
  intro excess hsome
  have hset : Limits.unlimited.exceeded excess ≠ none := hintact.exceeded excess hsome
  rcases excess <;> exact hset rfl

/-- Without limits, every text has a parse. -/
theorem ofText_unlimited (source : String) :
    Parsed.ofText .unlimited source = .ok (lastState .unlimited source).parsed := by
  rw [ofText_eq, excess_unlimited]

/-- A text that stays within the limits has the parse that it has without limits. -/
theorem ofText_of_passed {limits : Limits} {source : String}
    (h : Passed limits.recursion (rootParts (2 * (Token.lex source).length + 2))
      (rootParts (2 * (Token.lex source).length + 2)) (State.initial source limits) .loose) :
    Parsed.ofText limits source = Parsed.ofText .unlimited source := by
  have hlast : lastState .unlimited source = (lastState limits source).unlimited :=
    congrArg Prod.snd h.same
  rw [ofText_unlimited, ofText_eq, show (lastState limits source).excess = none from h.excess,
    hlast]
  rfl

/-- Limits take parses away and change none. -/
theorem ofText_unlimited_of_ok {limits : Limits} {source : String} {parsed : Parsed}
    (h : Parsed.ofText limits source = .ok parsed) :
    Parsed.ofText .unlimited source = .ok parsed := by
  rcases rootParts_gate limits source with hpassed | ⟨hexcess, -⟩ | ⟨hexcess, -⟩
  · exact (ofText_of_passed hpassed).symm.trans h
  · rw [ofText_eq, show (lastState limits source).excess = _ from hexcess] at h
    cases h
  · rw [ofText_eq, show (lastState limits source).excess = _ from hexcess] at h
    cases h

theorem nesting_parsed (s : State) :
    s.parsed.tree.nesting = Tree.forestNesting s.placed := by
  rw [State.parsed, Tree.nesting, Tree.forestNesting_reverse]
  exact Nat.zero_add _

/-- **Limits only ever gate, and exactly**: without limits, every text has a parse. Under limits, a
text has the same parse if the first limit, where there is one, is no less than the number of its
tokens, trivia aside, and the second one no less than the nesting of types in the tree. Otherwise
the failure names a limit that is too low. -/
theorem ofText_within_limits (limits : Limits) (source : String) :
    ∃ parsed, Parsed.ofText .unlimited source = .ok parsed ∧
      ((∀ most ∈ limits.exec, wordCount source ≤ most) →
        (∀ most ∈ limits.recursion, parsed.tree.nesting ≤ most) →
          Parsed.ofText limits source = .ok parsed) ∧
      (¬((∀ most ∈ limits.exec, wordCount source ≤ most) ∧
          ∀ most ∈ limits.recursion, parsed.tree.nesting ≤ most) →
        (Parsed.ofText limits source = .error .exec ∧
            ∃ most ∈ limits.exec, most < wordCount source) ∨
          (Parsed.ofText limits source = .error .recursion ∧
            ∃ most ∈ limits.recursion, most < parsed.tree.nesting)) := by
  refine ⟨(lastState .unlimited source).parsed, ofText_unlimited source, ?_⟩
  rw [nesting_parsed]
  rcases rootParts_gate limits source with h | ⟨hexcess, most, hmost, hshort⟩ |
    ⟨hexcess, most, hmost, trees, htrees, hdeep⟩
  · have hlast : lastState .unlimited source = (lastState limits source).unlimited :=
      congrArg Prod.snd h.same
    have hsame : Parsed.ofText limits source = .ok (lastState .unlimited source).parsed := by
      rw [ofText_of_passed h, ofText_unlimited]
    have hexec : ∀ most ∈ limits.exec, wordCount source ≤ most := by
      intro most hmost
      obtain ⟨count, hleft, hbefore⟩ := h.spent
      obtain ⟨rest, -, rfl⟩ := Option.map_eq_some_iff.mp (hbefore.symm.trans hmost)
      have hcount : wordCount source = (lastState limits source).left + count := hleft
      rw [(lastState_ensures limits source).2 h.excess] at hcount
      omega
    have hrecursion : ∀ most ∈ limits.recursion,
        Tree.forestNesting (lastState .unlimited source).placed ≤ most := by
      intro most hmost
      obtain ⟨trees, htrees, hwithin⟩ := h.nests most hmost
      have hplaced : (lastState limits source).unlimited.placed = trees :=
        htrees.trans (List.append_nil _)
      rw [hlast, hplaced]
      exact hwithin
    exact ⟨fun _ _ ↦ hsame, fun hbeyond ↦ absurd ⟨hexec, hrecursion⟩ hbeyond⟩
  · have hfailed : Parsed.ofText limits source = .error .exec := by
      rw [ofText_eq, show (lastState limits source).excess = _ from hexcess]
    refine ⟨fun hexec _ ↦ absurd (hexec most hmost) (Nat.not_le.mpr hshort), fun _ ↦ ?_⟩
    exact .inl ⟨hfailed, most, hmost, hshort⟩
  · have hfailed : Parsed.ofText limits source = .error .recursion := by
      rw [ofText_eq, show (lastState limits source).excess = _ from hexcess]
    have hbeyond : most < Tree.forestNesting (lastState .unlimited source).placed := by
      have hplaced : (lastState .unlimited source).placed = trees :=
        htrees.trans (List.append_nil _)
      rw [hplaced]
      exact hdeep
    refine ⟨fun _ hrecursion ↦ absurd (hrecursion most hmost) (Nat.not_le.mpr hbeyond), fun _ ↦ ?_⟩
    exact .inr ⟨hfailed, most, hmost, hbeyond⟩

/-- A type in a list of arguments in a record. -/
def nested : String := "module m\nA = Record \x7b a: B(C) # list\n\x7d"

example : wordCount nested = 13 ∧ (lastState ⟨some 13, some 3⟩ nested).excess = none ∧
    (lastState ⟨some 12, some 3⟩ nested).excess = some .exec ∧
      (lastState ⟨some 13, some 2⟩ nested).excess = some .recursion := by decide +kernel

end SchemaCodec.Syntax
