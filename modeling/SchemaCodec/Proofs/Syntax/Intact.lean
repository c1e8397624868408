import Mathlib.Data.List.DropRight
import SchemaCodec.Proofs.Syntax.Steps
import SchemaCodec.Proofs.Syntax.Tiling

/-!
# Steps that lose nothing

Whatever a text looks like, each step of the parser keeps the tokens that the state holds: those
that are placed already, those that wait and those ahead are, one after another, the tokens it began
with. A step also keeps what is reported in order, in the sense that no span ends before it begins.
It makes no mistake of its own as long as there are looks left and, where it places a token, a
token. Nothing is said about what is placed where, so a step that reports something and one that
does not are described by the same statement.

## Looks and tokens left

A state is described by a lower bound on the looks left and an upper bound on the tokens ahead. The
first one falls with each look and is renewed by each token placed; the second one falls with each
token placed. A loop that places a token in each round thus has its looks again in each round and
comes to its end. Steps that place nothing change neither what comes next nor whether a limit was
exceeded, so a rule meets what it was chosen for.
-/

namespace SchemaCodec

def Span.Ordered (span : Span) : Prop := span.start ≤ span.stop

/-- All spans of a diagnostic are in order. -/
structure Diagnostic.Ordered (d : Diagnostic) : Prop where
  range : d.range.Ordered
  suppression : d.suppression.Ordered
  related : ∀ place ∈ d.related, place.2.Ordered

theorem Diagnostic.plain_ordered (kind : DiagnosticKind) {range : Span} (h : range.Ordered)
    (detail : Option String) : (plain kind range detail).Ordered :=
  ⟨h, h, fun _ hplace ↦ absurd hplace List.not_mem_nil⟩

namespace Syntax

/-! ## Trees -/

/-- No node of the tree is one around a whole text. -/
inductive Tree.Inner : Tree → Prop
  | token (t : Token) : Inner (.token t)
  | node {kind : Kind} {children : List Tree} :
    kind ≠ .root → (∀ child ∈ children, Inner child) → Inner (.node kind children)

mutual

theorem Tree.tokensOnto_eq : (tree : Tree) → (rest : List Token) →
    tokensOnto tree rest = tokensOnto tree [] ++ rest
  | token _, _ => rfl
  | node _ children, rest => forestOnto_eq children rest

/-- What comes behind the tokens of some trees stays behind them. -/
theorem Tree.forestOnto_eq : (trees : List Tree) → (rest : List Token) →
    forestOnto trees rest = forestOnto trees [] ++ rest
  | [], _ => rfl
  | tree :: trees, rest => by
    rw [forestOnto, forestOnto, tokensOnto_eq, forestOnto_eq trees, ← List.append_assoc,
      ← tokensOnto_eq]

end

theorem Tree.forestOnto_append (trees others : List Tree) (rest : List Token) :
    forestOnto (trees ++ others) rest = forestOnto trees (forestOnto others rest) := by
  induction trees with
  | nil => rfl
  | cons tree trees ih => rw [List.cons_append, forestOnto, ih, forestOnto]

theorem Tree.forestOnto_map_token (tokens rest : List Token) :
    forestOnto (tokens.map token) rest = tokens ++ rest := by
  induction tokens with
  | nil => rfl
  | cons t tokens ih => rw [List.map_cons, forestOnto, ih, tokensOnto, List.cons_append]

/-! ## States -/

namespace State

/-- The tokens of a state in order: those placed, those that wait, and those ahead. -/
def held (s : State) : List Token := Tree.forestOnto s.placed.reverse (s.waiting ++ s.ahead)

/-- The kind of the next token that is not trivia. -/
def next (s : State) : Option Kind :=
  (s.ahead.dropWhile (·.kind.isTrivia)).head?.map Token.kind

/-- Where the tokens ahead begin. -/
def offset (s : State) : Nat := (s.ahead.head?.map Token.start).getD s.stop

theorem offset_eq {s : State} {start : Nat} (h : Token.Tiles start s.ahead s.stop) :
    s.offset = start := by
  rw [offset]
  cases hahead : s.ahead with
  | nil =>
    rw [hahead] at h
    exact h.symm
  | cons t rest =>
    rw [hahead] at h
    exact h.1

theorem ahead_ne_nil {s : State} {kind : Kind} (h : s.next = some kind) : s.ahead ≠ [] := by
  intro hnil
  rw [next, hnil] at h
  cases h

/-- The tokens that wait go behind what is placed. -/
theorem held_eq (s : State) : Tree.forestOnto
    ((s.waiting.map Tree.token).reverseAux s.placed).reverse s.ahead = s.held := by
  rw [List.reverseAux_eq, List.reverse_append, List.reverse_reverse, Tree.forestOnto_append,
    Tree.forestOnto_map_token, held]

end State

/-- The limit that an excess is about. -/
def Limits.exceeded (limits : Limits) : Excess → Option Nat
  | .exec => limits.exec
  | .recursion => limits.recursion

/-- A state that holds certain tokens, without a mistake of the parser. At least so many looks are
left, and at most so many tokens are ahead. The tokens ahead reach to the end of the text without
gaps, and no delimiter stands behind their beginning. Only a limit that is set is exceeded. -/
structure Intact (limits : Limits) (tokens : List Token) (looks left : Nat) (s : State) :
    Prop where
  defect : s.defect = none
  looks : looks ≤ s.looks
  left : s.ahead.length ≤ left
  held : s.held = tokens
  inner : ∀ tree ∈ s.placed, tree.Inner
  tiles : Token.Tiles s.offset s.ahead s.stop
  delimiters : ∀ d ∈ s.delimiters, d.Ordered ∧ d.start ≤ s.offset
  reports : ∀ d ∈ s.reports, d.Ordered
  exec : limits.exec = none → s.exec = none
  maxDepth : s.maxDepth = limits.recursion
  exceeded : ∀ excess, s.excess = some excess → limits.exceeded excess ≠ none

/-- Such a state to which a step has led that placed no token. -/
structure Stays (limits : Limits) (tokens : List Token) (looks left : Nat)
    (before after : State) : Prop extends Intact limits tokens looks left after where
  next : after.next = before.next
  excess : after.excess = before.excess
  offset : before.offset ≤ after.offset

section

variable {limits : Limits} {tokens others : List Token} {looks fewer left more : Nat}
  {s s' s'' : State}

theorem Intact.mono (h : Intact limits tokens looks left s) (hfewer : fewer ≤ looks) :
    Intact limits tokens fewer left s := { h with looks := Nat.le_trans hfewer h.looks }

theorem Intact.widen (h : Intact limits tokens looks left s) (hmore : left ≤ more) :
    Intact limits tokens looks more s := { h with left := Nat.le_trans h.left hmore }

theorem Intact.tight (h : Intact limits tokens looks left s) :
    Intact limits tokens looks s.ahead.length s := { h with left := Nat.le_refl _ }

/-- Where tokens are ahead, some are left. -/
theorem Intact.exists_left (h : Intact limits tokens looks left s) (hahead : s.ahead ≠ []) :
    ∃ fewer, left = fewer + 1 :=
  Nat.exists_eq_add_one_of_ne_zero fun hzero ↦ hahead
    (List.eq_nil_of_length_eq_zero (Nat.le_zero.mp (hzero ▸ h.left)))

theorem Intact.exists_left_of_next (h : Intact limits tokens looks left s) {kind : Kind}
    (hnext : s.next = some kind) : ∃ fewer, left = fewer + 1 :=
  h.exists_left (State.ahead_ne_nil hnext)

theorem Intact.stays (h : Intact limits tokens looks left s) : Stays limits tokens looks left s s :=
  ⟨h, rfl, rfl, Nat.le_refl _⟩

theorem Stays.mono (h : Stays limits tokens looks left s s') (hfewer : fewer ≤ looks) :
    Stays limits tokens fewer left s s' := { h with toIntact := h.toIntact.mono hfewer }

/-- What holds of the states stays, even where a node begins between them and other tokens are
held. -/
theorem Stays.trans (h : Stays limits tokens looks left s s')
    (h' : Stays limits others fewer more s' s'') : Stays limits others fewer more s s'' :=
  ⟨h'.toIntact, h'.next.trans h.next, h'.excess.trans h.excess,
    Nat.le_trans h.offset h'.offset⟩

end

/-! ## Outcomes without a result -/

/-- From a state, a step leads to one of which `post` holds, whatever its result is. -/
def Ensures {α : Type} (m : Parse α) (s : State) (post : State → Prop) : Prop := post (m s).2

section

variable {α β : Type} {m : Parse α} {k : α → Parse β} {s : State} {mid post : State → Prop}

theorem Ensures.bind (h : Ensures m s mid) (hk : ∀ a s', mid s' → Ensures (k a) s' post) :
    Ensures (m >>= k) s post := hk _ _ h

theorem Ensures.imp (h : Ensures m s mid) (himp : ∀ s', mid s' → post s') : Ensures m s post :=
  himp _ h

theorem Gives.ensures {a : α} (h : Gives m s a mid) (hk : ∀ s', mid s' → Ensures (k a) s' post) :
    Ensures (m >>= k) s post := by
  have hnext := hk _ h.2
  rw [← h.1] at hnext
  exact hnext

end

namespace Parse

open Parse

section

variable {limits : Limits} {tokens : List Token} {looks fewer left less : Nat} {s : State}

/-! ## Looking -/

theorem settle_stays (h : Intact limits tokens looks left s) :
    Ensures settle s fun s' ↦ Stays limits tokens looks left s s' ∧
      s'.ahead.head?.map Token.kind = s.next := by
  have hsplit : s.ahead.takeWhile (·.kind.isTrivia) ++ s.ahead.dropWhile (·.kind.isTrivia)
      = s.ahead := List.takeWhile_append_dropWhile
  have htiles := h.tiles
  rw [← hsplit] at htiles
  obtain ⟨mid, hmid, htiles⟩ := htiles.of_append
  have hoffset : (settle s).2.offset = mid := State.offset_eq htiles
  rw [← hoffset] at hmid htiles
  refine ⟨⟨{ h with left := ?_, held := ?_, tiles := htiles, delimiters := fun d hd ↦ ?_ },
    ?_, rfl, hmid⟩, rfl⟩
  · exact Nat.le_trans (List.dropWhile_sublist _).length_le h.left
  · refine Eq.trans ?_ h.held
    change Tree.forestOnto s.placed.reverse ((s.waiting ++ s.ahead.takeWhile (·.kind.isTrivia)) ++
      s.ahead.dropWhile (·.kind.isTrivia)) = _
    rw [List.append_assoc, hsplit, State.held]
  · obtain ⟨hordered, hstart⟩ := h.delimiters d hd
    exact ⟨hordered, Nat.le_trans hstart hmid⟩
  · exact congrArg (fun tokens : List Token ↦ tokens.head?.map Token.kind)
      (List.dropWhile_idempotent _ s.ahead)

theorem countLook_stays (h : Intact limits tokens (looks + 1) left s) :
    Ensures countLook s fun s' ↦ Stays limits tokens looks left s s' ∧ s'.ahead = s.ahead := by
  have hlooks : looks + 1 ≤ s.looks := h.looks
  rw [Ensures, countLook_run hlooks]
  refine ⟨⟨{ h with looks := ?_ }, rfl, rfl, Nat.le_refl _⟩, rfl⟩
  change looks ≤ s.looks - 1
  omega

theorem look_stays (h : Intact limits tokens (looks + 1) left s) :
    Ensures (do settle; countLook) s fun s' ↦ Stays limits tokens looks left s s' ∧
      s'.ahead.head?.map Token.kind = s.next := by
  refine (settle_stays h).bind fun _ s' hs ↦ (countLook_stays hs.1.toIntact).imp fun s'' hs' ↦ ?_
  refine ⟨hs.1.trans hs'.1, ?_⟩
  rw [hs'.2]
  exact hs.2

theorem current_stays (h : Intact limits tokens (looks + 1) left s) :
    Gives current s s.next (Stays limits tokens looks left s) :=
  ⟨(look_stays h).2, (look_stays h).1⟩

theorem currentIs_stays (h : Intact limits tokens (looks + 1) left s) (kind : Kind) :
    Gives (currentIs kind) s (decide (s.next = some kind)) (Stays limits tokens looks left s) :=
  (current_stays h).bind fun _ hs ↦ ⟨rfl, hs⟩

theorem currentIn_stays (h : Intact limits tokens (looks + 1) left s) (kinds : KindSet) :
    Gives (currentIn kinds) s (s.next.any kinds.contains) (Stays limits tokens looks left s) :=
  (current_stays h).bind fun _ hs ↦ ⟨rfl, hs⟩

theorem followedBy_stays (h : Intact limits tokens (looks + 1) left s) (kind : Kind) :
    Ensures (followedBy kind) s (Stays limits tokens looks left s) := (look_stays h).1

theorem atDeclStart_stays (h : Intact limits tokens (looks + 2) left s) :
    Ensures atDeclStart s (Stays limits tokens looks left s) := by
  refine (currentIs_stays h .id).ensures fun s' hs ↦ ?_
  split
  · exact (followedBy_stays hs.toIntact .equals).imp fun _ hs' ↦ hs.trans hs'
  · exact hs.mono (Nat.le_succ _)

/-- The next token does not end before it begins, and where it begins are the tokens ahead once
trivia have been read past. -/
theorem currentSpan_stays (h : Intact limits tokens looks left s) :
    ∃ span, span.Ordered ∧ Gives currentSpan s span fun s' ↦
      Stays limits tokens looks left s s' ∧ s'.offset = span.start := by
  refine ⟨((settle s).2.ahead.head?.map Token.span).getD (.empty (settle s).2.stop), ?_, rfl,
    (settle_stays h).1, ?_⟩
  · cases (settle s).2.ahead with
    | nil => exact Nat.le_refl _
    | cons t rest => exact t.start_le_stop
  · change (settle s).2.offset = _
    rw [State.offset]
    cases (settle s).2.ahead <;> rfl

/-- Asking whether a limit was exceeded changes nothing. -/
theorem isHalted_bind {k : Bool → Parse Unit} {post : State → Prop}
    (hk : Ensures (k s.excess.isSome) s post) : Ensures (isHalted >>= k) s post := hk

theorem isDone_bind {k : Bool → Parse Unit} {post : State → Prop}
    (hk : Ensures (k (s.ahead.isEmpty || s.excess.isSome)) s post) :
    Ensures (isDone >>= k) s post := hk

/-- A loop that is not done is entered without an exceeded limit. -/
theorem excess_of_not_done (h : ¬(s.ahead.isEmpty || s.excess.isSome) = true) :
    s.excess = none := by
  rw [Bool.or_eq_true, not_or] at h
  exact Option.not_isSome_iff_eq_none.mp h.2

/-! ## Placing -/

theorem inner_waiting (waiting : List Token) {trees : List Tree}
    (h : ∀ tree ∈ trees, tree.Inner) :
    ∀ tree ∈ (waiting.map Tree.token).reverseAux trees, tree.Inner := by
  intro tree htree
  rw [List.reverseAux_eq, List.mem_append, List.mem_reverse, List.mem_map] at htree
  rcases htree with ⟨t, -, rfl⟩ | htree
  · exact .token t
  · exact h tree htree

theorem placeTrivia_stays (h : Intact limits tokens looks left s) :
    Ensures placeTrivia s fun s' ↦ Stays limits tokens looks left s s' ∧ s'.waiting = [] :=
  ⟨⟨{ h with held := s.held_eq.trans h.held, inner := inner_waiting s.waiting h.inner },
    rfl, rfl, Nat.le_refl _⟩, rfl⟩

/-- Placing a token counts it, which may exceed a limit that is set. -/
theorem bump_run {t : Token} {rest : List Token} (h : s.ahead = t :: rest) :
    ∃ exec excess, (s.exec = none → exec = none) ∧
      (excess = s.excess ∨ s.exec ≠ none ∧ excess = some .exec) ∧
      bump s = ((), { s with
        looks := maxLooks
        exec
        excess
        placed := .token t :: (s.waiting.map Tree.token).reverseAux s.placed
        waiting := []
        ahead := rest }) := by
  obtain ⟨ahead, waiting, placed, reports, open_, depth, reportedAt, looks, exec, excess⟩ := s
  cases h
  rcases exec with - | - | exec
  · exact ⟨_, _, id, .inl rfl, rfl⟩
  · refine ⟨_, _, id, ?_, rfl⟩
    cases excess with
    | none => exact .inr ⟨Option.some_ne_none _, rfl⟩
    | some excess => exact .inl rfl
  · exact ⟨_, _, fun h ↦ (nomatch h), .inl rfl, rfl⟩

theorem bump_ensures (h : Intact limits tokens looks (left + 1) s) (hahead : s.ahead ≠ []) :
    Ensures bump s (Intact limits tokens maxLooks left) := by
  obtain ⟨t, rest, hahead⟩ := List.exists_cons_of_ne_nil hahead
  obtain ⟨exec, excess, hexec, hexcess, hrun⟩ := bump_run hahead
  have hoffset : s.offset = t.start := by rw [State.offset, hahead]; rfl
  have htiles := h.tiles
  have hleft := h.left
  have hheld := h.held
  rw [hahead] at htiles hleft
  rw [← s.held_eq, hahead] at hheld
  have hnext : (bump s).2.offset = t.stop := by
    rw [hrun]
    exact State.offset_eq htiles.2
  rw [hrun] at hnext
  rw [Ensures, hrun]
  refine { h with
    looks := Nat.le_refl _
    left := Nat.le_of_succ_le_succ hleft
    held := ?_
    inner := List.forall_mem_cons.mpr ⟨.token t, inner_waiting s.waiting h.inner⟩
    tiles := ?_
    delimiters := fun d hd ↦ ?_
    exec := fun hlimit ↦ hexec (h.exec hlimit)
    exceeded := fun cause hcause ↦ ?_ }
  · rw [State.held, List.reverse_cons, Tree.forestOnto_append]
    exact hheld
  · rw [hnext]
    exact htiles.2
  · obtain ⟨hordered, hstart⟩ := h.delimiters d hd
    rw [hoffset] at hstart
    rw [hnext]
    exact ⟨hordered, Nat.le_trans hstart t.start_le_stop⟩
  · rcases hexcess with hsame | ⟨hset, hsame⟩
    · exact h.exceeded cause (hsame.symm.trans hcause)
    · obtain rfl : Excess.exec = cause := Option.some_inj.mp (hsame.symm.trans hcause)
      exact fun hlimit ↦ hset (h.exec hlimit)

/-- What comes next may be placed after steps that place nothing. -/
theorem bump_next {before : State} {kind : Kind} (h : Stays limits tokens looks (left + 1) before s)
    (hnext : before.next = some kind) : Ensures bump s (Intact limits tokens maxLooks left) :=
  bump_ensures h.toIntact (State.ahead_ne_nil (h.next.trans hnext))

theorem eat_placed {kind : Kind} (h : Intact limits tokens (looks + 1) (left + 1) s)
    (hnext : s.next = some kind) :
    Gives (eat kind) s true (Intact limits tokens maxLooks left) := by
  have hcurrent := currentIs_stays h kind
  rw [decide_eq_true hnext] at hcurrent
  refine hcurrent.bind fun s' hs ↦ ?_
  exact ⟨rfl, bump_next hs hnext⟩

theorem eat_missing {kind : Kind} (h : Intact limits tokens (looks + 1) left s)
    (hnext : s.next ≠ some kind) :
    Gives (eat kind) s false (Stays limits tokens looks left s) := by
  have hcurrent := currentIs_stays h kind
  rw [decide_eq_false hnext] at hcurrent
  exact hcurrent.bind fun _ hs ↦ ⟨rfl, hs⟩

theorem eat_ensures (h : Intact limits tokens (looks + 1) left s) (hlooks : looks ≤ maxLooks)
    (kind : Kind) : Ensures (eat kind) s (Intact limits tokens looks left) := by
  by_cases hnext : s.next = some kind
  · obtain ⟨left, rfl⟩ := h.exists_left_of_next hnext
    exact ((eat_placed h hnext).2.mono hlooks).widen (Nat.le_succ _)
  · exact (eat_missing h hnext).2.toIntact

theorem eatTrivia_ensures (h : Intact limits tokens looks left s) :
    Ensures eatTrivia s fun s' ↦ Stays limits tokens looks left s s' ∧ s'.waiting = [] ∧
      s'.ahead = s.ahead.dropWhile (·.kind.isTrivia) := by
  have hs := (settle_stays h).1
  obtain ⟨hs', hwaiting⟩ := placeTrivia_stays hs.toIntact
  exact ⟨hs.trans hs', hwaiting, rfl⟩

/-! ## Nodes -/

/-- A node around a body that loses nothing. -/
theorem node_ensures {kind : Kind} {body : Parse Unit} (hkind : kind ≠ .root)
    (h : Intact limits tokens looks left s)
    (hbody : ∀ {tokens s'}, Stays limits tokens looks left s s' →
      Ensures body s' (Intact limits tokens fewer less)) :
    Ensures (node kind body) s (Intact limits tokens fewer less) := by
  obtain ⟨houter, hwaiting⟩ := placeTrivia_stays h
  have hinside : Stays limits s.ahead looks left s { (placeTrivia s).2 with placed := [] } :=
    { houter with held := rfl, inner := fun _ htree ↦ absurd htree List.not_mem_nil }
  have hinner := hbody hinside
  rw [Ensures, node_run]
  refine { hinner with held := ?_, inner := ?_ }
  · have houtside := houter.held
    rw [State.held, hwaiting] at houtside
    rw [State.held, List.reverse_cons, Tree.forestOnto_append]
    exact (congrArg (Tree.forestOnto (placeTrivia s).2.placed.reverse) hinner.held).trans houtside
  · refine List.forall_mem_cons.mpr ⟨.node hkind fun child hchild ↦ ?_, houter.inner⟩
    exact hinner.inner child (List.mem_reverse.mp hchild)

/-! ## Reporting -/

theorem claimReport_stays (h : Intact limits tokens looks left s) (offset : Nat) :
    Ensures (claimReport offset) s (Stays limits tokens looks left s) := by
  by_cases hclaimed : s.reportedAt = some offset
  · have hrun : claimReport offset s = (false, s) := by
      change (if s.reportedAt = some offset then _ else _ : Parse Bool) s = _
      rw [if_pos hclaimed]
      rfl
    rw [Ensures, hrun]
    exact h.stays
  · have hrun : claimReport offset s = (true, { s with reportedAt := some offset }) := by
      change (if s.reportedAt = some offset then _ else _ : Parse Bool) s = _
      rw [if_neg hclaimed]
      rfl
    rw [Ensures, hrun]
    exact ⟨{ h with }, rfl, rfl, Nat.le_refl _⟩

theorem emit_stays (h : Intact limits tokens looks left s) {d : Diagnostic} (hd : d.Ordered) :
    Ensures (emit d) s (Stays limits tokens looks left s) :=
  ⟨{ h with reports := List.forall_mem_cons.mpr ⟨hd, h.reports⟩ }, rfl, rfl, Nat.le_refl _⟩

theorem report_stays (h : Intact limits tokens looks left s) (kind : DiagnosticKind)
    (detail : Option String) :
    Ensures (report kind detail) s (Stays limits tokens looks left s) := by
  obtain ⟨range, hrange, hspan⟩ := currentSpan_stays h
  refine hspan.ensures fun s' hs ↦ (claimReport_stays hs.1.toIntact range.start).bind
    fun claimed s'' hs' ↦ ?_
  have hstays := hs.1.trans hs'
  split
  · have hordered : ∀ suppression : Span, suppression.Ordered →
        Diagnostic.Ordered { Diagnostic.plain kind range detail with suppression } :=
      fun _ h ↦ { Diagnostic.plain_ordered kind hrange detail with suppression := h }
    refine (emit_stays hs'.toIntact (hordered _ ?_)).imp fun _ hs ↦ hstays.trans hs
    split
    · exact hrange
    · next delimiter outer heq =>
      obtain ⟨-, hstart⟩ := hs'.delimiters delimiter (by rw [heq]; exact List.mem_cons_self)
      exact Nat.le_trans hstart hs'.tiles.le
  · exact hstays

/-- A token of some kind, or what is done where it is missing. -/
theorem eatOr_ensures {kind : Kind} {otherwise : Parse Unit}
    (h : Intact limits tokens (looks + 1) left s) (hfewer : fewer ≤ maxLooks)
    (hother : ∀ {s'}, Stays limits tokens looks left s s' →
      Ensures otherwise s' (Intact limits tokens fewer left)) :
    Ensures (do if !(← eat kind) then otherwise) s (Intact limits tokens fewer left) := by
  by_cases hnext : s.next = some kind
  · obtain ⟨left, rfl⟩ := h.exists_left_of_next hnext
    exact (eat_placed h hnext).ensures fun _ hs ↦ (hs.mono hfewer).widen (Nat.le_succ _)
  · exact (eat_missing h hnext).ensures fun _ hs ↦ hother hs

theorem report_ensures (h : Intact limits tokens looks left s) (kind : DiagnosticKind)
    (detail : Option String) : Ensures (report kind detail) s (Intact limits tokens looks left) :=
  (report_stays h kind detail).imp fun _ hs ↦ hs.toIntact

theorem expect_ensures (h : Intact limits tokens (looks + 1) left s) (hlooks : looks ≤ maxLooks)
    (kind : Kind) (missing : DiagnosticKind) :
    Ensures (expect kind missing) s (Intact limits tokens looks left) :=
  eatOr_ensures h hlooks fun hs ↦ report_ensures hs.toIntact missing none

/-! ## Skipping -/

/-- A loop with more steps than tokens left comes to its end. -/
theorem skipTo_ensures (kinds : KindSet) {steps : Nat} (h : Intact limits tokens (looks + 1) left s)
    (hlooks : looks + 1 ≤ maxLooks) (hsteps : left < steps) :
    Ensures (skipTo kinds steps) s (Intact limits tokens looks left) := by
  induction steps generalizing left s with
  | zero => exact absurd hsteps (Nat.not_lt_zero _)
  | succ steps ih =>
    refine (currentIn_stays h kinds).ensures fun s' hs ↦ isDone_bind ?_
    split
    · next hgoes =>
      simp only [Bool.and_eq_true, Bool.not_eq_true', Bool.or_eq_false_iff] at hgoes
      have hahead := List.isEmpty_eq_false_iff.mp hgoes.2.1
      obtain ⟨left, rfl⟩ := hs.exists_left hahead
      exact (bump_ensures hs.toIntact hahead).bind fun _ _ hs ↦
        (ih (hs.mono hlooks) (Nat.lt_of_succ_lt_succ hsteps)).imp fun _ hs ↦
          hs.widen (Nat.le_succ _)
    · exact hs.toIntact

variable {kind : Kind} {kinds : KindSet}

/-- Whether the parser stops in front of a token, as long as no limit is exceeded. -/
theorem stops_stays (h : Intact limits tokens (looks + 1) left s) (kinds : KindSet) :
    ∃ stops, Gives (do return (← currentIn kinds) || (← isDone)) s stops
        (Stays limits tokens looks left s) ∧
      ∀ kind, s.next = some kind → s.excess = none → stops = kinds.contains kind := by
  obtain ⟨hfound, hs⟩ := currentIn_stays h kinds
  refine ⟨_, ⟨rfl, hs⟩, fun kind hnext hexcess ↦ ?_⟩
  have hahead := State.ahead_ne_nil (hs.next.trans hnext)
  change ((currentIn kinds s).1 || ((currentIn kinds s).2.ahead.isEmpty ||
    (currentIn kinds s).2.excess.isSome)) = _
  rw [hfound, hnext, hs.excess, hexcess, List.isEmpty_eq_false_iff.mpr hahead]
  simp

/-- Skipping places at least one token unless it stops at once. -/
theorem skipTo_places (h : Intact limits tokens (looks + 1) (left + 1) s)
    (hnext : s.next = some kind) (hexcess : s.excess = none) (hkind : kinds.contains kind = false) :
    Ensures (skipTo kinds (s.ahead.length + 1)) s (Intact limits tokens (maxLooks - 1) left) := by
  obtain ⟨fewer, hlength⟩ := h.tight.exists_left_of_next hnext
  have htight := h.tight
  have hleft := h.left
  rw [hlength] at htight hleft ⊢
  have hcurrent := currentIn_stays htight kinds
  rw [hnext, Option.any_some, hkind] at hcurrent
  refine hcurrent.ensures fun s' hs ↦ isDone_bind ?_
  have hahead := State.ahead_ne_nil (hs.next.trans hnext)
  rw [hs.excess, hexcess, List.isEmpty_eq_false_iff.mpr hahead]
  refine (bump_next hs hnext).bind fun _ s' hs ↦ ?_
  exact (skipTo_ensures kinds hs (Nat.le_refl _) (Nat.lt_succ_self _)).imp fun _ hs ↦
    hs.widen (Nat.le_of_succ_le_succ hleft)

theorem recover_ensures (h : Intact limits tokens (looks + 2) left s)
    (hlooks : looks + 1 ≤ maxLooks) (kind : DiagnosticKind) (detail : String) (kinds : KindSet) :
    Ensures (recover kind detail kinds) s (Intact limits tokens looks left) := by
  obtain ⟨stops, hstops, -⟩ := stops_stays h kinds
  refine hstops.ensures fun s' hs ↦ ?_
  split
  · exact (report_ensures hs.toIntact _ _).imp fun _ hs ↦ hs.mono (Nat.le_succ _)
  · refine node_ensures (by decide) hs.toIntact fun hs ↦ (report_stays hs.toIntact _ _).bind
      fun _ s' hs ↦ ?_
    exact (skipTo_ensures kinds hs.tight hlooks (Nat.lt_succ_self _)).imp fun _ hs' ↦
      hs'.widen hs.left

/-- In front of a token at which skipping stops, something is reported and nothing is placed. -/
theorem recover_stays (h : Intact limits tokens (looks + 1) left s) (hnext : s.next = some kind)
    (hexcess : s.excess = none) (hkind : kinds.contains kind = true) (fault : DiagnosticKind)
    (detail : String) :
    Ensures (recover fault detail kinds) s (Stays limits tokens looks left s) := by
  obtain ⟨stops, hstops, hwhen⟩ := stops_stays h kinds
  rw [hwhen kind hnext hexcess, hkind] at hstops
  exact hstops.ensures fun s' hs ↦ (report_stays hs.toIntact _ _).imp fun _ hs' ↦ hs.trans hs'

/-- In front of any other token, that token is placed at least. -/
theorem recover_places (h : Intact limits tokens (looks + 2) (left + 1) s)
    (hnext : s.next = some kind) (hexcess : s.excess = none) (hkind : kinds.contains kind = false)
    (fault : DiagnosticKind) (detail : String) :
    Ensures (recover fault detail kinds) s (Intact limits tokens (maxLooks - 1) left) := by
  obtain ⟨stops, hstops, hwhen⟩ := stops_stays h kinds
  rw [hwhen kind hnext hexcess, hkind] at hstops
  refine hstops.ensures fun s' hs ↦ node_ensures (by decide) hs.toIntact fun hs' ↦ ?_
  refine (report_stays hs'.toIntact _ _).bind fun _ s'' hs'' ↦ ?_
  have hstays := (hs.trans hs').trans hs''
  exact skipTo_places hs''.toIntact (hstays.next.trans hnext) (hstays.excess.trans hexcess) hkind

/-! ## Nesting -/

/-- A type that was entered is left; too deep a type is not entered. -/
theorem entered_ensures {inner : Parse Unit} (h : Intact limits tokens looks left s)
    (hlooks : looks ≤ maxLooks)
    (hinner : ∀ {s'}, Stays limits tokens maxLooks left s s' →
      Ensures inner s' (Intact limits tokens fewer left)) :
    Ensures (do if ← enter then inner; leave) s (Intact limits tokens looks left) := by
  by_cases hdeep : s.maxDepth.any (· ≤ s.depth) = true
  · have hrun : enter s = (false, { s with excess := s.excess.or (some .recursion) }) := by
      change (if s.maxDepth.any (· ≤ s.depth) = true then _ else _ : Parse Bool) s = _
      rw [if_pos hdeep]
      rfl
    have henter : Gives enter s false (Intact limits tokens looks left) := by
      rw [Gives, hrun]
      refine ⟨rfl, { h with exceeded := fun cause hcause ↦ ?_ }⟩
      cases hexcess : s.excess with
      | some excess =>
        rw [hexcess] at hcause
        exact h.exceeded cause (hexcess.trans hcause)
      | none =>
        rw [hexcess] at hcause
        obtain rfl : Excess.recursion = cause := Option.some_inj.mp hcause
        intro hlimit
        rw [h.maxDepth, show limits.recursion = none from hlimit] at hdeep
        cases hdeep
    exact henter.ensures fun _ hs ↦ hs
  · have hrun : enter s = (true, { s with depth := s.depth + 1, looks := maxLooks }) := by
      change (if s.maxDepth.any (· ≤ s.depth) = true then _ else _ : Parse Bool) s = _
      rw [if_neg hdeep]
      rfl
    have henter : Gives enter s true (Stays limits tokens maxLooks left s) := by
      rw [Gives, hrun]
      exact ⟨rfl, { h with looks := Nat.le_refl _ }, rfl, rfl, Nat.le_refl _⟩
    refine henter.ensures fun s' hs ↦ (hinner hs).bind fun _ s'' hs' ↦ ?_
    exact { hs' with looks := hlooks }

theorem openDelimiter_stays (h : Intact limits tokens looks left s) :
    Ensures openDelimiter s (Stays limits tokens looks left s) := by
  obtain ⟨span, hordered, hspan⟩ := currentSpan_stays h
  refine hspan.ensures fun s' hs ↦ ?_
  have hstays := hs.1
  exact { hstays with
    delimiters := List.forall_mem_cons.mpr ⟨⟨hordered, Nat.le_of_eq hs.2.symm⟩,
      hstays.delimiters⟩ }

theorem closeDelimiter_ensures (h : Intact limits tokens (looks + 1) left s)
    (hlooks : looks ≤ maxLooks) (close : Kind) (missing : DiagnosticKind) (opened : String) :
    Ensures (closeDelimiter close missing opened) s (Intact limits tokens looks left) := by
  have hpopped : Intact limits tokens (looks + 1) left
      { s with delimiters := s.delimiters.drop 1 } :=
    { h with delimiters := fun d hd ↦ h.delimiters d (List.mem_of_mem_drop hd) }
  have hget : Gives get s s (· = s) := ⟨rfl, rfl⟩
  have hpop : Gives (modify fun s ↦ { s with delimiters := s.delimiters.drop 1 }) s ()
      (· = { s with delimiters := s.delimiters.drop 1 }) := ⟨rfl, rfl⟩
  refine hget.ensures fun s hsame ↦ ?_
  subst hsame
  refine hpop.ensures fun _ hsame ↦ ?_
  subst hsame
  by_cases hnext : s.next = some close
  · obtain ⟨left, rfl⟩ := h.exists_left_of_next hnext
    exact (eat_placed hpopped hnext).ensures fun _ hs ↦ (hs.mono hlooks).widen (Nat.le_succ _)
  · refine (eat_missing hpopped hnext).ensures fun s' hs ↦ ?_
    cases hdelimiters : s.delimiters with
    | nil => exact hs.toIntact
    | cons delimiter outer =>
      obtain ⟨hopened, hstart⟩ := h.delimiters delimiter (by
        rw [hdelimiters]
        exact List.mem_cons_self)
      obtain ⟨span, hspan, hcurrent⟩ := currentSpan_stays hs.toIntact
      refine hcurrent.ensures fun s'' hs' ↦
        (claimReport_stays hs'.1.toIntact span.start).bind fun claimed _ hs'' ↦ ?_
      -- the next token is behind the delimiter, before and after its closing token was looked for
      have hbefore : delimiter.start ≤ span.start := by
        rw [← hs'.2]
        exact Nat.le_trans hstart (Nat.le_trans hs.offset hs'.1.offset)
      have hrange : Span.Ordered ⟨delimiter.start, span.stop⟩ := Nat.le_trans hbefore hspan
      have hordered : Diagnostic.Ordered
          { Diagnostic.plain missing ⟨delimiter.start, span.stop⟩ none with
            related := [(opened ++ " started here", delimiter)] } :=
        { Diagnostic.plain_ordered missing hrange none with
          related := List.forall_mem_singleton.mpr hopened }
      split
      · exact (emit_stays hs''.toIntact hordered).imp fun _ hs ↦ hs.toIntact
      · exact hs''.toIntact

end

end Parse

end Syntax

end SchemaCodec
