import Mathlib.Data.List.TakeWhile
import SchemaCodec.Proofs.Syntax.Trees

/-!
# Steps of the parser

The parser goes on after a fault, so a step has two kinds of outcome. As long as nothing has been
reported, what a step does depends on the terminals ahead and on nothing else: where trivia stand,
how often the parser has looked and how deep it is make no difference. Once something has been
reported it stays reported, whatever the parser does then.

A run of the parser is therefore compared with a reading of the terminals ahead, which finds a
phrase or nothing. Where a phrase is found the step leaves the terminals behind it and the tree of
the phrase, and where nothing is found the step has reported something.
-/

namespace SchemaCodec.Syntax

/-! ## Terminals of tokens -/

theorem terminals_trivia {t : Token} (h : t.kind.isTrivia = true) (rest : List Token) :
    terminals (t :: rest) = terminals rest := by
  rw [terminals, terminals, List.filter_cons_of_neg (by rw [h]; decide)]

theorem terminals_token {t : Token} (h : ¬t.kind.isTrivia = true) (rest : List Token) :
    terminals (t :: rest) = t.terminal :: terminals rest := by
  rw [terminals, terminals, List.filter_cons_of_pos (by simpa using h), List.map_cons]

theorem terminals_dropWhile (tokens : List Token) :
    terminals (tokens.dropWhile (·.kind.isTrivia)) = terminals tokens := by
  induction tokens with
  | nil => rfl
  | cons t tokens ih =>
    by_cases htrivia : t.kind.isTrivia = true
    · rw [List.dropWhile_cons, if_pos htrivia, ih, terminals_trivia htrivia]
    · rw [List.dropWhile_cons, if_neg htrivia]

/-- A list of tokens shows the kind of its first terminal once trivia are dropped. -/
theorem head?_terminals {tokens : List Token} (h : ∀ t ∈ tokens.head?, ¬t.kind.isTrivia = true) :
    tokens.head?.map Token.kind = (terminals tokens).head?.map Terminal.kind := by
  cases tokens with
  | nil => rfl
  | cons t rest =>
    rw [terminals_token (h t rfl)]
    exact congrArg some t.kind_terminal.symm

theorem not_isTrivia_dropWhile (tokens : List Token) :
    ∀ t ∈ (tokens.dropWhile (·.kind.isTrivia)).head?, ¬t.kind.isTrivia = true := by
  intro t ht htrivia
  have hnot := List.head?_dropWhile_not (fun t : Token ↦ t.kind.isTrivia) tokens
  have hhead : (tokens.dropWhile fun t ↦ t.kind.isTrivia).head? = some t := ht
  rw [hhead] at hnot
  exact absurd htrivia (Bool.eq_false_iff.mp hnot)

/-- A name is always told from a kind. -/
theorem symbol_id_not_mem_terminals (tokens : List Token) :
    Terminal.symbol .id ∉ terminals tokens := by
  intro hmem
  obtain ⟨t, -, ht⟩ := List.mem_map.mp hmem
  rw [Token.terminal] at ht
  split at ht
  · cases ht
  · next hid => exact hid (Terminal.symbol.inj ht)

/-- The next terminal is of a kind. -/
def isNext (kind : Kind) (ts : List Terminal) : Bool := ts.head?.map Terminal.kind = some kind

theorem isNext_symbol {kind : Kind} (hkind : kind ≠ .id) {ts : List Terminal} :
    isNext kind ts = true ↔ ts.head? = some (.symbol kind) := by
  rcases ts with - | ⟨text | other, ts⟩
  · simp [isNext]
  · simpa [isNext, Terminal.kind, Terminal.token] using hkind.symm
  · simp [isNext, Terminal.kind, Terminal.token]

theorem isNext_id {ts : List Terminal} (h : .symbol .id ∉ ts) :
    isNext .id ts = (Phrase.readName ts).isSome := by
  rcases ts with - | ⟨text | other, ts⟩
  · rfl
  · rfl
  · have hother : other ≠ .id := fun hid ↦ h (by rw [hid]; exact List.mem_cons_self)
    simpa [isNext, Terminal.kind, Terminal.token, Phrase.readName] using hother

theorem accept_eq_isNext {kind : Kind} (hkind : kind ≠ .id) (ts : List Terminal) :
    (Phrase.accept (.symbol kind) ts).1 = isNext kind ts := by
  rw [Bool.eq_iff_iff, isNext_symbol hkind]
  rcases haccept : Phrase.accept (.symbol kind) ts with ⟨- | -, rest⟩
  · exact iff_of_false Bool.false_ne_true (Phrase.accept_false haccept).2
  · rw [Phrase.accept_true haccept]
    exact iff_of_true rfl rfl

/-! ## States -/

/-- The first token ahead, if there is one, is no trivia. -/
def State.Settled (s : State) : Prop := ∀ t ∈ s.ahead.head?, ¬t.kind.isTrivia = true

/-- Nothing has been reported or recorded, and there are no limits. No place is claimed either, so
the first fault is reported wherever it stands. -/
def State.Clean (s : State) : Prop :=
  (s.reports = [] ∧ s.reportedAt = none) ∧ (s.excess = none ∧ s.defect = none) ∧
    s.exec = none ∧ s.maxDepth = none

namespace State.Clean

variable {s : State}

theorem reports (h : s.Clean) : s.reports = [] := h.1.1

theorem reportedAt (h : s.Clean) : s.reportedAt = none := h.1.2

theorem defect (h : s.Clean) : s.defect = none := h.2.1.2

theorem excess (h : s.Clean) : s.excess = none := h.2.1.1

theorem exec (h : s.Clean) : s.exec = none := h.2.2.1

theorem maxDepth (h : s.Clean) : s.maxDepth = none := h.2.2.2

end State.Clean

/-- A clean state in which so many delimiters are open, with some terminals ahead and some bare
trees in the innermost open node, the latest first. At least so many looks are left: how many
exactly depends on the way to the state. -/
structure At (looks delimiters : Nat) (ts : List Terminal) (placed : List Tree) (s : State) :
    Prop where
  clean : s.Clean
  looks : looks ≤ s.looks
  delimiters : s.delimiters.length = delimiters
  ahead : terminals s.ahead = ts
  waiting : ∀ t ∈ s.waiting, t.kind.isTrivia = true
  placed : Tree.bareForest s.placed = placed

/-- Such a state in which trivia have been read past, so that the next terminal is in front. -/
structure Ready (looks delimiters : Nat) (ts : List Terminal) (placed : List Tree) (s : State) :
    Prop extends At looks delimiters ts placed s where
  settled : s.Settled

section

variable {looks fewer delimiters : Nat} {ts : List Terminal} {placed : List Tree} {s : State}

theorem At.mono (h : At looks delimiters ts placed s) (hfewer : fewer ≤ looks) :
    At fewer delimiters ts placed s :=
  ⟨h.clean, Nat.le_trans hfewer h.looks, h.delimiters, h.ahead, h.waiting, h.placed⟩

theorem Ready.mono (h : Ready looks delimiters ts placed s) (hfewer : fewer ≤ looks) :
    Ready fewer delimiters ts placed s := ⟨h.toAt.mono hfewer, h.settled⟩

theorem At.symbol_id_not_mem (h : At looks delimiters ts placed s) : Terminal.symbol .id ∉ ts := by
  rw [← h.ahead]
  exact symbol_id_not_mem_terminals s.ahead

theorem Ready.head? (h : Ready looks delimiters ts placed s) :
    s.ahead.head?.map Token.kind = ts.head?.map Terminal.kind := by
  rw [← h.ahead]
  exact head?_terminals h.settled

/-- The token after the next one. -/
theorem Ready.head?_tail (h : Ready looks delimiters ts placed s) :
    ((s.ahead.drop 1).dropWhile (·.kind.isTrivia)).head?.map Token.kind
      = ts.tail.head?.map Terminal.kind := by
  have htail : terminals ((s.ahead.drop 1).dropWhile (·.kind.isTrivia)) = ts.tail := by
    rw [terminals_dropWhile, ← h.ahead]
    cases hahead : s.ahead with
    | nil => rfl
    | cons t rest => rw [terminals_token (h.settled t (by rw [hahead]; rfl))]; rfl
  rw [← htail]
  exact head?_terminals (not_isTrivia_dropWhile (s.ahead.drop 1))

end

/-! ## Outcomes -/

section

variable {α β γ δ : Type} {m : Parse α} {k : α → Parse β} {s : State}

/-- From a state, a step has a result and leads to a state of which `post` holds. -/
def Gives (m : Parse α) (s : State) (a : α) (post : State → Prop) : Prop :=
  (m s).1 = a ∧ post (m s).2

/-- From a state, a step leads to one in which something has been reported. -/
def Fails (m : Parse α) (s : State) : Prop := (m s).2.reports ≠ []

/-- Whatever has been reported before a step has been reported after it. -/
def Grows (m : Parse α) : Prop := ∀ s, s.reports ≠ [] → Fails m s

/-- A step finds what a reading finds, and fails where that finds nothing. -/
def Follows (m : Parse α) (s : State) (found : Option γ) (post : γ → State → Prop) : Prop :=
  match found with
  | some c => post c (m s).2
  | none => Fails m s

theorem Gives.bind {a : α} {b : β} {mid post : State → Prop} (h : Gives m s a mid)
    (hk : ∀ s', mid s' → Gives (k a) s' b post) : Gives (m >>= k) s b post := by
  have hnext := hk _ h.2
  rw [← h.1] at hnext
  exact hnext

theorem Gives.fails {a : α} {mid : State → Prop} (h : Gives m s a mid)
    (hk : ∀ s', mid s' → Fails (k a) s') : Fails (m >>= k) s := by
  have hnext := hk _ h.2
  rw [← h.1] at hnext
  exact hnext

theorem Gives.imp {a : α} {mid post : State → Prop} (h : Gives m s a mid)
    (himp : ∀ s', mid s' → post s') : Gives m s a post := ⟨h.1, himp _ h.2⟩

theorem Fails.bind (h : Fails m s) (hk : ∀ a, Grows (k a)) : Fails (m >>= k) s :=
  hk (m s).1 (m s).2 h

theorem Gives.follows {a : α} {mid : State → Prop} {found : Option γ} {post : γ → State → Prop}
    (h : Gives m s a mid) (hk : ∀ s', mid s' → Follows (k a) s' found post) :
    Follows (m >>= k) s found post := by
  have hnext := hk _ h.2
  rw [← h.1] at hnext
  exact hnext

theorem Follows.bind {found : Option γ} {l : γ → Option δ} {mid : γ → State → Prop}
    {post : δ → State → Prop} (h : Follows m s found mid) (hgrows : ∀ a, Grows (k a))
    (hk : ∀ a c s', found = some c → mid c s' → Follows (k a) s' (l c) post) :
    Follows (m >>= k) s (found >>= l) post := by
  cases found with
  | none => exact Fails.bind h hgrows
  | some c => exact hk (m s).1 c (m s).2 rfl h

/-- What is read behind what was found takes no further step. -/
theorem Follows.found_bind {found : Option γ} {l : γ → Option δ} {mid : γ → State → Prop}
    {post : δ → State → Prop} (h : Follows m s found mid)
    (hl : ∀ c s', found = some c → mid c s' → ∃ d, l c = some d ∧ post d s') :
    Follows m s (found >>= l) post := by
  cases found with
  | none => exact h
  | some c =>
    obtain ⟨d, hd, hpost⟩ := hl c _ rfl h
    change Follows m s (l c) post
    rw [hd]
    exact hpost

/-- A step that always succeeds may come behind one that finds something. -/
theorem Follows.gives {found : Option γ} {b : α → β} {mid post : γ → State → Prop}
    (h : Follows m s found mid) (hgrows : ∀ a, Grows (k a))
    (hk : ∀ a c s', mid c s' → Gives (k a) s' (b a) (post c)) :
    Follows (m >>= k) s found post := by
  cases found with
  | none => exact Fails.bind h hgrows
  | some c => exact (hk (m s).1 c (m s).2 h).2

theorem Follows.imp {found : Option γ} {mid post : γ → State → Prop} (h : Follows m s found mid)
    (himp : ∀ c s', found = some c → mid c s' → post c s') : Follows m s found post := by
  cases found with
  | none => exact h
  | some c => exact himp c _ rfl h

namespace Grows

theorem pure (a : α) : Grows (Pure.pure a) := fun _ h ↦ h

theorem bind (h : Grows m) (hk : ∀ a, Grows (k a)) : Grows (m >>= k) :=
  fun s hs ↦ hk (m s).1 (m s).2 (h s hs)

theorem get : Grows MonadState.get := fun _ h ↦ h

theorem ite {p : Prop} [Decidable p] {x y : Parse α} (hx : Grows x) (hy : Grows y) :
    Grows (if p then x else y) := by
  split
  · exact hx
  · exact hy

end Grows

end

namespace Parse

open Parse

section

variable {looks fewer delimiters : Nat} {t : Terminal} {ts : List Terminal} {placed : List Tree}
  {s : State}

/-! ## Looking -/

theorem settle_gives (h : At looks delimiters ts placed s) :
    Gives settle s () (Ready looks delimiters ts placed) := by
  refine ⟨rfl, ⟨h.clean, h.looks, h.delimiters, ?_, ?_, h.placed⟩, ?_⟩
  · exact (terminals_dropWhile s.ahead).trans h.ahead
  · intro t ht
    rcases List.mem_append.mp ht with ht | ht
    · exact h.waiting t ht
    · have htrivia := List.mem_takeWhile_imp ht
      exact htrivia
  · exact not_isTrivia_dropWhile s.ahead

/-- As long as looks are left, a look takes one of them. -/
theorem countLook_run (h : looks + 1 ≤ s.looks) :
    countLook s = ((), { s with looks := s.looks - 1 }) := by
  change (if s.looks = 0 then recordDefect .tooManyLooks
    else modify fun s ↦ { s with looks := s.looks - 1 }) s = _
  rw [if_neg (by omega)]
  rfl

theorem countLook_gives (h : Ready (looks + 1) delimiters ts placed s) :
    Gives countLook s () (Ready looks delimiters ts placed) := by
  have hlooks : looks + 1 ≤ s.looks := h.looks
  rw [Gives, countLook_run hlooks]
  refine ⟨rfl, ⟨h.clean, ?_, h.delimiters, h.ahead, h.waiting, h.placed⟩, h.settled⟩
  change looks ≤ s.looks - 1
  omega

theorem current_gives (h : At (looks + 1) delimiters ts placed s) :
    Gives current s (ts.head?.map Terminal.kind) (Ready looks delimiters ts placed) := by
  refine (settle_gives h).bind fun s hs ↦ (countLook_gives hs).bind fun s hs ↦ ?_
  exact ⟨hs.head?, hs⟩

theorem currentIs_gives (h : At (looks + 1) delimiters ts placed s) (kind : Kind) :
    Gives (currentIs kind) s (isNext kind ts) (Ready looks delimiters ts placed) :=
  (current_gives h).bind fun _ hs ↦ ⟨rfl, hs⟩

theorem currentIn_gives (h : At (looks + 1) delimiters ts placed s) (kinds : KindSet) :
    Gives (currentIn kinds) s ((ts.head?.map Terminal.kind).any kinds.contains)
      (Ready looks delimiters ts placed) :=
  (current_gives h).bind fun _ hs ↦ ⟨rfl, hs⟩

theorem followedBy_gives (h : At (looks + 1) delimiters ts placed s) (kind : Kind) :
    Gives (followedBy kind) s (isNext kind ts.tail) (Ready looks delimiters ts placed) := by
  refine (settle_gives h).bind fun s hs ↦ (countLook_gives hs).bind fun s hs ↦ ?_
  refine ⟨?_, hs⟩
  change decide ((((s.ahead.drop 1).dropWhile (·.kind.isTrivia)).head?.map Token.kind) = some kind)
    = isNext kind ts.tail
  rw [isNext, hs.head?_tail]

theorem atDeclStart_gives (h : At (looks + 2) delimiters ts placed s) :
    Gives atDeclStart s (isNext .id ts && isNext .equals ts.tail)
      (Ready looks delimiters ts placed) := by
  refine (currentIs_gives h .id).bind fun s hs ↦ ?_
  cases isNext .id ts with
  | true => exact followedBy_gives hs.toAt .equals
  | false => exact ⟨rfl, hs.mono (Nat.le_succ _)⟩

/-- A name begins a declaration if an equals sign comes behind it. -/
theorem atDeclStart_gives_name {name : String}
    (h : At (looks + 2) delimiters (.name name :: ts) placed s) :
    Gives atDeclStart s (decide (ts.head? = some (.symbol .equals)))
      (Ready looks delimiters (.name name :: ts) placed) := by
  have hnext : isNext .equals ts = decide (ts.head? = some (.symbol .equals)) := by
    rw [Bool.eq_iff_iff, isNext_symbol (by decide), decide_eq_true_iff]
  rw [← hnext]
  exact atDeclStart_gives h

theorem currentSpan_gives (h : At looks delimiters ts placed s) :
    ∃ span, Gives currentSpan s span (Ready looks delimiters ts placed) := by
  obtain ⟨-, hs⟩ := settle_gives h
  exact ⟨_, rfl, hs⟩

theorem isHalted_gives (h : At looks delimiters ts placed s) : Gives isHalted s false (· = s) := by
  refine ⟨?_, rfl⟩
  change s.excess.isSome = false
  rw [h.clean.excess]
  rfl

/-- Nothing is left ahead, or it is not yet known whether anything is. -/
theorem isDone_gives (h : At looks delimiters ts placed s) :
    ∃ done, Gives isDone s done (· = s) ∧ (done = true → ts = []) := by
  refine ⟨_, ⟨rfl, rfl⟩, fun hdone ↦ ?_⟩
  change (s.ahead.isEmpty || s.excess.isSome) = true at hdone
  rw [h.clean.excess, Option.isSome_none, Bool.or_false, List.isEmpty_iff] at hdone
  rw [← h.ahead, hdone]
  rfl

/-! ## Placing -/

theorem bareForest_waiting {waiting : List Token} (h : ∀ t ∈ waiting, t.kind.isTrivia = true)
    (trees : List Tree) :
    Tree.bareForest ((waiting.map Tree.token).reverseAux trees) = Tree.bareForest trees := by
  induction waiting generalizing trees with
  | nil => rfl
  | cons t waiting ih =>
    obtain ⟨ht, hrest⟩ := List.forall_mem_cons.mp h
    rw [List.map_cons, List.reverseAux_cons, ih hrest, Tree.bareForest_trivia ht]

theorem placeTrivia_gives (h : Ready looks delimiters ts placed s) :
    Gives placeTrivia s () (Ready looks delimiters ts placed) := by
  refine ⟨rfl, ⟨h.clean, h.looks, h.delimiters, h.ahead, ?_, ?_⟩, h.settled⟩
  · exact fun t ht ↦ absurd ht List.not_mem_nil
  · exact (bareForest_waiting h.waiting s.placed).trans h.placed

theorem bump_gives (h : Ready looks delimiters (t :: ts) placed s) :
    Gives bump s () (At maxLooks delimiters ts (t.leaf :: placed)) := by
  cases hahead : s.ahead with
  | nil =>
    have hnil := h.ahead
    rw [hahead] at hnil
    cases hnil
  | cons token rest =>
    have htoken := h.settled token (by rw [hahead]; rfl)
    have hts := h.ahead
    rw [hahead, terminals_token htoken] at hts
    obtain ⟨rfl, rfl⟩ := List.cons.inj hts
    have hrun : bump s = ((), { s with
        looks := maxLooks
        placed := .token token :: (s.waiting.map Tree.token).reverseAux s.placed
        waiting := []
        ahead := rest }) := by
      obtain ⟨ahead, waiting, placed, reports, open_, depth, reportedAt, looks, exec⟩ := s
      cases hahead
      cases h.clean.exec
      rfl
    rw [Gives, hrun]
    refine ⟨rfl, h.clean, Nat.le_refl _, h.delimiters, rfl, ?_, ?_⟩
    · exact fun t ht ↦ absurd ht List.not_mem_nil
    · change Tree.bareForest (.token token :: _) = _
      rw [Tree.bareForest_token htoken, bareForest_waiting h.waiting, h.placed]

theorem eat_gives {kind : Kind} (hkind : kind ≠ .id) (h : At (looks + 1) delimiters ts placed s)
    (hlooks : looks ≤ maxLooks) :
    Gives (eat kind) s (Phrase.accept (.symbol kind) ts).1
      (At looks delimiters (Phrase.accept (.symbol kind) ts).2
        (if (Phrase.accept (.symbol kind) ts).1 then (Terminal.symbol kind).leaf :: placed
          else placed)) := by
  refine (currentIs_gives h kind).bind fun s hs ↦ ?_
  rw [← accept_eq_isNext hkind]
  rcases haccept : Phrase.accept (.symbol kind) ts with ⟨- | -, rest⟩
  · rw [(Phrase.accept_false haccept).1] at hs
    exact ⟨rfl, hs.toAt⟩
  · rw [Phrase.accept_true haccept] at hs
    exact (bump_gives hs).bind fun s hs ↦ ⟨rfl, hs.mono hlooks⟩

theorem eat_id_gives {name : String} (h : At (looks + 1) delimiters (.name name :: ts) placed s) :
    Gives (eat .id) s true (At maxLooks delimiters ts ((Terminal.name name).leaf :: placed)) :=
  (currentIs_gives h .id).bind fun _ hs ↦ (bump_gives hs).bind fun _ hs ↦ ⟨rfl, hs⟩

theorem eat_id_gives_false (h : At (looks + 1) delimiters ts placed s)
    (hts : Phrase.readName ts = none) :
    Gives (eat .id) s false (At looks delimiters ts placed) := by
  refine (currentIs_gives h .id).bind fun s hs ↦ ?_
  rw [isNext_id hs.symbol_id_not_mem, hts]
  exact ⟨rfl, hs.toAt⟩

theorem eatTrivia_gives (h : At looks delimiters ts placed s) :
    Gives eatTrivia s () (Ready looks delimiters ts placed) :=
  (settle_gives h).bind fun _ hs ↦ placeTrivia_gives hs

/-! ## Nodes -/

theorem node_run (kind : Kind) (body : Parse Unit) (s : State) :
    node kind body s = ((), { (body { (placeTrivia s).2 with placed := [] }).2 with
      placed := .node kind (body { (placeTrivia s).2 with placed := [] }).2.placed.reverse ::
        (placeTrivia s).2.placed }) := rfl

theorem node_grows {body : Parse Unit} (hbody : Grows body) (kind : Kind) :
    Grows (node kind body) := fun _ hs ↦ hbody _ hs

/-- The state in which the parts of a node are placed. -/
theorem inside (h : Ready looks delimiters ts placed s) :
    Ready looks delimiters ts [] { (placeTrivia s).2 with placed := [] } := by
  obtain ⟨-, hs⟩ := placeTrivia_gives h
  exact ⟨⟨hs.clean, hs.looks, hs.delimiters, hs.ahead, hs.waiting, rfl⟩, hs.settled⟩

theorem node_fails {body : Parse Unit} (h : Ready looks delimiters ts placed s)
    (hbody : ∀ {s}, Ready looks delimiters ts [] s → Fails body s) (kind : Kind) :
    Fails (node kind body) s := hbody (inside h)

theorem node_follows {γ : Type} {kind : Kind} {body : Parse Unit} {found : Option γ}
    {after : γ → List Terminal} {trees : γ → List Tree}
    (h : Ready looks delimiters ts placed s)
    (hbody : ∀ {s}, Ready looks delimiters ts [] s → Follows body s found fun c s ↦ ∃ inner,
      trees c = .node kind inner.reverse :: placed ∧ At fewer delimiters (after c) inner s) :
    Follows (node kind body) s found fun c ↦ At fewer delimiters (after c) (trees c) := by
  have hinside := hbody (inside h)
  obtain ⟨-, houtside⟩ := placeTrivia_gives h
  cases found with
  | none => exact hinside
  | some c =>
    obtain ⟨inner, htrees, hinner⟩ := hinside
    rw [Follows, node_run]
    refine ⟨hinner.clean, hinner.looks, hinner.delimiters, hinner.ahead, hinner.waiting, ?_⟩
    rw [Tree.bareForest_node, Tree.bareForest_reverse, hinner.placed, houtside.placed, htrees]

/-! ## Nesting -/

theorem enter_gives (h : Ready looks delimiters ts placed s) :
    Gives enter s true (Ready maxLooks delimiters ts placed) := by
  have hrun : enter s = (true, { s with depth := s.depth + 1, looks := maxLooks }) := by
    obtain ⟨ahead, waiting, placed, reports, open_, depth, reportedAt, looks, exec, excess, defect,
      maxDepth, stop⟩ := s
    cases h.clean.maxDepth
    rfl
  rw [Gives, hrun]
  exact ⟨rfl, ⟨h.clean, Nat.le_refl _, h.delimiters, h.ahead, h.waiting, h.placed⟩, h.settled⟩

theorem leave_gives (h : At looks delimiters ts placed s) :
    Gives leave s () (At maxLooks delimiters ts placed) :=
  ⟨rfl, h.clean, Nat.le_refl _, h.delimiters, h.ahead, h.waiting, h.placed⟩

theorem openDelimiter_gives (h : At looks delimiters ts placed s) :
    Gives openDelimiter s () (Ready looks (delimiters + 1) ts placed) := by
  obtain ⟨span, hspan⟩ := currentSpan_gives h
  refine hspan.bind fun s hs ↦ ⟨rfl, ⟨hs.clean, hs.looks, ?_, hs.ahead, hs.waiting,
    hs.placed⟩, hs.settled⟩
  exact congrArg (· + 1) hs.delimiters

/-! ## What has been reported stays reported -/

theorem recordDefect_grows (defect : Defect) : Grows (recordDefect defect) := fun _ hs ↦ hs

theorem countLook_grows : Grows countLook :=
  Grows.get.bind fun _ ↦ Grows.ite (fun _ hs ↦ hs) (fun _ hs ↦ hs)

theorem settle_grows : Grows settle := fun _ hs ↦ hs

theorem current_grows : Grows current :=
  settle_grows.bind fun _ ↦ countLook_grows.bind fun _ ↦ Grows.get.bind fun _ ↦ Grows.pure _

theorem currentIs_grows (kind : Kind) : Grows (currentIs kind) :=
  current_grows.bind fun _ ↦ Grows.pure _

theorem currentIn_grows (kinds : KindSet) : Grows (currentIn kinds) :=
  current_grows.bind fun _ ↦ Grows.pure _

theorem atDeclStart_grows : Grows atDeclStart :=
  (currentIs_grows .id).bind fun _ ↦ Grows.ite
    (settle_grows.bind fun _ ↦ countLook_grows.bind fun _ ↦ Grows.get.bind fun _ ↦ Grows.pure _)
    (Grows.pure _)

theorem currentSpan_grows : Grows currentSpan :=
  settle_grows.bind fun _ ↦ Grows.get.bind fun _ ↦ Grows.pure _

theorem isHalted_grows : Grows isHalted := Grows.get.bind fun _ ↦ Grows.pure _

theorem isDone_grows : Grows isDone := Grows.get.bind fun _ ↦ Grows.pure _

theorem countToken_grows : Grows countToken := by
  refine Grows.get.bind fun s ↦ ?_
  split
  · exact Grows.pure _
  · exact fun _ hs ↦ hs
  · exact fun _ hs ↦ hs

theorem bump_grows : Grows bump := by
  refine Grows.get.bind fun s ↦ ?_
  split
  · exact recordDefect_grows _
  · exact fun _ hs ↦ countToken_grows _ hs

theorem eat_grows (kind : Kind) : Grows (eat kind) :=
  (currentIs_grows kind).bind fun _ ↦ Grows.ite (bump_grows.bind fun _ ↦ Grows.pure _)
    (Grows.pure _)

theorem eatTrivia_grows : Grows eatTrivia := fun _ hs ↦ hs

theorem claimReport_grows (offset : Nat) : Grows (claimReport offset) :=
  Grows.get.bind fun _ ↦ Grows.ite (Grows.pure _) fun _ hs ↦ hs

theorem emit_grows (d : Diagnostic) : Grows (emit d) := fun _ _ ↦ List.cons_ne_nil _ _

theorem report_grows (kind : DiagnosticKind) (detail : Option String) :
    Grows (report kind detail) :=
  currentSpan_grows.bind fun _ ↦ (claimReport_grows _).bind fun _ ↦ Grows.ite
    (Grows.get.bind fun _ ↦ emit_grows _) (Grows.pure _)

theorem expect_grows (kind : Kind) (missing : DiagnosticKind) : Grows (expect kind missing) :=
  (eat_grows kind).bind fun _ ↦ Grows.ite (report_grows _ _) (Grows.pure _)

theorem skipTo_grows (kinds : KindSet) (steps : Nat) : Grows (skipTo kinds steps) := by
  induction steps with
  | zero => exact recordDefect_grows _
  | succ steps ih =>
    exact (currentIn_grows kinds).bind fun _ ↦ isDone_grows.bind fun _ ↦ Grows.ite
      (bump_grows.bind fun _ ↦ ih) (Grows.pure _)

theorem recover_grows (kind : DiagnosticKind) (detail : String) (kinds : KindSet) :
    Grows (recover kind detail kinds) :=
  ((currentIn_grows kinds).bind fun _ ↦ isDone_grows.bind fun _ ↦ Grows.pure _).bind fun _ ↦
    Grows.ite (report_grows _ _) (node_grows ((report_grows _ _).bind fun _ ↦ Grows.get.bind fun _ ↦
      skipTo_grows kinds _) .error)

theorem enter_grows : Grows enter :=
  Grows.get.bind fun _ ↦ Grows.ite (fun _ hs ↦ hs) fun _ hs ↦ hs

theorem leave_grows : Grows leave := fun _ hs ↦ hs

theorem openDelimiter_grows : Grows openDelimiter := fun _ hs ↦ hs

theorem closeDelimiter_grows (close : Kind) (missing : DiagnosticKind) (opened : String) :
    Grows (closeDelimiter close missing opened) := by
  refine Grows.get.bind fun s ↦ Grows.bind (fun _ hs ↦ hs) fun _ ↦
    (eat_grows close).bind fun _ ↦ Grows.ite ?_ (Grows.pure _)
  split
  · exact Grows.pure _
  · exact currentSpan_grows.bind fun _ ↦ (claimReport_grows _).bind fun _ ↦ Grows.ite
      (emit_grows _) (Grows.pure _)

/-! ## Steps that report -/

theorem claimReport_gives (h : At looks delimiters ts placed s) (offset : Nat) :
    Gives (claimReport offset) s true fun _ ↦ True := by
  refine ⟨?_, trivial⟩
  change ((if s.reportedAt = some offset then _ else _ : Parse Bool) s).1 = true
  rw [h.clean.reportedAt]
  rfl

theorem report_fails (h : At looks delimiters ts placed s) (kind : DiagnosticKind)
    (detail : Option String) : Fails (report kind detail) s := by
  obtain ⟨span, hspan⟩ := currentSpan_gives h
  exact hspan.fails fun s hs ↦ (claimReport_gives hs.toAt span.start).fails fun _ _ ↦
    List.cons_ne_nil _ _

theorem recover_fails (h : At (looks + 1) delimiters ts placed s) (kind : DiagnosticKind)
    (detail : String) (kinds : KindSet) : Fails (recover kind detail kinds) s := by
  have htest : Gives (do return (← currentIn kinds) || (← isDone)) s _
      (Ready looks delimiters ts placed) := ⟨rfl, (currentIn_gives h kinds).2⟩
  refine htest.fails fun s hs ↦ ?_
  split
  · exact report_fails hs.toAt kind _
  · exact node_fails hs (fun hs ↦ (report_fails hs.toAt kind _).bind fun _ ↦
      Grows.get.bind fun _ ↦ skipTo_grows kinds _) .error

theorem expect_follows {kind : Kind} (hkind : kind ≠ .id)
    (h : At (looks + 1) delimiters ts placed s) (hlooks : looks ≤ maxLooks)
    (missing : DiagnosticKind) :
    Follows (expect kind missing) s (Phrase.expect (.symbol kind) ts) fun rest ↦
      At looks delimiters rest ((Terminal.symbol kind).leaf :: placed) := by
  refine (eat_gives hkind h hlooks).follows fun s hs ↦ ?_
  rw [Phrase.expect_eq_accept]
  rcases haccept : Phrase.accept (.symbol kind) ts with ⟨- | -, rest⟩
  · exact report_fails hs missing none
  · rw [haccept] at hs
    exact hs

theorem closeDelimiter_follows {close : Kind} (hclose : close ≠ .id)
    (h : At (looks + 1) (delimiters + 1) ts placed s) (hlooks : looks ≤ maxLooks)
    (missing : DiagnosticKind) (opened : String) :
    Follows (closeDelimiter close missing opened) s (Phrase.expect (.symbol close) ts) fun rest ↦
      At looks delimiters rest ((Terminal.symbol close).leaf :: placed) := by
  obtain ⟨delimiter, outer, hopen⟩ := List.exists_cons_of_length_eq_add_one h.delimiters
  have hpopped : At (looks + 1) delimiters ts placed
      { s with delimiters := s.delimiters.drop 1 } := by
    refine ⟨h.clean, h.looks, ?_, h.ahead, h.waiting, h.placed⟩
    rw [List.length_drop, h.delimiters, Nat.add_sub_cancel]
  have hpop : Gives (modify fun s ↦ { s with delimiters := s.delimiters.drop 1 }) s ()
      (At (looks + 1) delimiters ts placed) := ⟨rfl, hpopped⟩
  have hget : Gives get s s (· = s) := ⟨rfl, rfl⟩
  refine hget.follows fun _ hsame ↦ ?_
  subst hsame
  refine hpop.follows fun s hs ↦ (eat_gives hclose hs hlooks).follows fun s hs ↦ ?_
  rw [Phrase.expect_eq_accept]
  rcases haccept : Phrase.accept (.symbol close) ts with ⟨- | -, rest⟩
  · rw [hopen]
    obtain ⟨span, hspan⟩ := currentSpan_gives hs
    exact hspan.fails fun s hs ↦ (claimReport_gives hs.toAt span.start).fails fun _ _ ↦
      List.cons_ne_nil _ _
  · rw [haccept] at hs
    exact hs

end

end Parse

end SchemaCodec.Syntax
