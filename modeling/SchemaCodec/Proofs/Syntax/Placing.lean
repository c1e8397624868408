import SchemaCodec.Proofs.Syntax.Headings

/-!
# What the steps of the parser place

A step either looks or places. One that looks leaves the trees of the state as they are and moves at
most up to the next token that is not trivia; one that places puts trees in front of them. Both are
described whatever the text is and whether or not a limit was exceeded: a step that stops early has
placed less.

## What is carried along

Of a state only two things are used, that trivia wait and that the tokens ahead are the last ones of
the text. The second makes a look behind the next token a look at what follows this token in the
text, so that the parser learns there whether a name has an equals sign behind it. What is said of
the trees that are placed is a parameter as long as steps are put together; the last section says it
for trees in which every name in front of an equals sign is accounted for.
-/

namespace SchemaCodec.Syntax

open Parse

variable {tokens : List Token}

/-! ## States -/

/-- The tokens ahead from the next one on that is not trivia. -/
def State.upcoming (s : State) : List Token := s.ahead.dropWhile (·.kind.isTrivia)

/-- A state in which trivia wait and the tokens ahead are the last ones of a text. -/
structure Reading (tokens : List Token) (s : State) : Prop where
  waiting : ∀ t ∈ s.waiting, t.kind.isTrivia = true
  ahead : s.ahead <:+ tokens

/-- Such a state to which a step has led that placed nothing. -/
structure Looked (tokens : List Token) (before after : State) : Prop
    extends Reading tokens after where
  placed : after.placed = before.placed
  ahead_eq : after.ahead = before.ahead ∨ after.ahead = before.upcoming

/-- Such a state to which a step has led that placed trees of some sort. -/
structure Adds (tokens : List Token) (sort : Tree → Prop) (before after : State) : Prop
    extends Reading tokens after where
  placed : ∃ trees, after.placed = trees ++ before.placed ∧ ∀ tree ∈ trees, sort tree

section

variable {sort : Tree → Prop} {s s' s'' : State}

theorem State.upcoming_dropWhile (s : State) :
    s.upcoming.dropWhile (·.kind.isTrivia) = s.upcoming := List.dropWhile_idempotent _ s.ahead

theorem State.upcoming_congr (h : s'.ahead = s.ahead) : s'.upcoming = s.upcoming := by
  rw [State.upcoming, h, State.upcoming]

theorem State.next_congr (h : s'.ahead = s.ahead) : s'.next = s.next := by
  rw [State.next, h, State.next]

theorem Looked.upcoming (h : Looked tokens s s') : s'.upcoming = s.upcoming := by
  rw [State.upcoming]
  rcases h.ahead_eq with heq | heq
  · rw [heq, State.upcoming]
  · rw [heq, s.upcoming_dropWhile]

theorem Looked.next (h : Looked tokens s s') : s'.next = s.next :=
  congrArg (fun ahead : List Token ↦ ahead.head?.map Token.kind) h.upcoming

theorem Looked.trans (h : Looked tokens s s') (h' : Looked tokens s' s'') :
    Looked tokens s s'' := by
  refine ⟨h'.toReading, h'.placed.trans h.placed, ?_⟩
  rcases h'.ahead_eq with heq | heq
  · rw [heq]
    exact h.ahead_eq
  · exact .inr (heq.trans h.upcoming)

theorem Looked.adds (h : Looked tokens s s') : Adds tokens sort s s' :=
  ⟨h.toReading, [], h.placed, fun _ htree ↦ absurd htree List.not_mem_nil⟩

theorem Adds.trans (h : Adds tokens sort s s') (h' : Adds tokens sort s' s'') :
    Adds tokens sort s s'' := by
  obtain ⟨trees, heq, htrees⟩ := h.placed
  obtain ⟨others, heq', hothers⟩ := h'.placed
  refine ⟨h'.toReading, others ++ trees, by rw [heq', heq, List.append_assoc], fun tree htree ↦ ?_⟩
  rcases List.mem_append.mp htree with htree | htree
  · exact hothers tree htree
  · exact htrees tree htree

theorem Looked.adds_trans (h : Looked tokens s s') (h' : Adds tokens sort s' s'') :
    Adds tokens sort s s'' := h.adds.trans h'

/-- What leaves the tokens and the trees of a state as they are places nothing. -/
theorem Reading.looked (h : Reading tokens s) (hahead : s'.ahead = s.ahead)
    (hwaiting : s'.waiting = s.waiting) (hplaced : s'.placed = s.placed) :
    Looked tokens s s' := by
  refine ⟨⟨?_, ?_⟩, hplaced, .inl hahead⟩
  · rw [hwaiting]
    exact h.waiting
  · rw [hahead]
    exact h.ahead

theorem Reading.adds (h : Reading tokens s) : Adds tokens sort s s := (h.looked rfl rfl rfl).adds

theorem Reading.upcoming_suffix (h : Reading tokens s) : s.upcoming <:+ tokens :=
  (List.dropWhile_suffix _).trans h.ahead

end

/-! ## Looking -/

section

variable {α β : Type} {sort : Tree → Prop} {m : Parse α} {k : α → Parse β} {s : State}

theorem adds_bind (h : Ensures m s (Adds tokens sort s))
    (hk : ∀ a s', Reading tokens s' → Ensures (k a) s' (Adds tokens sort s')) :
    Ensures (m >>= k) s (Adds tokens sort s) :=
  h.bind fun a s' hs ↦ (hk a s' hs.toReading).imp fun _ ↦ hs.trans

theorem looked_bind (h : Ensures m s (Looked tokens s))
    (hk : ∀ a s', Looked tokens s s' → Ensures (k a) s' (Adds tokens sort s')) :
    Ensures (m >>= k) s (Adds tokens sort s) :=
  h.bind fun a s' hs ↦ (hk a s' hs).imp fun _ ↦ hs.adds_trans

theorem Gives.adds {a : α} (h : Gives m s a (Looked tokens s))
    (hk : ∀ s', Looked tokens s s' → Ensures (k a) s' (Adds tokens sort s')) :
    Ensures (m >>= k) s (Adds tokens sort s) :=
  h.ensures fun s' hs ↦ (hk s' hs).imp fun _ ↦ hs.adds_trans

end

section

variable {s : State}

theorem settle_looked (h : Reading tokens s) :
    Ensures settle s fun s' ↦ Looked tokens s s' ∧ s'.ahead = s.upcoming := by
  refine ⟨⟨⟨fun t ht ↦ ?_, h.upcoming_suffix⟩, rfl, .inr rfl⟩, rfl⟩
  rcases List.mem_append.mp ht with ht | ht
  · exact h.waiting t ht
  · have htrivia := List.mem_takeWhile_imp ht
    exact htrivia

theorem recordDefect_looked (h : Reading tokens s) (defect : Defect) :
    Ensures (recordDefect defect) s (Looked tokens s) := h.looked rfl rfl rfl

theorem countLook_looked (h : Reading tokens s) :
    Ensures countLook s fun s' ↦ Looked tokens s s' ∧ s'.ahead = s.ahead := by
  have hrun : countLook s = (if s.looks = 0 then recordDefect .tooManyLooks
      else modify fun s ↦ { s with looks := s.looks - 1 } : Parse Unit) s := rfl
  rw [Ensures, hrun]
  split
  · exact ⟨recordDefect_looked h .tooManyLooks, rfl⟩
  · exact ⟨h.looked rfl rfl rfl, rfl⟩

theorem look_looked (h : Reading tokens s) :
    Ensures (do settle; countLook) s fun s' ↦ Looked tokens s s' ∧ s'.ahead = s.upcoming :=
  (settle_looked h).bind fun _ _ hs ↦ (countLook_looked hs.1.toReading).imp
    fun _ hs' ↦ ⟨hs.1.trans hs'.1, hs'.2.trans hs.2⟩

/-- After a look, the next token is the one in front. -/
theorem current_looked (h : Reading tokens s) :
    Gives current s s.next fun s' ↦ Looked tokens s s' ∧ s'.ahead = s.upcoming := by
  obtain ⟨hlooked, hahead⟩ := look_looked h
  exact ⟨congrArg (fun ahead : List Token ↦ ahead.head?.map Token.kind) hahead, hlooked, hahead⟩

theorem currentIs_looked (h : Reading tokens s) (kind : Kind) :
    Gives (currentIs kind) s (decide (s.next = some kind)) fun s' ↦
      Looked tokens s s' ∧ s'.ahead = s.upcoming :=
  (current_looked h).bind fun _ hs ↦ ⟨rfl, hs⟩

theorem currentIn_looked (h : Reading tokens s) (kinds : KindSet) :
    Gives (currentIn kinds) s (s.next.any kinds.contains) fun s' ↦
      Looked tokens s s' ∧ s'.ahead = s.upcoming :=
  (current_looked h).bind fun _ hs ↦ ⟨rfl, hs⟩

theorem followedBy_looked (h : Reading tokens s) (kind : Kind) :
    Gives (followedBy kind) s
      (decide (((s.upcoming.drop 1).dropWhile (·.kind.isTrivia)).head?.map Token.kind = some kind))
      (Looked tokens s) := by
  obtain ⟨hlooked, hahead⟩ := look_looked h
  refine ⟨?_, hlooked⟩
  rw [← hahead]
  rfl

/-- What comes behind a look may go by the next token. -/
theorem current_bind {sort : Tree → Prop} {k : Option Kind → Parse Unit} (h : Reading tokens s)
    (hk : ∀ s', Looked tokens s s' → Ensures (k s.next) s' (Adds tokens sort s')) :
    Ensures (current >>= k) s (Adds tokens sort s) :=
  ((current_looked h).imp fun _ hs ↦ hs.1).adds hk

theorem currentIs_bind {sort : Tree → Prop} {k : Bool → Parse Unit} {kind : Kind}
    (h : Reading tokens s) (hk : ∀ s', Looked tokens s s' →
      Ensures (k (decide (s.next = some kind))) s' (Adds tokens sort s')) :
    Ensures (currentIs kind >>= k) s (Adds tokens sort s) :=
  ((currentIs_looked h kind).imp fun _ hs ↦ hs.1).adds hk

theorem currentIn_bind {sort : Tree → Prop} {k : Bool → Parse Unit} {kinds : KindSet}
    (h : Reading tokens s) (hk : ∀ s', Looked tokens s s' →
      Ensures (k (s.next.any kinds.contains)) s' (Adds tokens sort s')) :
    Ensures (currentIn kinds >>= k) s (Adds tokens sort s) :=
  ((currentIn_looked h kinds).imp fun _ hs ↦ hs.1).adds hk

/-- A name at which no declaration starts is no heading. -/
theorem atDeclStart_looked (hnodup : tokens.Nodup) (h : Reading tokens s) :
    ∃ starts, Gives atDeclStart s starts (Looked tokens s) ∧
      (starts = false → ∀ t ∈ s.upcoming.head?, ¬Heading tokens t) := by
  have hcurrent := currentIs_looked h .id
  by_cases hname : s.next = some .id
  · rw [decide_eq_true hname] at hcurrent
    have hlooked : Gives atDeclStart s (decide
        (((s.upcoming.drop 1).dropWhile (·.kind.isTrivia)).head?.map Token.kind = some .equals))
        (Looked tokens s) := by
      refine hcurrent.bind fun s' hs ↦ ?_
      rw [← hs.1.upcoming]
      exact (followedBy_looked hs.1.toReading .equals).imp fun _ hs' ↦ hs.1.trans hs'
    refine ⟨_, hlooked, fun hstarts t ht hheading ↦ ?_⟩
    obtain ⟨rest, hupcoming⟩ := List.head?_eq_some_iff.mp ht
    obtain ⟨-, behind, hbehind, hequals⟩ := hheading
    have hsuffix := h.upcoming_suffix
    rw [hupcoming] at hsuffix hstarts
    rw [← rest_unique hnodup hsuffix hbehind] at hequals
    exact of_decide_eq_false hstarts hequals
  · rw [decide_eq_false hname] at hcurrent
    refine ⟨false, hcurrent.bind fun s' hs ↦ ⟨rfl, hs.1⟩, fun _ t ht ↦ not_heading_of_kind ?_⟩
    intro hid
    have hnext : s.next = some t.kind := congrArg (Option.map Token.kind) ht
    exact hname (hnext.trans (congrArg some hid))

theorem currentSpan_looked (h : Reading tokens s) :
    Ensures currentSpan s (Looked tokens s) := (settle_looked h).1

theorem claimReport_looked (h : Reading tokens s) (offset : Nat) :
    Ensures (claimReport offset) s (Looked tokens s) := by
  change Ensures (if s.reportedAt = some offset then _ else _ : Parse Bool) s _
  split <;> exact h.looked rfl rfl rfl

theorem emit_looked (h : Reading tokens s) (d : Diagnostic) :
    Ensures (emit d) s (Looked tokens s) := h.looked rfl rfl rfl

theorem report_looked (h : Reading tokens s) (kind : DiagnosticKind) (detail : Option String) :
    Ensures (report kind detail) s (Looked tokens s) := by
  refine (currentSpan_looked h).bind fun span s' hs ↦
    (claimReport_looked hs.toReading span.start).bind fun claimed s'' hs' ↦ ?_
  split
  · exact (emit_looked hs'.toReading _).imp fun _ hs'' ↦ (hs.trans hs').trans hs''
  · exact hs.trans hs'

theorem report_adds {sort : Tree → Prop} (h : Reading tokens s) (kind : DiagnosticKind)
    (detail : Option String) : Ensures (report kind detail) s (Adds tokens sort s) :=
  (report_looked h kind detail).imp fun _ hs ↦ hs.adds

theorem openDelimiter_looked (h : Reading tokens s) :
    Ensures openDelimiter s (Looked tokens s) :=
  (currentSpan_looked h).bind fun _ _ hs ↦ hs.trans (hs.toReading.looked rfl rfl rfl)

end

/-! ## Placing -/

section

variable {sort : Tree → Prop} {s : State}

/-- The trivia that wait are placed, and then the token in front. -/
theorem bump_places {t : Token} {rest : List Token} (h : Reading tokens s)
    (hahead : s.ahead = t :: rest) :
    Ensures bump s fun s' ↦ Reading tokens s' ∧
      s'.placed = .token t :: ((s.waiting.map Tree.token).reverse ++ s.placed) := by
  obtain ⟨exec, excess, -, -, hrun⟩ := bump_run hahead
  rw [Ensures, hrun]
  refine ⟨⟨fun _ ht ↦ absurd ht List.not_mem_nil, ?_⟩, by rw [List.reverseAux_eq]⟩
  have hsuffix := h.ahead
  rw [hahead] at hsuffix
  exact (List.suffix_cons t rest).trans hsuffix

theorem forall_mem_tokens {gap : List Token} (hgap : ∀ u ∈ gap, sort (.token u)) :
    ∀ tree ∈ (gap.map Tree.token).reverse, sort tree := by
  intro tree htree
  obtain ⟨u, hu, rfl⟩ := List.mem_map.mp (List.mem_reverse.mp htree)
  exact hgap u hu

/-- What is placed is trivia or the next token. -/
theorem bump_adds (h : Reading tokens s)
    (hsort : ∀ t : Token, t.kind.isTrivia = true ∨ t ∈ s.upcoming.head? → sort (.token t)) :
    Ensures bump s (Adds tokens sort s) := by
  cases hahead : s.ahead with
  | nil =>
    have hrun : bump s = recordDefect .placedAtEnd s := by
      obtain ⟨ahead, waiting, placed⟩ := s
      cases hahead
      rfl
    rw [Ensures, hrun]
    exact (recordDefect_looked h .placedAtEnd).adds
  | cons t rest =>
    have hwaiting : ∀ u ∈ s.waiting, sort (.token u) := fun u hu ↦ hsort u (.inl (h.waiting u hu))
    have hfront : sort (.token t) := by
      by_cases htrivia : t.kind.isTrivia = true
      · exact hsort t (.inl htrivia)
      · refine hsort t (.inr ?_)
        rw [State.upcoming, hahead, List.dropWhile_cons, if_neg htrivia]
        rfl
    exact (bump_places h hahead).imp fun s' hs ↦ ⟨hs.1,
      Tree.token t :: (s.waiting.map Tree.token).reverse, hs.2,
      List.forall_mem_cons.mpr ⟨hfront, forall_mem_tokens hwaiting⟩⟩

/-- A token of some kind is placed behind trivia. -/
theorem eat_places {kind : Kind} (h : Reading tokens s) (hnext : s.next = some kind) :
    Gives (eat kind) s true fun s' ↦ Reading tokens s' ∧
      ∃ (gap : List Token) (t : Token), (∀ u ∈ gap, u.kind.isTrivia = true) ∧ t.kind = kind ∧
        s'.placed = .token t :: ((gap.map Tree.token).reverse ++ s.placed) := by
  have hcurrent := currentIs_looked h kind
  rw [decide_eq_true hnext] at hcurrent
  refine hcurrent.bind fun s' hs ↦ ?_
  obtain ⟨t, hhead, hkind⟩ := Option.map_eq_some_iff.mp hnext
  obtain ⟨rest, hupcoming⟩ := List.head?_eq_some_iff.mp hhead
  obtain ⟨hreading, hplaced⟩ := bump_places hs.1.toReading (hs.2.trans hupcoming)
  rw [hs.1.placed] at hplaced
  exact ⟨rfl, hreading, s'.waiting, t, hs.1.waiting, hkind, hplaced⟩

theorem eat_missing_looked {kind : Kind} (h : Reading tokens s) (hnext : s.next ≠ some kind) :
    Gives (eat kind) s false (Looked tokens s) := by
  have hcurrent := currentIs_looked h kind
  rw [decide_eq_false hnext] at hcurrent
  exact hcurrent.bind fun _ hs ↦ ⟨rfl, hs.1⟩

theorem eat_adds {kind : Kind} (h : Reading tokens s)
    (hsort : ∀ t : Token, t.kind.isTrivia = true ∨ t.kind = kind → sort (.token t)) :
    Ensures (eat kind) s (Adds tokens sort s) := by
  by_cases hnext : s.next = some kind
  · obtain ⟨-, hreading, gap, t, hgap, hkind, hplaced⟩ := eat_places h hnext
    exact ⟨hreading, Tree.token t :: (gap.map Tree.token).reverse, hplaced,
      List.forall_mem_cons.mpr ⟨hsort t (.inr hkind),
        forall_mem_tokens fun u hu ↦ hsort u (.inl (hgap u hu))⟩⟩
  · exact (eat_missing_looked h hnext).2.adds

theorem placeTrivia_adds (h : Reading tokens s)
    (hsort : ∀ t : Token, t.kind.isTrivia = true → sort (.token t)) :
    Ensures placeTrivia s fun s' ↦ Adds tokens sort s s' ∧ s'.ahead = s.ahead :=
  ⟨⟨⟨fun _ ht ↦ absurd ht List.not_mem_nil, h.ahead⟩, (s.waiting.map Tree.token).reverse,
    List.reverseAux_eq, forall_mem_tokens fun u hu ↦ hsort u (h.waiting u hu)⟩, rfl⟩

theorem eatTrivia_adds (h : Reading tokens s)
    (hsort : ∀ t : Token, t.kind.isTrivia = true → sort (.token t)) :
    Ensures eatTrivia s (Adds tokens sort s) :=
  (settle_looked h).bind fun _ _ hs ↦ (placeTrivia_adds hs.1.toReading hsort).imp
    fun _ hs' ↦ hs.1.adds_trans hs'.1

/-- A node is placed behind the trivia in front of it. -/
theorem node_adds {kind : Kind} {body : Parse Unit} (h : Reading tokens s)
    (hsort : ∀ t : Token, t.kind.isTrivia = true → sort (.token t))
    (hbody : ∀ s', Reading tokens s' → s'.ahead = s.ahead → s'.placed = [] →
      Ensures body s' fun s'' ↦ Reading tokens s'' ∧ sort (.node kind s''.placed.reverse)) :
    Ensures (node kind body) s (Adds tokens sort s) := by
  obtain ⟨⟨houter, trees, hplaced, htrees⟩, hahead⟩ := placeTrivia_adds h hsort
  obtain ⟨hinner, hnode⟩ := hbody { (placeTrivia s).2 with placed := [] }
    ⟨houter.waiting, houter.ahead⟩ hahead rfl
  rw [Ensures, node_run]
  exact ⟨⟨hinner.waiting, hinner.ahead⟩, _ :: trees, congrArg _ hplaced,
    List.forall_mem_cons.mpr ⟨hnode, htrees⟩⟩

end

/-! ## Rules that place sound trees -/

section

variable {around : Kind} {s : State}

theorem sound_trivia (t : Token) (h : t.kind.isTrivia = true) : Sound tokens around (.token t) :=
  sound_other (kind_ne_id_of_isTrivia h)

/-- A node around parts that are sound, apart from declarations. -/
theorem node_sound {kind : Kind} {body : Parse Unit} (hkind : kind ≠ .decl) (h : Reading tokens s)
    (hbody : ∀ s', Reading tokens s' → s'.ahead = s.ahead →
      Ensures body s' (Adds tokens (Sound tokens kind) s')) :
    Ensures (node kind body) s (Adds tokens (Sound tokens around) s) := by
  refine node_adds h sound_trivia fun s' hs hahead hnone ↦
    (hbody s' hs hahead).imp fun s'' hs' ↦ ⟨hs'.toReading, ?_⟩
  obtain ⟨trees, hplaced, htrees⟩ := hs'.placed
  rw [hplaced, hnone, List.append_nil]
  exact sound_node (fun h ↦ absurd h hkind) fun child hchild ↦
    .inl (htrees child (List.mem_reverse.mp hchild))

/-- The next token may be placed if it is no heading. -/
theorem bump_sound (h : Reading tokens s) (hnext : ∀ t ∈ s.upcoming.head?, ¬Heading tokens t) :
    Ensures bump s (Adds tokens (Sound tokens around) s) := by
  refine bump_adds h fun t ht ↦ ?_
  rcases ht with htrivia | ht
  · exact sound_trivia t htrivia
  · exact sound_token fun hheading ↦ absurd hheading (hnext t ht)

theorem not_heading_of_next {kind : Kind} (hkind : kind ≠ .id) (hnext : s.next = some kind) :
    ∀ t ∈ s.upcoming.head?, ¬Heading tokens t := by
  intro t ht hheading
  have hid : s.next = some t.kind := congrArg (Option.map Token.kind) ht
  rw [hheading.1, hnext] at hid
  exact hkind (Option.some_inj.mp hid)

theorem eat_sound {kind : Kind} (hkind : kind ≠ .id) (h : Reading tokens s) :
    Ensures (eat kind) s (Adds tokens (Sound tokens around) s) := by
  refine eat_adds h fun t ht ↦ ?_
  rcases ht with htrivia | rfl
  · exact sound_trivia t htrivia
  · exact sound_other hkind

theorem expect_sound {kind : Kind} (hkind : kind ≠ .id) (h : Reading tokens s)
    (missing : DiagnosticKind) :
    Ensures (expect kind missing) s (Adds tokens (Sound tokens around) s) := by
  refine adds_bind (eat_sound hkind h) fun found s' hs ↦ ?_
  split
  · exact report_adds hs _ _
  · exact hs.adds

theorem closeDelimiter_sound {close : Kind} (hclose : close ≠ .id) (h : Reading tokens s)
    (missing : DiagnosticKind) (opened : String) :
    Ensures (closeDelimiter close missing opened) s (Adds tokens (Sound tokens around) s) := by
  have hget : Gives get s s (Looked tokens s) := ⟨rfl, h.looked rfl rfl rfl⟩
  have hpop : ∀ {s}, Reading tokens s → Ensures
      (modify fun s ↦ { s with delimiters := s.delimiters.drop 1 } : Parse Unit) s
      (Looked tokens s) := fun hs ↦ hs.looked rfl rfl rfl
  refine hget.adds fun s' hs ↦ looked_bind (hpop hs.toReading) fun _ s' hs ↦
    adds_bind (eat_sound hclose hs.toReading) fun found s' hs ↦ ?_
  split
  · cases s.delimiters with
    | nil => exact hs.adds
    | cons delimiter outer =>
      refine looked_bind (currentSpan_looked hs) fun span s'' hs' ↦
        looked_bind (claimReport_looked hs'.toReading span.start) fun claimed _ hs'' ↦ ?_
      split
      · exact (emit_looked hs''.toReading _).imp fun _ hs ↦ hs.adds
      · exact (hs''.toReading.looked rfl rfl rfl).adds
  · exact hs.adds

/-- Skipping places tokens alone, and no names if it stops at names. -/
theorem skipTo_adds (kinds : KindSet) (steps : Nat) (h : Reading tokens s) :
    Ensures (skipTo kinds steps) s (Adds tokens (fun tree ↦ ∃ t : Token, tree = .token t ∧
      (t.kind = .id → kinds.contains .id = false)) s) := by
  induction steps generalizing s with
  | zero => exact (recordDefect_looked h .outOfSteps).adds
  | succ steps ih =>
    refine currentIn_bind h fun s' hs ↦ isDone_bind ?_
    split
    · next hgoes =>
      refine adds_bind (bump_adds hs.toReading fun t ht ↦ ⟨t, rfl, fun hid ↦ ?_⟩)
        fun _ _ hs ↦ ih hs
      rcases ht with htrivia | ht
      · exact absurd hid (kind_ne_id_of_isTrivia htrivia)
      · have hnext : s'.next = some t.kind := congrArg (Option.map Token.kind) ht
        rw [hs.next, hid] at hnext
        simp only [hnext, Option.any_some, Bool.and_eq_true, Bool.not_eq_true'] at hgoes
        exact hgoes.1
    · exact hs.toReading.adds

/-- What is skipped between parentheses is taken; elsewhere skipping stops at names. -/
theorem recover_sound {kinds : KindSet}
    (hkinds : kinds.contains .id = false → around = .params ∨ around = .args)
    (h : Reading tokens s) (kind : DiagnosticKind) (detail : String) :
    Ensures (recover kind detail kinds) s (Adds tokens (Sound tokens around) s) := by
  have hstops : Ensures (do return (← currentIn kinds) || (← isDone)) s (Looked tokens s) :=
    (currentIn_looked h kinds).2.1
  refine looked_bind hstops fun stops s' hs ↦ ?_
  split
  · exact report_adds hs.toReading _ _
  · refine node_adds hs.toReading sound_trivia fun s' hs _ hnone ↦ ?_
    have hskips := looked_bind (report_looked hs kind (some detail)) fun _ s'' hs' ↦
      skipTo_adds kinds (s''.ahead.length + 1) hs'.toReading
    refine hskips.imp fun s'' hs' ↦ ⟨hs'.toReading, ?_⟩
    obtain ⟨trees, hplaced, htrees⟩ := hs'.placed
    rw [hplaced, hnone, List.append_nil]
    refine sound_error fun part hpart ↦ ?_
    obtain ⟨t, ht, hid⟩ := htrees part (List.mem_reverse.mp hpart)
    exact ⟨t, ht, fun h ↦ hkinds (hid h)⟩

/-- A type that was entered is left, which places nothing by itself. -/
theorem entered_sound {inner : Parse Unit} (h : Reading tokens s)
    (hinner : ∀ s', Looked tokens s s' → Ensures inner s' (Adds tokens (Sound tokens around) s')) :
    Ensures (do if ← enter then inner; leave) s (Adds tokens (Sound tokens around) s) := by
  have henter : Ensures enter s (Looked tokens s) := by
    change Ensures (if s.maxDepth.any (· ≤ s.depth) = true then _ else _ : Parse Bool) s _
    split <;> exact h.looked rfl rfl rfl
  have hleave (s' : State) (hs : Reading tokens s') : Ensures leave s' (Looked tokens s') :=
    hs.looked rfl rfl rfl
  refine looked_bind henter fun entered s' hs ↦ ?_
  split
  · exact adds_bind (hinner s' hs) fun _ _ hs ↦ (hleave _ hs).adds
  · exact hs.toReading.adds

end

end SchemaCodec.Syntax
