import SchemaCodec.Proofs.Syntax.Lossless
import SchemaCodec.Proofs.Syntax.Placing

/-!
# Where a name in front of an equals sign begins a declaration

The parser looks for an equals sign behind a name where a type or an entry may begin, and leaves a
name in front of one to the next declaration. It does not look behind the names that it takes in a
header, in a list of parameters and behind the dot of a qualified name, nor behind those that it
skips between parentheses; between declarations and between braces skipping stops at every name. So
in every tree of a parse, a name in front of an equals sign either is the name of a declaration or
stands in one of these four places.

What a rule places is sound for the kind of the node around it, and one lemma a rule says so. The
rules for types call each other with one step less each, so their lemmas are proved together by
induction on the steps. Nothing is asked of the number of steps: a rule without steps places
nothing.
-/

namespace SchemaCodec.Syntax

open Grammar (Body)

open Parse

variable {tokens : List Token}

section

variable {around : Kind} {s : State}

/-! ## Names and lists -/

section

variable {items : Parse Unit}

/-- The name behind a dot may be a heading. -/
theorem dotted_parts (before : List Tree) {dot : Token} (h : Reading tokens s)
    (hbefore : ∀ part ∈ before, Sound tokens .ref part ∧ part.kind ≠ .dot) (hdot : dot.kind = .dot)
    (hplaced : s.placed.reverse = before ++ [.token dot]) :
    Ensures (do if !(← eat .id) then report .expectedTypeName (some "after `.`")) s fun s' ↦
      Reading tokens s' ∧ NameParts tokens s'.placed.reverse := by
  by_cases hid : s.next = some .id
  · refine (eat_places h hid).ensures fun s' hs ↦ ?_
    obtain ⟨hreading, gap, name, hgap, hname, hplaced'⟩ := hs
    refine ⟨hreading, .inr ⟨before, dot, gap, name, ?_, hbefore, hdot, hgap, by rw [hname]; rfl⟩⟩
    change s'.placed.reverse = _
    simp [hplaced', hplaced]
  · refine (eat_missing_looked h hid).ensures fun s' hs ↦
      (report_looked hs.toReading _ _).imp fun s'' hs' ↦ ⟨hs'.toReading, .inl ?_⟩
    rw [hs'.placed, hs.placed, hplaced]
    intro part hpart
    rcases List.mem_append.mp hpart with hpart | hpart
    · exact (hbefore part hpart).1
    · obtain rfl := List.mem_singleton.mp hpart
      exact sound_other (by rw [hdot]; decide)

/-- A name that is no heading, and perhaps another one behind a dot. -/
theorem qualifiedName_parts (h : Reading tokens s) (hname : s.next = some .id)
    (hnext : ∀ t ∈ s.upcoming.head?, ¬Heading tokens t) (hnone : s.placed = []) :
    Ensures qualifiedName s fun s' ↦ Reading tokens s' ∧ NameParts tokens s'.placed.reverse := by
  have htrivia (t : Token) (htrivia : t.kind.isTrivia = true) :
      Sound tokens .ref (.token t) ∧ (Tree.token t).kind ≠ .dot := by
    refine ⟨sound_trivia t htrivia, fun hdot ↦ ?_⟩
    rw [show t.kind = .dot from hdot] at htrivia
    cases htrivia
  have hfirst : Ensures bump s (Adds tokens (fun tree ↦ Sound tokens .ref tree ∧
      tree.kind ≠ .dot) s) := by
    refine bump_adds h fun t ht ↦ ht.elim (htrivia t) fun ht ↦ ?_
    have hkind : s.next = some t.kind := congrArg (Option.map Token.kind) ht
    refine ⟨sound_token fun hheading ↦ absurd hheading (hnext t ht), fun hdot ↦ ?_⟩
    rw [hname, show t.kind = .dot from hdot] at hkind
    cases hkind
  refine hfirst.bind fun _ s' hs ↦ ?_
  obtain ⟨trees, hplaced, htrees⟩ := hs.placed
  rw [hnone, List.append_nil] at hplaced
  by_cases hdot : s'.next = some .dot
  · refine (eat_places hs.toReading hdot).ensures fun s'' hs' ↦ ?_
    obtain ⟨hreading, gap, dot, hgap, hdot, hplaced'⟩ := hs'
    refine dotted_parts (trees.reverse ++ gap.map .token) hreading (fun part hpart ↦ ?_) hdot
      (by simp [hplaced', hplaced])
    rcases List.mem_append.mp hpart with hpart | hpart
    · exact htrees part (List.mem_reverse.mp hpart)
    · obtain ⟨t, ht, rfl⟩ := List.mem_map.mp hpart
      exact htrivia t (hgap t ht)
  · refine (eat_missing_looked hs.toReading hdot).ensures fun s'' hs' ↦ ⟨hs'.toReading, .inl ?_⟩
    change ∀ part ∈ s''.placed.reverse, _
    rw [hs'.placed, hplaced]
    exact fun part hpart ↦ (htrees part (List.mem_reverse.mp hpart)).1

theorem between_sound (h : Reading tokens s) (hnext : s.next = some .parenOpen)
    (hitems : ∀ s', Reading tokens s' → Ensures items s' (Adds tokens (Sound tokens around) s'))
    (hint opened : String) :
    Ensures (between hint opened items) s (Adds tokens (Sound tokens around) s) := by
  refine looked_bind (openDelimiter_looked h) fun _ s' hs ↦ ?_
  refine adds_bind (bump_sound hs.toReading (not_heading_of_next (by decide)
    (hs.next.trans hnext))) fun _ s' hs ↦ ?_
  have hclose : ∀ s', Reading tokens s' → Ensures (closeDelimiter .parenClose .unclosedParen opened)
      s' (Adds tokens (Sound tokens around) s') :=
    fun _ hs ↦ closeDelimiter_sound (by decide) hs _ _
  refine currentIs_bind hs fun s' hs ↦ ?_
  split
  · exact looked_bind (report_looked hs.toReading _ _) fun _ _ hs ↦ hclose _ hs.toReading
  · exact adds_bind (hitems s' hs.toReading) fun _ _ hs ↦ hclose _ hs

theorem betweenIfAny_sound {kind : Kind} (hkind : kind ≠ .decl) (h : Reading tokens s)
    (hitems : ∀ s', Reading tokens s' → Ensures items s' (Adds tokens (Sound tokens kind) s'))
    (hint opened : String) :
    Ensures (betweenIfAny kind hint opened items) s (Adds tokens (Sound tokens around) s) := by
  refine currentIs_bind h fun s' hs ↦ ?_
  split
  · next hopen =>
    exact node_sound hkind hs.toReading fun s'' hs' hahead ↦ between_sound hs'
      ((State.next_congr hahead).trans (hs.next.trans (of_decide_eq_true hopen))) hitems hint opened
  · exact hs.toReading.adds

/-- Behind an item come perhaps a comma and further items. -/
theorem more_sound (h : Reading tokens s)
    (hitems : ∀ s', Reading tokens s' → Ensures items s' (Adds tokens (Sound tokens around) s')) :
    Ensures (do if ← eat .comma then items) s (Adds tokens (Sound tokens around) s) := by
  refine adds_bind (eat_sound (by decide) h) fun found s' hs ↦ ?_
  split
  · exact hitems s' hs
  · exact hs.adds

end

/-! ## Types -/

/-- With so many steps, the rules that call each other place sound trees. -/
structure SoundAt (tokens : List Token) (steps : Nat) : Prop where
  type : ∀ {around : Kind} {s : State} (context : String), Reading tokens s →
    Ensures (Grammar.type steps context) s (Adds tokens (Sound tokens around) s)
  body : ∀ {around kind : Kind} {s : State} (form : Body), Reading tokens s → kind ≠ .id →
    s.next = some kind →
      Ensures (Grammar.body steps form) s (Adds tokens (Sound tokens around) s)
  entries : ∀ {around : Kind} {s : State} (form : Body), Reading tokens s →
    Ensures (Grammar.entries steps form) s (Adds tokens (Sound tokens around) s)
  reference : ∀ {around : Kind} {s : State}, Reading tokens s → s.next = some .id →
    (∀ t ∈ s.upcoming.head?, ¬Heading tokens t) →
      Ensures (Grammar.reference steps) s (Adds tokens (Sound tokens around) s)
  arguments : ∀ {s : State}, Reading tokens s →
    Ensures (Grammar.arguments steps) s (Adds tokens (Sound tokens .args) s)

namespace SoundAt

variable {steps : Nat}

theorem type_succ (hnodup : tokens.Nodup) (ih : SoundAt tokens steps) (context : String)
    (h : Reading tokens s) :
    Ensures (Grammar.type (steps + 1) context) s (Adds tokens (Sound tokens around) s) := by
  rw [Grammar.type]
  refine isHalted_bind ?_
  split
  · exact h.adds
  refine current_bind h fun s' hs ↦ ?_
  split
  · next hnext =>
    exact entered_sound hs.toReading fun _ hs' ↦ ih.body .record hs'.toReading
      (by decide : Kind.kwRecord ≠ .id) ((hs.trans hs').next.trans hnext)
  · next hnext =>
    exact entered_sound hs.toReading fun _ hs' ↦ ih.body .choice hs'.toReading
      (by decide : Kind.kwChoice ≠ .id) ((hs.trans hs').next.trans hnext)
  · next hnext =>
    obtain ⟨starts, hstarts, hfree⟩ := atDeclStart_looked hnodup hs.toReading
    refine hstarts.adds fun s'' hs' ↦ ?_
    split
    · exact report_adds hs'.toReading _ _
    · next hgoes =>
      -- no equals sign follows, so the name may be placed
      refine entered_sound hs'.toReading fun _ hs'' ↦ ih.reference hs''.toReading
        (((hs.trans hs').trans hs'').next.trans hnext) ?_
      rw [(hs'.trans hs'').upcoming]
      exact hfree (Bool.eq_false_iff.mpr hgoes)
  · exact report_adds hs.toReading _ _

theorem body_succ (ih : SoundAt tokens steps) {kind : Kind} (form : Body) (h : Reading tokens s)
    (hkind : kind ≠ .id) (hnext : s.next = some kind) :
    Ensures (Grammar.body (steps + 1) form) s (Adds tokens (Sound tokens around) s) := by
  rw [Grammar.body]
  refine current_bind h fun s' hs ↦ ?_
  have hform : form.kind ≠ .decl := by cases form <;> decide
  refine node_sound hform hs.toReading fun s'' hs' hahead ↦ ?_
  have hkeyword : s''.next = some kind :=
    (State.next_congr hahead).trans (hs.next.trans hnext)
  refine adds_bind (bump_sound hs' (not_heading_of_next hkind hkeyword)) fun _ s' hs ↦ ?_
  refine currentIs_bind hs fun s'' hs' ↦ ?_
  split
  · next hopen =>
    refine looked_bind (openDelimiter_looked hs'.toReading) fun _ _ hs'' ↦ ?_
    have hbrace := (hs'.trans hs'').next.trans (of_decide_eq_true hopen)
    refine adds_bind (bump_sound hs''.toReading (not_heading_of_next (by decide) hbrace))
      fun _ _ hs ↦ ?_
    exact adds_bind (ih.entries form hs) fun _ _ hs ↦ closeDelimiter_sound (by decide) hs _ _
  · exact report_adds hs'.toReading _ _

theorem entry_sound (ih : SoundAt tokens steps) (h : Reading tokens s)
    (hfree : ∀ t ∈ s.upcoming.head?, ¬Heading tokens t) :
    Ensures (node .entry do bump; expect .colon .expectedColon; Grammar.type steps "after `:`") s
      (Adds tokens (Sound tokens around) s) := by
  refine node_sound (by decide) h fun s' hs hahead ↦ ?_
  rw [← State.upcoming_congr hahead] at hfree
  exact adds_bind (bump_sound hs hfree) fun _ _ hs ↦
    adds_bind (expect_sound (by decide) hs _) fun _ _ hs ↦ ih.type _ hs

theorem entries_succ (hnodup : tokens.Nodup) (ih : SoundAt tokens steps) (form : Body)
    (h : Reading tokens s) :
    Ensures (Grammar.entries (steps + 1) form) s (Adds tokens (Sound tokens around) s) := by
  rw [Grammar.entries]
  refine isDone_bind ?_
  split
  · exact h.adds
  have hnext : ∀ {s}, Reading tokens s → Ensures (do let _ ← eat .comma; Grammar.entries steps form)
      s (Adds tokens (Sound tokens around) s) :=
    fun hs ↦ adds_bind (eat_sound (by decide) hs) fun _ _ hs ↦ ih.entries form hs
  refine current_bind h fun s' hs ↦ ?_
  split
  · exact hs.toReading.adds
  · exact hs.toReading.adds
  · obtain ⟨starts, hstarts, hfree⟩ := atDeclStart_looked hnodup hs.toReading
    refine hstarts.adds fun s'' hs' ↦ ?_
    split
    · exact hs'.toReading.adds
    · next hgoes =>
      rw [← hs'.upcoming] at hfree
      exact adds_bind (ih.entry_sound hs'.toReading (hfree (Bool.eq_false_iff.mpr hgoes)))
        fun _ _ hs ↦ hnext hs
  · -- between braces skipping stops at names
    have hstops : KindSet.entryRecovery.contains .id = false → around = .params ∨ around = .args :=
      fun hskips ↦ absurd hskips (by decide)
    exact adds_bind (recover_sound hstops hs.toReading _ _) fun _ _ hs ↦ hnext hs

theorem reference_succ_sound (ih : SoundAt tokens steps) (h : Reading tokens s)
    (hname : s.next = some .id) (hfree : ∀ t ∈ s.upcoming.head?, ¬Heading tokens t) :
    Ensures (Grammar.reference (steps + 1)) s (Adds tokens (Sound tokens around) s) := by
  rw [reference_succ]
  refine node_adds h sound_trivia fun s' hs hahead hnone ↦ ?_
  rw [← State.upcoming_congr hahead] at hfree
  have hnext : s'.next = some .id := (State.next_congr hahead).trans hname
  refine (qualifiedName_parts hs hnext hfree hnone).bind fun _ s'' hs' ↦ ?_
  have hargs : Ensures (betweenIfAny .args "drop `()` or pass a type" "argument list"
      (Grammar.arguments steps)) s'' (Adds tokens (Sound tokens .ref) s'') :=
    betweenIfAny_sound (by decide) hs'.1 (fun _ hs ↦ ih.arguments hs) _ _
  refine hargs.imp fun _ hs'' ↦ ⟨hs''.toReading, ?_⟩
  obtain ⟨trees, hplaced, htrees⟩ := hs''.placed
  rw [hplaced, List.reverse_append]
  exact sound_ref hs'.2 fun tree htree ↦ htrees tree (List.mem_reverse.mp htree)

theorem arguments_succ (ih : SoundAt tokens steps) (h : Reading tokens s) :
    Ensures (Grammar.arguments (steps + 1)) s (Adds tokens (Sound tokens .args) s) := by
  have hnext : ∀ {s}, Reading tokens s →
      Ensures (do if !(← isDone) then if ← eat .comma then Grammar.arguments steps) s
        (Adds tokens (Sound tokens .args) s) := by
    intro s hs
    refine isDone_bind ?_
    split
    · exact more_sound hs fun _ hs ↦ ih.arguments hs
    · exact hs.adds
  rw [Grammar.arguments]
  refine currentIn_bind h fun s' hs ↦ ?_
  split
  · exact adds_bind (ih.type _ hs.toReading) fun _ _ hs ↦ hnext hs
  · -- names are skipped here, and are taken for that
    exact adds_bind (recover_sound (fun _ ↦ .inr rfl) hs.toReading _ _) fun _ _ hs ↦ hnext hs

end SoundAt

theorem soundAt (hnodup : tokens.Nodup) (steps : Nat) : SoundAt tokens steps := by
  induction steps with
  | zero =>
    have hstops : ∀ {around : Kind} {s : State}, Reading tokens s →
        Ensures (recordDefect .outOfSteps) s (Adds tokens (Sound tokens around) s) :=
      fun h ↦ (recordDefect_looked h .outOfSteps).adds
    exact ⟨fun _ h ↦ hstops h, fun _ h _ _ ↦ hstops h, fun _ h ↦ hstops h, fun h _ _ ↦ hstops h,
      fun h ↦ hstops h⟩
  | succ steps ih =>
    exact ⟨ih.type_succ hnodup, ih.body_succ, ih.entries_succ hnodup, ih.reference_succ_sound,
      ih.arguments_succ⟩

/-! ## Declarations -/

/-- In a header and among parameters every name is taken. -/
theorem eat_taken {kind : Kind} (htaken : ∀ t : Token, t ∈ Tree.taken around (.token t))
    (h : Reading tokens s) : Ensures (eat kind) s (Adds tokens (Sound tokens around) s) :=
  eat_adds h fun t _ ↦ sound_token fun _ ↦ htaken t

theorem parameters_sound (steps : Nat) (h : Reading tokens s) :
    Ensures (Grammar.parameters steps) s (Adds tokens (Sound tokens .params) s) := by
  induction steps generalizing s with
  | zero => exact (recordDefect_looked h .outOfSteps).adds
  | succ steps ih =>
    rw [parameters_succ]
    have hname : Ensures (eat .id) s (Adds tokens (Sound tokens .params) s) :=
      eat_taken (fun _ ↦ List.mem_singleton_self _) h
    refine adds_bind (adds_bind hname fun found s' hs ↦ ?_) fun _ _ hs ↦ more_sound hs fun _ ↦ ih
    split
    · exact recover_sound (fun _ ↦ .inl rfl) hs _ _
    · exact hs.adds

theorem declaration_sound (hnodup : tokens.Nodup) (steps : Nat) (h : Reading tokens s)
    (hname : s.next = some .id) :
    Ensures (Grammar.declaration steps) s (Adds tokens (Sound tokens around) s) := by
  rw [declaration_eq]
  have hcurrent := currentIs_looked h .id
  rw [decide_eq_true hname] at hcurrent
  refine hcurrent.ensures fun s' hs ↦ (node_adds hs.1.toReading sound_trivia
    fun s'' hs' hahead hnone ↦ ?_).imp fun _ ↦ hs.1.adds_trans
  obtain ⟨t, hhead, hkind⟩ := Option.map_eq_some_iff.mp hname
  obtain ⟨rest, hupcoming⟩ := List.head?_eq_some_iff.mp hhead
  have hfront := bump_places hs' (hahead.trans (hs.2.trans hupcoming))
  refine hfront.bind fun _ s hs'' ↦ ?_
  have hbehind : Ensures (do
      betweenIfAny .params "drop `()` or name a parameter" "parameter list"
        (Grammar.parameters steps)
      expect .equals .expectedEquals
      Grammar.type steps "after `=`") s (Adds tokens (Sound tokens .decl) s) := by
    refine adds_bind (betweenIfAny_sound (by decide) hs''.1
      (fun _ hs ↦ parameters_sound steps hs) _ _) fun _ _ hs ↦ ?_
    exact adds_bind (expect_sound (by decide) hs _) fun _ _ hs ↦ (soundAt hnodup steps).type _ hs
  refine hbehind.imp fun _ hs ↦ ⟨hs.toReading, ?_⟩
  obtain ⟨trees, hplaced, htrees⟩ := hs.placed
  rw [hplaced, hs''.2, hnone, List.append_nil, List.reverse_append, List.reverse_cons,
    List.reverse_reverse, List.append_assoc, List.singleton_append]
  exact sound_decl hs'.waiting hkind fun tree htree ↦ htrees tree (List.mem_reverse.mp htree)

theorem repeatedHeader_sound (h : Reading tokens s) (hnext : s.next = some .kwModule) :
    Ensures Grammar.repeatedHeader s (Adds tokens (Sound tokens around) s) := by
  refine node_sound (by decide) h fun s' hs hahead ↦ looked_bind (report_looked hs _ _)
    fun _ s'' hs' ↦ ?_
  have hmodule : s''.next = some .kwModule :=
    hs'.next.trans ((State.next_congr hahead).trans hnext)
  refine adds_bind (bump_sound hs'.toReading (not_heading_of_next (by decide) hmodule))
    fun _ s' hs ↦ ?_
  exact adds_bind (eat_taken (fun _ ↦ List.mem_singleton_self _) hs) fun _ _ hs ↦ hs.adds

theorem declarations_sound (hnodup : tokens.Nodup) (total steps : Nat) (h : Reading tokens s) :
    Ensures (Grammar.declarations total steps) s (Adds tokens (Sound tokens around) s) := by
  induction steps generalizing s with
  | zero => exact (recordDefect_looked h .outOfSteps).adds
  | succ steps ih =>
    rw [Grammar.declarations]
    refine isDone_bind ?_
    split
    · exact h.adds
    refine current_bind h fun s' hs ↦ ?_
    split
    · exact hs.toReading.adds
    refine current_bind hs.toReading fun s'' hs' ↦ ?_
    split
    · next hname =>
      exact adds_bind (declaration_sound hnodup total hs'.toReading (hs'.next.trans hname))
        fun _ _ ↦ ih
    · next hmodule =>
      exact adds_bind (repeatedHeader_sound hs'.toReading (hs'.next.trans hmodule)) fun _ _ ↦ ih
    · -- between declarations skipping stops at names as well
      have hstops : KindSet.declRecovery.contains .id = false → around = .params ∨ around = .args :=
        fun hskips ↦ absurd hskips (by decide)
      exact adds_bind (recover_sound hstops hs'.toReading _ _) fun _ _ ↦ ih

theorem header_sound (h : Reading tokens s) :
    Ensures Grammar.header s (Adds tokens (Sound tokens around) s) := by
  refine currentIs_bind h fun s' hs ↦ ?_
  split
  · next hmodule =>
    refine node_sound (by decide) hs.toReading fun s'' hs' hahead ↦ ?_
    have hnext : s''.next = some .kwModule :=
      (State.next_congr hahead).trans (hs.next.trans (of_decide_eq_true hmodule))
    refine adds_bind (bump_sound hs' (not_heading_of_next (by decide) hnext)) fun _ s' hs ↦
      adds_bind (eat_taken (fun _ ↦ List.mem_singleton_self _) hs) fun found _ hs ↦ ?_
    split
    · exact report_adds hs _ _
    · exact hs.adds
  · exact report_adds hs.toReading _ _

theorem rootParts_sound (hnodup : tokens.Nodup) (steps : Nat) (h : Reading tokens s) :
    Ensures (rootParts steps) s (Adds tokens (Sound tokens around) s) :=
  adds_bind (header_sound h) fun _ _ hs ↦ adds_bind (declarations_sound hnodup steps steps hs)
    fun _ _ hs ↦ eatTrivia_adds hs sound_trivia

end

/-! ## Whole texts -/

theorem initial_reading (limits : Limits) (source : String) :
    Reading (Token.lex source) (State.initial source limits) :=
  ⟨fun _ h ↦ absurd h List.not_mem_nil, List.suffix_rfl⟩

/-- The tree of a parse is sound and holds the tokens of the text. -/
theorem ofText_sound {limits : Limits} {source : String} {parsed : Parsed}
    (h : Parsed.ofText limits source = .ok parsed) :
    Sound (Token.lex source) .root parsed.tree ∧ parsed.tree.tokens = Token.lex source := by
  obtain ⟨hexcess, rfl⟩ := ofText_eq_ok_iff.mp h
  rw [run_eq] at hexcess ⊢
  obtain ⟨hparts, hwaiting, hahead⟩ :=
    rootParts_ensures (initial_intact limits source) (Nat.le_refl _)
  constructor
  · obtain ⟨trees, hplaced, htrees⟩ := (rootParts_sound (Token.lex_nodup source)
      (2 * (Token.lex source).length + 2) (initial_reading limits source)).placed
    rw [hplaced]
    refine sound_node (fun h ↦ nomatch h) fun child hchild ↦ .inl (htrees child ?_)
    simpa [State.initial] using hchild
  · have hheld := hparts.held
    rw [State.held, hwaiting, hahead hexcess] at hheld
    exact hheld

/-- A run that exceeds no limit gives its tree. -/
theorem exists_ofText {limits : Limits} {source : String}
    (h : (Parsed.run limits source).2.excess = none) :
    ∃ parsed, Parsed.ofText limits source = .ok parsed ∧
      parsed.tree = (Parsed.run limits source).1 :=
  ⟨_, ofText_eq_ok_iff.mpr ⟨h, rfl⟩, rfl⟩

/-- **Where a name in front of an equals sign begins a declaration**: in the tree of a parse, broken
or not, such a name is the name of a declaration if and only if it was not taken: by a header, as a
parameter, behind the dot of a qualified name, or as one of the tokens that were skipped between
parentheses. -/
theorem declared_iff_not_swallowed {limits : Limits} {source : String} {parsed : Parsed}
    (h : Parsed.ofText limits source = .ok parsed) :
    ∀ t, Heading (Token.lex source) t →
      (t ∈ parsed.tree.declared ↔ t ∉ parsed.tree.swallowed) := by
  intro t hheading
  obtain ⟨hsound, htokens⟩ := ofText_sound h
  have hnodup : parsed.tree.tokens.Nodup := htokens ▸ Token.lex_nodup source
  refine ⟨Tree.not_swallowed_of_declared hnodup hsound.named, fun hfree ↦ ?_⟩
  have ht : t ∈ parsed.tree.tokens := htokens ▸ hheading.mem
  rcases hsound.accounted t ht hheading with hdeclared | hswallowed | htaken
  · exact hdeclared
  · exact absurd hswallowed hfree
  · -- a tree that stands in a node around a whole text is not taken
    exact absurd htaken List.not_mem_nil

/-- A text in which names in front of equals signs are taken in all four places: as a parameter,
behind a dot, between parentheses and in a header. One such name is left. -/
def takenNames : String :=
  "module M\nA(x,\nB = M.\nC = Array($\nD = None\nmodule E = None\nF = None"

theorem declared_iff_not_swallowed_takenNames :
    ∃ parsed, Parsed.ofText .standard takenNames = .ok parsed ∧
      ∀ t, Heading (Token.lex takenNames) t → (t ∈ parsed.tree.declared ↔ t.text = "F") := by
  have hexcess : (Parsed.run .standard takenNames).2.excess = none := by decide +kernel
  have hfree : ∀ t ∈ Token.lex takenNames, Heading (Token.lex takenNames) t →
      (t ∉ (Parsed.run .standard takenNames).1.swallowed ↔ t.text = "F") := by decide +kernel
  obtain ⟨parsed, hparsed, htree⟩ := exists_ofText hexcess
  rw [← htree] at hfree
  exact ⟨parsed, hparsed, fun t ht ↦
    (declared_iff_not_swallowed hparsed t ht).trans (hfree t ht.mem ht)⟩

/-- A text without the name of its module. -/
def nameless : String := "module\nA = Integer"

/-- Not every name in front of an equals sign begins a declaration: where the name of the module is
missing, the header takes the name of the first declaration. -/
theorem heading_in_header :
    ∃ parsed, Parsed.ofText .standard nameless = .ok parsed ∧
      Heading (Token.lex nameless) ⟨.id, 7, "A"⟩ ∧ ⟨.id, 7, "A"⟩ ∉ parsed.tree.declared := by
  have hexcess : (Parsed.run .standard nameless).2.excess = none := by decide +kernel
  have hfree : ⟨.id, 7, "A"⟩ ∉ (Parsed.run .standard nameless).1.declared := by decide +kernel
  obtain ⟨parsed, hparsed, htree⟩ := exists_ofText hexcess
  rw [← htree] at hfree
  exact ⟨parsed, hparsed, by decide +kernel, hfree⟩

end SchemaCodec.Syntax
