import SchemaCodec.Proofs.Syntax.Headings
import SchemaCodec.Proofs.Syntax.Stripping
import SchemaCodec.Proofs.Syntax.WithinLimits

/-!
# Trivia change nothing

Two texts that differ in blanks and comments only are parsed alike, broken or not: their trees have
the same dump, the same faults are reported in the same order, and both declare the same module or
none.

## What two runs have in common

Two states are similar if the same words are ahead and the same trees are placed, trivia and places
aside, the same was reported, and as many delimiters are open. The runs need not read past trivia at
the same time, so a run may stop at the end of the text where the other one has trivia ahead and
stops after a look at them.

## Why reports agree

One place is reported at most once in a row, and places are offsets, which trivia shift. A place
that was reported is never behind the next word, and it is the same place exactly if no word was
placed since then: each word has a text, so behind it begins another place. Whether the next word
was reported already is thus the same in both runs, and so it is at the end of the text, whose
offset trivia shift as well.
-/

namespace SchemaCodec

/-- What a diagnostic says wherever it points: its kind, its message and those of further places. -/
def Diagnostic.gist (d : Diagnostic) : DiagnosticKind × String × List String :=
  (d.kind, d.message, d.related.map Prod.fst)

namespace Syntax

open Parse

/-- What tokens say, trivia aside. -/
def words (tokens : List Token) : List (Kind × String) :=
  (tokens.filter fun t ↦ !t.kind.isTrivia).map Token.word

theorem words_trivia {t : Token} (h : t.kind.isTrivia = true) (rest : List Token) :
    words (t :: rest) = words rest := by
  rw [words, words, List.filter_cons_of_neg (by rw [h]; decide)]

theorem words_token {t : Token} (h : ¬t.kind.isTrivia = true) (rest : List Token) :
    words (t :: rest) = t.word :: words rest := by
  rw [words, words, List.filter_cons_of_pos (by simpa using h), List.map_cons]

theorem words_dropWhile (tokens : List Token) :
    words (tokens.dropWhile (·.kind.isTrivia)) = words tokens := by
  induction tokens with
  | nil => rfl
  | cons t tokens ih =>
    by_cases htrivia : t.kind.isTrivia = true
    · rw [List.dropWhile_cons, if_pos htrivia, ih, words_trivia htrivia]
    · rw [List.dropWhile_cons, if_neg htrivia]

/-- Behind the next token are the words behind the next one, if that token is a word. -/
theorem words_drop_one {tokens : List Token} (h : ∀ t ∈ tokens.head?, ¬t.kind.isTrivia = true) :
    words (tokens.drop 1) = (words tokens).tail := by
  rcases tokens with - | ⟨t, rest⟩
  · rfl
  · rw [words_token (h t rfl)]
    rfl

/-- The kind of the next token is that of the next word once trivia are read past. -/
theorem head?_words (tokens : List Token) :
    (tokens.dropWhile (·.kind.isTrivia)).head?.map Token.kind
      = (words tokens).head?.map Prod.fst := by
  induction tokens with
  | nil => rfl
  | cons t tokens ih =>
    by_cases htrivia : t.kind.isTrivia = true
    · rw [List.dropWhile_cons, if_pos htrivia, ih, words_trivia htrivia]
    · rw [List.dropWhile_cons, if_neg htrivia, words_token htrivia]
      rfl

/-! ## Places -/

namespace State

/-- Where the next word stands; the end of the text if there is none. -/
def place (s : State) : Nat := (settle s).2.offset

theorem place_settle (s : State) : (settle s).2.place = s.place := by
  have hahead : (settle (settle s).2).2.ahead = (settle s).2.ahead :=
    List.dropWhile_idempotent _ s.ahead
  rw [place, offset, hahead]
  rfl

theorem tiles_settle {s : State} {start : Nat} (h : Token.Tiles start s.ahead s.stop) :
    start ≤ s.place ∧ Token.Tiles s.place (settle s).2.ahead s.stop := by
  have hsplit : s.ahead.takeWhile (·.kind.isTrivia) ++ s.ahead.dropWhile (·.kind.isTrivia)
      = s.ahead := List.takeWhile_append_dropWhile
  rw [← hsplit] at h
  obtain ⟨mid, hmid, htiles⟩ := h.of_append
  have hplace : s.place = mid := offset_eq (s := (settle s).2) htiles
  rw [hplace]
  exact ⟨hmid, htiles⟩

/-- A state without limits whose tokens ahead follow each other without gaps and have a text. Only
trivia wait, and no place behind the next word was reported. -/
structure Sited (s : State) : Prop where
  tiles : ∃ start, Token.Tiles start s.ahead s.stop
  solid : ∀ t ∈ s.ahead, t.text ≠ ""
  waiting : ∀ t ∈ s.waiting, t.kind.isTrivia = true
  reported : ∀ offset ∈ s.reportedAt, offset ≤ s.place
  excess : s.excess = none
  exec : s.exec = none
  maxDepth : s.maxDepth = none

/-- Two states that differ in trivia and places only. -/
structure Similar (s t : State) : Prop where
  left : s.Sited
  right : t.Sited
  ahead : words s.ahead = words t.ahead
  placed : Tree.strippedForest s.placed = Tree.strippedForest t.placed
  reports : s.reports.map Diagnostic.gist = t.reports.map Diagnostic.gist
  delimiters : s.delimiters.length = t.delimiters.length
  reported : s.reportedAt = some s.place ↔ t.reportedAt = some t.place

variable {s t u : State}

theorem Sited.similar (h : s.Sited) : s.Similar s := ⟨h, h, rfl, rfl, rfl, rfl, Iff.rfl⟩

theorem Similar.symm (h : s.Similar t) : t.Similar s :=
  ⟨h.right, h.left, h.ahead.symm, h.placed.symm, h.reports.symm, h.delimiters.symm,
    h.reported.symm⟩

theorem Similar.trans (h : s.Similar t) (h' : t.Similar u) : s.Similar u :=
  ⟨h.left, h'.right, h.ahead.trans h'.ahead, h.placed.trans h'.placed,
    h.reports.trans h'.reports, h.delimiters.trans h'.delimiters, h.reported.trans h'.reported⟩

/-- Both states may be replaced by similar ones. -/
theorem Similar.replace {s' t' : State} (h : s.Similar t) (hs : s.Similar s') (ht : t.Similar t') :
    s'.Similar t' := hs.symm.trans (h.trans ht)

end State

/-! ## One run at a time -/

section

variable {s t : State}

/-- Reading past trivia makes no difference. -/
theorem settle_similar (h : s.Sited) : s.Similar (settle s).2 := by
  have hsited : (settle s).2.Sited := by
    obtain ⟨start, htiles⟩ := h.tiles
    refine { h with
      tiles := ⟨s.place, (State.tiles_settle htiles).2⟩
      solid := fun t ht ↦ h.solid t ((List.dropWhile_sublist _).mem ht)
      waiting := fun t ht ↦ ?_
      reported := ?_ }
    · rcases List.mem_append.mp ht with ht | ht
      · exact h.waiting t ht
      · exact List.mem_takeWhile_imp (p := fun t : Token ↦ t.kind.isTrivia) ht
    · rw [State.place_settle]
      exact h.reported
  refine ⟨h, hsited, (words_dropWhile s.ahead).symm, rfl, rfl, rfl, ?_⟩
  rw [State.place_settle]
  exact Iff.rfl

theorem countLook_similar (h : s.Sited) : s.Similar (countLook s).2 := by
  have hset (looks : Nat) (defect : Option Defect) : s.Similar { s with looks, defect } :=
    ⟨h, { h with }, rfl, rfl, rfl, rfl, Iff.rfl⟩
  have hrun : countLook s = if s.looks = 0 then recordDefect .tooManyLooks s
      else ((), { s with looks := s.looks - 1 }) := by
    change (if s.looks = 0 then _ else _ : Parse Unit) s = _
    split <;> rfl
  rw [hrun]
  split
  · exact hset s.looks _
  · exact hset _ s.defect

theorem current_similar (h : s.Sited) : s.Similar (current s).2 :=
  (settle_similar h).trans (countLook_similar (settle_similar h).right)

theorem followedBy_similar (h : s.Sited) (kind : Kind) : s.Similar (followedBy kind s).2 :=
  current_similar h

theorem current_fst (s : State) : (current s).1 = (words s.ahead).head?.map Prod.fst := by
  rw [← head?_words]
  exact congrArg (fun tokens : List Token ↦ tokens.head?.map Token.kind)
    (countLook_rests (settle s).2)

theorem followedBy_fst (kind : Kind) (s : State) :
    (followedBy kind s).1 = decide ((words s.ahead).tail.head?.map Prod.fst = some kind) := by
  have hahead : (countLook (settle s).2).2.ahead = s.ahead.dropWhile (·.kind.isTrivia) :=
    countLook_rests (settle s).2
  have hrun : (followedBy kind s).1 = decide
      ((((countLook (settle s).2).2.ahead.drop 1).dropWhile (·.kind.isTrivia)).head?.map Token.kind
        = some kind) := rfl
  rw [hrun, hahead, head?_words, words_drop_one (not_isTrivia_dropWhile s.ahead), words_dropWhile]

theorem placeTrivia_similar (h : s.Sited) : s.Similar (placeTrivia s).2 := by
  refine ⟨h, { h with waiting := fun t ht ↦ absurd ht List.not_mem_nil }, rfl, ?_, rfl, rfl,
    Iff.rfl⟩
  change _ = Tree.strippedForest ((s.waiting.map Tree.token).reverseAux s.placed)
  rw [List.reverseAux_eq, Tree.strippedForest_append, Tree.strippedForest_reverse,
    Tree.strippedForest_map_token h.waiting]
  rfl

/-- A state in which something was reported at the next word, unless that was reported already. -/
def State.told (s : State) (d : Diagnostic) : State :=
  if s.reportedAt = some s.place then s
  else { s with reportedAt := some s.place, reports := d :: s.reports }

theorem State.Similar.told {d e : Diagnostic} (h : s.Similar t) (hgist : d.gist = e.gist) :
    (s.told d).Similar (t.told e) := by
  by_cases hreported : s.reportedAt = some s.place
  · rw [State.told, State.told, if_pos hreported, if_pos (h.reported.mp hreported)]
    exact h
  · have hreported' := h.reported.not.mp hreported
    rw [State.told, State.told, if_neg hreported, if_neg hreported']
    have hsited {s : State} (d : Diagnostic) (h : s.Sited) :
        { s with reportedAt := some s.place, reports := d :: s.reports : State }.Sited := by
      refine { h with reported := fun offset hoffset ↦ ?_ }
      rw [Option.mem_some_iff] at hoffset
      exact Nat.le_of_eq hoffset.symm
    refine ⟨hsited d h.left, hsited e h.right, h.ahead, h.placed, ?_, h.delimiters, ?_⟩
    · rw [List.map_cons, List.map_cons, hgist, h.reports]
    · exact iff_of_true rfl rfl

/-- A step that adds a diagnostic of a certain gist. -/
def Says (say : Span → Parse Unit) (gist : DiagnosticKind × String × List String) : Prop :=
  ∀ (range : Span) (s : State), ∃ d, Diagnostic.gist d = gist ∧
    say range s = ((), { s with reports := d :: s.reports })

/-- The next word stands where the next place is. -/
theorem currentSpan_start (s : State) : (currentSpan s).1.start = s.place := by
  change (((settle s).2.ahead.head?.map Token.span).getD _).start = _
  rw [State.place, State.offset]
  rcases (settle s).2.ahead <;> rfl

theorem announce_eq (say : Span → Parse Unit) (s : State) :
    announce say s = if s.reportedAt = some s.place then ((), (settle s).2)
      else say (currentSpan s).1 { (settle s).2 with reportedAt := some s.place } := by
  have hclaim (offset : Nat) (s : State) : claimReport offset s
      = if s.reportedAt = some offset then (false, s)
        else (true, { s with reportedAt := some offset }) := by
    change (if s.reportedAt = some offset then _ else _ : Parse Bool) s = _
    split <;> rfl
  change (if (claimReport (currentSpan s).1.start (settle s).2).1 = true then say (currentSpan s).1
    else pure () : Parse Unit) (claimReport (currentSpan s).1.start (settle s).2).2 = _
  rw [currentSpan_start, hclaim, show (settle s).2.reportedAt = s.reportedAt from rfl]
  split <;> rfl

theorem announce_run {say : Span → Parse Unit} {gist : DiagnosticKind × String × List String}
    (hsay : Says say gist) (s : State) :
    ∃ d, Diagnostic.gist d = gist ∧ announce say s = ((), (settle s).2.told d) := by
  obtain ⟨d, hd, hrun⟩ := hsay (currentSpan s).1
    { (settle s).2 with reportedAt := some s.place }
  refine ⟨d, hd, ?_⟩
  rw [announce_eq, State.told, State.place_settle, show (settle s).2.reportedAt = s.reportedAt
    from rfl]
  split
  · rfl
  · exact hrun

end

/-! ## Two runs -/

/-- Two states between which two steps may be compared. -/
structure Level (p : Footing) (s t : State) : Prop where
  similar : s.Similar t
  left : p.Holds s
  right : p.Holds t

/-- Two steps that do the same from similar states, unless one of them makes a mistake. -/
structure Alike {α : Type} (p : Footing) (f g : Parse α) (q : Footing) : Prop where
  left : Steady f
  right : Steady g
  alike : ∀ s t : State, Level p s t → (f s).2.defect = none → (g t).2.defect = none →
    (f s).1 = (g t).1 ∧ Level q (f s).2 (g t).2

section

variable {α β : Type} {p q r : Footing} {f g : Parse α} {k l : α → Parse β} {s t : State}

theorem Level.loosen (h : Level p s t) : Level .loose s t := ⟨h.similar, trivial, trivial⟩

namespace Alike

theorem pure (p : Footing) (a : α) : Alike p (Pure.pure a) (Pure.pure a) p :=
  ⟨Steady.pure a, Steady.pure a, fun _ _ h _ _ ↦ ⟨rfl, h⟩⟩

theorem bind (h : Alike p f g q) (hk : ∀ a, Alike q (k a) (l a) r) :
    Alike p (f >>= k) (g >>= l) r := by
  refine ⟨h.left.bind fun a ↦ (hk a).left, h.right.bind fun a ↦ (hk a).right,
    fun s t hst hleft hright ↦ ?_⟩
  obtain ⟨hsame, hlevel⟩ :=
    h.alike s t hst ((hk _).left.defect _ hleft) ((hk _).right.defect _ hright)
  have hright' : (l (f s).1 (g t).2).2.defect = none := by
    rw [hsame]
    exact hright
  have hrest := (hk (f s).1).alike (f s).2 (g t).2 hlevel hleft hright'
  have hrun : (g >>= l) t = l (f s).1 (g t).2 := by
    rw [hsame]
    rfl
  rw [hrun]
  exact hrest

theorem anywhere (h : Alike .loose f g q) : Alike p f g q :=
  ⟨h.left, h.right, fun s t hst ↦ h.alike s t hst.loosen⟩

theorem loosen (h : Alike p f g q) : Alike p f g .loose := by
  refine ⟨h.left, h.right, fun s t hst hleft hright ↦ ?_⟩
  obtain ⟨hsame, hlevel⟩ := h.alike s t hst hleft hright
  exact ⟨hsame, hlevel.loosen⟩

theorem stuckLeft (defect : Defect) {g : Parse Unit} (h : Steady g) :
    Alike p (recordDefect defect) g q :=
  ⟨recordDefect_steady defect, h, fun s _ _ hleft _ ↦ absurd hleft (recordDefect_ne_none defect s)⟩

theorem stuckRight (defect : Defect) {f : Parse Unit} (h : Steady f) :
    Alike p f (recordDefect defect) q :=
  ⟨h, recordDefect_steady defect, fun _ t _ _ hright ↦
    absurd hright (recordDefect_ne_none defect t)⟩

/-- A step that reads past trivia and gives the same for the same words. -/
theorem of_words (hsteady : Steady f) (hsettles : Settles f)
    (hsimilar : ∀ s : State, s.Sited → s.Similar (f s).2)
    (hsame : ∀ s t : State, words s.ahead = words t.ahead → (f s).1 = (f t).1) :
    Alike .loose f f .settled := by
  refine ⟨hsteady, hsteady, fun s t h _ _ ↦ ⟨hsame s t h.similar.ahead, ?_, hsettles s, hsettles t⟩⟩
  exact h.similar.replace (hsimilar s h.similar.left) (hsimilar t h.similar.right)

end Alike

theorem current_alike : Alike .loose current current .settled :=
  .of_words current_steady current_settles (fun _ ↦ current_similar) fun s t h ↦ by
    rw [current_fst, current_fst, h]

theorem followedBy_alike (kind : Kind) :
    Alike .loose (followedBy kind) (followedBy kind) .settled :=
  .of_words (followedBy_steady kind) (followedBy_settles kind)
    (fun _ h ↦ followedBy_similar h kind) fun s t h ↦ by
      rw [followedBy_fst, followedBy_fst, h]

theorem isHalted_alike (p : Footing) : Alike p isHalted isHalted p := by
  refine ⟨isHalted_steady, isHalted_steady, fun s t h _ _ ↦ ⟨?_, h⟩⟩
  change s.excess.isSome = t.excess.isSome
  rw [h.similar.left.excess, h.similar.right.excess]

/-- Where trivia have been read past, nothing is ahead exactly if no word is. -/
theorem isEmpty_words (h : s.Settled) : s.ahead.isEmpty = (words s.ahead).isEmpty := by
  rcases hahead : s.ahead with - | ⟨t, rest⟩
  · rfl
  · rw [words_token (h t (by rw [hahead]; rfl))]
    rfl

theorem isDone_alike : Alike .settled isDone isDone .settled := by
  refine ⟨isDone_steady, isDone_steady, fun s t h _ _ ↦ ⟨?_, h⟩⟩
  change (s.ahead.isEmpty || s.excess.isSome) = (t.ahead.isEmpty || t.excess.isSome)
  rw [h.similar.left.excess, h.similar.right.excess, isEmpty_words h.left, isEmpty_words h.right,
    h.similar.ahead]

/-- Where no word is ahead, it makes no difference whether trivia are. -/
theorem unlessDone_similar {k : Option Kind → Parse Unit} (hk : k none = Pure.pure ())
    (h : s.Sited) (hwords : words s.ahead = []) :
    s.Similar ((isDone >>= fun done ↦ if done then Pure.pure () else current >>= k) s).2 := by
  change s.Similar ((if (s.ahead.isEmpty || s.excess.isSome) = true then Pure.pure ()
    else current >>= k : Parse Unit) s).2
  split
  · exact h.similar
  · have hnone : (current s).1 = none := by
      rw [current_fst, hwords]
      rfl
    change s.Similar (k (current s).1 (current s).2).2
    rw [hnone, hk]
    exact current_similar h

theorem unlessDone_run {k : Option Kind → Parse Unit} (h : s.Sited) (hwords : words s.ahead ≠ []) :
    (isDone >>= fun done ↦ if done then Pure.pure () else current >>= k) s = (current >>= k) s := by
  have hahead : s.ahead ≠ [] := by
    intro hnil
    rw [hnil] at hwords
    exact hwords rfl
  change (if (s.ahead.isEmpty || s.excess.isSome) = true then Pure.pure ()
    else current >>= k : Parse Unit) s = _
  rw [h.excess, List.isEmpty_eq_false_iff.mpr hahead]
  rfl

theorem unlessDone_alike {k l : Option Kind → Parse Unit} (hk : k none = Pure.pure ())
    (hl : l none = Pure.pure ()) (h : ∀ next, Alike .settled (k next) (l next) .loose) :
    Alike .loose (isDone >>= fun done ↦ if done then Pure.pure () else current >>= k)
      (isDone >>= fun done ↦ if done then Pure.pure () else current >>= l) .loose := by
  have hlook : Alike .loose (current >>= k) (current >>= l) .loose := current_alike.bind h
  refine ⟨isDone_steady.bind fun _ ↦ .ite (.pure _) hlook.left,
    isDone_steady.bind fun _ ↦ .ite (.pure _) hlook.right, fun s t hst hleft hright ↦ ?_⟩
  by_cases hwords : words s.ahead = []
  · have hwords' : words t.ahead = [] := hst.similar.ahead.symm.trans hwords
    exact ⟨rfl, hst.similar.replace (unlessDone_similar hk hst.similar.left hwords)
      (unlessDone_similar hl hst.similar.right hwords'), trivial, trivial⟩
  · have hwords' : words t.ahead ≠ [] := hst.similar.ahead ▸ hwords
    rw [unlessDone_run hst.similar.left hwords] at hleft ⊢
    rw [unlessDone_run hst.similar.right hwords'] at hright ⊢
    exact hlook.alike s t hst hleft hright

/-! ## Placing and reporting -/

/-- Behind a word that is placed begins another place. -/
theorem State.place_lt {w : Token} {rest : List Token} {start : Nat} (hahead : s.ahead = w :: rest)
    (htiles : Token.Tiles start s.ahead s.stop) (hword : ¬w.kind.isTrivia = true)
    (hne : w.text ≠ "") {t : State} (hrest : t.ahead = rest) (hstop : t.stop = s.stop) :
    s.place < t.place := by
  have hdrop : (settle s).2.ahead = w :: rest := by
    change s.ahead.dropWhile _ = _
    rw [hahead, List.dropWhile_cons, if_neg hword]
  have hplace : w.start = s.place := by
    have hsettled := (State.tiles_settle htiles).2
    rw [hdrop] at hsettled
    exact hsettled.1
  have hlt : w.start < w.stop := by
    have hsize : w.text.utf8ByteSize ≠ 0 :=
      fun hzero ↦ hne (String.utf8ByteSize_eq_zero_iff.mp hzero)
    rw [Token.stop]
    omega
  have hbehind : Token.Tiles w.stop t.ahead t.stop := by
    rw [hahead] at htiles
    rw [hrest, hstop]
    exact htiles.2
  rw [← hplace]
  exact Nat.lt_of_lt_of_le hlt (State.tiles_settle hbehind).1

/-- Behind a word that is placed, nothing was reported yet. -/
theorem bump_sited {w : Token} {rest : List Token} (h : s.Sited) (hahead : s.ahead = w :: rest)
    (hword : ¬w.kind.isTrivia = true) :
    (bump s).2.Sited ∧ (bump s).2.reportedAt ≠ some (bump s).2.place := by
  obtain ⟨start, htiles⟩ := h.tiles
  have hlt : s.place < (bump s).2.place := by
    refine State.place_lt hahead htiles hword (h.solid w ?_) ?_ ?_
    · rw [hahead]
      exact List.mem_cons_self
    · rw [bump_counts hahead]
    · rw [bump_counts hahead]
  rw [hahead] at htiles
  have hreported : ∀ offset ∈ (bump s).2.reportedAt, offset ≤ s.place := by
    rw [bump_counts hahead]
    exact h.reported
  refine ⟨?_, fun hsome ↦ Nat.not_le.mpr hlt (hreported _ hsome)⟩
  have hlater : ∀ offset ∈ (bump s).2.reportedAt, offset ≤ (bump s).2.place :=
    fun offset hoffset ↦ Nat.le_trans (hreported offset hoffset) (Nat.le_of_lt hlt)
  have hexcess : (if s.exec = some 0 then s.excess.or (some .exec) else s.excess) = none := by
    rw [h.exec, h.excess]
    rfl
  rw [bump_counts hahead] at hlater ⊢
  refine ⟨⟨w.stop, htiles.2⟩, ?_, fun t ht ↦ absurd ht List.not_mem_nil, hlater, hexcess, ?_,
    h.maxDepth⟩
  · intro t ht
    exact h.solid t (by rw [hahead]; exact List.mem_cons_of_mem _ ht)
  · change s.exec.map _ = none
    rw [h.exec]
    rfl

theorem bump_stripped {w : Token} {rest : List Token} (h : s.Sited) (hahead : s.ahead = w :: rest)
    (hword : ¬w.kind.isTrivia = true) :
    Tree.strippedForest (bump s).2.placed
      = .token w.unplaced :: Tree.strippedForest s.placed := by
  rw [bump_counts hahead]
  change Tree.strippedForest (.token w :: _) = _
  rw [Tree.strippedForest_token hword, (placeTrivia_similar h).placed]
  rfl

theorem bump_alike : Alike .settled bump bump .loose := by
  refine ⟨bump_steady, bump_steady, fun s t h hleft _ ↦ ⟨rfl, ?_, trivial, trivial⟩⟩
  obtain ⟨hst, hs, ht⟩ := h
  rcases hahead : s.ahead with - | ⟨w, rest⟩
  · rw [bump_nil hahead] at hleft
    exact absurd hleft (recordDefect_ne_none .placedAtEnd s)
  have hword : ¬w.kind.isTrivia = true := hs w (by rw [hahead]; rfl)
  have hwords := hst.ahead
  rw [hahead, words_token hword] at hwords
  rcases hahead' : t.ahead with - | ⟨w', rest'⟩
  · rw [hahead'] at hwords
    cases hwords
  have hword' : ¬w'.kind.isTrivia = true := ht w' (by rw [hahead']; rfl)
  rw [hahead', words_token hword'] at hwords
  obtain ⟨hsame, hrest⟩ := List.cons.inj hwords
  obtain ⟨hsited, hnew⟩ := bump_sited hst.left hahead hword
  obtain ⟨hsited', hnew'⟩ := bump_sited hst.right hahead' hword'
  refine ⟨hsited, hsited', ?_, ?_, ?_, ?_, iff_of_false hnew hnew'⟩
  · rw [bump_counts hahead, bump_counts hahead']
    exact hrest
  · rw [bump_stripped hst.left hahead hword, bump_stripped hst.right hahead' hword', hst.placed,
      Token.unplaced_eq_of_word_eq hsame]
  · rw [bump_counts hahead, bump_counts hahead']
    exact hst.reports
  · rw [bump_counts hahead, bump_counts hahead']
    exact hst.delimiters

theorem eatTrivia_alike : Alike .loose eatTrivia eatTrivia .loose := by
  have hsimilar {s : State} (h : s.Sited) : s.Similar (eatTrivia s).2 :=
    (settle_similar h).trans (placeTrivia_similar (settle_similar h).right)
  refine ⟨eatTrivia_steady, eatTrivia_steady, fun s t h _ _ ↦ ⟨rfl, ?_, trivial, trivial⟩⟩
  exact h.similar.replace (hsimilar h.similar.left) (hsimilar h.similar.right)

theorem Says.steady {say : Span → Parse Unit} {gist : DiagnosticKind × String × List String}
    (h : Says say gist) (range : Span) : Steady (say range) := by
  refine .of_eq (fun s ↦ ?_) (fun s ↦ ?_) fun s ↦ ?_
  all_goals
    obtain ⟨d, -, hrun⟩ := h range s
    rw [hrun]

theorem Says.rests {say : Span → Parse Unit} {gist : DiagnosticKind × String × List String}
    (h : Says say gist) (range : Span) : Rests (say range) := by
  intro s
  obtain ⟨d, -, hrun⟩ := h range s
  rw [hrun]

theorem announce_alike {say say' : Span → Parse Unit}
    {gist : DiagnosticKind × String × List String} (hsay : Says say gist) (hsay' : Says say' gist) :
    Alike .loose (announce say) (announce say') .settled := by
  refine ⟨announce_steady hsay.steady, announce_steady hsay'.steady, fun s t h _ _ ↦
    ⟨rfl, ?_, announce_settles hsay.rests s, announce_settles hsay'.rests t⟩⟩
  obtain ⟨d, hd, hrun⟩ := announce_run hsay s
  obtain ⟨e, he, hrun'⟩ := announce_run hsay' t
  rw [hrun, hrun']
  exact (h.similar.replace (settle_similar h.similar.left) (settle_similar h.similar.right)).told
    (hd.trans he.symm)

theorem report_alike (kind : DiagnosticKind) (detail : Option String) :
    Alike .loose (report kind detail) (report kind detail) .settled := by
  refine announce_alike (?hsay : Says _ (kind, kind.message detail, [])) ?hsay
  exact fun _ _ ↦ ⟨_, rfl, rfl⟩

theorem openDelimiter_alike : Alike .loose openDelimiter openDelimiter .settled := by
  refine ⟨openDelimiter_steady, openDelimiter_steady, fun s t h _ _ ↦
    ⟨rfl, ?_, openDelimiter_settles s, openDelimiter_settles t⟩⟩
  have hst := h.similar.replace (settle_similar h.similar.left) (settle_similar h.similar.right)
  exact { hst with
    left := { hst.left with }
    right := { hst.right with }
    delimiters := congrArg (· + 1) hst.delimiters }

theorem unclosed_alike (missing : DiagnosticKind) (opened : String) {ds es : List Span}
    (h : ds.length = es.length) :
    Alike .loose (unclosed missing opened ds) (unclosed missing opened es) .loose := by
  have hsay (delimiter : Span) : Says (fun range ↦
      emit { Diagnostic.plain missing ⟨delimiter.start, range.stop⟩ none with
        related := [(opened ++ " started here", delimiter)] })
      (missing, missing.message none, [opened ++ " started here"]) := fun _ _ ↦ ⟨_, rfl, rfl⟩
  rcases ds with - | ⟨d, outer⟩
  · obtain rfl : es = [] := List.eq_nil_of_length_eq_zero h.symm
    exact .pure _ _
  · obtain ⟨e, outer', rfl⟩ := List.exists_cons_of_length_eq_add_one h.symm
    exact (announce_alike (hsay d) (hsay e)).loosen

theorem closeDelimiter_alike (close : Kind) (missing : DiagnosticKind) (opened : String)
    (h : Alike .loose (eat close) (eat close) .loose) :
    Alike .loose (closeDelimiter close missing opened) (closeDelimiter close missing opened)
      .loose := by
  refine ⟨closeDelimiter_steady close missing opened, closeDelimiter_steady close missing opened,
    fun s t hst hleft hright ↦ ?_⟩
  have hpopped : Level .loose { s with delimiters := s.delimiters.drop 1 }
      { t with delimiters := t.delimiters.drop 1 } := by
    refine ⟨{ hst.similar with
      left := { hst.similar.left with }
      right := { hst.similar.right with }
      delimiters := ?_ }, trivial, trivial⟩
    change (s.delimiters.drop 1).length = (t.delimiters.drop 1).length
    rw [List.length_drop, List.length_drop, hst.similar.delimiters]
  have hrest : Alike .loose (do if !(← eat close) then unclosed missing opened s.delimiters)
      (do if !(← eat close) then unclosed missing opened t.delimiters) .loose := by
    refine h.bind fun found ↦ ?_
    rcases found
    · exact unclosed_alike missing opened hst.similar.delimiters
    · exact .pure _ _
  rw [closeDelimiter_run] at hleft hright
  rw [closeDelimiter_run, closeDelimiter_run]
  exact hrest.alike _ _ hpopped hleft hright

/-! ## Nodes and types -/

theorem inside_similar (h : s.Similar t) : s.inside.Similar t.inside := by
  have hst := h.replace (placeTrivia_similar h.left) (placeTrivia_similar h.right)
  exact { hst with left := { hst.left with }, right := { hst.right with }, placed := rfl }

theorem node_alike {kind : Kind} {f g : Parse Unit} (h : Alike p f g q) :
    Alike p (node kind f) (node kind g) q := by
  refine ⟨node_steady h.left kind, node_steady h.right kind, fun s t hst hleft hright ↦ ?_⟩
  have hinside : Level p s.inside t.inside :=
    ⟨inside_similar hst.similar, hst.left.congr rfl, hst.right.congr rfl⟩
  obtain ⟨-, hinner, hs, ht⟩ := h.alike s.inside t.inside hinside hleft hright
  have houter : Tree.strippedForest (placeTrivia s).2.placed
      = Tree.strippedForest (placeTrivia t).2.placed := by
    rw [← (placeTrivia_similar hst.similar.left).placed,
      ← (placeTrivia_similar hst.similar.right).placed, hst.similar.placed]
  refine ⟨rfl, ⟨{ hinner.left with }, { hinner.right with }, hinner.ahead, ?_, hinner.reports,
    hinner.delimiters, hinner.reported⟩, hs.congr rfl, ht.congr rfl⟩
  change Tree.strippedForest
      (.node kind (f s.inside).2.placed.reverse :: (placeTrivia s).2.placed)
    = Tree.strippedForest (.node kind (g t.inside).2.placed.reverse :: (placeTrivia t).2.placed)
  rw [Tree.strippedForest_node, Tree.strippedForest_node, Tree.strippedForest_reverse,
    Tree.strippedForest_reverse, hinner.placed, houter]

theorem Encloses.alike {f g : Parse Unit} (h : Encloses (Alike .settled · · .loose) f g) :
    Alike .settled f g .loose := by
  induction h with
  | stuckLeft defect hg => exact .stuckLeft defect hg.steady
  | stuckRight defect hf => exact .stuckRight defect hf.steady
  | node _ hbody => exact node_alike hbody
  | look _ ih => exact current_alike.anywhere.bind ih

/-- Without a limit, every type may be entered. -/
theorem State.Sited.room_ne (h : s.Sited) : s.room ≠ some 0 := by
  rw [room, h.maxDepth]
  exact (Option.some_ne_none 0).symm

theorem entered_alike {f g : Parse Unit} (h : Encloses (Alike .settled · · .loose) f g) :
    Alike .settled (do if ← enter then f; leave) (do if ← enter then g; leave) .loose := by
  have hinner := h.alike
  refine ⟨entered_steady hinner.left, entered_steady hinner.right, fun s t hst hleft hright ↦ ?_⟩
  rw [entered_run hst.similar.left.room_ne] at hleft ⊢
  rw [entered_run hst.similar.right.room_ne] at hright ⊢
  have hentered : Level .settled s.entered t.entered :=
    ⟨{ hst.similar with left := { hst.similar.left with }, right := { hst.similar.right with } },
      hst.left, hst.right⟩
  obtain ⟨-, hafter, -, -⟩ := hinner.alike _ _ hentered hleft hright
  exact ⟨rfl, { hafter with left := { hafter.left with }, right := { hafter.right with } }, trivial,
    trivial⟩

theorem bounded_alike {k l : Nat → Parse Unit} (h : ∀ m n, Alike p (k m) (l n) q) :
    Alike p (do k (← get).ahead.length) (do l (← get).ahead.length) q :=
  ⟨Steady.get.bind fun _ ↦ (h _ 0).left, Steady.get.bind fun _ ↦ (h 0 _).right,
    fun s t ↦ (h s.ahead.length t.ahead.length).alike s t⟩

/-- Trivia make no difference to any step. -/
def blindness : Coupling where
  Holds := Alike
  pure := Alike.pure
  bind := Alike.bind
  anywhere := Alike.anywhere
  loosen := Alike.loosen
  stuckLeft := fun defect _ h ↦ Alike.stuckLeft defect h
  stuckRight := fun defect _ h ↦ Alike.stuckRight defect h
  current := current_alike
  followedBy := followedBy_alike
  isHalted := isHalted_alike
  isDone := isDone_alike
  unlessDone := unlessDone_alike
  bounded := bounded_alike
  bump := bump_alike
  eatTrivia := eatTrivia_alike
  report := report_alike
  openDelimiter := openDelimiter_alike
  closeDelimiter := closeDelimiter_alike
  node := fun _ h ↦ node_alike h
  entered := entered_alike

end

/-! ## Whole texts -/

section

variable {a b : String}

theorem initial_sited (source : String) : (State.initial source .unlimited).Sited where
  tiles := ⟨0, Token.lex_tiles source⟩
  solid := Token.lex_ne_empty source
  waiting := fun _ h ↦ absurd h List.not_mem_nil
  reported := nofun
  excess := rfl
  exec := rfl
  maxDepth := rfl

theorem lastState_similar (h : words (Token.lex a) = words (Token.lex b)) :
    (lastState .unlimited a).Similar (lastState .unlimited b) := by
  have hinitial : (State.initial a .unlimited).Similar (State.initial b .unlimited) :=
    ⟨initial_sited a, initial_sited b, h, rfl, rfl, rfl, iff_of_false nofun nofun⟩
  have halike : Alike .loose (rootParts (2 * (Token.lex a).length + 2))
      (rootParts (2 * (Token.lex b).length + 2)) .loose := blindness.rootParts _ _
  exact (halike.alike _ _ ⟨hinitial, trivial, trivial⟩ (lastState_ensures .unlimited a).1
    (lastState_ensures .unlimited b).1).2.similar

theorem length_diagnostics_parsed (s : State) : s.parsed.diagnostics.length = s.reports.length :=
  List.length_reverse

/-- Whether there are errors depends on what is said only. -/
theorem hasErrors_eq (parsed : Parsed) : parsed.hasErrors
    = (parsed.diagnostics.map Diagnostic.gist).any fun gist ↦ gist.1.severity = .error := by
  rw [Parsed.hasErrors, List.any_map]
  rfl

theorem readModule_of_ok {limits : Limits} {source : String} {parsed : Parsed}
    (h : Parsed.ofText limits source = .ok parsed) (origin : String) :
    readModule limits origin source = if parsed.hasErrors then
      .error (.invalid origin source (Diagnostic.filtered parsed.diagnostics))
    else .ok parsed.tree.outline.module := by
  obtain ⟨hexcess, rfl⟩ := ofText_eq_ok_iff.mp h
  rw [readModule_eq, hexcess]
  rfl

/-- **Blanks and comments never change a parse**: two texts with the same words, broken or not, have
trees with the same dump, and the same is reported of them in the same order, places aside. Both
are read as the same module, or neither is read as a module because of what was reported. -/
theorem parse_of_words_eq (h : words (Token.lex a) = words (Token.lex b)) :
    ∃ parsed other, Parsed.ofText .unlimited a = .ok parsed ∧
      Parsed.ofText .unlimited b = .ok other ∧
      parsed.tree.dumpLines = other.tree.dumpLines ∧
      parsed.diagnostics.map Diagnostic.gist = other.diagnostics.map Diagnostic.gist ∧
      ∀ origin place : String,
        (∃ m, readModule .unlimited origin a = .ok m ∧ readModule .unlimited place b = .ok m) ∨
        (∃ ds es, readModule .unlimited origin a = .error (.invalid origin a ds) ∧
          readModule .unlimited place b = .error (.invalid place b es)) := by
  have hlast := lastState_similar h
  have htrees : Tree.strippedForest (lastState .unlimited a).placed.reverse
      = Tree.strippedForest (lastState .unlimited b).placed.reverse := by
    rw [Tree.strippedForest_reverse, Tree.strippedForest_reverse, hlast.placed]
  have hgists : (lastState .unlimited a).parsed.diagnostics.map Diagnostic.gist
      = (lastState .unlimited b).parsed.diagnostics.map Diagnostic.gist := by
    rw [State.parsed, State.parsed, List.map_reverse, List.map_reverse, hlast.reports]
  refine ⟨_, _, ofText_unlimited a, ofText_unlimited b, Tree.dumpLines_of_stripped htrees, hgists,
    fun origin place ↦ ?_⟩
  have herrors : (lastState .unlimited a).parsed.hasErrors
      = (lastState .unlimited b).parsed.hasErrors := by
    rw [hasErrors_eq, hasErrors_eq, hgists]
  rw [readModule_of_ok (ofText_unlimited a), readModule_of_ok (ofText_unlimited b), herrors]
  by_cases hfaulty : (lastState .unlimited b).parsed.hasErrors = true
  · rw [if_pos hfaulty, if_pos hfaulty]
    exact .inr ⟨_, _, rfl, rfl⟩
  · rw [if_neg hfaulty, if_neg hfaulty]
    refine .inl ⟨_, ?_, rfl⟩
    exact congrArg (Except.ok ∘ Outline.module) (Tree.outline_of_stripped htrees)

/-- The broken text with a comment behind each of its lines and no blank elsewhere. -/
def brokenLines : String := "modul# no header\n A(T# no parenthesis\n=Record\n\n\x7b$ b:,C#"

theorem parse_of_words_eq_broken :
    ∃ parsed other, Parsed.ofText .unlimited broken = .ok parsed ∧
      Parsed.ofText .unlimited brokenLines = .ok other ∧ parsed.diagnostics.length = 6 ∧
      parsed.tree.dumpLines = other.tree.dumpLines ∧
      parsed.diagnostics.map Diagnostic.gist = other.diagnostics.map Diagnostic.gist := by
  have hwords : words (Token.lex broken) = words (Token.lex brokenLines) := by decide +kernel
  have hreports : (lastState .unlimited broken).reports.length = 6 := by decide +kernel
  obtain ⟨parsed, other, hparsed, hother, hdump, hgists, -⟩ := parse_of_words_eq hwords
  obtain rfl : (lastState .unlimited broken).parsed = parsed :=
    Except.ok.inj ((ofText_unlimited broken).symm.trans hparsed)
  have hlength := (length_diagnostics_parsed (lastState .unlimited broken)).trans hreports
  exact ⟨_, other, hparsed, hother, hlength, hdump, hgists⟩

end

end Syntax

end SchemaCodec
