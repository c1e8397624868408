import Mathlib.Data.List.Perm.Subperm
import SchemaCodec.Diagnostic.Snippet
import SchemaCodec.Proofs.Syntax.Keeping
import SchemaCodec.Proofs.Syntax.Trivia

/-!
# Where reports are made

Each diagnostic is made at a place, the next word or the end of the text, and each at a later place
than the one before. So there is one for a word at most, and one more for the end of the text.

## Why the latest report is enough

A report is held back only if the one before was made at the same place. No place is behind the next
word, so a report at another place than the latest one is made later than all of them. This is also
why a diagnostic may point backwards: that a delimiter stays open is reported at the next word, but
shown from the delimiter on.

## Spans that can be shown

All spans of a diagnostic begin where a token begins and end where one ends, or at the end of the
text. Tokens are cut between characters, and words have a text, so a span is within the text, splits
no character and is empty at the end of the text only, where widening it changes nothing.
-/

namespace SchemaCodec

/-- All spans of a diagnostic: what is shown, where it may explain others, and further places. -/
def Diagnostic.spans (d : Diagnostic) : List Span :=
  d.range :: d.suppression :: d.related.map Prod.snd

namespace Syntax

open Parse

/-! ## Places -/

/-- A span at which something can be reported: a token that is no trivia, or the end of the text. -/
inductive IsPlace (source : String) : Span → Prop
  | word {t : Token} (h : t ∈ Token.lex source) (hword : ¬t.kind.isTrivia = true) :
    IsPlace source t.span
  | ending : IsPlace source (.empty source.utf8ByteSize)

/-- A diagnostic that is made at a place. -/
inductive MadeAt (source : String) (place : Span) : Diagnostic → Prop
  /-- The place is shown. The diagnostic may explain what is there, or all that is behind a
  delimiter. -/
  | next (kind : DiagnosticKind) (detail : Option String) {reach : Span}
    (hreach : reach = place ∨ ∃ opening, IsPlace source opening ∧ opening.start ≤ place.start ∧
      reach = ⟨opening.start, source.utf8ByteSize⟩) :
    MadeAt source place { Diagnostic.plain kind place detail with suppression := reach }
  /-- All that is between a delimiter and the place is shown. -/
  | unclosed (missing : DiagnosticKind) (text : String) {opening : Span}
    (hopening : IsPlace source opening) (hbefore : opening.start ≤ place.start) :
    MadeAt source place { Diagnostic.plain missing ⟨opening.start, place.stop⟩ none with
      related := [(text, opening)] }

/-- A span between tokens, which is empty at the end of the text only. -/
structure Bounded (source : String) (span : Span) : Prop where
  start : span.start = source.utf8ByteSize ∨ ∃ t ∈ Token.lex source, span.start = t.start
  stop : span.stop = source.utf8ByteSize ∨ ∃ t ∈ Token.lex source, span.stop = t.stop
  ordered : span.start ≤ span.stop
  within : span.stop ≤ source.utf8ByteSize
  empty : span.start = span.stop → span.start = source.utf8ByteSize

section

variable {source : String} {place opening span : Span} {d : Diagnostic} {s t : State}

/-! ## Ends of tokens -/

/-- A token begins between two characters. -/
theorem isValid_start {t : Token} (h : t ∈ Token.lex source) :
    String.Pos.Raw.IsValid source ⟨t.start⟩ := by
  obtain ⟨before, after, hlex⟩ := List.append_of_mem h
  obtain ⟨htext, hstart⟩ := Token.start_of_lex hlex
  rw [String.append_assoc] at htext
  exact String.Pos.Raw.isValid_iff_exists_append.mpr
    ⟨_, _, htext, congrArg String.Pos.Raw.mk hstart⟩

/-- A token ends between two characters. -/
theorem isValid_stop {t : Token} (h : t ∈ Token.lex source) :
    String.Pos.Raw.IsValid source ⟨t.stop⟩ := by
  obtain ⟨before, after, hlex⟩ := List.append_of_mem h
  obtain ⟨htext, hstart⟩ := Token.start_of_lex hlex
  refine String.Pos.Raw.isValid_iff_exists_append.mpr ⟨_, _, htext, congrArg String.Pos.Raw.mk ?_⟩
  rw [Token.stop, hstart, ← String.utf8ByteSize_append]

theorem isValid_size (source : String) : String.Pos.Raw.IsValid source ⟨source.utf8ByteSize⟩ :=
  String.Pos.Raw.isValid_rawEndPos

namespace Bounded

theorem isValid (h : Bounded source span) :
    String.Pos.Raw.IsValid source ⟨span.start⟩ ∧ String.Pos.Raw.IsValid source ⟨span.stop⟩ := by
  constructor
  · rcases h.start with hsize | ⟨t, ht, hstart⟩
    · exact hsize ▸ isValid_size source
    · exact hstart ▸ isValid_start ht
  · rcases h.stop with hsize | ⟨t, ht, hstop⟩
    · exact hsize ▸ isValid_size source
    · exact hstop ▸ isValid_stop ht

/-- Widening does not change the span: where it is empty, nothing is behind it. -/
theorem widen_eq (h : Bounded source span) : Snippet.widen source.utf8ByteSize span = span := by
  rw [Snippet.widen]
  split
  · next hempty =>
    have hsize := h.empty hempty
    rw [hsize, Nat.min_eq_right (Nat.le_succ _)]
    exact congrArg₂ Span.mk hsize.symm (hsize.symm.trans hempty)
  · rfl

end Bounded

namespace IsPlace

theorem bounded (h : IsPlace source span) : Bounded source span := by
  cases h with
  | @word t h hword =>
    refine ⟨.inr ⟨t, h, rfl⟩, .inr ⟨t, h, rfl⟩, t.start_le_stop,
      (isValid_stop h).le_utf8ByteSize, fun hempty ↦ ?_⟩
    have hsize : t.text.utf8ByteSize ≠ 0 :=
      fun hzero ↦ Token.lex_ne_empty source t h (String.utf8ByteSize_eq_zero_iff.mp hzero)
    have hstop : t.start = t.start + t.text.utf8ByteSize := hempty
    omega
  | ending => exact ⟨.inl rfl, .inl rfl, Nat.le_refl _, Nat.le_refl _, fun _ ↦ rfl⟩

/-- Everything from one place up to a later one. -/
theorem bounded_upto (hopening : IsPlace source opening) (hplace : IsPlace source place)
    (hbefore : opening.start ≤ place.start) : Bounded source ⟨opening.start, place.stop⟩ where
  start := hopening.bounded.start
  stop := hplace.bounded.stop
  ordered := Nat.le_trans hbefore hplace.bounded.ordered
  within := hplace.bounded.within
  empty := fun hempty ↦ by
    -- nothing is in between, so the later place is empty
    have hstart : place.start = opening.start :=
      Nat.le_antisymm (hempty.symm ▸ hplace.bounded.ordered) hbefore
    exact hstart.symm.trans (hplace.bounded.empty (hstart.trans hempty))

theorem start_mem (h : IsPlace source span) :
    span.start ∈ ((Token.lex source).filter fun t ↦ !t.kind.isTrivia).map Token.start ++
      [source.utf8ByteSize] := by
  cases h with
  | word h hword =>
    refine List.mem_append_left _ (List.mem_map_of_mem (List.mem_filter.mpr ⟨h, ?_⟩))
    simpa using hword
  | ending => exact List.mem_append_right _ List.mem_cons_self

/-- There are no more places one behind another than words, and the end of the text. -/
theorem length_le {places : List Span} (h : ∀ place ∈ places, IsPlace source place)
    (hpairwise : (places.map Span.start).Pairwise (· < ·)) :
    places.length ≤ wordCount source + 1 := by
  have hsubset : places.map Span.start ⊆
      ((Token.lex source).filter fun t ↦ !t.kind.isTrivia).map Token.start ++
        [source.utf8ByteSize] := by
    intro offset hoffset
    obtain ⟨place, hplace, rfl⟩ := List.mem_map.mp hoffset
    exact (h place hplace).start_mem
  have hnodup : (places.map Span.start).Nodup := hpairwise.imp Nat.ne_of_lt
  have hle := (hnodup.subperm hsubset).length_le
  rwa [List.length_map, List.length_append, List.length_map, List.length_singleton,
    ← List.length_map Token.terminal] at hle

end IsPlace

theorem MadeAt.bounded (h : MadeAt source place d) (hplace : IsPlace source place) :
    ∀ span ∈ d.spans, Bounded source span := by
  cases h with
  | next kind detail hreach =>
    refine List.forall_mem_cons.mpr ⟨hplace.bounded, List.forall_mem_cons.mpr ⟨?_, nofun⟩⟩
    rcases hreach with rfl | ⟨opening, hopening, hbefore, rfl⟩
    · exact hplace.bounded
    · exact hopening.bounded_upto .ending (hopening.bounded.ordered.trans hopening.bounded.within)
  | unclosed missing text hopening hbefore =>
    have hrange := hopening.bounded_upto hplace hbefore
    exact List.forall_mem_cons.mpr ⟨hrange, List.forall_mem_cons.mpr ⟨hrange,
      List.forall_mem_cons.mpr ⟨hopening.bounded, nofun⟩⟩⟩

/-! ## States -/

theorem State.outlook_eq_iff : t.outlook = s.outlook ↔ t.ahead = s.ahead ∧ t.reports = s.reports ∧
    t.delimiters = s.delimiters ∧ t.reportedAt = s.reportedAt ∧ t.stop = s.stop := by
  simp only [State.outlook, Prod.mk.injEq]

theorem State.place_congr (h : t.outlook = s.outlook) : t.place = s.place := by
  obtain ⟨hahead, -, -, -, hstop⟩ := State.outlook_eq_iff.mp h
  change ((t.ahead.dropWhile _).head?.map Token.start).getD t.stop = _
  rw [hahead, hstop]
  rfl

/-- What a report at a span may explain: that span, or all that is behind the innermost open
delimiter. -/
def State.reach (s : State) (range : Span) : Span :=
  match s.delimiters with
  | [] => range
  | opening :: _ => ⟨opening.start, s.stop⟩

theorem report_eq (kind : DiagnosticKind) (detail : Option String) :
    report kind detail = announce (fun range ↦ do
      emit { Diagnostic.plain kind range detail with suppression := (← get).reach range }) := rfl

/-- A state whose reports were made at places one behind another, none of them behind the next word.
The delimiters that are open were places as well. -/
structure Told (source : String) (s : State) : Prop where
  ahead : s.ahead <:+ Token.lex source
  stop : s.stop = source.utf8ByteSize
  delimiters : ∀ opening ∈ s.delimiters, IsPlace source opening ∧ opening.start ≤ s.place
  reports : ∃ places, (∀ place ∈ places, IsPlace source place ∧ place.start ≤ s.place) ∧
    (places.map Span.start).Pairwise (· > ·) ∧ List.Forall₂ (MadeAt source) places s.reports ∧
      s.reportedAt = places.head?.map Span.start

namespace Told

theorem initial (source : String) (limits : Limits) : Told source (.initial source limits) where
  ahead := List.suffix_refl _
  stop := rfl
  delimiters := nofun
  reports := ⟨[], nofun, .nil, .nil, rfl⟩

theorem tiles (h : Told source s) : ∃ start, Token.Tiles start s.ahead s.stop := by
  obtain ⟨before, hlex⟩ := h.ahead
  have htiles := Token.lex_tiles source
  rw [← hlex, ← h.stop] at htiles
  obtain ⟨mid, -, hmid⟩ := htiles.of_append
  exact ⟨mid, hmid⟩

/-- A state at the same place or a later one, of which the same is said. -/
theorem later (h : Told source s) (hahead : t.ahead <:+ s.ahead) (hstop : t.stop = s.stop)
    (hplace : s.place ≤ t.place) (hdelimiters : t.delimiters ⊆ s.delimiters)
    (hreports : t.reports = s.reports) (hreported : t.reportedAt = s.reportedAt) :
    Told source t := by
  obtain ⟨places, hplaces, hpairwise, hmade, hlatest⟩ := h.reports
  refine ⟨hahead.trans h.ahead, hstop.trans h.stop, fun opening hopening ↦ ?_,
    places, fun place hmem ↦ ?_, hpairwise, hreports ▸ hmade, hreported.trans hlatest⟩
  · obtain ⟨hisPlace, hbefore⟩ := h.delimiters opening (hdelimiters hopening)
    exact ⟨hisPlace, hbefore.trans hplace⟩
  · obtain ⟨hisPlace, hbefore⟩ := hplaces place hmem
    exact ⟨hisPlace, hbefore.trans hplace⟩

theorem congr (h : Told source s) (heq : t.outlook = s.outlook) : Told source t := by
  obtain ⟨hahead, hreports, hdelimiters, hreported, hstop⟩ := State.outlook_eq_iff.mp heq
  exact h.later (hahead ▸ List.suffix_refl _) hstop (State.place_congr heq).ge
    (hdelimiters ▸ List.Subset.refl _) hreports hreported

theorem settle (h : Told source s) : Told source (settle s).2 :=
  h.later (List.dropWhile_suffix _) rfl (State.place_settle s).ge (List.Subset.refl _) rfl rfl

/-- The next word is a place. -/
theorem isPlace (h : Told source s) : IsPlace source (currentSpan s).1 := by
  change IsPlace source (((s.ahead.dropWhile _).head?.map Token.span).getD (.empty s.stop))
  rcases hahead : s.ahead.dropWhile (·.kind.isTrivia) with - | ⟨t, rest⟩
  · rw [hahead, h.stop]
    exact .ending
  · rw [hahead]
    have hsuffix : t :: rest <:+ Token.lex source := hahead ▸ h.settle.ahead
    have hword := not_isTrivia_dropWhile s.ahead t (by rw [hahead]; rfl)
    exact .word (hsuffix.subset List.mem_cons_self) hword

/-- What is said of the next word is said at a later place than all that was reported. -/
theorem announce {say : Span → Parse Unit} (h : Told source s)
    (hmade : MadeAt source (currentSpan s).1 d)
    (hsay : say (currentSpan s).1 { (Parse.settle s).2 with reportedAt := some s.place }
      = ((), { (Parse.settle s).2 with reportedAt := some s.place, reports := d :: s.reports })) :
    Told source (announce say s).2 := by
  rw [announce_eq]
  split
  · exact h.settle
  · next hnew =>
    rw [hsay]
    obtain ⟨places, hplaces, hpairwise, hreports, hlatest⟩ := h.settle.reports
    have hstart : (currentSpan s).1.start = s.place := currentSpan_start s
    have hlater : ∀ offset ∈ places.map Span.start, offset < s.place := by
      rcases places with - | ⟨latest, earlier⟩
      · exact nofun
      · have hhead : latest.start < s.place := by
          have hle := (hplaces latest List.mem_cons_self).2
          rw [State.place_settle] at hle
          exact Nat.lt_of_le_of_ne hle fun heq ↦ hnew (hlatest.trans (congrArg some heq))
        exact List.forall_mem_cons.mpr ⟨hhead, fun offset hoffset ↦
          Nat.lt_trans (List.rel_of_pairwise_cons hpairwise hoffset) hhead⟩
    refine ⟨h.settle.ahead, h.settle.stop, h.settle.delimiters, (currentSpan s).1 :: places,
      List.forall_mem_cons.mpr ⟨⟨h.isPlace, ?_⟩, hplaces⟩, ?_, .cons hmade hreports,
      congrArg some hstart.symm⟩
    · exact (hstart.trans (State.place_settle s).symm).le
    · rw [List.map_cons, List.pairwise_cons, hstart]
      exact ⟨hlater, hpairwise⟩

theorem report (h : Told source s) (kind : DiagnosticKind) (detail : Option String) :
    Told source (report kind detail s).2 := by
  rw [report_eq]
  refine h.announce (.next kind detail ?_) rfl
  rw [State.reach]
  split
  · exact .inl rfl
  · next opening _ hdelimiters =>
    obtain ⟨hopening, hbefore⟩ := h.delimiters opening (hdelimiters ▸ List.mem_cons_self)
    rw [← currentSpan_start] at hbefore
    exact .inr ⟨opening, hopening, hbefore, congrArg (Span.mk _) h.stop⟩

theorem openDelimiter (h : Told source s) : Told source (openDelimiter s).2 where
  ahead := h.settle.ahead
  stop := h.stop
  delimiters := List.forall_mem_cons.mpr ⟨⟨h.isPlace,
    ((currentSpan_start s).trans (State.place_settle s).symm).le⟩, h.settle.delimiters⟩
  reports := h.settle.reports

theorem unclosed (h : Told source s) (missing : DiagnosticKind) (opened : String)
    (heq : t.outlook = (Parse.settle { s with delimiters := s.delimiters.drop 1 }).2.outlook) :
    Told source (unclosed missing opened s.delimiters t).2 := by
  have hpopped : Told source { s with delimiters := s.delimiters.drop 1 } :=
    h.later (List.suffix_refl _) rfl (Nat.le_refl _) (List.drop_subset _ _) rfl rfl
  have ht : Told source t := hpopped.settle.congr heq
  have hplace : s.place = t.place := by
    rw [State.place_congr heq, State.place_settle]
    rfl
  rcases hdelimiters : s.delimiters with - | ⟨opening, outer⟩
  · exact ht
  · obtain ⟨hopening, hbefore⟩ := h.delimiters opening (hdelimiters ▸ List.mem_cons_self)
    rw [hplace, ← currentSpan_start] at hbefore
    exact ht.announce (.unclosed missing _ hopening hbefore) rfl

theorem next (h : Told source s) {t : Token} {rest : List Token} (hahead : s.ahead = t :: rest)
    (hword : ¬t.kind.isTrivia = true) : Told source { s with ahead := rest } := by
  obtain ⟨start, htiles⟩ := h.tiles
  have hmem : t ∈ Token.lex source := h.ahead.subset (by rw [hahead]; exact List.mem_cons_self)
  have hplace : s.place < State.place { s with ahead := rest } :=
    State.place_lt hahead htiles hword (Token.lex_ne_empty source t hmem) rfl rfl
  exact h.later (by rw [hahead]; exact List.suffix_cons t rest) rfl hplace.le
    (List.Subset.refl _) rfl rfl

/-- No step of the cursor reports at a place twice. -/
theorem kept (source : String) : Kept (Told source) where
  congr := Told.congr
  settle := Told.settle
  next := fun h hahead hword ↦ h.next hahead hword
  report := fun kind detail h ↦ h.report kind detail
  openDelimiter := Told.openDelimiter
  closed := fun h ↦ h.later (List.suffix_refl _) rfl (Nat.le_refl _) (List.drop_subset _ _) rfl rfl
  unclosed := fun missing opened h heq ↦ h.unclosed missing opened heq

end Told

/-! ## Whole texts -/

/-- What is shown of a diagnostic are some of its spans. -/
theorem Bounded.of_note {note : Snippet.Note} (h : ∀ span ∈ d.spans, Bounded source span)
    (hnote : note ∈ Snippet.notes source.utf8ByteSize d) : Bounded source note.range := by
  obtain ⟨hrange, hothers⟩ := List.forall_mem_cons.mp h
  rcases List.mem_cons.mp hnote with rfl | hrelated
  · change Bounded source (Snippet.widen source.utf8ByteSize d.range)
    rwa [hrange.widen_eq]
  · obtain ⟨⟨label, range⟩, hplace, rfl⟩ := List.mem_map.mp hrelated
    have hbounded : Bounded source range :=
      hothers range (List.mem_cons_of_mem _ (List.mem_map_of_mem hplace))
    change Bounded source (Snippet.widen source.utf8ByteSize range)
    rwa [hbounded.widen_eq]

/-- **Reports are made at places one behind another, and their spans can be shown.** Whatever a text
looks like, each diagnostic is made at a later word than the one before, or at the end of the text,
so there is at most one more of them than there are words. All of their spans lie between tokens and
are empty at the end of the text only, and what is shown is within the text and splits no
character. -/
theorem diagnostics_placed {limits : Limits} {parsed : Parsed}
    (h : Parsed.ofText limits source = .ok parsed) :
    (∃ places, (∀ place ∈ places, IsPlace source place) ∧
      (places.map Span.start).Pairwise (· < ·) ∧
        List.Forall₂ (MadeAt source) places parsed.diagnostics) ∧
    parsed.diagnostics.length ≤ wordCount source + 1 ∧
    (∀ d ∈ parsed.diagnostics, ∀ span ∈ d.spans, Bounded source span) ∧
    ∀ d ∈ parsed.diagnostics, ∀ note ∈ Snippet.notes source.utf8ByteSize d,
      note.range.start ≤ note.range.stop ∧ note.range.stop ≤ source.utf8ByteSize ∧
        String.Pos.Raw.IsValid source ⟨note.range.start⟩ ∧
          String.Pos.Raw.IsValid source ⟨note.range.stop⟩ := by
  obtain ⟨places, hplaces, hmade⟩ : ∃ places, ((∀ place ∈ places, IsPlace source place) ∧
      (places.map Span.start).Pairwise (· < ·)) ∧
        List.Forall₂ (MadeAt source) places parsed.diagnostics := by
    obtain ⟨-, rfl⟩ := ofText_eq_ok_iff.mp h
    obtain ⟨places, hplaces, hpairwise, hmade, -⟩ :=
      ((Told.kept source).lastState (Told.initial source limits)).reports
    refine ⟨places.reverse,
      ⟨fun place hplace ↦ (hplaces place (List.mem_reverse.mp hplace)).1, ?_⟩, ?_⟩
    · rw [List.map_reverse]
      exact List.pairwise_reverse.mpr hpairwise
    · rw [run_eq]
      exact List.forall₂_reverse_iff.mpr hmade
  have hbounded : ∀ d ∈ parsed.diagnostics, ∀ span ∈ d.spans, Bounded source span := by
    intro d hd
    obtain ⟨i, rfl⟩ := List.get_of_mem hd
    have hi : i < places.length := i.isLt.trans_eq hmade.length_eq.symm
    exact (hmade.get hi i.isLt).bounded (hplaces.1 _ (List.get_mem _ _))
  refine ⟨⟨places, hplaces.1, hplaces.2, hmade⟩, ?_, hbounded, fun d hd note hnote ↦ ?_⟩
  · rw [← hmade.length_eq]
    exact IsPlace.length_le hplaces.1 hplaces.2
  · have hnote := Bounded.of_note (hbounded d hd) hnote
    exact ⟨hnote.ordered, hnote.within, hnote.isValid⟩

/-- A text of which something is reported from a delimiter on, between two other reports. -/
def halfOpen : String := "module M\nA = Record \x7b é: F(\nB = C\nD ="

theorem diagnostics_placed_halfOpen :
    ∃ parsed, Parsed.ofText .standard halfOpen = .ok parsed ∧
      parsed.diagnostics.map Diagnostic.range = [⟨22, 24⟩, ⟨27, 28⟩, ⟨20, 30⟩, ⟨38, 38⟩] ∧
      (∃ places : List Span, places.length = 4 ∧ (places.map Span.start).Pairwise (· < ·)) ∧
      parsed.diagnostics.length ≤ wordCount halfOpen + 1 ∧
      Bounded halfOpen ⟨20, 30⟩ ∧ Bounded halfOpen ⟨38, 38⟩ := by
  have hexcess : (Parsed.run .standard halfOpen).2.excess = none := by decide +kernel
  have hreports : (Parsed.run .standard halfOpen).2.reports.reverse.map Diagnostic.range
      = [⟨22, 24⟩, ⟨27, 28⟩, ⟨20, 30⟩, ⟨38, 38⟩] := by decide +kernel
  obtain ⟨parsed, hparsed⟩ : ∃ parsed, Parsed.ofText .standard halfOpen = .ok parsed :=
    ⟨_, ofText_eq_ok_iff.mpr ⟨hexcess, rfl⟩⟩
  have hranges : parsed.diagnostics.map Diagnostic.range
      = [⟨22, 24⟩, ⟨27, 28⟩, ⟨20, 30⟩, ⟨38, 38⟩] := by
    rw [← (ofText_eq_ok_iff.mp hparsed).2, hreports]
  obtain ⟨⟨places, -, hpairwise, hmade⟩, hlength, hbounded, -⟩ := diagnostics_placed hparsed
  have hall : ∀ span ∈ parsed.diagnostics.map Diagnostic.range, Bounded halfOpen span :=
    List.forall_mem_map.mpr fun d hd ↦ hbounded d hd d.range List.mem_cons_self
  have hfour : places.length = 4 := by
    rw [hmade.length_eq, ← List.length_map Diagnostic.range, hranges]
    rfl
  rw [hranges] at hall
  exact ⟨parsed, hparsed, hranges, ⟨places, hfour, hpairwise⟩, hlength,
    hall _ (by decide), hall _ (by decide)⟩

end

end Syntax

end SchemaCodec
