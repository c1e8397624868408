import SchemaCodec.Expansion.Basic
import SchemaCodec.Proofs.Syntax.Names

/-!
# Types read back from their texts

An instance of a generic declaration is named after the texts of its arguments, so it is told from
other instances only if these texts determine the arguments. They do, where all names in them are
names that the lexer reads: a text begins with a word, and the character after the word tells which
kind of type it is. Names of instances stand inside other names, and there a text ends at a comma, a
blank or a parenthesis that it has not opened itself.

## What the text leaves open

The builtin name `None` has the text of the shape it stands for. It comes up in optional types only,
and a type is therefore read back up to replacing it by the shape.
-/

namespace SchemaCodec

open Syntax

/-! ## Words -/

/-- A text whose first character, if there is one, is not part of a name. -/
def Stops (rest : List Char) : Prop := ∀ c ∈ rest.head?, Token.isNamePart c = false

theorem stops_cons {c : Char} (h : Token.isNamePart c = false) (rest : List Char) :
    Stops (c :: rest) := by
  intro d hd
  rw [← Option.some_inj.mp hd]
  exact h

/-- A word ends where the characters of names end. -/
theorem word_append_inj {word other rest more : List Char} (hword : IsWord word)
    (hother : IsWord other) (hrest : Stops rest) (hmore : Stops more)
    (h : word ++ rest = other ++ more) : word = other ∧ rest = more := by
  have htake : ∀ {word rest : List Char}, IsWord word → Stops rest →
      (word ++ rest).takeWhile Token.isNamePart = word := by
    intro word rest hword hrest
    rw [List.takeWhile_append_of_pos hword]
    cases rest with
    | nil => exact List.append_nil word
    | cons c rest =>
      rw [List.takeWhile_cons_of_neg (by rw [hrest c rfl]; decide), List.append_nil]
  have heq : word = other := by rw [← htake hword hrest, h, htake hother hmore]
  exact ⟨heq, List.append_cancel_left (heq ▸ h)⟩

/-- What comes behind a type in a text: nothing, or a character that the type has no part in. -/
def IsEnd (rest : List Char) : Prop := ∀ c ∈ rest.head?, c = ',' ∨ c = ')' ∨ c = ' '

theorem IsEnd.stops {rest : List Char} (h : IsEnd rest) : Stops rest := by
  intro c hc
  rcases h c hc with rfl | rfl | rfl <;> rfl

/-- A text that begins with a character of names. -/
def Begins (chars : List Char) : Prop := ∃ c rest, chars = c :: rest ∧ Token.isNamePart c = true

theorem Syntax.IsName.begins {name : String} (h : IsName name) (rest : List Char) :
    Begins (name.toList ++ rest) := by
  obtain ⟨c, chars, hchars, hstart, -⟩ := h.toList
  refine ⟨c, chars ++ rest, by rw [hchars, List.cons_append], ?_⟩
  rw [Token.isNamePart, hstart]
  rfl

/-! ## Lists between commas -/

section

variable {α : Type} {part : α → List Char}

/-- Parts that follow another one, each behind a comma. -/
def further (part : α → List Char) (items : List α) : List Char :=
  items.flatMap fun item ↦ ',' :: ' ' :: part item

/-- Parts with commas between them. -/
def joined (part : α → List Char) : List α → List Char
  | [] => []
  | item :: rest => part item ++ further part rest

/-- The parts of two lists are told apart by their texts, whatever comes behind them. -/
def Distinguished (part : α → List Char) (items others : List α) : Prop :=
  ∀ item ∈ items, ∀ other ∈ others, ∀ {rest more : List Char}, IsEnd rest → IsEnd more →
    part item ++ rest = part other ++ more → item = other ∧ rest = more

theorem isEnd_further {close : Char} (hclose : close = ')' ∨ close = ' ') (items : List α)
    (rest : List Char) : IsEnd (further part items ++ close :: rest) := by
  intro c hc
  cases items with
  | nil =>
    cases hc
    exact .inr hclose
  | cons item items =>
    cases hc
    exact .inl rfl

theorem further_append_inj {items others : List α} (h : Distinguished part items others)
    {close : Char} (hclose : close = ')' ∨ close = ' ') {rest more : List Char}
    (heq : further part items ++ close :: rest = further part others ++ close :: more) :
    items = others ∧ rest = more := by
  have hcomma : close ≠ ',' := by
    rcases hclose with rfl | rfl <;> decide
  induction items generalizing others with
  | nil =>
    cases others with
    | nil => exact ⟨rfl, (List.cons.inj heq).2⟩
    | cons other others => exact absurd (List.cons.inj heq).1 hcomma
  | cons item items ih =>
    cases others with
    | nil => exact absurd (List.cons.inj heq).1.symm hcomma
    | cons other others =>
      have hparts : part item ++ (further part items ++ close :: rest)
          = part other ++ (further part others ++ close :: more) := by
        simpa [further] using heq
      obtain ⟨rfl, hfurther⟩ := h item List.mem_cons_self other List.mem_cons_self
        (isEnd_further hclose items rest) (isEnd_further hclose others more) hparts
      obtain ⟨rfl, hrest⟩ := ih (fun a ha b hb ↦ h a (List.mem_cons_of_mem _ ha) b
        (List.mem_cons_of_mem _ hb)) hfurther
      exact ⟨rfl, hrest⟩

theorem joined_append_inj {items others : List α} (h : Distinguished part items others)
    (hitems : ∀ item ∈ items, Begins (part item)) (hothers : ∀ other ∈ others, Begins (part other))
    {close : Char} (hclose : close = ')' ∨ close = ' ') {rest more : List Char}
    (heq : joined part items ++ close :: rest = joined part others ++ close :: more) :
    items = others ∧ rest = more := by
  have hname : Token.isNamePart close = false := by
    rcases hclose with rfl | rfl <;> rfl
  -- with a part in front the list does not begin with what closes it
  have hne : ∀ {item : α} {items : List α} {rest more : List Char}, Begins (part item) →
      joined part (item :: items) ++ close :: rest ≠ close :: more := by
    rintro item items rest more ⟨c, chars, hchars, hc⟩ heq
    rw [joined, hchars] at heq
    rw [(List.cons.inj heq).1, hname] at hc
    cases hc
  cases items with
  | nil =>
    cases others with
    | nil => exact ⟨rfl, (List.cons.inj heq).2⟩
    | cons other others => exact absurd heq.symm (hne (hothers other List.mem_cons_self))
  | cons item items =>
    cases others with
    | nil => exact absurd heq (hne (hitems item List.mem_cons_self))
    | cons other others =>
      -- a comma in front makes all parts alike
      refine further_append_inj h hclose ?_
      simpa [joined, further] using heq

end

/-! ## Texts of types -/

theorem Kind.isWord_name (kind : Kind) : IsWord kind.name.toList := by
  have hall : kind.name.toList.all Token.isNamePart = true := by cases kind <;> decide
  exact List.all_eq_true.mp hall

theorem Kind.name_toList_ne_nil (kind : Kind) : kind.name.toList ≠ [] := by
  cases kind <;> decide

theorem Kind.name_inj {kind other : Kind} (h : kind.name = other.name) : kind = other := by
  cases kind <;> cases other <;> first | rfl | exact absurd h (by decide)

namespace Ty

/-- The word a text begins with. -/
def lead : Ty → List Char
  | ref key => (key.module.getD key.name).toList
  | ty => ty.kind.name.toList

theorem lead_of_kind {ty : Ty} (h : ty.kind ≠ .ref) : ty.lead = ty.kind.name.toList := by
  cases ty with
  | ref key => exact absurd rfl h
  | _ => rfl

/-- An entry as name and type. -/
def entryText (entry : String × Ty) : List Char :=
  entry.1.toList ++ ':' :: ' ' :: entry.2.text.toList

/-- A text behind its first word. -/
def body : Ty → List Char
  | array element => '(' :: (element.text.toList ++ [')'])
  | record entries | choice entries =>
    ' ' :: '\x7b' :: ' ' :: (joined entryText entries ++ [' ', '\x7d'])
  | ref ⟨some _, name⟩ => '.' :: name.toList
  | _ => []

theorem furtherText_toList (entries : List (String × Ty)) :
    (furtherText entries).toList = further entryText entries := by
  induction entries with
  | nil => rfl
  | cons entry entries ih => simp [furtherText, further, entryText, ih]

theorem entriesText_toList (entries : List (String × Ty)) :
    (entriesText entries).toList = joined entryText entries := by
  cases entries with
  | nil => rfl
  | cons entry entries => simp [entriesText, joined, entryText, furtherText_toList]

theorem text_eq (ty : Ty) : ty.text.toList = ty.lead ++ ty.body := by
  cases ty with
  | array element => simp [text, lead, body, kind, Kind.name]
  | record entries => simp [text, lead, body, kind, Kind.name, entriesText_toList]
  | choice entries => simp [text, lead, body, kind, Kind.name, entriesText_toList]
  | ref key =>
    obtain ⟨module, name⟩ := key
    cases module <;> simp [text, lead, body, Key.text]
  | _ => exact (List.append_nil _).symm

end Ty

namespace Expansion

/-- The text of the name of an instance. -/
theorem instanceKey_name_toList (module : String) (decl : Decl) (args : List Ty) :
    (instanceKey module decl args).name.toList
      = decl.name.toList ++ '(' :: (joined (fun arg ↦ arg.text.toList) args ++ [')']) := by
  have hargs : (", ".intercalate (args.map Ty.text)).toList
      = joined (fun arg ↦ arg.text.toList) args := by
    induction args with
    | nil => rfl
    | cons arg args ih =>
      cases args with
      | nil => simp [joined, further]
      | cons next args =>
        rw [List.map_cons, List.map_cons, String.intercalate_cons_cons, ← List.map_cons,
          String.toList_append, ih]
        simp [joined, further]
  simp [instanceKey, Key.qualified, hargs]

/-- Types whose text can be read back: all names in them are names that the lexer reads, and
references are to declarations or to instances. -/
inductive Legible : Ty → Prop
  | leaf {b : Builtin} {shape : Ty} (h : b.shape? = some shape) : Legible shape
  | array {element : Ty} (h : Legible element) : Legible (.array element)
  | record {entries : List (String × Ty)} (hnames : ∀ entry ∈ entries, IsName entry.1)
    (h : ∀ entry ∈ entries, Legible entry.2) : Legible (.record entries)
  | choice {entries : List (String × Ty)} (hnames : ∀ entry ∈ entries, IsName entry.1)
    (h : ∀ entry ∈ entries, Legible entry.2) : Legible (.choice entries)
  | declared {module name : String} (hmodule : IsName module) (hname : IsName name) :
    Legible (.ref (.qualified module name))
  | made {module : String} {decl : Decl} {args : List Ty} (hmodule : IsName module)
    (hname : IsName decl.name) (h : ∀ arg ∈ args, Legible arg) :
    Legible (.ref (instanceKey module decl args))

namespace Legible

variable {ty other : Ty}

/-! ## Which kind of type a text shows -/

theorem kind_or_ref (h : Legible ty) : ty.kind ≠ .ref ∨
    ∃ module name, ty = .ref (.qualified module name) ∧ IsName module := by
  cases h with
  | @leaf b _ hshape =>
    left
    cases b <;> cases hshape <;> exact Kind.noConfusion
  | array | record | choice => exact .inl Kind.noConfusion
  | declared hmodule _ => exact .inr ⟨_, _, rfl, hmodule⟩
  | made hmodule _ _ => exact .inr ⟨_, _, rfl, hmodule⟩

theorem isWord_lead (h : Legible ty) : IsWord ty.lead ∧ ty.lead ≠ [] := by
  rcases h.kind_or_ref with hkind | ⟨module, name, rfl, hmodule⟩
  · rw [Ty.lead_of_kind hkind]
    exact ⟨ty.kind.isWord_name, ty.kind.name_toList_ne_nil⟩
  · obtain ⟨c, rest, hchars, -, -⟩ := hmodule.toList
    refine ⟨hmodule.isWord, ?_⟩
    change module.toList ≠ []
    rw [hchars]
    exact List.cons_ne_nil c rest

theorem begins (h : Legible ty) : Begins ty.text.toList := by
  obtain ⟨hword, hne⟩ := h.isWord_lead
  obtain ⟨c, rest, hlead⟩ := List.exists_cons_of_ne_nil hne
  refine ⟨c, rest ++ ty.body, by rw [Ty.text_eq, hlead, List.cons_append], ?_⟩
  exact hword c (hlead ▸ List.mem_cons_self)

/-- Behind the first word stands a dot if the type is a reference, and else no part of a name. -/
theorem head_body (h : Legible ty) {rest : List Char} (hrest : IsEnd rest) :
    Stops (ty.body ++ rest) ∧ ((ty.body ++ rest).head? = some '.' ↔ ty.kind = .ref) := by
  have hdot : rest.head? ≠ some '.' := by
    intro hhead
    rcases hrest '.' hhead with heq | heq | heq <;> exact absurd heq (by decide)
  cases h with
  | @leaf b _ hshape =>
    cases b <;> cases hshape <;> exact ⟨hrest.stops, iff_of_false hdot Kind.noConfusion⟩
  | array => exact ⟨stops_cons rfl _, iff_of_false (by simp [Ty.body]) Kind.noConfusion⟩
  | record => exact ⟨stops_cons rfl _, iff_of_false (by simp [Ty.body]) Kind.noConfusion⟩
  | choice => exact ⟨stops_cons rfl _, iff_of_false (by simp [Ty.body]) Kind.noConfusion⟩
  | declared => exact ⟨stops_cons rfl _, iff_of_true rfl rfl⟩
  | made => exact ⟨stops_cons rfl _, iff_of_true rfl rfl⟩

/-- Types of one text are of one kind and begin with the same word. -/
theorem kind_eq (h : Legible ty) (hother : Legible other) {rest more : List Char}
    (hrest : IsEnd rest) (hmore : IsEnd more)
    (heq : ty.text.toList ++ rest = other.text.toList ++ more) :
    ty.kind = other.kind ∧ ty.lead = other.lead ∧ ty.body ++ rest = other.body ++ more := by
  rw [Ty.text_eq, Ty.text_eq, List.append_assoc, List.append_assoc] at heq
  obtain ⟨hstops, hdot⟩ := h.head_body hrest
  obtain ⟨hstopsOther, hdotOther⟩ := hother.head_body hmore
  obtain ⟨hlead, hbody⟩ :=
    word_append_inj h.isWord_lead.1 hother.isWord_lead.1 hstops hstopsOther heq
  refine ⟨?_, hlead, hbody⟩
  have href : ty.kind = .ref ↔ other.kind = .ref := by rw [← hdot, hbody, hdotOther]
  by_cases hkind : ty.kind = .ref
  · rw [hkind, href.mp hkind]
  · rw [Ty.lead_of_kind hkind, Ty.lead_of_kind (mt href.mpr hkind)] at hlead
    exact Kind.name_inj (String.toList_inj.mp hlead)

/-! ## Types of one kind -/

theorem of_kind_array (h : Legible ty) (hkind : ty.kind = .array) :
    ∃ element, ty = .array element ∧ Legible element := by
  cases h with
  | @leaf b _ hshape => cases b <;> cases hshape <;> cases hkind
  | array h => exact ⟨_, rfl, h⟩
  | _ => cases hkind

theorem of_kind_record (h : Legible ty) (hkind : ty.kind = .record) :
    ∃ entries, ty = .record entries ∧ (∀ entry ∈ entries, IsName entry.1) ∧
      ∀ entry ∈ entries, Legible entry.2 := by
  cases h with
  | @leaf b _ hshape => cases b <;> cases hshape <;> cases hkind
  | record hnames h => exact ⟨_, rfl, hnames, h⟩
  | _ => cases hkind

theorem of_kind_choice (h : Legible ty) (hkind : ty.kind = .choice) :
    ∃ entries, ty = .choice entries ∧ (∀ entry ∈ entries, IsName entry.1) ∧
      ∀ entry ∈ entries, Legible entry.2 := by
  cases h with
  | @leaf b _ hshape => cases b <;> cases hshape <;> cases hkind
  | choice hnames h => exact ⟨_, rfl, hnames, h⟩
  | _ => cases hkind

theorem of_kind_ref (h : Legible ty) (hkind : ty.kind = .ref) :
    (∃ module name, ty = .ref (.qualified module name) ∧ IsName name) ∨
    ∃ module decl args, ty = .ref (instanceKey module decl args) ∧ IsName decl.name ∧
      ∀ arg ∈ args, Legible arg := by
  cases h with
  | @leaf b _ hshape => cases b <;> cases hshape <;> cases hkind
  | declared _ hname => exact .inl ⟨_, _, rfl, hname⟩
  | made _ hname h => exact .inr ⟨_, _, _, rfl, hname, h⟩
  | _ => cases hkind

theorem of_shape {b : Builtin} (hshape : b.shape? = some ty) (h : Legible other)
    (hkind : ty.kind = other.kind) : ty = other := by
  cases h with
  | @leaf c _ hother =>
    cases b <;> cases hshape <;> cases c <;> cases hother <;> first | rfl | cases hkind
  | _ => cases b <;> cases hshape <;> cases hkind

/-! ## The type of a text -/

/-- A type is told from all others by its text, whatever comes behind it. -/
def ToldApart (ty : Ty) : Prop :=
  ∀ {other : Ty}, Legible other → ∀ {rest more : List Char}, IsEnd rest → IsEnd more →
    ty.text.toList ++ rest = other.text.toList ++ more → ty = other ∧ rest = more

theorem entries_append_inj {entries others : List (String × Ty)}
    (hnames : ∀ entry ∈ entries, IsName entry.1) (h : ∀ entry ∈ entries, ToldApart entry.2)
    (hothers : ∀ other ∈ others, IsName other.1) (hother : ∀ other ∈ others, Legible other.2)
    {rest more : List Char}
    (heq : joined Ty.entryText entries ++ ' ' :: rest = joined Ty.entryText others ++ ' ' :: more) :
    entries = others ∧ rest = more := by
  have hbegins : ∀ entry : String × Ty, IsName entry.1 → Begins (Ty.entryText entry) := by
    intro entry hname
    exact hname.begins _
  refine joined_append_inj ?_ (fun entry hmem ↦ hbegins entry (hnames entry hmem))
    (fun other hmem ↦ hbegins other (hothers other hmem)) (.inr rfl) heq
  intro entry hentry other hmem rest more hrest hmore htext
  -- the name ends at the colon, and the type behind it is told apart
  rw [Ty.entryText, Ty.entryText, List.append_assoc, List.append_assoc] at htext
  obtain ⟨hname, htype⟩ := word_append_inj (hnames entry hentry).isWord (hothers other hmem).isWord
    (stops_cons rfl _) (stops_cons rfl _) htext
  have htypes : entry.2.text.toList ++ rest = other.2.text.toList ++ more := by
    simpa using htype
  obtain ⟨hty, hends⟩ := h entry hentry (hother other hmem) hrest hmore htypes
  exact ⟨Prod.ext (String.toList_inj.mp hname) hty, hends⟩

theorem instance_append_inj {decl decl' : Decl} {args others : List Ty} (hdecl : IsName decl.name)
    (hargs : ∀ arg ∈ args, Legible arg) (h : ∀ arg ∈ args, ToldApart arg)
    (hdecl' : IsName decl'.name) (hothers : ∀ other ∈ others, Legible other)
    (module module' : String) {rest more : List Char}
    (heq : (instanceKey module decl args).name.toList ++ rest
      = (instanceKey module' decl' others).name.toList ++ more) :
    decl.name = decl'.name ∧ args = others ∧ rest = more := by
  rw [instanceKey_name_toList, instanceKey_name_toList, List.append_assoc,
    List.append_assoc] at heq
  obtain ⟨hname, hrest⟩ := word_append_inj hdecl.isWord hdecl'.isWord (stops_cons rfl _)
    (stops_cons rfl _) heq
  have hjoined : joined (fun arg : Ty ↦ arg.text.toList) args ++ ')' :: rest
      = joined (fun arg : Ty ↦ arg.text.toList) others ++ ')' :: more := by
    simpa using hrest
  obtain ⟨hall, hends⟩ := joined_append_inj
    (fun arg hmem other hother _ _ hrest hmore htext ↦
      h arg hmem (hothers other hother) hrest hmore htext)
    (fun arg hmem ↦ (hargs arg hmem).begins) (fun other hmem ↦ (hothers other hmem).begins)
    (.inl rfl) hjoined
  exact ⟨String.toList_inj.mp hname, hall, hends⟩

/-- The names of a declaration and of an instance differ, since only one has a parenthesis. -/
theorem declared_ne_made {name : String} {decl : Decl} {args : List Ty} (module : String)
    (hname : IsName name) (hdecl : IsName decl.name) {rest more : List Char} (hrest : IsEnd rest)
    (heq : name.toList ++ rest = (instanceKey module decl args).name.toList ++ more) : False := by
  rw [instanceKey_name_toList, List.append_assoc] at heq
  obtain ⟨-, hends⟩ := word_append_inj hname.isWord hdecl.isWord hrest.stops (stops_cons rfl _) heq
  rw [hends] at hrest
  rcases hrest '(' rfl with h | h | h <;> exact absurd h (by decide)

theorem toldApart (h : Legible ty) : ToldApart ty := by
  induction h with
  | leaf hshape =>
    intro other hother rest more hrest hmore heq
    obtain ⟨hkind, -, -⟩ := (leaf hshape).kind_eq hother hrest hmore heq
    obtain rfl := of_shape hshape hother hkind
    exact ⟨rfl, List.append_cancel_left heq⟩
  | array helement ih =>
    intro other hother rest more hrest hmore heq
    obtain ⟨hkind, -, hbody⟩ := helement.array.kind_eq hother hrest hmore heq
    obtain ⟨element, rfl, helement'⟩ := hother.of_kind_array hkind.symm
    have hclose : ∀ chars, IsEnd (')' :: chars) := by
      intro chars c hc
      cases hc
      exact .inr (.inl rfl)
    obtain ⟨rfl, hends⟩ := ih helement' (hclose rest) (hclose more) (by simpa [Ty.body] using hbody)
    exact ⟨rfl, (List.cons.inj hends).2⟩
  | record hnames hentries ih =>
    intro other hother rest more hrest hmore heq
    obtain ⟨hkind, -, hbody⟩ := (record hnames hentries).kind_eq hother hrest hmore heq
    obtain ⟨others, rfl, hnames', hothers⟩ := hother.of_kind_record hkind.symm
    obtain ⟨rfl, hends⟩ := entries_append_inj hnames ih hnames' hothers
      (by simpa [Ty.body] using hbody)
    exact ⟨rfl, (List.cons.inj hends).2⟩
  | choice hnames hentries ih =>
    intro other hother rest more hrest hmore heq
    obtain ⟨hkind, -, hbody⟩ := (choice hnames hentries).kind_eq hother hrest hmore heq
    obtain ⟨others, rfl, hnames', hothers⟩ := hother.of_kind_choice hkind.symm
    obtain ⟨rfl, hends⟩ := entries_append_inj hnames ih hnames' hothers
      (by simpa [Ty.body] using hbody)
    exact ⟨rfl, (List.cons.inj hends).2⟩
  | declared hmodule hname =>
    intro other hother rest more hrest hmore heq
    obtain ⟨hkind, hlead, hbody⟩ := (declared hmodule hname).kind_eq hother hrest hmore heq
    rcases hother.of_kind_ref hkind.symm with
      ⟨module', name', rfl, hname'⟩ | ⟨module', decl, args, rfl, hdecl, hargs⟩
    · obtain rfl := String.toList_inj.mp hlead
      obtain ⟨hnames, hends⟩ := word_append_inj hname.isWord hname'.isWord hrest.stops hmore.stops
        (List.cons.inj hbody).2
      obtain rfl := String.toList_inj.mp hnames
      exact ⟨rfl, hends⟩
    · exact (declared_ne_made module' hname hdecl hrest (List.cons.inj hbody).2).elim
  | @made module decl args hmodule hname hargs ih =>
    intro other hother rest more hrest hmore heq
    obtain ⟨hkind, hlead, hbody⟩ := (made hmodule hname hargs).kind_eq hother hrest hmore heq
    rcases hother.of_kind_ref hkind.symm with
      ⟨module', name', rfl, hname'⟩ | ⟨module', decl', others, rfl, hname', hothers⟩
    · exact (declared_ne_made module hname' hname hmore (List.cons.inj hbody).2.symm).elim
    · have hmodules : module = module' := String.toList_inj.mp hlead
      obtain ⟨hnames, rfl, hends⟩ := instance_append_inj hname hargs ih hname' hothers
        module module' (List.cons.inj hbody).2
      exact ⟨by rw [instanceKey, instanceKey, hnames, hmodules], hends⟩

/-! ## Names of instances -/

theorem instanceKey_inj {module module' : String} {decl decl' : Decl} {args others : List Ty}
    (hdecl : IsName decl.name) (hdecl' : IsName decl'.name) (hargs : ∀ arg ∈ args, Legible arg)
    (hothers : ∀ other ∈ others, Legible other)
    (h : instanceKey module decl args = instanceKey module' decl' others) :
    module = module' ∧ decl.name = decl'.name ∧ args = others := by
  have hname : (instanceKey module decl args).name.toList ++ []
      = (instanceKey module' decl' others).name.toList ++ [] := by rw [h]
  obtain ⟨hnames, hall, -⟩ := instance_append_inj hdecl hargs
    (fun arg hmem ↦ (hargs arg hmem).toldApart) hdecl' hothers module module' hname
  exact ⟨Option.some_inj.mp (congrArg Key.module h), hnames, hall⟩

theorem instanceKey_ne_declared {module module' name : String} {decl : Decl} {args : List Ty}
    (hdecl : IsName decl.name) (hname : IsName name) :
    instanceKey module decl args ≠ .qualified module' name := by
  intro h
  have hnames : name.toList ++ [] = (instanceKey module decl args).name.toList ++ [] := by
    rw [h]
    rfl
  have hend : IsEnd [] := fun _ hc ↦ by cases hc
  exact declared_ne_made module hname hdecl hend hnames

end Legible

end Expansion

end SchemaCodec
