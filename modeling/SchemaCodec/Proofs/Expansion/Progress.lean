import Mathlib.Data.List.Nodup
import SchemaCodec.Proofs.Expansion.Step
import SchemaCodec.Proofs.Parts

/-!
# Progress of an expansion

While an expansion runs, references stand in the graph whose entries are not there yet: those to
declarations that come later, and those to applications whose bodies are still being expanded. Such
keys are promised. What a step preserves is that all references are to promised keys, and that every
application it has recorded has its entry when it is done. Nothing is promised in vain once the
whole expansion has succeeded.
-/

namespace SchemaCodec

/-- A record or a choice has entries, and no two of one name. -/
def Ty.WellNamed : Ty → Prop
  | record entries | choice entries => entries ≠ [] ∧ (entries.map Prod.fst).Nodup
  | _ => True

namespace Expansion

/-! ## Invariants -/

/-- A key that has an entry when the expansion is done. -/
inductive Promised (modules : List Module) (p : Progress) : Key → Prop where
  | builtin {b : Builtin} {shape : Ty} (h : b.shape? = some shape) :
    Promised modules p (.builtin b.name)
  | declared {module : Module} {decl : Decl} (hmodule : module ∈ modules)
    (hdecl : decl ∈ module.decls) (hplain : decl.isGeneric = false) :
    Promised modules p (.qualified module.name decl.name)
  | made {made : Application × Key} (h : made ∈ p.instances) : Promised modules p made.2

/-- All references in a type are to promised keys, and its records and choices are well named. -/
def Sound (modules : List Module) (p : Progress) (ty : Ty) : Prop :=
  ∀ part ∈ ty.parts, (∀ key, part = .ref key → Promised modules p key) ∧ part.WellNamed

/-- What has been expanded is sound, and the builtin types are what they are. -/
structure WellFormed (modules : List Module) (p : Progress) : Prop where
  sound : ∀ entry ∈ p.graph.entries, Sound modules p entry.2
  builtins : ∀ (b : Builtin) shape, b.shape? = some shape →
    p.graph.get? (.builtin b.name) = some shape

/-- From `p` to `q` nothing is lost, and no application is left without an entry. -/
structure Extends (p q : Progress) : Prop where
  keeps : p.instances ⊆ q.instances
  contains : ∀ key, p.graph.contains key = true → q.graph.contains key = true
  settles : ∀ made ∈ q.instances, made ∈ p.instances ∨ q.graph.contains made.2 = true

theorem Extends.refl (p : Progress) : Extends p p :=
  ⟨List.Subset.refl _, fun _ h ↦ h, fun _ h ↦ .inl h⟩

theorem Extends.trans {p q r : Progress} (hpq : Extends p q) (hqr : Extends q r) : Extends p r := by
  refine ⟨List.Subset.trans hpq.keeps hqr.keeps,
    fun key h ↦ hqr.contains key (hpq.contains key h), ?_⟩
  intro made hmade
  rcases hqr.settles made hmade with hmade | hmade
  · exact (hpq.settles made hmade).imp_right (hqr.contains made.2)
  · exact .inr hmade

section

variable {modules : List Module} {p q : Progress}

theorem Promised.mono (h : p.instances ⊆ q.instances) {key : Key} (hkey : Promised modules p key) :
    Promised modules q key := by
  cases hkey with
  | builtin hshape => exact .builtin hshape
  | declared hmodule hdecl hplain => exact .declared hmodule hdecl hplain
  | made hmade => exact .made (h hmade)

namespace Sound

theorem mono (h : p.instances ⊆ q.instances) {ty : Ty} (hty : Sound modules p ty) :
    Sound modules q ty :=
  fun part hpart ↦ ⟨fun key hkey ↦ ((hty part hpart).1 key hkey).mono h, (hty part hpart).2⟩

theorem ref {key : Key} (h : Promised modules p key) : Sound modules p (.ref key) := by
  intro part hpart
  rw [List.mem_singleton.mp hpart]
  exact ⟨fun other hother ↦ Ty.ref.inj hother ▸ h, trivial⟩

/-- A shape that is well named is sound if what is nested in it is. -/
theorem shape {ty : Ty} {nested : List Ty} (hparts : ty.parts = ty :: nested)
    (href : ∀ key, ty ≠ .ref key) (hnamed : ty.WellNamed)
    (h : ∀ part ∈ nested, (∀ key, part = .ref key → Promised modules p key) ∧ part.WellNamed) :
    Sound modules p ty := by
  intro part hpart
  rw [hparts] at hpart
  rcases List.mem_cons.mp hpart with rfl | hpart
  · exact ⟨fun key hkey ↦ absurd hkey (href key), hnamed⟩
  · exact h part hpart

theorem leaf {ty : Ty} (hparts : ty.parts = [ty]) (href : ∀ key, ty ≠ .ref key)
    (hnamed : ty.WellNamed) : Sound modules p ty :=
  shape hparts href hnamed fun _ hpart ↦ absurd hpart List.not_mem_nil

theorem array {element : Ty} (h : Sound modules p element) : Sound modules p (.array element) :=
  shape (by rw [Ty.parts]) (fun _ ↦ Ty.noConfusion) trivial h

/-- Entries of a record or choice. -/
def Entries (modules : List Module) (p : Progress) (entries : List (String × Ty)) : Prop :=
  (∀ entry ∈ entries, Sound modules p entry.2) ∧ (entries.map Prod.fst).Nodup

namespace Entries

theorem nil : Entries modules p [] := ⟨fun _ h ↦ absurd h List.not_mem_nil, List.nodup_nil⟩

theorem mono (h : p.instances ⊆ q.instances) {entries : List (String × Ty)}
    (hentries : Entries modules p entries) : Entries modules q entries :=
  ⟨fun entry hmem ↦ (hentries.1 entry hmem).mono h, hentries.2⟩

theorem cons {name : String} {ty : Ty} {entries : List (String × Ty)}
    (h : Entries modules p entries) (hty : Sound modules p ty)
    (hnew : name ∉ entries.map Prod.fst) : Entries modules p ((name, ty) :: entries) :=
  ⟨List.forall_mem_cons.mpr ⟨hty, h.1⟩, List.nodup_cons.mpr ⟨hnew, h.2⟩⟩

theorem reverse {entries : List (String × Ty)} (h : Entries modules p entries) :
    Entries modules p entries.reverse := by
  refine ⟨fun entry hmem ↦ h.1 entry (List.mem_reverse.mp hmem), ?_⟩
  rw [List.map_reverse]
  exact List.nodup_reverse.mpr h.2

theorem parts {entries : List (String × Ty)} (h : Entries modules p entries) :
    ∀ part ∈ Ty.entriesParts entries,
      (∀ key, part = .ref key → Promised modules p key) ∧ part.WellNamed := by
  intro part hpart
  rw [Ty.entriesParts_eq] at hpart
  obtain ⟨entry, hmem, hpart⟩ := List.mem_flatMap.mp hpart
  exact h.1 entry hmem part hpart

end Entries

theorem record {entries : List (String × Ty)} (h : Entries modules p entries) (hne : entries ≠ []) :
    Sound modules p (.record entries) :=
  shape (by rw [Ty.parts]) (fun _ ↦ Ty.noConfusion) ⟨hne, h.2⟩ h.parts

theorem choice {entries : List (String × Ty)} (h : Entries modules p entries) (hne : entries ≠ []) :
    Sound modules p (.choice entries) :=
  shape (by rw [Ty.parts]) (fun _ ↦ Ty.noConfusion) ⟨hne, h.2⟩ h.parts

theorem optional {value : Ty} (h : Sound modules p value) : Sound modules p (.optional value) := by
  refine choice ⟨?_, by simp⟩ (List.cons_ne_nil _ _)
  intro entry hmem
  simp only [List.mem_cons, List.not_mem_nil, or_false] at hmem
  rcases hmem with rfl | rfl
  · exact ref (.builtin (b := .none) rfl)
  · exact h

theorem builtin {b : Builtin} {ty : Ty} (h : b.shape? = some ty) : Sound modules p ty := by
  cases b <;> cases h <;> exact leaf rfl (fun _ ↦ Ty.noConfusion) trivial

theorem build {b : Builtin} {types : List Ty} {ty : Ty} (hty : b.build? types = some ty)
    (h : ∀ arg ∈ types, Sound modules p arg) : Sound modules p ty := by
  rw [Builtin.build?.eq_def] at hty
  split at hty
  · cases hty
    exact array (h _ List.mem_cons_self)
  · cases hty
    exact optional (h _ List.mem_cons_self)
  · exact builtin hty
  · cases hty

end Sound

/-! ## One body -/

/-- What a step preserves: progress stays well formed and is extended, and the result is good. -/
def Safe {α : Type} (modules : List Module) (p : Progress) (x : Expand α)
    (good : Progress → α → Prop) : Prop :=
  Leads x p fun a q ↦ WellFormed modules q ∧ Extends p q ∧ good q a

namespace Safe

variable {α β : Type} {good : Progress → α → Prop}

theorem pure (hp : WellFormed modules p) {a : α} (h : good p a) :
    Safe modules p (Pure.pure a) good := Leads.pure ⟨hp, Extends.refl p, h⟩

theorem bind {x : Expand β} {mid : Progress → β → Prop} {k : β → Expand α}
    (hx : Safe modules p x mid)
    (hk : ∀ b q, WellFormed modules q → Extends p q → mid q b → Safe modules q (k b) good) :
    Safe modules p (x >>= k) good := by
  refine Leads.bind hx fun b q hb ↦ ?_
  obtain ⟨hq, hext, hmid⟩ := hb
  refine (hk b q hq hext hmid).imp fun a r ha ↦ ?_
  exact ⟨ha.1, hext.trans ha.2.1, ha.2.2⟩

/-- A check comes before. -/
theorem check {x : Except ExpansionError β} {k : β → Expand α}
    (hk : ∀ b, x = .ok b → Safe modules p (k b) good) : Safe modules p (liftM x >>= k) good := by
  have hlift : Leads (liftM x) p fun b q ↦ q = p ∧ x = .ok b := .lift fun b hb ↦ ⟨rfl, hb⟩
  refine hlift.bind fun b q hb ↦ ?_
  obtain ⟨rfl, hb⟩ := hb
  exact hk b hb

/-- What has been expanded is looked at before. -/
theorem get {k : Progress → Expand α} (hk : Safe modules p (k p) good) :
    Safe modules p (MonadState.get >>= k) good := by
  have hget : Leads MonadState.get p fun s q ↦ s = p ∧ q = p := .get ⟨rfl, rfl⟩
  refine hget.bind fun s q hs ↦ ?_
  obtain ⟨rfl, rfl⟩ := hs
  exact hk

end Safe

/-- The parameters of a scope stand for sound types. -/
def SoundScope (modules : List Module) (p : Progress) (scope : Scope) : Prop :=
  ∀ bound ∈ scope.bound, Sound modules p bound.2

theorem SoundScope.mono (h : p.instances ⊆ q.instances) {scope : Scope}
    (hscope : SoundScope modules p scope) : SoundScope modules q scope :=
  fun bound hbound ↦ (hscope bound hbound).mono h

/-- Applications are expanded safely. -/
def SafeApply (modules : List Module) (apply : Apply) : Prop :=
  ∀ module decl args p, WellFormed modules p → (∀ arg ∈ args, Sound modules p arg) →
    Safe modules p (apply module decl args) (Sound modules)

/-- A declaration that a name means stands in one of the modules. -/
theorem mem_of_decl? {modules : List Module} {module name : String} {decl : Decl}
    (h : decl? modules module name = some decl) :
    ∃ found ∈ modules, found.name = module ∧ decl ∈ found.decls := by
  obtain ⟨found, hfound, hdecl⟩ := Option.bind_eq_some_iff.mp h
  have hname := List.find?_some hfound
  exact ⟨found, List.mem_of_find?_eq_some hfound, by simpa using hname,
    List.mem_of_find?_eq_some hdecl⟩

/-- Where a meaning comes from: a parameter of the scope or a declaration of one of the modules, if
it is no builtin type. -/
inductive Meant (modules : List Module) (scope : Scope) : Meaning → Prop
  | param {name : String} {ty : Ty} (h : (name, ty) ∈ scope.bound) : Meant modules scope (.param ty)
  | builtin (b : Builtin) : Meant modules scope (.builtin b)
  | decl {found : Module} {decl : Decl} (hmodule : found ∈ modules) (hdecl : decl ∈ found.decls) :
    Meant modules scope (.decl found.name decl)

theorem meant_of_decl? {scope : Scope} {module name : String} {decl : Decl}
    (h : decl? modules module name = some decl) : Meant modules scope (.decl module decl) := by
  obtain ⟨found, hfound, rfl, hdecl⟩ := mem_of_decl? h
  exact .decl hfound hdecl

theorem meant_of_lookup {scope : Scope} {target : Key} {meaning : Meaning}
    (h : scope.lookup modules target = .ok meaning) : Meant modules scope meaning := by
  rw [Scope.lookup] at h
  cases hmodule : target.module with
  | none =>
    rw [hmodule] at h
    dsimp only at h
    split at h
    · next ty hget =>
      cases h
      exact .param (Members.mem_of_get? hget)
    · split at h
      · next decl hdecl =>
        cases h
        exact meant_of_decl? hdecl
      · split at h
        · cases h
          exact .builtin _
        · cases h
  | some module =>
    rw [hmodule] at h
    dsimp only at h
    split at h
    · cases h
    · split at h
      · next decl hdecl =>
        cases h
        exact meant_of_decl? hdecl
      · cases h

section

variable {apply : Apply} {scope : Scope}

mutual

theorem expr_safe (happly : SafeApply modules apply) : (e : TypeExpr) → (p : Progress) →
    WellFormed modules p → SoundScope modules p scope →
    Safe modules p (expr modules apply scope e) (Sound modules)
  | .none, p, hp, _ | .boolean, p, hp, _ | .integer, p, hp, _ => by
    rw [expr]
    exact .pure hp (.leaf rfl (fun _ ↦ Ty.noConfusion) trivial)
  | .float, p, hp, _ | .string, p, hp, _ | .bytes, p, hp, _ => by
    rw [expr]
    exact .pure hp (.leaf rfl (fun _ ↦ Ty.noConfusion) trivial)
  | .array element, p, hp, hscope => by
    rw [expr]
    exact (expr_safe happly element p hp hscope).bind fun ty q hq _ hty ↦ .pure hq hty.array
  | .record [], p, _, _ => by
    rw [expr]
    exact Leads.throw _
  | .record (field :: fields), p, hp, hscope => by
    rw [expr]
    refine (entries_safe happly (field :: fields) [] p hp hscope .nil).bind
      fun found q hq _ hfound ↦ ?_
    exact .pure hq (.record hfound.1 (List.ne_nil_of_length_eq_add_one hfound.2))
  | .choice [], p, _, _ => by
    rw [expr]
    exact Leads.throw _
  | .choice (variant :: variants), p, hp, hscope => by
    rw [expr]
    refine (entries_safe happly (variant :: variants) [] p hp hscope .nil).bind
      fun found q hq _ hfound ↦ ?_
    exact .pure hq (.choice hfound.1 (List.ne_nil_of_length_eq_add_one hfound.2))
  | .ref target args, p, hp, hscope => by
    rw [expr]
    refine Safe.check fun meaning hlookup ↦ ?_
    cases meant_of_lookup hlookup with
    | param hbound =>
      dsimp only
      split
      · exact .pure hp (hscope _ hbound)
      · exact Leads.throw _
    | builtin b =>
      refine Safe.check fun _ _ ↦ ?_
      refine (arguments_safe happly args p hp hscope).bind fun types q hq _ htypes ↦ ?_
      cases hbuild : b.build? types with
      | none => exact Leads.throw _
      | some ty => exact .pure hq (.build hbuild htypes)
    | decl hmodule hdecl =>
      refine Safe.check fun _ _ ↦ ?_
      split
      · refine (arguments_safe happly args p hp hscope).bind fun types q hq _ htypes ↦ ?_
        exact happly _ _ types q hq htypes
      · next hplain =>
        exact .pure hp (.ref (.declared hmodule hdecl (Bool.eq_false_iff.mpr hplain)))

theorem entries_safe (happly : SafeApply modules apply) : (members : List (String × TypeExpr)) →
    (done : List (String × Ty)) → (p : Progress) → WellFormed modules p →
    SoundScope modules p scope → Sound.Entries modules p done →
    Safe modules p (entries modules apply scope done members) fun q found ↦
      Sound.Entries modules q found ∧ found.length = done.length + members.length
  | [], done, p, hp, _, hdone => by
    rw [entries]
    exact .pure hp ⟨hdone.reverse, List.length_reverse⟩
  | (name, body) :: rest, done, p, hp, hscope, hdone => by
    rw [entries]
    split
    · exact Leads.throw _
    · next hnew =>
      refine (expr_safe happly body p hp hscope).bind fun ty q hq hext hty ↦ ?_
      have hmore := entries_safe happly rest ((name, ty) :: done) q hq (hscope.mono hext.keeps)
        ((hdone.mono hext.keeps).cons hty hnew)
      refine hmore.imp fun found r hr ↦ ⟨hr.1, hr.2.1, hr.2.2.1, ?_⟩
      rw [hr.2.2.2, List.length_cons, List.length_cons]
      omega

theorem arguments_safe (happly : SafeApply modules apply) : (args : List TypeExpr) →
    (p : Progress) → WellFormed modules p → SoundScope modules p scope →
    Safe modules p (arguments modules apply scope args) fun q types ↦
      ∀ arg ∈ types, Sound modules q arg
  | [], p, hp, _ => by
    rw [arguments]
    exact .pure hp fun arg harg ↦ absurd harg List.not_mem_nil
  | arg :: rest, p, hp, hscope => by
    rw [arguments]
    refine (expr_safe happly arg p hp hscope).bind fun ty q hq hext hty ↦ ?_
    refine (arguments_safe happly rest q hq (hscope.mono hext.keeps)).bind
      fun types r hr hext htypes ↦ ?_
    exact .pure hr (List.forall_mem_cons.mpr ⟨hty.mono hext.keeps, htypes⟩)

end

end

/-! ## Applications -/

/-- Progress with one more entry, under a key that is no builtin's. -/
def Progress.insert (p : Progress) (key : Key) (body : Ty) : Progress :=
  { p with graph := p.graph.insert key body }

theorem WellFormed.insert (hp : WellFormed modules p) {module name : String} {body : Ty}
    (hbody : Sound modules p body) :
    WellFormed modules (p.insert (.qualified module name) body) := by
  have hkeep : p.instances ⊆ (p.insert (.qualified module name) body).instances :=
    List.Subset.refl _
  refine ⟨fun entry hentry ↦ ?_, fun b shape hshape ↦ ?_⟩
  · have hsound : Sound modules p entry.2 := by
      rcases Members.mem_put hentry with rfl | hentry
      · exact hbody
      · exact hp.sound entry hentry
    exact hsound.mono hkeep
  · have hne : Key.builtin b.name ≠ .qualified module name := by
      intro heq
      cases congrArg Key.module heq
    exact (Members.get?_put_of_ne hne body p.graph.entries).trans (hp.builtins b shape hshape)

theorem contains_insert {key other : Key} {body : Ty}
    (h : other = key ∨ p.graph.contains other = true) :
    (p.insert key body).graph.contains other = true := Members.isSome_get?_put h

theorem Extends.insert (p : Progress) (key : Key) (body : Ty) : Extends p (p.insert key body) :=
  ⟨List.Subset.refl _, fun _ h ↦ contains_insert (.inr h), fun _ h ↦ .inl h⟩

/-- An application is recorded before its body is expanded and has its entry afterwards. -/
theorem Extends.instance {key : Key} {application : Application} {body : Ty}
    (h : Extends { p with instances := (application, key) :: p.instances } q) :
    Extends p (q.insert key body) := by
  refine ⟨?_, fun other hother ↦ contains_insert (.inr (h.contains other hother)), ?_⟩
  · exact fun made hmade ↦ h.keeps (List.mem_cons_of_mem _ hmade)
  · intro made hmade
    -- recorded before, this application itself, or recorded while its body was expanded
    rcases h.settles made hmade with hmade | hmade
    · rcases List.mem_cons.mp hmade with rfl | hmade
      · exact .inr (contains_insert (.inl rfl))
      · exact .inl hmade
    · exact .inr (contains_insert (.inr hmade))

/-- What is found among the recorded applications is their key. -/
theorem Promised.of_any {key : Key} {application : Application}
    (h : (p.instances.any fun made ↦ made.2 = key && made.1 = application) = true) :
    Promised modules p key := by
  obtain ⟨made, hmade, hboth⟩ := List.any_eq_true.mp h
  have hkey : made.2 = key := of_decide_eq_true (Bool.and_eq_true_iff.mp hboth).1
  exact hkey ▸ .made hmade

theorem soundScope_of {module : String} {decl : Decl} {args : List Ty}
    (hargs : ∀ arg ∈ args, Sound modules p arg) : SoundScope modules p (.of module decl args) :=
  fun _ hbound ↦ hargs _ (List.of_mem_zip (Members.mem_of_mem_ofPairs hbound)).2

/-- An application is safe, by induction on the rounds that are left: the body is expanded with one
round less, in progress in which the application is recorded already. -/
theorem instantiate_safe (modules : List Module) (limits : Limits) (rounds : Nat) :
    SafeApply modules (instantiate modules limits rounds) := by
  induction rounds with
  | zero =>
    intro module decl args p hp hargs
    rw [instantiate]
    refine Safe.get ?_
    split
    · next hany => exact .pure hp (.ref (.of_any hany))
    · exact Leads.throw _
  | succ rounds ih =>
    intro module decl args p hp hargs
    rw [instantiate]
    refine Safe.get ?_
    split
    · next hany => exact .pure hp (.ref (.of_any hany))
    · refine Safe.check fun _ _ ↦ ?_
      let key := instanceKey module decl args
      let recorded : Progress :=
        { p with instances := ((.qualified module decl.name, args), key) :: p.instances }
      -- recorded, and without an entry so far: its key is promised to its own body
      have hkeep : p.instances ⊆ recorded.instances := fun _ hmade ↦ List.mem_cons_of_mem _ hmade
      have hrecorded : WellFormed modules recorded :=
        ⟨fun entry hentry ↦ (hp.sound entry hentry).mono hkeep, hp.builtins⟩
      have hscope : SoundScope modules recorded (.of module decl args) :=
        soundScope_of fun arg harg ↦ (hargs arg harg).mono hkeep
      have hrecord : Leads (modify fun p : Progress ↦
          { p with instances := ((.qualified module decl.name, args), key) :: p.instances }) p
          fun _ q ↦ q = recorded := .modify rfl
      refine hrecord.bind fun _ q hq ↦ ?_
      subst hq
      refine Leads.bind (expr_safe ih decl.body recorded hrecorded hscope) fun body q hq ↦ ?_
      obtain ⟨hq, hext, hbody⟩ := hq
      have hinsert : Leads (modify fun p : Progress ↦ { p with graph := p.graph.insert key body }) q
          fun _ r ↦ r = q.insert key body := .modify rfl
      refine hinsert.bind fun _ r hr ↦ ?_
      subst hr
      -- the body may have led to other applications, but none is ever dropped
      have hmade : ((.qualified module decl.name, args), key) ∈ (q.insert key body).instances :=
        hext.keeps List.mem_cons_self
      exact Leads.pure ⟨hq.insert hbody, hext.instance, .ref (.made hmade)⟩

/-! ## Whole schemas -/

theorem declare_safe (hp : WellFormed modules p) {apply : Apply} (happly : SafeApply modules apply)
    (module : String) (decl : Decl) :
    Safe modules p (declare modules apply module decl) fun q _ ↦
      q.graph.contains (.qualified module decl.name) = true := by
  have hscope : SoundScope modules p (.of module decl []) :=
    soundScope_of fun _ harg ↦ absurd harg List.not_mem_nil
  refine Leads.bind (expr_safe happly decl.body p hp hscope) fun body q hq ↦ ?_
  obtain ⟨hq, hext, hbody⟩ := hq
  refine Leads.modify ⟨hq.insert hbody, hext.trans (.insert q _ body), contains_insert (.inl rfl)⟩

/-- A loop does what each of its steps does, if nothing of that is undone later. -/
theorem Safe.forM {α : Type} {step : α → Expand PUnit} (good : α → Progress → Prop)
    (hmono : ∀ {p q}, Extends p q → ∀ a, good a p → good a q)
    (hstep : ∀ a p, WellFormed modules p → Safe modules p (step a) fun q _ ↦ good a q)
    (items : List α) (hp : WellFormed modules p) :
    Safe modules p (items.forM step) fun q _ ↦ ∀ a ∈ items, good a q := by
  induction items generalizing p with
  | nil => exact .pure hp fun a ha ↦ absurd ha List.not_mem_nil
  | cons a rest ih =>
    refine (hstep a p hp).bind fun _ q hq _ ha ↦ ?_
    refine (ih hq).imp fun _ r hr ↦ ⟨hr.1, hr.2.1, ?_⟩
    exact List.forall_mem_cons.mpr ⟨hmono hr.2.1 a ha, hr.2.2⟩

/-- The plain declarations of a module have their entries. -/
def Declared (module : Module) (p : Progress) : Prop :=
  ∀ decl ∈ module.decls.filter fun decl ↦ !decl.isGeneric,
    p.graph.contains (.qualified module.name decl.name) = true

theorem declareAll_safe (hp : WellFormed modules p) {apply : Apply}
    (happly : SafeApply modules apply) :
    Safe modules p (declareAll modules apply) fun q _ ↦ ∀ module ∈ modules, Declared module q := by
  refine Safe.forM Declared (fun hext module h decl hdecl ↦ ?_) (fun module p hp ↦ ?_) _ hp
  · exact hext.contains _ (h decl hdecl)
  · refine Safe.forM (fun (decl : Decl) q ↦
      q.graph.contains (.qualified module.name decl.name) = true) (fun hext decl h ↦ ?_)
      (fun decl p hp ↦ ?_) _ hp
    · exact hext.contains _ h
    · exact declare_safe hp happly module.name decl

theorem wellFormed_initial (modules : List Module) : WellFormed modules .initial := by
  refine ⟨fun entry hentry ↦ ?_, fun b shape hshape ↦ ?_⟩
  · obtain ⟨b, -, hb⟩ := List.mem_filterMap.mp hentry
    obtain ⟨shape, hshape, rfl⟩ := Option.map_eq_some_iff.mp hb
    exact .builtin hshape
  · cases b <;> cases hshape <;> rfl

end

end Expansion

end SchemaCodec
