import SchemaCodec.Proofs.Expansion.Legible
import SchemaCodec.Proofs.Expansion.Progress

/-!
# Names of instances

Applications of generic declarations are told apart by their arguments while an expansion runs, but
in the graph by names that are made of the texts of these arguments. No two applications get the
same name, and none gets the name of something that is declared, where the modules, the declarations
and the entries of records and choices have names that the lexer reads. Parameters may have any
names, since none is left in a graph.

## The invariant

All types that come up in an expansion can be read back from their texts, once the builtin name
`None` has been replaced by the shape it stands for. The name is put into optional types, and both
have the same text. That is the one respect in which applications of the same name can differ.
-/

namespace SchemaCodec

open Syntax

/-! ## The builtin name of a shape -/

namespace Ty

mutual

/-- A type in which the builtin name `None` has been replaced by the shape it stands for. -/
def plain : Ty → Ty
  | array element => array element.plain
  | record entries => record (plainEntries entries)
  | choice entries => choice (plainEntries entries)
  | ref key => if key = .builtin "None" then none else ref key
  | ty => ty

/-- The entries with their types made plain. -/
def plainEntries : List (String × Ty) → List (String × Ty)
  | [] => []
  | (name, ty) :: rest => (name, ty.plain) :: plainEntries rest

end

mutual

/-- Nothing of that shows in a text. -/
theorem text_plain : (ty : Ty) → ty.plain.text = ty.text
  | array element => by rw [plain, text, text, text_plain element]
  | record entries => by rw [plain, text, text, entriesText_plain entries]
  | choice entries => by rw [plain, text, text, entriesText_plain entries]
  | ref key => by
    rw [plain]
    split
    · next hkey => rw [hkey]; rfl
    · rfl
  | none | boolean | integer | float | string | bytes => rfl

theorem entriesText_plain : (entries : List (String × Ty)) →
    entriesText (plainEntries entries) = entriesText entries
  | [] => rfl
  | (name, ty) :: rest => by
    rw [plainEntries, entriesText, entriesText, text_plain ty, furtherText_plain rest]

theorem furtherText_plain : (entries : List (String × Ty)) →
    furtherText (plainEntries entries) = furtherText entries
  | [] => rfl
  | (name, ty) :: rest => by
    rw [plainEntries, furtherText, furtherText, text_plain ty, furtherText_plain rest]

end

theorem plainEntries_eq (entries : List (String × Ty)) :
    plainEntries entries = entries.map fun entry ↦ (entry.1, entry.2.plain) := by
  induction entries with
  | nil => rfl
  | cons entry rest ih => rw [plainEntries, ih, List.map_cons]

end Ty

/-! ## Schemas of names -/

namespace TypeExpr

mutual

/-- The names of the entries of all records and choices in an expression. -/
def entryNames : TypeExpr → List String
  | array element => element.entryNames
  | record members | choice members => membersNames members
  | ref _ args => argsNames args
  | _ => []

/-- The names of members, and of the entries in their expressions. -/
def membersNames : List (String × TypeExpr) → List String
  | [] => []
  | (name, body) :: rest => name :: (body.entryNames ++ membersNames rest)

def argsNames : List TypeExpr → List String
  | [] => []
  | arg :: rest => arg.entryNames ++ argsNames rest

end

end TypeExpr

/-- The names of a module, of its declarations and of the entries in them are names that the lexer
reads. -/
structure Module.Named (module : Module) : Prop where
  name : IsName module.name
  decls : ∀ decl ∈ module.decls, IsName decl.name
  entries : ∀ decl ∈ module.decls, ∀ name ∈ decl.body.entryNames, IsName name

namespace Expansion

/-! ## What is preserved -/

/-- What is recorded for an application: it is of a declaration of one of the modules to legible
arguments, and its key is named after them. -/
inductive Synthesized (modules : List Module) : Application × Key → Prop
  | intro {module : Module} {decl : Decl} {args : List Ty} (hmodule : module ∈ modules)
    (hdecl : decl ∈ module.decls) (hargs : ∀ arg ∈ args, Legible arg.plain) :
    Synthesized modules
      ((.qualified module.name decl.name, args), instanceKey module.name decl args)

/-- Every application that is recorded has been given its name. -/
def Recorded (modules : List Module) (p : Progress) : Prop :=
  ∀ made ∈ p.instances, Synthesized modules made

/-- A step leaves only what is recorded rightly, and its result is good. -/
def Keeps {α : Type} (modules : List Module) (x : Expand α) (good : α → Prop) : Prop :=
  ∀ p, Recorded modules p → Leads x p fun a q ↦ Recorded modules q ∧ good a

namespace Keeps

variable {α β : Type} {modules : List Module} {good : α → Prop}

theorem pure {a : α} (h : good a) : Keeps modules (Pure.pure a) good :=
  fun _ hp ↦ Leads.pure ⟨hp, h⟩

theorem throw (e : ExpansionError) : Keeps modules (MonadExcept.throw e) good :=
  fun _ _ ↦ Leads.throw e

theorem bind {x : Expand β} {mid : β → Prop} {k : β → Expand α} (hx : Keeps modules x mid)
    (hk : ∀ b, mid b → Keeps modules (k b) good) : Keeps modules (x >>= k) good := by
  intro p hp
  refine Leads.bind (hx p hp) fun b q hb ↦ ?_
  exact hk b hb.2 q hb.1

/-- A check comes before. -/
theorem check {x : Except ExpansionError β} {k : β → Expand α}
    (hk : ∀ b, x = .ok b → Keeps modules (k b) good) : Keeps modules (liftM x >>= k) good := by
  have hx : Keeps modules (liftM x) fun b ↦ x = .ok b :=
    fun _ hp ↦ Leads.lift fun _ hb ↦ ⟨hp, hb⟩
  exact hx.bind hk

theorem get {k : Progress → Expand α} (hk : ∀ p, Keeps modules (k p) good) :
    Keeps modules (MonadState.get >>= k) good := by
  have hget : Keeps modules MonadState.get fun _ ↦ True := fun _ hp ↦ Leads.get ⟨hp, trivial⟩
  exact hget.bind fun p _ ↦ hk p

/-- What is written records nothing that is wrong. -/
theorem modify {f : Progress → Progress}
    (h : ∀ p, Recorded modules p → Recorded modules (f p)) :
    Keeps modules (modify f) fun _ ↦ True :=
  fun p hp ↦ Leads.modify ⟨h p hp, trivial⟩

end Keeps

/-! ## Types in an expansion -/

theorem legible_entries {entries : List (String × Ty)}
    (h : ∀ entry ∈ entries, IsName entry.1 ∧ Legible entry.2.plain) :
    (∀ entry ∈ Ty.plainEntries entries, IsName entry.1) ∧
      ∀ entry ∈ Ty.plainEntries entries, Legible entry.2 := by
  rw [Ty.plainEntries_eq]
  constructor
  · intro entry hentry
    obtain ⟨original, hmem, rfl⟩ := List.mem_map.mp hentry
    exact (h original hmem).1
  · intro entry hentry
    obtain ⟨original, hmem, rfl⟩ := List.mem_map.mp hentry
    exact (h original hmem).2

theorem legible_record {entries : List (String × Ty)}
    (h : ∀ entry ∈ entries, IsName entry.1 ∧ Legible entry.2.plain) :
    Legible (Ty.record entries).plain := by
  rw [Ty.plain]
  exact .record (legible_entries h).1 (legible_entries h).2

theorem legible_choice {entries : List (String × Ty)}
    (h : ∀ entry ∈ entries, IsName entry.1 ∧ Legible entry.2.plain) :
    Legible (Ty.choice entries).plain := by
  rw [Ty.plain]
  exact .choice (legible_entries h).1 (legible_entries h).2

theorem legible_shape {b : Builtin} {shape : Ty} (h : b.shape? = some shape) :
    Legible shape.plain := by
  have hplain : shape.plain = shape := by
    cases b <;> cases h <;> rfl
  rw [hplain]
  exact .leaf h

theorem legible_leaf {ty : Ty} (h : ty ∈ Builtin.all.filterMap Builtin.shape?) :
    Legible ty.plain := by
  obtain ⟨b, -, hshape⟩ := List.mem_filterMap.mp h
  exact legible_shape hshape

theorem legible_build {b : Builtin} {types : List Ty} {ty : Ty} (h : b.build? types = some ty)
    (htypes : ∀ arg ∈ types, Legible arg.plain) : Legible ty.plain := by
  rw [Builtin.build?.eq_def] at h
  split at h
  · cases h
    exact .array (htypes _ List.mem_cons_self)
  · cases h
    have hnone : IsName "none" := by decide
    have hvalue : IsName "value" := by decide
    -- the builtin name stands here, and it is made plain
    refine legible_choice (List.forall_mem_cons.mpr ⟨⟨hnone, .leaf (b := .none) rfl⟩, ?_⟩)
    exact List.forall_mem_singleton.mpr ⟨hvalue, htypes _ List.mem_cons_self⟩
  · exact legible_shape h
  · cases h

/-! ## One body -/

section

variable {modules : List Module} {apply : Apply} {scope : Scope}

/-- Applications of the declarations of the modules to legible arguments are given their names. -/
def KeepsApply (modules : List Module) (apply : Apply) : Prop :=
  ∀ module ∈ modules, ∀ decl ∈ module.decls, ∀ args, (∀ arg ∈ args, Legible arg.plain) →
    Keeps modules (apply module.name decl args) fun ty ↦ Legible ty.plain

mutual

theorem expr_keeps (hnamed : ∀ module ∈ modules, module.Named)
    (happly : KeepsApply modules apply) (hscope : ∀ bound ∈ scope.bound, Legible bound.2.plain) :
    (e : TypeExpr) → (∀ name ∈ e.entryNames, IsName name) →
    Keeps modules (expr modules apply scope e) fun ty ↦ Legible ty.plain
  | .none, _ | .boolean, _ | .integer, _ | .float, _ | .string, _ | .bytes, _ => by
    rw [expr]
    exact .pure (legible_leaf (by decide))
  | .array element, hnames => by
    rw [expr]
    exact (expr_keeps hnamed happly hscope element hnames).bind fun ty hty ↦ .pure hty.array
  | .record [], _ => by
    rw [expr]
    exact .throw _
  | .record (field :: fields), hnames => by
    rw [expr]
    refine (entries_keeps hnamed happly hscope (field :: fields) [] hnames ?_).bind
      fun found hfound ↦ .pure (legible_record hfound)
    exact fun entry hentry ↦ absurd hentry List.not_mem_nil
  | .choice [], _ => by
    rw [expr]
    exact .throw _
  | .choice (variant :: variants), hnames => by
    rw [expr]
    refine (entries_keeps hnamed happly hscope (variant :: variants) [] hnames ?_).bind
      fun found hfound ↦ .pure (legible_choice hfound)
    exact fun entry hentry ↦ absurd hentry List.not_mem_nil
  | .ref target args, hnames => by
    rw [expr]
    refine Keeps.check fun meaning hlookup ↦ ?_
    cases meant_of_lookup hlookup with
    | param hbound =>
      dsimp only
      split
      · exact .pure (hscope _ hbound)
      · exact .throw _
    | builtin b =>
      refine Keeps.check fun _ _ ↦ ?_
      refine (arguments_keeps hnamed happly hscope args hnames).bind fun types htypes ↦ ?_
      cases hbuild : b.build? types with
      | none => exact .throw _
      | some ty => exact .pure (legible_build hbuild htypes)
    | @decl module decl hmodule hdecl =>
      refine Keeps.check fun _ _ ↦ ?_
      split
      · refine (arguments_keeps hnamed happly hscope args hnames).bind fun types htypes ↦ ?_
        exact happly module hmodule decl hdecl types htypes
      · refine .pure (.declared (hnamed module hmodule).name ?_)
        exact (hnamed module hmodule).decls decl hdecl

theorem entries_keeps (hnamed : ∀ module ∈ modules, module.Named)
    (happly : KeepsApply modules apply) (hscope : ∀ bound ∈ scope.bound, Legible bound.2.plain) :
    (members : List (String × TypeExpr)) → (done : List (String × Ty)) →
    (∀ name ∈ TypeExpr.membersNames members, IsName name) →
    (∀ entry ∈ done, IsName entry.1 ∧ Legible entry.2.plain) →
    Keeps modules (entries modules apply scope done members) fun found ↦
      ∀ entry ∈ found, IsName entry.1 ∧ Legible entry.2.plain
  | [], done, _, hdone => by
    rw [entries]
    exact .pure fun entry hentry ↦ hdone entry (List.mem_reverse.mp hentry)
  | (name, body) :: rest, done, hnames, hdone => by
    rw [entries]
    obtain ⟨hname, hmore⟩ := List.forall_mem_cons.mp hnames
    obtain ⟨hbody, hrest⟩ := List.forall_mem_append.mp hmore
    split
    · exact .throw _
    · refine (expr_keeps hnamed happly hscope body hbody).bind fun ty hty ↦ ?_
      exact entries_keeps hnamed happly hscope rest ((name, ty) :: done) hrest
        (List.forall_mem_cons.mpr ⟨⟨hname, hty⟩, hdone⟩)

theorem arguments_keeps (hnamed : ∀ module ∈ modules, module.Named)
    (happly : KeepsApply modules apply) (hscope : ∀ bound ∈ scope.bound, Legible bound.2.plain) :
    (args : List TypeExpr) → (∀ name ∈ TypeExpr.argsNames args, IsName name) →
    Keeps modules (arguments modules apply scope args) fun types ↦
      ∀ arg ∈ types, Legible arg.plain
  | [], _ => by
    rw [arguments]
    exact .pure fun arg harg ↦ absurd harg List.not_mem_nil
  | arg :: rest, hnames => by
    rw [arguments]
    obtain ⟨harg, hrest⟩ := List.forall_mem_append.mp hnames
    refine (expr_keeps hnamed happly hscope arg harg).bind fun ty hty ↦ ?_
    refine (arguments_keeps hnamed happly hscope rest hrest).bind fun types htypes ↦ ?_
    exact .pure (List.forall_mem_cons.mpr ⟨hty, htypes⟩)

end

/-! ## Applications -/

theorem legible_bound {module : String} {decl : Decl} {args : List Ty}
    (hargs : ∀ arg ∈ args, Legible arg.plain) :
    ∀ bound ∈ (Scope.of module decl args).bound, Legible bound.2.plain :=
  fun _ hbound ↦ hargs _ (List.of_mem_zip (Members.mem_of_mem_ofPairs hbound)).2

/-- The name of an instance is the same if its arguments are made plain. -/
theorem instanceKey_plain (module : String) (decl : Decl) (args : List Ty) :
    instanceKey module decl (args.map Ty.plain) = instanceKey module decl args := by
  have htexts : (args.map Ty.plain).map Ty.text = args.map Ty.text := by
    rw [List.map_map]
    exact List.map_congr_left fun arg _ ↦ arg.text_plain
  rw [instanceKey, instanceKey, htexts]

theorem legible_instance {module : Module} {decl : Decl} {args : List Ty} (hnamed : module.Named)
    (hdecl : decl ∈ module.decls) (hargs : ∀ arg ∈ args, Legible arg.plain) :
    Legible (Ty.ref (instanceKey module.name decl args)).plain := by
  rw [← instanceKey_plain]
  refine .made hnamed.name (hnamed.decls decl hdecl) fun arg harg ↦ ?_
  obtain ⟨original, hmem, rfl⟩ := List.mem_map.mp harg
  exact hargs original hmem

/-- An application is given its name, by induction on the rounds that are left. -/
theorem instantiate_keeps (hnamed : ∀ module ∈ modules, module.Named) (limits : Limits)
    (rounds : Nat) : KeepsApply modules (instantiate modules limits rounds) := by
  induction rounds with
  | zero =>
    intro module hmodule decl hdecl args hargs
    rw [instantiate]
    refine Keeps.get fun p ↦ ?_
    split
    · exact .pure (legible_instance (hnamed module hmodule) hdecl hargs)
    · exact .throw _
  | succ rounds ih =>
    intro module hmodule decl hdecl args hargs
    have hresult : Legible (Ty.ref (instanceKey module.name decl args)).plain :=
      legible_instance (hnamed module hmodule) hdecl hargs
    rw [instantiate]
    refine Keeps.get fun p ↦ ?_
    split
    · exact .pure hresult
    · refine Keeps.check fun _ _ ↦ ?_
      -- this is where an application is recorded
      refine (Keeps.modify fun p hp ↦ ?_).bind fun _ _ ↦ ?_
      · exact List.forall_mem_cons.mpr ⟨.intro hmodule hdecl hargs, hp⟩
      · have hbody := (hnamed module hmodule).entries decl hdecl
        refine (expr_keeps hnamed ih (legible_bound hargs) decl.body hbody).bind fun body _ ↦ ?_
        refine (Keeps.modify fun p hp ↦ ?_).bind fun _ _ ↦ .pure hresult
        exact hp

/-! ## Whole schemas -/

theorem forM_keeps {α : Type} {step : α → Expand PUnit} (items : List α)
    (h : ∀ item ∈ items, Keeps modules (step item) fun _ ↦ True) :
    Keeps modules (items.forM step) fun _ ↦ True := by
  induction items with
  | nil => exact .pure trivial
  | cons item rest ih =>
    refine (h item List.mem_cons_self).bind fun _ _ ↦ ?_
    exact ih fun other hother ↦ h other (List.mem_cons_of_mem _ hother)

theorem declareAll_keeps (hnamed : ∀ module ∈ modules, module.Named)
    (happly : KeepsApply modules apply) :
    Keeps modules (declareAll modules apply) fun _ ↦ True := by
  refine forM_keeps modules fun module hmodule ↦ ?_
  refine forM_keeps _ fun decl hdecl ↦ ?_
  have hbody := (hnamed module hmodule).entries decl (List.mem_of_mem_filter hdecl)
  have hscope : ∀ bound ∈ (Scope.of module.name decl []).bound, Legible bound.2.plain :=
    legible_bound fun arg harg ↦ absurd harg List.not_mem_nil
  refine (expr_keeps hnamed happly hscope decl.body hbody).bind fun body _ ↦ ?_
  exact .modify fun p hp ↦ hp

/-- **Names of instances.** When an expansion has succeeded, applications of the same name are of
the same declaration and of the same arguments, up to the builtin name `None` for its shape, and no
application has the name of something declared. -/
theorem instances_told_apart {limits : Limits} {rounds : Nat} {done : Progress}
    (hnamed : ∀ module ∈ modules, module.Named)
    (h : (declareAll modules (instantiate modules limits rounds)).run .initial = .ok ((), done)) :
    (∀ made ∈ done.instances, ∀ other ∈ done.instances, made.2 = other.2 →
      made.1.1 = other.1.1 ∧ made.1.2.map Ty.plain = other.1.2.map Ty.plain) ∧
    ∀ made ∈ done.instances, ∀ module ∈ modules, ∀ decl ∈ module.decls,
      made.2 ≠ .qualified module.name decl.name := by
  have hkeeps := declareAll_keeps hnamed (instantiate_keeps hnamed limits rounds)
  have hinitial : Recorded modules .initial := fun made hmade ↦ absurd hmade List.not_mem_nil
  have hrecorded : Recorded modules done := (hkeeps .initial hinitial () done h).1
  constructor
  · intro made hmade other hother hkey
    obtain @⟨module, decl, args, hmodule, hdecl, hargs⟩ := hrecorded made hmade
    obtain @⟨module', decl', others, hmodule', hdecl', hothers⟩ := hrecorded other hother
    -- made plain, the arguments can be read back from the name
    dsimp only at hkey
    rw [← instanceKey_plain, ← instanceKey_plain module'.name] at hkey
    obtain ⟨hmodules, hdecls, hall⟩ := Legible.instanceKey_inj
      ((hnamed module hmodule).decls decl hdecl) ((hnamed module' hmodule').decls decl' hdecl')
      (List.forall_mem_map.mpr hargs) (List.forall_mem_map.mpr hothers) hkey
    exact ⟨congrArg₂ Key.qualified hmodules hdecls, hall⟩
  · intro made hmade module hmodule decl hdecl
    obtain @⟨module', decl', args, hmodule', hdecl', -⟩ := hrecorded made hmade
    exact Legible.instanceKey_ne_declared ((hnamed module' hmodule').decls decl' hdecl')
      ((hnamed module hmodule).decls decl hdecl)

end

/-- A box, of an optional type and of the choice that this stands for. -/
def boxes : List Module :=
  [⟨"M", [
    ⟨"Box", ["t"], .record [("v", .ref (.builtin "t") [])]⟩,
    ⟨"A", [], .ref (.builtin "Box") [.ref (.builtin "Optional") [.integer]]⟩,
    ⟨"B", [], .ref (.builtin "Box") [.choice [("none", .none), ("value", .integer)]]⟩]⟩]

/-- What is left of these boxes: two applications of one name. -/
def boxesDone : Progress :=
  let box := Key.qualified "M" "Box(Choice \x7b none: None, value: Integer \x7d)"
  let written := Ty.choice [("none", .none), ("value", .integer)]
  { graph := (((Graph.builtins.insert box (.record [("v", .optional .integer)])).insert
      (.qualified "M" "A") (.ref box)).insert box (.record [("v", written)])).insert
      (.qualified "M" "B") (.ref box)
    instances := [((.qualified "M" "Box", [written]), box),
      ((.qualified "M" "Box", [.optional .integer]), box)] }

theorem instances_told_apart_boxes :
    (declareAll boxes (instantiate boxes .standard 1)).run .initial = .ok ((), boxesDone) ∧
    (∀ made ∈ boxesDone.instances, ∀ other ∈ boxesDone.instances, made.2 = other.2 →
      made.1.1 = other.1.1 ∧ made.1.2.map Ty.plain = other.1.2.map Ty.plain) ∧
    ∀ made ∈ boxesDone.instances, ∀ module ∈ boxes, ∀ decl ∈ module.decls,
      made.2 ≠ .qualified module.name decl.name := by
  have hrun : (declareAll boxes (instantiate boxes .standard 1)).run .initial
      = .ok ((), boxesDone) := rfl
  have hnamed : ∀ module ∈ boxes, module.Named :=
    List.forall_mem_singleton.mpr ⟨by decide, by decide, by decide⟩
  exact ⟨hrun, instances_told_apart hnamed hrun⟩

end Expansion

end SchemaCodec
