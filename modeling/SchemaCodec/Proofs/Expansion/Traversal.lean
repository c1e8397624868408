import SchemaCodec.Proofs.Expansion.Returning
import SchemaCodec.Proofs.Expansion.Unfolding

/-!
# What an expression asks for

Expanding an expression does two things. It asks for the applications in it, one after another, and
it puts their references together to the type that the expression stands for. All else that can
happen is a failure of the expression itself. So whatever the applications in an expression keep,
the expression keeps, and whatever failures they avoid it avoids, as long as these are no failures
of expressions. Its type can be read off the translation, where there is no progress.

An application asks for what its body asks for, with one call less and one level deeper. To know
what a whole expansion keeps it is therefore enough to know that noting an application keeps it, and
that writing its entry does.
-/

namespace SchemaCodec

namespace Expansion

/-! ## Failures -/

/-- A failure that a single body or application can have. There are calls left for it, and it does
not take the finished graph to find it. -/
def Ordinary : ExpansionError → Prop
  | .unfinished .. | .aliasCycle .. => False
  | _ => True

theorem Ordinary.not_unfinished {e : ExpansionError} (h : Ordinary e) : ¬Unfinished e := by
  cases e with
  | unfinished => exact h.elim
  | _ => exact id

theorem ordinary_of_checkNames {seen : List String} {modules : List Module}
    {e : ExpansionError} (h : checkNames seen modules = .error e) : Ordinary e := by
  induction modules generalizing seen with
  | nil => cases h
  | cons module rest ih =>
    rw [checkNames] at h
    split at h
    · rw [← Except.error.inj h]
      exact trivial
    · split at h
      · rw [← Except.error.inj h]
        exact trivial
      · exact ih h

theorem ordinary_of_lookup {modules : List Module} {scope : Scope} {target : Key}
    {e : ExpansionError} (h : scope.lookup modules target = .error e) : Ordinary e := by
  rw [Scope.lookup] at h
  split at h
  · split at h
    · cases h
    · split at h
      · cases h
      · split at h
        · cases h
        · rw [← Except.error.inj h]
          exact trivial
  · split at h
    · rw [← Except.error.inj h]
      exact trivial
    · split at h
      · cases h
      · rw [← Except.error.inj h]
        exact trivial

theorem ordinary_of_checkArity {target : Key} {expected found : Nat} {e : ExpansionError}
    (h : checkArity target expected found = .error e) : Ordinary e := by
  rw [checkArity, if_neg (ne_of_checkArity h)] at h
  rw [← Except.error.inj h]
  exact trivial

/-! ## Steps with a result that is known beforehand -/

/-- From progress that has an invariant, a step has the result that is expected of it and keeps the
invariant, or it fails badly. -/
def Yields {α : Type} (inv : Progress → Prop) (bad : ExpansionError → Prop) (x : Expand α)
    (result : Option α) : Prop :=
  ∀ p, inv p → EndsFrom p x (fun a q ↦ result = some a ∧ inv q) bad

namespace Yields

variable {α β : Type} {inv : Progress → Prop} {bad : ExpansionError → Prop}

theorem pure (a : α) : Yields inv bad (Pure.pure a) (some a) := fun _ hp ↦ .pure ⟨rfl, hp⟩

theorem throw {e : ExpansionError} (h : bad e) (result : Option α) :
    Yields inv bad (MonadExcept.throw e) result := fun _ _ ↦ .throw h

theorem bind {x : Expand β} {k : β → Expand α} {found : Option β} {result : β → Option α}
    (hx : Yields inv bad x found) (hk : ∀ b, found = some b → Yields inv bad (k b) (result b)) :
    Yields inv bad (x >>= k) (found.bind result) := by
  intro p hp
  refine (hx p hp).bind (fun _ he ↦ he) fun b q h ↦ ?_
  obtain ⟨hb, hq⟩ := h
  rw [hb, Option.bind_some]
  exact hk b hb q hq

theorem map {x : Expand β} {found : Option β} (hx : Yields inv bad x found) (f : β → α) :
    Yields inv bad (x >>= fun b ↦ Pure.pure (f b)) (found.map f) := by
  rw [Option.map_eq_bind]
  exact hx.bind fun b _ ↦ .pure (f b)

/-- A check comes before. -/
theorem check {x : Except ExpansionError β} {k : β → Expand α} {result : Option α}
    (hbad : ∀ e, x = .error e → bad e) (hk : ∀ b, x = .ok b → Yields inv bad (k b) result) :
    Yields inv bad (liftM x >>= k) result :=
  fun p hp ↦ .check hbad fun b hb ↦ hk b hb p hp

end Yields

/-- An application is expanded to a reference to its instance. -/
def Serves (inv : Progress → Prop) (bad : ExpansionError → Prop) (apply : Apply)
    (s : Specialization) : Prop :=
  Yields inv bad (apply s.module s.decl s.args) (some (.ref (instanceKey s.module s.decl s.args)))

/-! ## One expression -/

section

variable {modules : List Module} {apply : Apply} {scope : Scope} {meaning : Key → Option Meaning}
  {inv : Progress → Prop} {bad : ExpansionError → Prop}

/-- A name with arguments yields its translation if the arguments do. -/
theorem reference_yields (hown : ∀ e, Ordinary e → bad e)
    (hmeaning : ∀ target, (scope.lookup modules target).toOption = meaning target) {target : Key}
    {args : List TypeExpr}
    (hserves : ∀ s ∈ demands meaning (.ref target args), Serves inv bad apply s)
    (hargs : (∀ s ∈ argsDemands meaning args, Serves inv bad apply s) →
      Yields inv bad (arguments modules apply scope args) (translateArgs meaning args)) :
    Yields inv bad (expr modules apply scope (.ref target args))
      (translate meaning (.ref target args)) := by
  rw [expr]
  refine .check (fun e he ↦ hown e (ordinary_of_lookup he)) fun means hlookup ↦ ?_
  have hmeans : meaning target = some means := by
    rw [← hmeaning target, hlookup]
    rfl
  rw [demands, hmeans] at hserves
  rw [translate, hmeans]
  cases means with
  | param ty =>
    cases args with
    | nil => exact .pure ty
    | cons arg rest => exact .throw (hown _ (by trivial)) _
  | builtin b =>
    refine .check (fun e he ↦ hown e (ordinary_of_checkArity he)) fun _ _ ↦ ?_
    refine (hargs hserves).bind fun types _ ↦ ?_
    cases b.build? types with
    | none => exact .throw (hown _ (by trivial)) _
    | some ty => exact .pure ty
  | decl module decl =>
    refine .check (fun e he ↦ hown e (ordinary_of_checkArity he)) fun _ harity ↦ ?_
    have hlength := eq_of_checkArity harity
    dsimp only at hserves ⊢
    rw [if_neg (not_not.mpr hlength)]
    by_cases hgeneric : decl.isGeneric = true
    · have happlies : decl.isGeneric = true ∧ decl.params.length = args.length :=
        ⟨hgeneric, hlength⟩
      rw [if_pos happlies] at hserves
      rw [if_pos hgeneric, if_pos hgeneric, Option.map_eq_bind]
      obtain ⟨hinner, happlied⟩ := List.forall_mem_append.mp hserves
      refine (hargs hinner).bind fun types htypes ↦ ?_
      -- the arguments are translated, so this application is among those in the expression
      rw [htypes] at happlied
      exact happlied ⟨module, decl, types⟩ List.mem_cons_self
    · rw [if_neg hgeneric, if_neg hgeneric]
      exact .pure _

mutual

/-- Expressions yield their translations if the applications in them are served. -/
theorem expr_yields (hown : ∀ e, Ordinary e → bad e)
    (hmeaning : ∀ target, (scope.lookup modules target).toOption = meaning target) :
    (e : TypeExpr) → (∀ s ∈ demands meaning e, Serves inv bad apply s) →
    Yields inv bad (expr modules apply scope e) (translate meaning e)
  | .none, _ | .boolean, _ | .integer, _ | .float, _ | .string, _ | .bytes, _ => by
    rw [expr, translate]
    exact .pure _
  | .array element, hserves => by
    rw [expr, translate]
    exact (expr_yields hown hmeaning element hserves).map Ty.array
  | .record [], _ | .choice [], _ => by
    rw [expr]
    exact .throw (hown _ (by trivial)) _
  | .record (field :: fields), hserves => by
    rw [demands] at hserves
    rw [expr, translate, ← map_listed .record (List.cons_ne_nil _ _)]
    exact (entries_yields hown hmeaning (field :: fields) hserves []).map Ty.record
  | .choice (variant :: variants), hserves => by
    rw [demands] at hserves
    rw [expr, translate, ← map_listed .choice (List.cons_ne_nil _ _)]
    exact (entries_yields hown hmeaning (variant :: variants) hserves []).map Ty.choice
  | .ref target args, hserves =>
    reference_yields hown hmeaning hserves (arguments_yields hown hmeaning args)

theorem entries_yields (hown : ∀ e, Ordinary e → bad e)
    (hmeaning : ∀ target, (scope.lookup modules target).toOption = meaning target) :
    (members : List (String × TypeExpr)) →
    (∀ s ∈ membersDemands meaning members, Serves inv bad apply s) → (done : List (String × Ty)) →
    Yields inv bad (entries modules apply scope done members) (listed meaning done members)
  | [], _, done => by
    rw [entries, listed_nil]
    exact .pure _
  | (name, body) :: rest, hserves, done => by
    rw [membersDemands] at hserves
    obtain ⟨hbody, hrest⟩ := List.forall_mem_append.mp hserves
    rw [entries]
    split
    · exact .throw (hown _ (by trivial)) _
    · next hnew =>
      rw [listed_of_not_mem hnew]
      refine (expr_yields hown hmeaning body hbody).bind fun ty _ ↦ ?_
      exact entries_yields hown hmeaning rest hrest ((name, ty) :: done)

theorem arguments_yields (hown : ∀ e, Ordinary e → bad e)
    (hmeaning : ∀ target, (scope.lookup modules target).toOption = meaning target) :
    (args : List TypeExpr) → (∀ s ∈ argsDemands meaning args, Serves inv bad apply s) →
    Yields inv bad (arguments modules apply scope args) (translateArgs meaning args)
  | [], _ => by
    rw [arguments]
    exact .pure _
  | arg :: rest, hserves => by
    rw [argsDemands] at hserves
    obtain ⟨harg, hrest⟩ := List.forall_mem_append.mp hserves
    rw [arguments, translateArgs]
    refine (expr_yields hown hmeaning arg harg).bind fun ty _ ↦ ?_
    exact (arguments_yields hown hmeaning rest hrest).map (ty :: ·)

end

/-- A body yields its type if the applications in it are served. -/
theorem body_yields (hown : ∀ e, Ordinary e → bad e) {s : Specialization}
    (hserves : ∀ inner ∈ s.demands modules, Serves inv bad apply inner) :
    Yields inv bad (expr modules apply (.of s.module s.decl s.args) s.decl.body)
      (s.type? modules) :=
  expr_yields hown (toOption_lookup_of modules s) s.decl.body hserves

end

/-! ## Applications

What an expansion keeps may depend on the calls that are left and on the depth: it is kept for the
body of an application with one call less and one level deeper. -/

/-- What has been noted is found in the table. -/
theorem any_iff_noted {s : Specialization} (hgeneric : s.decl.isGeneric = true) {p : Progress} :
    (p.instances.any fun made ↦ made.2 = instanceKey s.module s.decl s.args &&
      made.1 = (Key.qualified s.module s.decl.name, s.args)) = true ↔ Noted p s := by
  rw [List.any_eq_true, Noted, Specialization.key_of_generic hgeneric, Specialization.application]
  constructor
  · rintro ⟨⟨application, key⟩, hmade, hboth⟩
    obtain ⟨rfl, rfl⟩ : key = instanceKey s.module s.decl s.args ∧
        application = (.qualified s.module s.decl.name, s.args) := by simpa using hboth
    exact hmade
  · intro hmade
    exact ⟨_, hmade, by simp⟩

/-- What the expansions of the applications that are asked for keep, each at its depth and with the
calls that are left for it, and how they can fail. -/
structure Upholds (limits : Limits) (modules : List Module) (asked : Nat → Specialization → Prop)
    (inv : (calls depth : Nat) → Progress → Prop) (bad : ExpansionError → Prop) : Prop where
  fails : ∀ e, Ordinary e → bad e
  generic : ∀ depth s, asked depth s → s.decl.isGeneric = true
  asks : ∀ depth s, asked depth s → ∀ inner ∈ s.demands modules, asked (depth + 1) inner
  runsOut : ∀ depth s, asked depth s → ∀ p, inv 0 depth p → ¬Noted p s →
    checkNesting limits (.qualified s.module s.decl.name) depth = .ok () →
    bad (.unfinished (.qualified s.module s.decl.name))
  note : ∀ calls depth s, asked depth s → ∀ p, inv (calls + 1) depth p → ¬Noted p s →
    checkNesting limits (.qualified s.module s.decl.name) depth = .ok () →
    checkSize limits (.qualified s.module s.decl.name) s.args = .ok () →
    inv calls (depth + 1) (p.note s)
  insert : ∀ calls depth s, asked depth s → ∀ p body, inv calls (depth + 1) p →
    s.type? modules = some body → inv (calls + 1) depth (p.insert s.key body)

section

variable {limits : Limits} {modules : List Module} {asked : Nat → Specialization → Prop}
  {inv : (calls depth : Nat) → Progress → Prop} {bad : ExpansionError → Prop}

theorem ordinary_of_checkNesting {origin : Key} {depth : Nat} {e : ExpansionError}
    (h : checkNesting limits origin depth = .error e) : Ordinary e := by
  obtain ⟨limit, rfl⟩ := eq_of_checkNesting h
  exact trivial

theorem ordinary_of_checkSize {origin : Key} {args : List Ty} {e : ExpansionError}
    (h : checkSize limits origin args = .error e) : Ordinary e := by
  obtain ⟨size, limit, rfl⟩ := eq_of_checkSize h
  exact trivial

/-- The applications that are asked for are served, by induction on the calls that are left. -/
theorem Upholds.serves (h : Upholds limits modules asked inv bad) (calls depth : Nat)
    {s : Specialization} (hs : asked depth s) :
    Serves (inv calls depth) bad (instantiateAt modules limits calls depth) s := by
  induction calls generalizing depth s with
  | zero =>
    intro p hp
    have hgeneric := h.generic depth s hs
    rw [instantiateAt]
    refine .get ?_
    split
    · exact .pure ⟨rfl, hp⟩
    · next hany =>
      refine .check (fun e he ↦ h.fails e (ordinary_of_checkNesting he)) fun _ hnesting ↦ ?_
      refine .throw (h.runsOut depth s hs p hp ?_ hnesting)
      exact fun hnoted ↦ hany ((any_iff_noted hgeneric).mpr hnoted)
  | succ calls ih =>
    intro p hp
    have hgeneric := h.generic depth s hs
    rw [instantiateAt]
    refine .get ?_
    split
    · exact .pure ⟨rfl, hp⟩
    · next hany =>
      refine .check (fun e he ↦ h.fails e (ordinary_of_checkNesting he)) fun _ hnesting ↦ ?_
      refine .check (fun e he ↦ h.fails e (ordinary_of_checkSize he)) fun _ hsize ↦ ?_
      refine .modify ?_
      have hnew : ¬Noted p s := fun hnoted ↦ hany ((any_iff_noted hgeneric).mpr hnoted)
      have hnote := h.note calls depth s hs p hp hnew hnesting hsize
      have hbody := body_yields h.fails fun inner hinner ↦
        ih (depth + 1) (h.asks depth s hs inner hinner)
      rw [Progress.note, Specialization.key_of_generic hgeneric] at hnote
      refine (hbody _ hnote).bind (fun _ he ↦ he) fun body q hyields ↦ ?_
      obtain ⟨hty, hq⟩ := hyields
      have hinsert := h.insert calls depth s hs q body hq hty
      rw [Specialization.key_of_generic hgeneric] at hinsert
      exact .modify (.pure ⟨rfl, hinsert⟩)

/-! ## Whole schemas -/

theorem forM_upholds {α : Type} {kept : Progress → Prop} {step : α → Expand PUnit}
    (items : List α)
    (h : ∀ item ∈ items, ∀ p, kept p → EndsFrom p (step item) (fun _ q ↦ kept q) bad)
    {p : Progress} (hp : kept p) : EndsFrom p (items.forM step) (fun _ q ↦ kept q) bad := by
  induction items generalizing p with
  | nil => exact .pure hp
  | cons item rest ih =>
    obtain ⟨hitem, hrest⟩ := List.forall_mem_cons.mp h
    exact (hitem p hp).bind (fun _ he ↦ he) fun _ q hq ↦ ih hrest hq

/-- What is kept by the applications that are asked for is kept by the expansion, if plain bodies
ask for no others and writing their entries does no harm. -/
theorem Upholds.declareAll (h : Upholds limits modules asked inv bad) (hmodules : Distinct modules)
    {calls : Nat}
    (hasks : ∀ s, Reached modules s → s.decl.isGeneric = false → ∀ inner ∈ s.demands modules,
      asked 0 inner)
    (hinsert : ∀ s, Reached modules s → s.decl.isGeneric = false → ∀ p body, inv calls 0 p →
      s.type? modules = some body → inv calls 0 (p.insert s.key body))
    (hinitial : inv calls 0 .initial) :
    EndsFrom .initial (declareAll modules (instantiateAt modules limits calls 0))
      (fun _ q ↦ inv calls 0 q) bad := by
  refine forM_upholds modules (fun module hmodule p hp ↦ ?_) hinitial
  refine forM_upholds _ (fun decl hdecl p hp ↦ ?_) hp
  have hplain : decl.isGeneric = false := by simpa using (List.mem_filter.mp hdecl).2
  have hs : Reached modules ⟨module.name, decl, []⟩ :=
    .declared (hmodules.decl?_of_mem hmodule (List.mem_of_mem_filter hdecl)) hplain
  have hbody := body_yields h.fails fun inner hinner ↦
    h.serves calls 0 (hasks _ hs hplain inner hinner)
  refine (hbody p hp).bind (fun _ he ↦ he) fun body q hyields ↦ ?_
  obtain ⟨hty, hq⟩ := hyields
  have hinserted := hinsert _ hs hplain q body hq hty
  rw [Specialization.key_of_plain hplain] at hinserted
  exact .modify (.pure hinserted)

end

end Expansion

end SchemaCodec
