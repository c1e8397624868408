import SchemaCodec.Proofs.Expansion.Progress
import SchemaCodec.Proofs.Expansion.Translation

/-!
# An expansion follows the translation

The expansion threads a graph and a table of what has been applied through its steps, refers to
entries that are not there yet and skips bodies that have come up before. What it does can all the
same be told from the translation of bodies: an expression is expanded to the type that it is
translated to, an entry holds the translation of its body, and whatever a body applies is in the
table when the expansion is done.

## Failures

An expansion that fails has met a limit, or a body that comes up has no translation. Which one of
several such bodies is met first depends on the order; that there is one does not.
-/

namespace SchemaCodec

namespace Expansion

/-- Failures that a limit causes. Where nesting is not limited, an expansion that is still going on
after all its rounds has failed for no other reason either. -/
def Limits.Causes (limits : Limits) : ExpansionError → Prop
  | .instantiationLimitExceeded .. | .instantiationTooLarge .. => True
  | .unfinished .. => limits.nesting = none
  | _ => False

/-! ## What a step does -/

/-- An entry holds a builtin shape, or the translation of a body that comes up. -/
inductive Explained (modules : List Module) : Key × Ty → Prop
  | builtin {b : Builtin} {shape : Ty} (h : b.shape? = some shape) :
    Explained modules (.builtin b.name, shape)
  | body {s : Specialization} {ty : Ty} (h : Reached modules s) (hty : s.type? modules = some ty) :
    Explained modules (s.key, ty)

/-- All entries are explained, and what has been applied comes up. -/
structure Faithful (modules : List Module) (p : Progress) : Prop where
  entries : ∀ entry ∈ p.graph.entries, Explained modules entry
  instances : ∀ made ∈ p.instances, ∃ s, Reached modules s ∧ s.decl.isGeneric = true ∧
    made = (s.application, s.key)

/-- An application is in the table. -/
def Noted (p : Progress) (s : Specialization) : Prop := (s.application, s.key) ∈ p.instances

/-- From `p` to `q` what is wanted has been noted, and of whatever else has been noted on the way
the body has been gone through. -/
structure Unfolds (modules : List Module) (wanted : List Specialization) (p q : Progress) :
    Prop where
  faithful : Faithful modules q
  keeps : p.instances ⊆ q.instances
  notes : ∀ s ∈ wanted, Noted q s
  closes : ∀ s, Reached modules s → Noted q s →
    Noted p s ∨ ∀ inner ∈ s.demands modules, Noted q inner

namespace Unfolds

variable {modules : List Module} {wanted more : List Specialization} {p q r : Progress}

theorem refl (hp : Faithful modules p) : Unfolds modules [] p p :=
  ⟨hp, List.Subset.refl _, fun _ h ↦ absurd h List.not_mem_nil, fun _ _ h ↦ .inl h⟩

theorem trans (h : Unfolds modules wanted p q) (hmore : Unfolds modules more q r) :
    Unfolds modules (wanted ++ more) p r := by
  refine ⟨hmore.faithful, List.Subset.trans h.keeps hmore.keeps, fun s hs ↦ ?_,
    fun s hs hnoted ↦ ?_⟩
  · rcases List.mem_append.mp hs with hs | hs
    · exact hmore.keeps (h.notes s hs)
    · exact hmore.notes s hs
  · rcases hmore.closes s hs hnoted with hnoted | hinner
    · exact (h.closes s hs hnoted).imp_right fun hinner t ht ↦ hmore.keeps (hinner t ht)
    · exact .inr hinner

end Unfolds

/-- Some body that comes up stands for no type. -/
def Faulty (modules : List Module) : Prop := ∃ s, Reached modules s ∧ s.type? modules = none

/-- A failure is due to a limit, or to a body that stands for no type. -/
def Excused (limits : Limits) (modules : List Module) (e : ExpansionError) : Prop :=
  limits.Causes e ∨ Faulty modules

/-- From a progress, a step has the result that is expected of it and notes what is wanted. It fails
only if no result is expected, or with an excuse. -/
def Computes {α : Type} (limits : Limits) (modules : List Module) (p : Progress) (x : Expand α)
    (result : Option α) (wanted : List Specialization) : Prop :=
  EndsFrom p x (fun a q ↦ result = some a ∧ Unfolds modules wanted p q)
    fun e ↦ Excused limits modules e ∨ result = none

namespace Computes

variable {α β : Type} {limits : Limits} {modules : List Module} {p : Progress}
  {wanted more : List Specialization}

theorem pure (hp : Faithful modules p) (a : α) :
    Computes limits modules p (Pure.pure a) (some a) [] := EndsFrom.pure ⟨rfl, .refl hp⟩

theorem throw (e : ExpansionError) :
    Computes limits modules p (MonadExcept.throw e : Expand α) none wanted :=
  EndsFrom.throw (.inr rfl)

theorem bind {x : Expand β} {k : β → Expand α} {found : Option β} {result : β → Option α}
    (hx : Computes limits modules p x found wanted)
    (hk : ∀ b q, found = some b → Faithful modules q →
      Computes limits modules q (k b) (result b) more) :
    Computes limits modules p (x >>= k) (found.bind result) (wanted ++ more) := by
  refine EndsFrom.bind hx (fun e he ↦ he.imp_right fun hnone ↦ ?_) fun b q hq ↦ ?_
  · rw [hnone, Option.bind_none]
  · rw [hq.1, Option.bind_some]
    exact Ends.imp (hk b q hq.1 hq.2.faithful) (fun r hr ↦ ⟨hr.1, hq.2.trans hr.2⟩) fun _ he ↦ he

theorem map {x : Expand β} {found : Option β} (hx : Computes limits modules p x found wanted)
    (f : β → α) :
    Computes limits modules p (x >>= fun b ↦ Pure.pure (f b)) (found.map f) wanted := by
  refine EndsFrom.bind hx (fun e he ↦ he.imp_right fun hnone ↦ ?_) fun b q hq ↦ .pure ⟨?_, hq.2⟩
  · rw [hnone, Option.map_none]
  · rw [hq.1, Option.map_some]

/-- A check comes before, which fails only if no result is expected. -/
theorem check {x : Except ExpansionError β} {k : β → Expand α} {result : Option α}
    (hnone : ∀ e, x = .error e → result = none)
    (hk : ∀ b, x = .ok b → Computes limits modules p (k b) result wanted) :
    Computes limits modules p (liftM x >>= k) result wanted :=
  EndsFrom.check (fun e he ↦ .inr (hnone e he)) hk

end Computes

/-! ## One body -/

/-- Applications that come up are expanded to references to their entries. -/
def ComputesApply (limits : Limits) (modules : List Module) (apply : Apply) : Prop :=
  ∀ s, Reached modules s → s.decl.isGeneric = true → ∀ p, Faithful modules p →
    Computes limits modules p (apply s.module s.decl s.args) (some (.ref s.key)) [s]

theorem length_of_build? {b : Builtin} {types : List Ty} {ty : Ty} (h : b.build? types = some ty) :
    types.length = b.arity := by
  rw [Builtin.build?.eq_def] at h
  split at h
  · rfl
  · rfl
  · cases b <;> first | rfl | cases h
  · cases h

theorem eq_of_checkArity {target : Key} {expected found : Nat} {u : Unit}
    (h : checkArity target expected found = .ok u) : expected = found := by
  by_contra hne
  rw [checkArity, if_neg hne] at h
  cases h

theorem ne_of_checkArity {target : Key} {expected found : Nat} {e : ExpansionError}
    (h : checkArity target expected found = .error e) : expected ≠ found := by
  intro heq
  rw [checkArity, if_pos heq] at h
  cases h

/-- A plain declaration takes no arguments. -/
theorem args_eq_nil {decl : Decl} {args : List TypeExpr} (hplain : ¬decl.isGeneric = true)
    (hlength : decl.params.length = args.length) : args = [] := by
  have hparams : decl.params = [] := by simpa [Decl.isGeneric] using hplain
  rw [hparams] at hlength
  exact List.length_eq_zero_iff.mp hlength.symm

/-! ### Members -/

/-- Members whose names are new, to each other and to the entries before them. -/
def Fresh (done : List (String × Ty)) (members : List (String × TypeExpr)) : Prop :=
  (members.map Prod.fst).Nodup ∧ ∀ name ∈ members.map Prod.fst, name ∉ done.map Prod.fst

instance (done : List (String × Ty)) (members : List (String × TypeExpr)) :
    Decidable (Fresh done members) := inferInstanceAs (Decidable (_ ∧ _))

theorem fresh_cons_iff (ty : Ty) {done : List (String × Ty)} {name : String} {body : TypeExpr}
    {rest : List (String × TypeExpr)} :
    Fresh done ((name, body) :: rest) ↔
      name ∉ done.map Prod.fst ∧ Fresh ((name, ty) :: done) rest := by
  rw [Fresh, Fresh, List.map_cons, List.map_cons, List.nodup_cons, List.forall_mem_cons]
  constructor
  · rintro ⟨⟨hname, hrest⟩, hnew, hall⟩
    refine ⟨hnew, hrest, fun other hmem hdone ↦ ?_⟩
    rcases List.mem_cons.mp hdone with rfl | hdone
    · exact hname hmem
    · exact hall other hmem hdone
  · rintro ⟨hnew, hrest, hall⟩
    refine ⟨⟨fun hmem ↦ hall name hmem List.mem_cons_self, hrest⟩, hnew, fun other hmem hdone ↦ ?_⟩
    exact hall other hmem (List.mem_cons_of_mem _ hdone)

section

variable {meaning : Key → Option Meaning}

/-- The entries of members behind those before them, if the names are new. -/
def listed (meaning : Key → Option Meaning) (done : List (String × Ty))
    (members : List (String × TypeExpr)) : Option (List (String × Ty)) :=
  if Fresh done members then (translateMembers meaning members).map (done.reverse ++ ·) else none

theorem listed_nil (done : List (String × Ty)) : listed meaning done [] = some done.reverse := by
  have hfresh : Fresh done [] := ⟨List.nodup_nil, fun _ h ↦ absurd h List.not_mem_nil⟩
  rw [listed, if_pos hfresh, translateMembers, Option.map_some, List.append_nil]

theorem listed_of_mem {done : List (String × Ty)} {name : String} {body : TypeExpr}
    {rest : List (String × TypeExpr)} (h : name ∈ done.map Prod.fst) :
    listed meaning done ((name, body) :: rest) = none :=
  if_neg fun hfresh ↦ ((fresh_cons_iff .none).mp hfresh).1 h

theorem listed_of_not_mem {done : List (String × Ty)} {name : String} {body : TypeExpr}
    {rest : List (String × TypeExpr)} (h : name ∉ done.map Prod.fst) :
    listed meaning done ((name, body) :: rest)
      = (translate meaning body).bind fun ty ↦ listed meaning ((name, ty) :: done) rest := by
  rw [listed, translateMembers]
  cases translate meaning body with
  | none => exact ite_self none
  | some ty =>
    rw [Option.bind_some, Option.bind_some, listed]
    by_cases hfresh : Fresh ((name, ty) :: done) rest
    · rw [if_pos hfresh, if_pos ((fresh_cons_iff ty).mpr ⟨h, hfresh⟩), Option.map_map]
      simp [Function.comp_def]
    · rw [if_neg hfresh, if_neg fun hcons ↦ hfresh ((fresh_cons_iff ty).mp hcons).2]

/-- A record or choice is made of its entries, if it has any and no two of one name. -/
theorem map_listed (make : List (String × Ty) → Ty) {members : List (String × TypeExpr)}
    (hne : members ≠ []) : (listed meaning [] members).map make
      = named make members (translateMembers meaning members) := by
  rw [listed, named]
  by_cases hnodup : (members.map Prod.fst).Nodup
  · rw [if_pos ⟨hnodup, fun _ _ ↦ List.not_mem_nil⟩, if_pos ⟨hne, hnodup⟩, Option.map_map]
    rfl
  · rw [if_neg fun h ↦ hnodup h.1, if_neg fun h ↦ hnodup h.2, Option.map_none]

end

/-! ### Expressions -/

section

variable {limits : Limits} {modules : List Module} {apply : Apply} {scope : Scope}
  {meaning : Key → Option Meaning}

/-- A builtin name is expanded as soon as its arguments are. -/
theorem builtin_computes {b : Builtin} {target : Key} {args : List TypeExpr} {p : Progress}
    {wanted : List Specialization}
    (hargs : Computes limits modules p (arguments modules apply scope args)
      (translateArgs meaning args) wanted) :
    Computes limits modules p (do
        checkArity target b.arity args.length
        let types ← arguments modules apply scope args
        match b.build? types with
        | some ty => return ty
        | none => throw (.arityMismatch target b.arity args.length))
      ((translateArgs meaning args).bind b.build?) wanted := by
  refine .check (fun e harity ↦ ?_) fun _ _ ↦ ?_
  · -- arguments of the wrong number are not built from
    refine Option.bind_eq_none_iff.mpr fun types htypes ↦ ?_
    by_contra hbuild
    obtain ⟨ty, hty⟩ := Option.ne_none_iff_exists'.mp hbuild
    refine ne_of_checkArity harity ?_
    rw [← length_of_build? hty, length_translateArgs htypes]
  · rw [← List.append_nil wanted]
    refine hargs.bind fun types q _ hq ↦ ?_
    cases b.build? types with
    | none => exact .throw _
    | some ty => exact .pure hq ty

/-- A declared name is expanded to a reference to its entry, once its arguments are. -/
theorem decl_computes (happly : ComputesApply limits modules apply) {module : String} {decl : Decl}
    {target : Key} {args : List TypeExpr} {p : Progress} (hp : Faithful modules p)
    (hmeans : meaning target = some (.decl module decl))
    (hreached : ∀ s ∈ demands meaning (.ref target args), Reached modules s)
    (hargs : (∀ s ∈ argsDemands meaning args, Reached modules s) →
      Computes limits modules p (arguments modules apply scope args) (translateArgs meaning args)
        (argsDemands meaning args)) :
    Computes limits modules p (do
        checkArity target decl.params.length args.length
        if decl.isGeneric then
          let types ← arguments modules apply scope args
          apply module decl types
        else return .ref (.qualified module decl.name))
      (translate meaning (.ref target args)) (demands meaning (.ref target args)) := by
  rw [demands, hmeans] at hreached
  rw [translate, demands, hmeans]
  refine .check (fun e harity ↦ if_pos (ne_of_checkArity harity)) fun _ harity ↦ ?_
  have hlength := eq_of_checkArity harity
  dsimp only at hreached ⊢
  rw [if_neg (not_not.mpr hlength)]
  by_cases hgeneric : decl.isGeneric = true
  · have happlies : decl.isGeneric = true ∧ decl.params.length = args.length :=
      ⟨hgeneric, hlength⟩
    rw [if_pos happlies] at hreached
    rw [if_pos hgeneric, if_pos hgeneric, if_pos happlies, Option.map_eq_bind]
    obtain ⟨hinner, happlied⟩ := List.forall_mem_append.mp hreached
    refine (hargs hinner).bind fun types q htypes hq ↦ ?_
    -- the arguments are translated, so this application is among those in the expression
    rw [htypes] at happlied ⊢
    have hs := happlied ⟨module, decl, types⟩ List.mem_cons_self
    have hcomputes := happly _ hs hgeneric q hq
    rwa [Specialization.key_of_generic hgeneric] at hcomputes
  · obtain rfl := args_eq_nil hgeneric hlength
    rw [if_neg hgeneric, if_neg hgeneric, if_neg fun h ↦ hgeneric h.1]
    exact .pure hp _

mutual

/-- Expressions compute their translations, if applications that come up do: by induction on the
expression, with the progress left free, since each part starts from what the one before it left. -/
theorem expr_computes (happly : ComputesApply limits modules apply)
    (hmeaning : ∀ target, (scope.lookup modules target).toOption = meaning target) :
    (e : TypeExpr) → (∀ s ∈ demands meaning e, Reached modules s) → (p : Progress) →
    Faithful modules p →
    Computes limits modules p (expr modules apply scope e) (translate meaning e) (demands meaning e)
  | .none, _, p, hp | .boolean, _, p, hp | .integer, _, p, hp | .float, _, p, hp
  | .string, _, p, hp | .bytes, _, p, hp => by
    rw [expr]
    exact .pure hp _
  | .array element, hreached, p, hp => by
    rw [expr, translate]
    exact (expr_computes happly hmeaning element hreached p hp).map Ty.array
  | .record [], _, _, _ | .choice [], _, _, _ => by
    rw [expr]
    exact .throw _
  | .record (field :: fields), hreached, p, hp => by
    rw [demands] at hreached ⊢
    rw [expr, translate, ← map_listed .record (List.cons_ne_nil _ _)]
    exact (entries_computes happly hmeaning (field :: fields) hreached [] p hp).map Ty.record
  | .choice (variant :: variants), hreached, p, hp => by
    rw [demands] at hreached ⊢
    rw [expr, translate, ← map_listed .choice (List.cons_ne_nil _ _)]
    exact (entries_computes happly hmeaning (variant :: variants) hreached [] p hp).map Ty.choice
  | .ref target args, hreached, p, hp => by
    have hargs := fun hinner ↦ arguments_computes happly hmeaning args hinner p hp
    have hmeans : (scope.lookup modules target).toOption = meaning target := hmeaning target
    rw [expr]
    refine .check (fun e hlookup ↦ ?_) fun means hlookup ↦ ?_
    · rw [hlookup] at hmeans
      rw [translate, ← hmeans]
      rfl
    · rw [hlookup] at hmeans
      cases means with
      | param ty =>
        rw [translate, demands, ← hmeans]
        cases args with
        | nil => exact .pure hp ty
        | cons arg rest => exact .throw _
      | builtin b =>
        rw [demands, ← hmeans] at hreached
        rw [translate, demands, ← hmeans]
        exact builtin_computes (hargs hreached)
      | decl module decl => exact decl_computes happly hp hmeans.symm hreached hargs

theorem entries_computes (happly : ComputesApply limits modules apply)
    (hmeaning : ∀ target, (scope.lookup modules target).toOption = meaning target) :
    (members : List (String × TypeExpr)) →
    (∀ s ∈ membersDemands meaning members, Reached modules s) →
    (done : List (String × Ty)) → (p : Progress) → Faithful modules p →
    Computes limits modules p (entries modules apply scope done members)
      (listed meaning done members) (membersDemands meaning members)
  | [], _, done, p, hp => by
    rw [entries, listed_nil]
    exact .pure hp _
  | (name, body) :: rest, hreached, done, p, hp => by
    rw [membersDemands] at hreached ⊢
    obtain ⟨hbody, hrest⟩ := List.forall_mem_append.mp hreached
    rw [entries]
    split
    · next hdone =>
      rw [listed_of_mem hdone]
      exact .throw _
    · next hnew =>
      rw [listed_of_not_mem hnew]
      refine (expr_computes happly hmeaning body hbody p hp).bind fun ty q _ hq ↦ ?_
      exact entries_computes happly hmeaning rest hrest ((name, ty) :: done) q hq

theorem arguments_computes (happly : ComputesApply limits modules apply)
    (hmeaning : ∀ target, (scope.lookup modules target).toOption = meaning target) :
    (args : List TypeExpr) → (∀ s ∈ argsDemands meaning args, Reached modules s) → (p : Progress) →
    Faithful modules p →
    Computes limits modules p (arguments modules apply scope args) (translateArgs meaning args)
      (argsDemands meaning args)
  | [], _, p, hp => by
    rw [arguments]
    exact .pure hp _
  | arg :: rest, hreached, p, hp => by
    rw [argsDemands] at hreached ⊢
    obtain ⟨harg, hrest⟩ := List.forall_mem_append.mp hreached
    rw [arguments, translateArgs]
    refine (expr_computes happly hmeaning arg harg p hp).bind fun ty q _ hq ↦ ?_
    exact (arguments_computes happly hmeaning rest hrest q hq).map (ty :: ·)

end

end

/-! ## Applications -/

section

variable {limits : Limits} {modules : List Module} {apply : Apply} {p : Progress}
  {s : Specialization}

/-- In the scope of a body its parameters are bound, of those of one name the last. -/
theorem toOption_lookup_of (modules : List Module) (s : Specialization) (target : Key) :
    ((Scope.of s.module s.decl s.args).lookup modules target).toOption
      = s.meaning modules target := by
  rw [toOption_lookup, Specialization.meaning]
  congr 1
  funext name
  exact Members.get?_ofPairs name _

/-- A body that comes up is expanded to the type that it stands for. -/
theorem body_unfolds (happly : ComputesApply limits modules apply) (hs : Reached modules s)
    (hp : Faithful modules p) :
    EndsFrom p (expr modules apply (.of s.module s.decl s.args) s.decl.body)
      (fun ty q ↦ s.type? modules = some ty ∧ Unfolds modules (s.demands modules) p q)
      (Excused limits modules) := by
  have hbody := expr_computes happly (toOption_lookup_of modules s) s.decl.body
    (fun _ hinner ↦ .applied hs hinner) p hp
  exact Ends.imp hbody (fun _ h ↦ h) fun _ he ↦ he.elim id fun hnone ↦ .inr ⟨s, hs, hnone⟩

theorem Faithful.insert (hp : Faithful modules p) (hs : Reached modules s) {body : Ty}
    (hbody : s.type? modules = some body) : Faithful modules (p.insert s.key body) := by
  refine ⟨fun entry hentry ↦ ?_, hp.instances⟩
  rcases Members.mem_put hentry with rfl | hentry
  · exact .body hs hbody
  · exact hp.entries entry hentry

/-- Progress in which an application has been noted. -/
def Progress.note (p : Progress) (s : Specialization) : Progress :=
  { p with instances := (s.application, s.key) :: p.instances }

theorem Faithful.note (hp : Faithful modules p) (hs : Reached modules s)
    (hgeneric : s.decl.isGeneric = true) : Faithful modules (p.note s) :=
  ⟨hp.entries, List.forall_mem_cons.mpr ⟨⟨s, hs, hgeneric, rfl⟩, hp.instances⟩⟩

theorem noted_note_iff (hs : Reached modules s) {other : Specialization}
    (hother : Reached modules other) : Noted (p.note s) other ↔ other = s ∨ Noted p other := by
  constructor
  · intro h
    rcases List.mem_cons.mp h with heq | h
    · exact .inl (hother.eq_of_application hs (Prod.mk.inj heq).1)
    · exact .inr h
  · rintro (rfl | h)
    · exact List.mem_cons_self
    · exact List.mem_cons_of_mem _ h

theorem Unfolds.noted (hp : Faithful modules p) (h : Noted p s) : Unfolds modules [s] p p :=
  { Unfolds.refl hp with notes := List.forall_mem_singleton.mpr h }

/-- Noted before its body is gone through, an application has been gone through afterwards. -/
theorem Unfolds.instance {q : Progress} {body : Ty} (hs : Reached modules s)
    (hbody : s.type? modules = some body)
    (h : Unfolds modules (s.demands modules) (p.note s) q) :
    Unfolds modules [s] p (q.insert s.key body) := by
  have hnoted : Noted q s := h.keeps List.mem_cons_self
  refine ⟨h.faithful.insert hs hbody, ?_, List.forall_mem_singleton.mpr hnoted, ?_⟩
  · exact List.Subset.trans (List.subset_cons_self _ _) h.keeps
  · intro other hother hafter
    rcases h.closes other hother hafter with hbefore | hinner
    · rcases (noted_note_iff hs hother).mp hbefore with rfl | hbefore
      · exact .inr h.notes
      · exact .inl hbefore
    · exact .inr hinner

theorem causes_of_checkSize {origin : Key} {args : List Ty} {e : ExpansionError}
    (h : checkSize limits origin args = .error e) : limits.Causes e := by
  rw [checkSize] at h
  split at h
  · cases h
  · dsimp only at h
    split at h
    · cases h
      trivial
    · cases h

/-- Applications are expanded to references to their entries, by induction on the rounds that are
left. -/
theorem instantiate_computes (modules : List Module) (limits : Limits) (rounds : Nat) :
    ComputesApply limits modules (instantiate modules limits rounds) := by
  have hfound : ∀ {s : Specialization} {p : Progress}, Faithful modules p →
      (p.instances.any fun made ↦ made.2 = s.key && made.1 = s.application) = true →
      Unfolds modules [s] p p := by
    intro s p hp hany
    obtain ⟨⟨application, key⟩, hmade, hboth⟩ := List.any_eq_true.mp hany
    obtain ⟨rfl, rfl⟩ : key = s.key ∧ application = s.application := by simpa using hboth
    exact .noted hp hmade
  induction rounds with
  | zero =>
    intro s hs hgeneric p hp
    rw [instantiate, ← Specialization.key_of_generic hgeneric]
    refine .get ?_
    split
    · next hany => exact .pure ⟨rfl, hfound hp hany⟩
    · refine .throw (.inl (.inl ?_))
      rw [noRoundLeft]
      split
      · trivial
      · next hnesting => exact hnesting
  | succ rounds ih =>
    intro s hs hgeneric p hp
    rw [instantiate, ← Specialization.key_of_generic hgeneric]
    refine .get ?_
    split
    · next hany => exact .pure ⟨rfl, hfound hp hany⟩
    · refine EndsFrom.check (fun e he ↦ .inl (.inl (causes_of_checkSize he))) fun _ _ ↦ .modify ?_
      refine (body_unfolds ih hs (hp.note hs hgeneric)).bind (fun _ he ↦ .inl he) fun body q hq ↦ ?_
      exact .modify (.pure ⟨rfl, .instance hs hq.1 hq.2⟩)

/-! ## Whole schemas -/

theorem declare_unfolds (happly : ComputesApply limits modules apply) {module : String}
    {decl : Decl} (hdecl : decl? modules module decl.name = some decl)
    (hplain : decl.isGeneric = false) (hp : Faithful modules p) :
    EndsFrom p (declare modules apply module decl)
      (fun _ q ↦ Unfolds modules (Specialization.demands modules ⟨module, decl, []⟩) p q)
      (Excused limits modules) := by
  have hs : Reached modules ⟨module, decl, []⟩ := .declared hdecl hplain
  refine (body_unfolds happly hs hp).bind (fun _ he ↦ he) fun body q hq ↦ ?_
  refine .modify (.pure ⟨?_, hq.2.keeps, hq.2.notes, hq.2.closes⟩)
  exact Specialization.key_of_plain (s := ⟨module, decl, []⟩) hplain ▸ hq.2.faithful.insert hs hq.1

/-- A loop does what each of its steps does. -/
theorem forM_unfolds {α : Type} {step : α → Expand PUnit} {wanted : α → List Specialization}
    {bad : ExpansionError → Prop} (items : List α)
    (hstep : ∀ item ∈ items, ∀ p, Faithful modules p →
      EndsFrom p (step item) (fun _ q ↦ Unfolds modules (wanted item) p q) bad)
    (hp : Faithful modules p) :
    EndsFrom p (items.forM step) (fun _ q ↦ Unfolds modules (items.flatMap wanted) p q) bad := by
  induction items generalizing p with
  | nil => exact .pure (.refl hp)
  | cons item rest ih =>
    obtain ⟨hitem, hrest⟩ := List.forall_mem_cons.mp hstep
    refine (hitem p hp).bind (fun _ he ↦ he) fun _ q hq ↦ ?_
    exact Ends.imp (ih hrest hq.faithful) (fun _ hr ↦ hq.trans hr) fun _ he ↦ he

/-- Everything that comes up has been gone through. -/
structure Unfolded (modules : List Module) (q : Progress) : Prop where
  faithful : Faithful modules q
  noted : ∀ s, Reached modules s → s.decl.isGeneric = true → Noted q s

theorem faithful_initial (modules : List Module) : Faithful modules .initial := by
  refine ⟨fun entry hentry ↦ ?_, fun made hmade ↦ absurd hmade List.not_mem_nil⟩
  obtain ⟨b, -, hb⟩ := List.mem_filterMap.mp hentry
  obtain ⟨shape, hshape, rfl⟩ := Option.map_eq_some_iff.mp hb
  exact .builtin hshape

/-- What comes up has been noted, once the bodies of the plain declarations have been gone through:
by induction on why it comes up. -/
theorem noted_of_reached {wanted : List Specialization} {q : Progress}
    (h : Unfolds modules wanted .initial q)
    (hwanted : ∀ module decl, decl? modules module decl.name = some decl → decl.isGeneric = false →
      ∀ inner ∈ Specialization.demands modules ⟨module, decl, []⟩, inner ∈ wanted)
    (hs : Reached modules s) (hgeneric : s.decl.isGeneric = true) : Noted q s := by
  induction hs with
  | declared _ hplain => exact absurd hgeneric (Bool.eq_false_iff.mp hplain)
  | @applied outer inner houter hinner ih =>
    cases hkind : outer.decl.isGeneric with
    | true => exact ((h.closes outer houter (ih hkind)).resolve_left List.not_mem_nil) inner hinner
    | false =>
      cases houter with
      | declared hdecl hplain => exact h.notes inner (hwanted _ _ hdecl hplain inner hinner)
      | applied _ houter => exact absurd (of_mem_demands _ houter).2.1 (Bool.eq_false_iff.mp hkind)

/-- **An expansion follows the translation.** If it succeeds, all that comes up has been gone
through, and if it fails, a limit or a body without a translation is the reason. -/
theorem declareAll_unfolds (hmodules : Distinct modules) (limits : Limits) (rounds : Nat) :
    EndsFrom .initial (declareAll modules (instantiate modules limits rounds))
      (fun _ q ↦ Unfolded modules q) (Excused limits modules) := by
  have happly := instantiate_computes modules limits rounds
  have hall := forM_unfolds modules (fun module hmodule p hp ↦
    forM_unfolds (module.decls.filter fun decl ↦ !decl.isGeneric) (fun decl hdecl p hp ↦
      declare_unfolds happly
        (hmodules.decl?_of_mem hmodule (List.mem_of_mem_filter hdecl))
        (by simpa using (List.mem_filter.mp hdecl).2) hp) hp) (faithful_initial modules)
  refine Ends.imp hall (fun r hr ↦ ⟨hr.faithful, fun s hs hgeneric ↦ ?_⟩) fun _ he ↦ he
  refine noted_of_reached hr (fun module decl hdecl hplain inner hinner ↦ ?_) hs hgeneric
  obtain ⟨found, hfound, rfl, hmem⟩ := mem_of_decl? hdecl
  refine List.mem_flatMap.mpr ⟨found, hfound, List.mem_flatMap.mpr ⟨decl, ?_, hinner⟩⟩
  exact List.mem_filter.mpr ⟨hmem, by rw [hplain]; rfl⟩

end

end Expansion

end SchemaCodec
