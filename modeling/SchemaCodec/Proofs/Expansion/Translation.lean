import SchemaCodec.Expansion.Basic
import SchemaCodec.Proofs.Expansion.Lookup

/-!
# What a declaration stands for

An expression in the body of a declaration stands for a type once it is settled what names mean
there. This translation knows nothing of a graph, of what has been expanded before or of an order: a
plain declaration is a reference to it, and an application of a generic one is a reference to the
instance that is named after the translated arguments. Nothing is substituted into the body of
another declaration, so nothing can be captured there.

## Specializations

The bodies that an expansion ever looks at are those of plain declarations, and those of generic
ones with types in the place of their parameters. Which of them come up follows from the translation
alone: the applications in a body that comes up, come up.
-/

namespace SchemaCodec

namespace Expansion

/-! ## What names mean -/

/-- What the parameters of a declaration mean. Of parameters of one name the last counts. -/
def bindings (params : List String) (args : List Ty) (name : String) : Option Ty :=
  (params.zip args).reverse.lookup name

/-- What a name means in a module where some names are bound to types. Without a module it is one of
these names, or else one that the module declares, or else a builtin type. -/
def meaning? (modules : List Module) (module : String) (bound : String → Option Ty)
    (target : Key) : Option Meaning :=
  match target.module with
  | none =>
    ((bound target.name).map .param).or <|
      ((decl? modules module target.name).map (.decl module)).or <|
        (Builtin.ofName? target.name).map .builtin
  | some other => (decl? modules other target.name).map (.decl other)

/-- Without arguments nothing is bound. -/
theorem bindings_nil_right (params : List String) : bindings params [] = fun _ ↦ none := by
  funext name
  rw [bindings, List.zip_nil_right]
  rfl

theorem toOption_lookup (modules : List Module) (scope : Scope) (target : Key) :
    (scope.lookup modules target).toOption
      = meaning? modules scope.module (fun name ↦ Members.get? name scope.bound) target := by
  rw [Scope.lookup, meaning?]
  cases target.module with
  | none =>
    dsimp only
    cases Members.get? target.name scope.bound with
    | some ty => rfl
    | none => cases decl? modules scope.module target.name with
      | some decl => rfl
      | none => cases Builtin.ofName? target.name <;> rfl
  | some other =>
    dsimp only
    rw [decl?]
    cases module? modules other with
    | none => rfl
    | some found =>
      rw [Option.bind_some]
      cases found.decl? target.name <;> rfl

/-! ## Types of expressions -/

/-- What is made of the types of members, if there are any members and no two of one name. -/
def named (make : List (String × Ty) → Ty) (members : List (String × TypeExpr))
    (entries : Option (List (String × Ty))) : Option Ty :=
  if members ≠ [] ∧ (members.map Prod.fst).Nodup then entries.map make else none

theorem named_eq_some_iff {make : List (String × Ty) → Ty} {members : List (String × TypeExpr)}
    {entries : Option (List (String × Ty))} {ty : Ty} :
    named make members entries = some ty ↔
      (members ≠ [] ∧ (members.map Prod.fst).Nodup) ∧
        ∃ types, entries = some types ∧ make types = ty := by
  rw [named, Option.ite_none_right_eq_some, Option.map_eq_some_iff]

mutual

/-- The type that an expression stands for, if names mean what they are said to mean. -/
def translate (meaning : Key → Option Meaning) : TypeExpr → Option Ty
  | .none => some .none
  | .boolean => some .boolean
  | .integer => some .integer
  | .float => some .float
  | .string => some .string
  | .bytes => some .bytes
  | .array element => (translate meaning element).map .array
  | .record fields => named .record fields (translateMembers meaning fields)
  | .choice variants => named .choice variants (translateMembers meaning variants)
  | .ref target args =>
    match meaning target with
    | none => none
    | some (.param ty) => if args = [] then some ty else none
    | some (.builtin b) => (translateArgs meaning args).bind b.build?
    | some (.decl module decl) =>
      if decl.params.length ≠ args.length then none
      else if decl.isGeneric then
        (translateArgs meaning args).map fun types ↦ .ref (instanceKey module decl types)
      else some (.ref (.qualified module decl.name))

def translateMembers (meaning : Key → Option Meaning) :
    List (String × TypeExpr) → Option (List (String × Ty))
  | [] => some []
  | (name, body) :: rest =>
    (translate meaning body).bind fun ty ↦ (translateMembers meaning rest).map ((name, ty) :: ·)

def translateArgs (meaning : Key → Option Meaning) : List TypeExpr → Option (List Ty)
  | [] => some []
  | arg :: rest =>
    (translate meaning arg).bind fun ty ↦ (translateArgs meaning rest).map (ty :: ·)

end

theorem length_translateArgs {meaning : Key → Option Meaning} {args : List TypeExpr}
    {types : List Ty} (h : translateArgs meaning args = some types) :
    types.length = args.length := by
  induction args generalizing types with
  | nil =>
    cases h
    rfl
  | cons arg rest ih =>
    rw [translateArgs] at h
    obtain ⟨ty, -, hmap⟩ := Option.bind_eq_some_iff.mp h
    obtain ⟨types, hrest, rfl⟩ := Option.map_eq_some_iff.mp hmap
    rw [List.length_cons, List.length_cons, ih hrest]

/-- How a name with arguments comes to stand for a type. -/
inductive Refers (meaning : Key → Option Meaning) (target : Key) (args : List TypeExpr) : Ty → Prop
  | param {ty : Ty} (h : meaning target = some (.param ty)) (hargs : args = []) :
    Refers meaning target args ty
  | builtin {b : Builtin} {types : List Ty} {ty : Ty} (h : meaning target = some (.builtin b))
    (hargs : translateArgs meaning args = some types) (hty : b.build? types = some ty) :
    Refers meaning target args ty
  | plain {module : String} {decl : Decl} (h : meaning target = some (.decl module decl))
    (hlength : decl.params.length = args.length) (hplain : decl.isGeneric = false) :
    Refers meaning target args (.ref (.qualified module decl.name))
  | generic {module : String} {decl : Decl} {types : List Ty}
    (h : meaning target = some (.decl module decl)) (hlength : decl.params.length = args.length)
    (hgeneric : decl.isGeneric = true) (hargs : translateArgs meaning args = some types) :
    Refers meaning target args (.ref (instanceKey module decl types))

theorem translate_ref_iff {meaning : Key → Option Meaning} {target : Key} {args : List TypeExpr}
    {ty : Ty} : translate meaning (.ref target args) = some ty ↔ Refers meaning target args ty := by
  rw [translate]
  constructor
  · intro h
    split at h
    · cases h
    · next hmeaning =>
      obtain ⟨hargs, hty⟩ := Option.ite_none_right_eq_some.mp h
      exact .param (hmeaning.trans (congrArg _ (congrArg _ (Option.some_inj.mp hty)))) hargs
    · next hmeaning =>
      obtain ⟨types, hargs, hty⟩ := Option.bind_eq_some_iff.mp h
      exact .builtin hmeaning hargs hty
    · next hmeaning =>
      obtain ⟨hlength, h⟩ := Option.ite_none_left_eq_some.mp h
      split at h
      · next hgeneric =>
        obtain ⟨types, hargs, rfl⟩ := Option.map_eq_some_iff.mp h
        exact .generic hmeaning (not_not.mp hlength) hgeneric hargs
      · next hplain =>
        cases h
        exact .plain hmeaning (not_not.mp hlength) (Bool.eq_false_iff.mpr hplain)
  · rintro (⟨h, rfl⟩ | ⟨h, hargs, hty⟩ | ⟨h, hlength, hplain⟩ | ⟨h, hlength, hgeneric, hargs⟩)
    · rw [h]
      rfl
    · simp [h, hargs, hty]
    · simp [h, hlength, hplain]
    · simp [h, hlength, hgeneric, hargs]

/-! ## Specializations -/

/-- A declaration of a module, with types in the place of its parameters. -/
structure Specialization where
  module : String
  decl : Decl
  args : List Ty

mutual

/-- The applications of generic declarations in an expression. -/
def demands (meaning : Key → Option Meaning) : TypeExpr → List Specialization
  | .array element => demands meaning element
  | .record members | .choice members => membersDemands meaning members
  | .ref target args =>
    match meaning target with
    | some (.decl module decl) =>
      argsDemands meaning args ++
        if decl.isGeneric ∧ decl.params.length = args.length then
          (translateArgs meaning args).toList.map fun types ↦ ⟨module, decl, types⟩
        else []
    | some (.builtin _) => argsDemands meaning args
    | _ => []
  | _ => []

def membersDemands (meaning : Key → Option Meaning) :
    List (String × TypeExpr) → List Specialization
  | [] => []
  | (_, body) :: rest => demands meaning body ++ membersDemands meaning rest

def argsDemands (meaning : Key → Option Meaning) : List TypeExpr → List Specialization
  | [] => []
  | arg :: rest => demands meaning arg ++ argsDemands meaning rest

end

namespace Specialization

/-- What is applied to what. -/
def application (s : Specialization) : Application := (.qualified s.module s.decl.name, s.args)

/-- The key of the entry that holds the body. -/
def key (s : Specialization) : Key :=
  if s.decl.isGeneric then instanceKey s.module s.decl s.args else .qualified s.module s.decl.name

theorem key_of_generic {s : Specialization} (h : s.decl.isGeneric = true) :
    s.key = instanceKey s.module s.decl s.args := if_pos h

theorem key_of_plain {s : Specialization} (h : s.decl.isGeneric = false) :
    s.key = .qualified s.module s.decl.name := if_neg (Bool.eq_false_iff.mp h)

theorem module_key (s : Specialization) : s.key.module = some s.module := by
  rw [key]
  split <;> rfl

/-- What names mean in the body: its own parameters and its own module count. -/
def meaning (modules : List Module) (s : Specialization) : Key → Option Meaning :=
  meaning? modules s.module (bindings s.decl.params s.args)

/-- The type that the body stands for. -/
def type? (modules : List Module) (s : Specialization) : Option Ty :=
  translate (s.meaning modules) s.decl.body

/-- The applications in the body. -/
def demands (modules : List Module) (s : Specialization) : List Specialization :=
  Expansion.demands (s.meaning modules) s.decl.body

end Specialization

/-- What comes up in the expansion of modules: their plain declarations, and the applications in
bodies that come up. -/
inductive Reached (modules : List Module) : Specialization → Prop
  | declared {module : String} {decl : Decl} (hdecl : decl? modules module decl.name = some decl)
    (hplain : decl.isGeneric = false) : Reached modules ⟨module, decl, []⟩
  | applied {outer inner : Specialization} (h : Reached modules outer)
    (hinner : inner ∈ outer.demands modules) : Reached modules inner

section

variable {modules : List Module} {s s' : Specialization}

theorem decl?_of_meaning? {module : String} {bound : String → Option Ty} {target : Key}
    {other : String} {decl : Decl}
    (h : meaning? modules module bound target = some (.decl other decl)) :
    decl? modules other decl.name = some decl := by
  have hdecl : ∀ {module}, (decl? modules module target.name).map (Meaning.decl module)
      = some (.decl other decl) → decl? modules other decl.name = some decl := by
    intro module hmap
    obtain ⟨found, hfound, heq⟩ := Option.map_eq_some_iff.mp hmap
    cases heq
    rwa [name_of_decl? hfound]
  rw [meaning?] at h
  cases hmodule : target.module with
  | none =>
    rw [hmodule] at h
    dsimp only at h
    -- of what a name without a module can mean, only the declaration is one
    rcases Option.or_eq_some_iff.mp h with hparam | ⟨-, h⟩
    · simp at hparam
    · rcases Option.or_eq_some_iff.mp h with hmap | ⟨-, hbuiltin⟩
      · exact hdecl hmap
      · simp at hbuiltin
  | some other =>
    rw [hmodule] at h
    exact hdecl h

/-- An application in a body is of a generic declaration that a name means there, to as many
arguments as it has parameters. -/
def Applies (meaning : Key → Option Meaning) (s : Specialization) : Prop :=
  (∃ target, meaning target = some (.decl s.module s.decl)) ∧ s.decl.isGeneric = true ∧
    s.args.length = s.decl.params.length

mutual

theorem of_mem_demands {meaning : Key → Option Meaning} : (e : TypeExpr) → s ∈ demands meaning e →
    Applies meaning s
  | .array element, h => of_mem_demands element (by rwa [demands] at h)
  | .record members, h | .choice members, h => of_mem_membersDemands members (by rwa [demands] at h)
  | .ref target args, h => by
    rw [demands] at h
    cases hmeaning : meaning target with
    | none => simp [hmeaning] at h
    | some means => cases means with
      | param ty => simp [hmeaning] at h
      | builtin b => exact of_mem_argsDemands args (by simpa [hmeaning] using h)
      | decl module decl =>
        rw [hmeaning] at h
        rcases List.mem_append.mp h with h | h
        · exact of_mem_argsDemands args h
        · split at h
          · next happlies =>
            obtain ⟨types, htypes, rfl⟩ := List.mem_map.mp h
            have hlength := length_translateArgs (Option.mem_toList.mp htypes)
            exact ⟨⟨target, hmeaning⟩, happlies.1, hlength.trans happlies.2.symm⟩
          · exact absurd h List.not_mem_nil
  | .none, h | .boolean, h | .integer, h | .float, h | .string, h | .bytes, h => by
    simp [demands] at h

theorem of_mem_membersDemands {meaning : Key → Option Meaning} :
    (members : List (String × TypeExpr)) → s ∈ membersDemands meaning members → Applies meaning s
  | [], h => absurd h List.not_mem_nil
  | (_, body) :: rest, h => by
    rw [membersDemands] at h
    exact (List.mem_append.mp h).elim (of_mem_demands body) (of_mem_membersDemands rest)

theorem of_mem_argsDemands {meaning : Key → Option Meaning} : (args : List TypeExpr) →
    s ∈ argsDemands meaning args → Applies meaning s
  | [], h => absurd h List.not_mem_nil
  | arg :: rest, h => by
    rw [argsDemands] at h
    exact (List.mem_append.mp h).elim (of_mem_demands arg) (of_mem_argsDemands rest)

end

namespace Reached

theorem decl? (h : Reached modules s) :
    Expansion.decl? modules s.module s.decl.name = some s.decl := by
  cases h with
  | declared hdecl => exact hdecl
  | applied _ hinner =>
    obtain ⟨⟨target, hmeaning⟩, -⟩ := of_mem_demands _ hinner
    exact decl?_of_meaning? hmeaning

/-- A plain declaration comes up once, and a generic one where it is applied. -/
theorem plain_or_generic (h : Reached modules s) :
    (s.decl.isGeneric = false ∧ s.args = []) ∨
      (s.decl.isGeneric = true ∧ s.args.length = s.decl.params.length) := by
  cases h with
  | declared _ hplain => exact .inl ⟨hplain, rfl⟩
  | applied _ hinner => exact .inr (of_mem_demands _ hinner).2

/-- A name leads to one declaration in a module. -/
theorem decl_eq (h : Reached modules s) (h' : Reached modules s')
    (hmodule : s.module = s'.module) (hname : s.decl.name = s'.decl.name) : s.decl = s'.decl := by
  have hdecl := h.decl?
  rw [hmodule, hname, h'.decl?] at hdecl
  exact (Option.some_inj.mp hdecl).symm

/-- What comes up is told apart by what is applied to what. -/
theorem eq_of_application (h : Reached modules s) (h' : Reached modules s')
    (heq : s.application = s'.application) : s = s' := by
  obtain ⟨hkey, hargs⟩ := Prod.mk.inj heq
  obtain ⟨hmodule, hname⟩ := Key.mk.inj hkey
  have hmodule := Option.some_inj.mp hmodule
  have hdecl := h.decl_eq h' hmodule hname
  obtain ⟨module, decl, args⟩ := s
  obtain ⟨module', decl', args'⟩ := s'
  dsimp only at hmodule hdecl hargs
  rw [hmodule, hdecl, hargs]

end Reached

end

end Expansion

end SchemaCodec
