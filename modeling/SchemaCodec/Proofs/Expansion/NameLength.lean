import Mathlib.Algebra.Order.BigOperators.Group.List
import Mathlib.Data.List.MinMax
import SchemaCodec.Proofs.Expansion.Naming
import SchemaCodec.Proofs.Expansion.Substitution
import SchemaCodec.Proofs.Expansion.Termination

/-!
# How long the names of instances get

The name of an instance has the texts of its arguments in it, and these may be references to other
instances, whose names are written out again. The limit on size does not see that: it counts a
reference as one type. What bounds the names is the nesting. A body that is gone through at some
depth writes down so many types; each is a parameter, for which it puts a text that was made one
level higher, or it costs no more than the names in the schema. So with each level the texts grow by
a factor at most, the number of types in the longest body and one for the name around them.

The factor is there. Where each level writes its parameter three times, names become three times as
long with every level, while the arguments stay three references.
-/

namespace SchemaCodec

/-! ## What is written in modules -/

namespace TypeExpr

mutual

/-- The number of types that are written in an expression. -/
def nodes : TypeExpr → Nat
  | array element => 1 + element.nodes
  | record members | choice members => 1 + membersNodes members
  | ref _ args => 1 + argsNodes args
  | _ => 1

def membersNodes : List (String × TypeExpr) → Nat
  | [] => 0
  | (_, body) :: rest => body.nodes + membersNodes rest

def argsNodes : List TypeExpr → Nat
  | [] => 0
  | arg :: rest => arg.nodes + argsNodes rest

end

end TypeExpr

def totalLength (names : List String) : Nat := (names.map String.length).sum

/-- The names that are given in a declaration: its own and those of its parameters and entries. -/
def Decl.names (decl : Decl) : List String := decl.name :: (decl.params ++ decl.body.entryNames)

def Module.names (module : Module) : List String :=
  module.name :: module.decls.flatMap Decl.names

namespace Expansion

/-- The number of characters of all names that are given in modules. -/
def nameChars (modules : List Module) : Nat := totalLength (modules.flatMap Module.names)

/-- The number of types in the longest body. -/
def longestBody (modules : List Module) : Nat :=
  ((modules.flatMap Module.decls).map fun decl ↦ decl.body.nodes).foldr max 0

section

variable {modules : List Module} {module : Module} {decl : Decl}

theorem totalLength_cons (name : String) (names : List String) :
    totalLength (name :: names) = name.length + totalLength names := by
  rw [totalLength, List.map_cons, List.sum_cons, totalLength]

theorem totalLength_append (names others : List String) :
    totalLength (names ++ others) = totalLength names + totalLength others := by
  rw [totalLength, List.map_append, List.sum_append, totalLength, totalLength]

theorem totalLength_le_flatMap {α : Type} {names : α → List String} {items : List α} {item : α}
    (h : item ∈ items) : totalLength (names item) ≤ totalLength (items.flatMap names) := by
  obtain ⟨before, after, rfl⟩ := List.append_of_mem h
  rw [List.flatMap_append, List.flatMap_cons, totalLength_append, totalLength_append]
  omega

theorem names_le_nameChars (hmodule : module ∈ modules) (hdecl : decl ∈ module.decls) :
    module.name.length + decl.name.length + totalLength decl.body.entryNames
      ≤ nameChars modules := by
  have hmodules : totalLength module.names ≤ nameChars modules := totalLength_le_flatMap hmodule
  have hdecls : totalLength decl.names ≤ totalLength (module.decls.flatMap Decl.names) :=
    totalLength_le_flatMap hdecl
  rw [Module.names, totalLength_cons] at hmodules
  rw [Decl.names, totalLength_cons, totalLength_append] at hdecls
  omega

theorem nodes_le_longestBody (hmodule : module ∈ modules) (hdecl : decl ∈ module.decls) :
    decl.body.nodes ≤ longestBody modules :=
  List.le_max_of_le (List.mem_map_of_mem (List.mem_flatMap.mpr ⟨module, hmodule, hdecl⟩))
    (Nat.le_refl _)

end

/-! ## Texts -/

theorem length_joined_le {α : Type} (part : α → List Char) (items : List α) :
    (joined part items).length ≤ (items.map fun item ↦ (part item).length + 2).sum := by
  cases items with
  | nil => exact Nat.le_refl 0
  | cons item rest =>
    have hfurther : (further part rest).length
        = (rest.map fun item ↦ (part item).length + 2).sum := List.length_flatMap
    rw [joined, List.length_append, hfurther, List.map_cons, List.sum_cons]
    omega

theorem length_text_qualified (module name : String) :
    (Key.qualified module name).text.length = module.length + 1 + name.length := by
  rw [Key.text, Key.qualified, String.length_append, String.length_append]
  rfl

theorem length_text_instanceKey_le (module : String) (decl : Decl) (args : List Ty) :
    (instanceKey module decl args).text.length ≤ module.length + decl.name.length + 3
      + (args.map fun arg ↦ arg.text.length + 2).sum := by
  have hname : (instanceKey module decl args).name.length
      = decl.name.length + (joined (fun arg ↦ arg.text.toList) args).length + 2 := by
    rw [← String.length_toList, instanceKey_name_toList]
    simp [String.length_toList, Nat.add_assoc]
  have hjoined := length_joined_le (fun arg : Ty ↦ arg.text.toList) args
  simp only [String.length_toList] at hjoined
  have htext : (instanceKey module decl args).text.length
      = module.length + 1 + (instanceKey module decl args).name.length :=
    length_text_qualified module _
  omega

theorem length_text_array (element : Ty) :
    (Ty.array element).text.length = 6 + element.text.length + 1 := by
  rw [Ty.text, String.length_append, String.length_append]
  rfl

theorem length_furtherText_cons (name : String) (ty : Ty) (rest : List (String × Ty)) :
    (Ty.furtherText ((name, ty) :: rest)).length
      = 2 + (name.length + 2 + ty.text.length + (Ty.furtherText rest).length) := by
  rw [Ty.furtherText, String.length_append, String.length_append, String.length_append,
    String.length_append]
  rfl

theorem length_entriesText_le (entries : List (String × Ty)) :
    (Ty.entriesText entries).length ≤ (Ty.furtherText entries).length := by
  cases entries with
  | nil => exact Nat.le_refl 0
  | cons entry rest =>
    rw [Ty.furtherText, String.length_append, Ty.entriesText]
    exact Nat.le_add_left _ _

theorem length_text_record (entries : List (String × Ty)) :
    (Ty.record entries).text.length = 9 + (Ty.entriesText entries).length + 2 := by
  rw [Ty.text, String.length_append, String.length_append]
  rfl

theorem length_text_choice (entries : List (String × Ty)) :
    (Ty.choice entries).text.length = 9 + (Ty.entriesText entries).length + 2 := by
  rw [Ty.text, String.length_append, String.length_append]
  rfl

theorem length_text_optional (value : Ty) :
    (Ty.optional value).text.length = 30 + value.text.length := by
  have hnone : ("none" ++ ": " ++ (Ty.ref (.builtin "None")).text).length = 10 := rfl
  have hvalue : "value".length = 5 := rfl
  have hnil : (Ty.furtherText []).length = 0 := rfl
  rw [Ty.optional, length_text_choice, Ty.entriesText, String.length_append, hnone,
    length_furtherText_cons]
  omega

theorem length_text_of_shape? {b : Builtin} {shape : Ty} (h : b.shape? = some shape) :
    shape.text.length ≤ 7 := by
  cases b <;> cases h <;> decide

/-- Of the builtin types the optional one has the longest text around its argument. -/
theorem length_text_of_build? {b : Builtin} {types : List Ty} {ty : Ty}
    (h : b.build? types = some ty) :
    ty.text.length + 4 ≤ 32 + (types.map fun arg ↦ arg.text.length + 2).sum := by
  rw [Builtin.build?.eq_def] at h
  split at h
  · obtain rfl := Option.some_inj.mp h
    rw [length_text_array, List.map_singleton, List.sum_singleton]
    omega
  · obtain rfl := Option.some_inj.mp h
    rw [length_text_optional, List.map_singleton, List.sum_singleton]
    omega
  · have hshape := length_text_of_shape? h
    omega
  · cases h

/-! ## One body -/

/-- Names mean what is brief: parameters stand for texts that leave room for a name below the bound,
and whatever is declared has a short name. -/
structure Brief (meaning : Key → Option Meaning) (base bound : Nat) : Prop where
  base_le : base ≤ bound
  le_base : 32 ≤ base
  param : ∀ target ty, meaning target = some (.param ty) → ty.text.length + base ≤ bound
  decl : ∀ target module decl, meaning target = some (.decl module decl) →
    module.length + decl.name.length + 32 ≤ base

section

variable {meaning : Key → Option Meaning} {base bound : Nat}

/-- A name with arguments stands for a brief text if its arguments do. -/
theorem length_text_of_refers (h : Brief meaning base bound) {target : Key}
    {args : List TypeExpr} {ty : Ty} (hty : Refers meaning target args ty)
    (hargs : ∀ types, translateArgs meaning args = some types →
      (types.map fun arg ↦ arg.text.length + 2).sum ≤ TypeExpr.argsNodes args * bound) :
    ty.text.length + 4 ≤ (TypeExpr.ref target args).nodes * bound := by
  have hbase := h.le_base
  have hbound := h.base_le
  rw [TypeExpr.nodes, Nat.add_mul, Nat.one_mul]
  cases hty with
  | param hmeaning =>
    have hparam := h.param target ty hmeaning
    omega
  | builtin hmeaning htypes hbuild =>
    have htext := length_text_of_build? hbuild
    have hsum := hargs _ htypes
    omega
  | plain hmeaning =>
    have hdecl := h.decl target _ _ hmeaning
    rw [Ty.text, length_text_qualified]
    omega
  | @generic module decl types hmeaning _ _ htypes =>
    have hdecl := h.decl target _ _ hmeaning
    have htext := length_text_instanceKey_le module decl types
    have hsum := hargs _ htypes
    rw [Ty.text]
    omega

theorem totalLength_map_fst_le (members : List (String × TypeExpr)) :
    totalLength (members.map Prod.fst) ≤ totalLength (TypeExpr.membersNames members) := by
  induction members with
  | nil => exact Nat.le_refl 0
  | cons member rest ih =>
    obtain ⟨name, body⟩ := member
    rw [List.map_cons, totalLength_cons, TypeExpr.membersNames, totalLength_cons,
      totalLength_append]
    dsimp only
    omega

/-- Around entries there is a keyword with braces. -/
theorem length_braces_le (h : Brief meaning base bound) {members : List (String × TypeExpr)}
    {entries : List (String × Ty)}
    (hnames : totalLength (TypeExpr.membersNames members) + 32 ≤ base)
    (hfurther : (Ty.furtherText entries).length
      ≤ totalLength (members.map Prod.fst) + TypeExpr.membersNodes members * bound) :
    9 + (Ty.entriesText entries).length + 2 + 4
      ≤ (1 + TypeExpr.membersNodes members) * bound := by
  have hown := totalLength_map_fst_le members
  have hcomma := length_entriesText_le entries
  have hbound := h.base_le
  rw [Nat.add_mul, Nat.one_mul]
  omega

mutual

/-- An expression stands for a text of no more bounds than types are written in it, by induction on
the expression. What is left of the bounds is room for a comma and what names an entry. -/
theorem length_text_translate (h : Brief meaning base bound) : (e : TypeExpr) →
    totalLength e.entryNames + 32 ≤ base → {ty : Ty} → translate meaning e = some ty →
    ty.text.length + 4 ≤ e.nodes * bound
  | .none, _, _, hty | .boolean, _, _, hty | .integer, _, _, hty | .float, _, _, hty
  | .string, _, _, hty | .bytes, _, _, hty => by
    obtain rfl := Option.some_inj.mp hty
    change _ ≤ 1 * bound
    rw [Nat.one_mul]
    exact Nat.le_trans (by decide) (Nat.le_trans h.le_base h.base_le)
  | .array element, hnames, _, hty => by
    rw [translate] at hty
    obtain ⟨ty, helement, rfl⟩ := Option.map_eq_some_iff.mp hty
    have helement := length_text_translate h element hnames helement
    have hbase := h.le_base
    have hbound := h.base_le
    rw [length_text_array, TypeExpr.nodes, Nat.add_mul, Nat.one_mul]
    omega
  | .record members, hnames, _, hty => by
    rw [translate] at hty
    obtain ⟨-, entries, hentries, rfl⟩ := named_eq_some_iff.mp hty
    rw [length_text_record, TypeExpr.nodes]
    exact length_braces_le h hnames (length_furtherText_translate h members hnames hentries)
  | .choice members, hnames, _, hty => by
    rw [translate] at hty
    obtain ⟨-, entries, hentries, rfl⟩ := named_eq_some_iff.mp hty
    rw [length_text_choice, TypeExpr.nodes]
    exact length_braces_le h hnames (length_furtherText_translate h members hnames hentries)
  | .ref target args, hnames, _, hty =>
    length_text_of_refers h (translate_ref_iff.mp hty) fun _ htypes ↦
      length_text_translateArgs h args hnames htypes

theorem length_furtherText_translate (h : Brief meaning base bound) :
    (members : List (String × TypeExpr)) →
    totalLength (TypeExpr.membersNames members) + 32 ≤ base → {entries : List (String × Ty)} →
    translateMembers meaning members = some entries →
    (Ty.furtherText entries).length
      ≤ totalLength (members.map Prod.fst) + TypeExpr.membersNodes members * bound
  | [], _, _, hentries => by
    obtain rfl := Option.some_inj.mp hentries
    exact Nat.zero_le _
  | (name, body) :: rest, hnames, _, hentries => by
    rw [translateMembers] at hentries
    obtain ⟨ty, hty, hmap⟩ := Option.bind_eq_some_iff.mp hentries
    obtain ⟨entries, hrest, rfl⟩ := Option.map_eq_some_iff.mp hmap
    rw [TypeExpr.membersNames, totalLength_cons, totalLength_append] at hnames
    have hbody := length_text_translate h body (by omega) hty
    have hmore := length_furtherText_translate h rest (by omega) hrest
    rw [length_furtherText_cons, List.map_cons, totalLength_cons, TypeExpr.membersNodes,
      Nat.add_mul]
    dsimp only
    omega

theorem length_text_translateArgs (h : Brief meaning base bound) : (args : List TypeExpr) →
    totalLength (TypeExpr.argsNames args) + 32 ≤ base → {types : List Ty} →
    translateArgs meaning args = some types →
    (types.map fun arg ↦ arg.text.length + 2).sum ≤ TypeExpr.argsNodes args * bound
  | [], _, _, htypes => by
    obtain rfl := Option.some_inj.mp htypes
    exact Nat.zero_le _
  | arg :: rest, hnames, _, htypes => by
    rw [translateArgs] at htypes
    obtain ⟨ty, hty, hmap⟩ := Option.bind_eq_some_iff.mp htypes
    obtain ⟨types, hrest, rfl⟩ := Option.map_eq_some_iff.mp hmap
    rw [TypeExpr.argsNames, totalLength_append] at hnames
    have harg := length_text_translate h arg (by omega) hty
    have hmore := length_text_translateArgs h rest (by omega) hrest
    rw [List.map_cons, List.sum_cons, TypeExpr.argsNodes, Nat.add_mul]
    omega

end

/-! ## The applications in a body -/

/-- Where an application is written: in an expression with at least its own types and names. -/
inductive Written (meaning : Key → Option Meaning) (s : Specialization) (nodes names : Nat) : Prop
  | intro {target : Key} {args : List TypeExpr}
    (hmeaning : meaning target = some (.decl s.module s.decl))
    (htypes : translateArgs meaning args = some s.args)
    (hnodes : 1 + TypeExpr.argsNodes args ≤ nodes)
    (hnames : totalLength (TypeExpr.argsNames args) ≤ names) : Written meaning s nodes names

theorem Written.mono {s : Specialization} {nodes names nodes' names' : Nat}
    (h : Written meaning s nodes names) (hnodes : nodes ≤ nodes') (hnames : names ≤ names') :
    Written meaning s nodes' names' := by
  obtain ⟨hmeaning, htypes, hnodes', hnames'⟩ := h
  exact ⟨hmeaning, htypes, Nat.le_trans hnodes' hnodes, Nat.le_trans hnames' hnames⟩

mutual

theorem written_of_mem_demands {s : Specialization} : (e : TypeExpr) → s ∈ demands meaning e →
    Written meaning s e.nodes (totalLength e.entryNames)
  | .array element, hs => by
    rw [demands] at hs
    rw [TypeExpr.nodes, TypeExpr.entryNames]
    exact (written_of_mem_demands element hs).mono (Nat.le_add_left _ _) (Nat.le_refl _)
  | .record members, hs | .choice members, hs => by
    rw [demands] at hs
    rw [TypeExpr.nodes, TypeExpr.entryNames]
    exact (written_of_mem_membersDemands members hs).mono (Nat.le_add_left _ _) (Nat.le_refl _)
  | .ref target args, hs => by
    have hinner : s ∈ argsDemands meaning args →
        Written meaning s (1 + TypeExpr.argsNodes args) (totalLength (TypeExpr.argsNames args)) :=
      fun hs ↦ (written_of_mem_argsDemands args hs).mono (Nat.le_add_left _ _) (Nat.le_refl _)
    rw [demands] at hs
    rw [TypeExpr.nodes, TypeExpr.entryNames]
    cases hmeaning : meaning target with
    | none => simp [hmeaning] at hs
    | some means => cases means with
      | param ty => simp [hmeaning] at hs
      | builtin b => exact hinner (by simpa [hmeaning] using hs)
      | decl module decl =>
        rw [hmeaning] at hs
        rcases List.mem_append.mp hs with hs | hs
        · exact hinner hs
        · split at hs
          · obtain ⟨types, htypes, rfl⟩ := List.mem_map.mp hs
            exact ⟨hmeaning, Option.mem_toList.mp htypes, Nat.le_refl _, Nat.le_refl _⟩
          · exact absurd hs List.not_mem_nil
  | .none, hs | .boolean, hs | .integer, hs | .float, hs | .string, hs | .bytes, hs => by
    simp [demands] at hs

theorem written_of_mem_membersDemands {s : Specialization} :
    (members : List (String × TypeExpr)) → s ∈ membersDemands meaning members →
    Written meaning s (TypeExpr.membersNodes members)
      (totalLength (TypeExpr.membersNames members))
  | [], hs => absurd hs List.not_mem_nil
  | (name, body) :: rest, hs => by
    rw [membersDemands] at hs
    rw [TypeExpr.membersNodes, TypeExpr.membersNames, totalLength_cons, totalLength_append]
    rcases List.mem_append.mp hs with hs | hs
    · exact (written_of_mem_demands body hs).mono (by omega) (by omega)
    · exact (written_of_mem_membersDemands rest hs).mono (by omega) (by omega)

theorem written_of_mem_argsDemands {s : Specialization} : (args : List TypeExpr) →
    s ∈ argsDemands meaning args →
    Written meaning s (TypeExpr.argsNodes args) (totalLength (TypeExpr.argsNames args))
  | [], hs => absurd hs List.not_mem_nil
  | arg :: rest, hs => by
    rw [argsDemands] at hs
    rw [TypeExpr.argsNodes, TypeExpr.argsNames, totalLength_append]
    rcases List.mem_append.mp hs with hs | hs
    · exact (written_of_mem_demands arg hs).mono (by omega) (by omega)
    · exact (written_of_mem_argsDemands rest hs).mono (by omega) (by omega)

end

/-- An application in a body has brief arguments, with room for a name, and a brief key. -/
theorem length_of_mem_demands (h : Brief meaning base bound) {e : TypeExpr} {s : Specialization}
    {longest : Nat} (hnames : totalLength e.entryNames + 32 ≤ base) (hnodes : e.nodes ≤ longest)
    (hs : s ∈ demands meaning e) :
    (∀ arg ∈ s.args, arg.text.length + base ≤ (longest + 1) * bound) ∧
      (instanceKey s.module s.decl s.args).text.length ≤ (longest + 1) * bound := by
  obtain ⟨hmeaning, htypes, hargs, hargnames⟩ := written_of_mem_demands e hs
  have hsum := length_text_translateArgs h _ (by omega) htypes
  have hmore := Nat.mul_le_mul_right bound (Nat.le_trans hargs hnodes)
  have hbound := h.base_le
  rw [Nat.add_mul, Nat.one_mul] at hmore ⊢
  constructor
  · intro arg harg
    have hle := List.le_sum_of_mem
      (List.mem_map_of_mem (f := fun arg : Ty ↦ arg.text.length + 2) harg)
    omega
  · have hdecl := h.decl _ _ _ hmeaning
    have htext := length_text_instanceKey_le s.module s.decl s.args
    omega

end

/-! ## Level by level -/

section

variable {modules : List Module}

theorem mem_of_bindings {params : List String} {args : List Ty} {name : String} {ty : Ty}
    (h : bindings params args name = some ty) : ty ∈ args := by
  obtain ⟨before, after, heq, -⟩ := List.lookup_eq_some_iff.mp h
  have hmem : (name, ty) ∈ (params.zip args).reverse := heq ▸ List.mem_append_cons_self
  exact (List.of_mem_zip (List.mem_reverse.mp hmem)).2

theorem bound_of_meaning? {module : String} {bound : String → Option Ty} {target : Key} {ty : Ty}
    (h : meaning? modules module bound target = some (.param ty)) :
    bound target.name = some ty := by
  rw [meaning?] at h
  cases hmodule : target.module with
  | none =>
    rw [hmodule] at h
    simpa [Option.or_eq_some_iff] using h
  | some other =>
    rw [hmodule] at h
    simp at h

/-- In a body names mean what is brief if its arguments are. -/
theorem brief_meaning {s : Specialization} {bound : Nat}
    (hbase : nameChars modules + 32 ≤ bound)
    (hargs : ∀ arg ∈ s.args, arg.text.length + (nameChars modules + 32) ≤ bound) :
    Brief (s.meaning modules) (nameChars modules + 32) bound := by
  refine ⟨hbase, Nat.le_add_left _ _, fun target ty hmeaning ↦ ?_,
    fun target module decl hmeaning ↦ ?_⟩
  · exact hargs ty (mem_of_bindings (bound_of_meaning? hmeaning))
  · obtain ⟨found, hfound, rfl, hmem⟩ := mem_of_decl? (decl?_of_meaning? hmeaning)
    have hnames := names_le_nameChars hfound hmem
    omega

/-- The bound on the names of instances at a depth. -/
def nameBound (modules : List Module) (depth : Nat) : Nat :=
  (nameChars modules + 32) * (longestBody modules + 1) ^ depth

theorem nameBound_succ (modules : List Module) (depth : Nat) :
    nameBound modules (depth + 1) = (longestBody modules + 1) * nameBound modules depth := by
  rw [nameBound, nameBound, Nat.pow_succ, ← Nat.mul_assoc, Nat.mul_comm]

theorem nameBound_mono {depth more : Nat} (h : depth ≤ more) :
    nameBound modules depth ≤ nameBound modules more :=
  Nat.mul_le_mul_left _ (Nat.pow_le_pow_right (Nat.succ_pos _) h)

theorem le_nameBound (modules : List Module) (depth : Nat) :
    nameChars modules + 32 ≤ nameBound modules depth := by
  have hzero : nameBound modules 0 = nameChars modules + 32 := Nat.mul_one _
  exact hzero ▸ nameBound_mono (Nat.zero_le depth)

/-- What is applied at a depth has arguments with room for a name below the bound of the next one,
and its key does not exceed that bound. -/
structure BriefAt (modules : List Module) (depth : Nat) (s : Specialization) : Prop where
  mem : s ∈ applications modules
  args : ∀ arg ∈ s.args,
    arg.text.length + (nameChars modules + 32) ≤ nameBound modules (depth + 1)
  key : (instanceKey s.module s.decl s.args).text.length ≤ nameBound modules (depth + 1)

theorem briefAt_of_mem_demands {s inner : Specialization} {depth : Nat} (hs : Reached modules s)
    (hargs : ∀ arg ∈ s.args, arg.text.length + (nameChars modules + 32) ≤ nameBound modules depth)
    (hinner : inner ∈ s.demands modules) : BriefAt modules depth inner := by
  obtain ⟨module, hmodule, -, hdecl⟩ := mem_of_decl? hs.decl?
  have hnames := names_le_nameChars hmodule hdecl
  have hlength := length_of_mem_demands (brief_meaning (le_nameBound modules depth) hargs)
    (by omega) (nodes_le_longestBody hmodule hdecl) hinner
  rw [← nameBound_succ] at hlength
  exact ⟨applications_of_mem_demands hs hinner, hlength.1, hlength.2⟩

/-! ## Whole expansions -/

/-- All keys are brief, and so are all arguments in the table, counted in types. -/
structure Briefly (modules : List Module) (nesting size depth : Nat) (p : Progress) : Prop where
  depth_le : depth ≤ nesting
  keys : ∀ entry ∈ p.graph.entries, entry.1.text.length ≤ nameBound modules nesting
  sizes : ∀ made ∈ p.instances, (made.1.2.map Ty.size).sum ≤ size

theorem upholds_briefly (modules : List Module) (nesting size : Nat) :
    Upholds ⟨some nesting, some size⟩ modules (BriefAt modules)
      (fun _ depth p ↦ Briefly modules nesting size depth p) (fun _ ↦ True) where
  fails := fun _ _ ↦ trivial
  generic := fun _ _ hs ↦ hs.mem.2
  asks := fun _ _ hs _ hinner ↦ briefAt_of_mem_demands hs.mem.1 hs.args hinner
  runsOut := fun _ _ _ _ _ _ _ ↦ trivial
  note := by
    intro calls depth s hs p hp _ hnesting hsize
    have hdepth : depth < nesting := checkNesting_eq_ok_iff.mp hnesting nesting rfl
    have hargs : (s.args.map Ty.size).sum ≤ size := checkSize_eq_ok_iff.mp hsize size rfl
    exact ⟨hdepth, hp.keys, List.forall_mem_cons.mpr ⟨hargs, hp.sizes⟩⟩
  insert := by
    intro calls depth s hs p body hp _
    refine ⟨Nat.le_of_succ_le hp.depth_le, fun entry hentry ↦ ?_, hp.sizes⟩
    rcases Members.mem_put hentry with rfl | hentry
    · rw [Specialization.key_of_generic hs.mem.2]
      exact Nat.le_trans hs.key (nameBound_mono hp.depth_le)
    · exact hp.keys entry hentry

theorem Reached.args_of_plain {s : Specialization} (hs : Reached modules s)
    (hplain : s.decl.isGeneric = false) : s.args = [] := by
  rcases hs.plain_or_generic with ⟨-, hargs⟩ | ⟨hgeneric, -⟩
  · exact hargs
  · exact absurd hgeneric (Bool.eq_false_iff.mp hplain)

theorem length_text_declared_le {s : Specialization} (hs : Reached modules s) :
    (Key.qualified s.module s.decl.name).text.length ≤ nameChars modules + 32 := by
  obtain ⟨module, hmodule, hname, hdecl⟩ := mem_of_decl? hs.decl?
  have hnames := names_le_nameChars hmodule hdecl
  rw [length_text_qualified, ← hname]
  omega

theorem briefly_initial (modules : List Module) (nesting size : Nat) :
    Briefly modules nesting size 0 .initial := by
  refine ⟨Nat.zero_le _, fun entry hentry ↦ ?_, fun _ hmade ↦ absurd hmade List.not_mem_nil⟩
  have hbuiltins : ∀ entry ∈ Progress.initial.graph.entries, entry.1.text.length ≤ 32 := by decide
  have hbound := le_nameBound modules nesting
  exact Nat.le_trans (hbuiltins entry hentry) (Nat.le_trans (Nat.le_add_left _ _) hbound)

theorem briefly_of_run {nesting size : Nat} {done : Progress} (hmodules : Distinct modules)
    (h : (declareAll modules (instantiate modules ⟨some nesting, some size⟩ nesting)).run .initial
      = .ok ((), done)) : Briefly modules nesting size 0 done := by
  have hdepth : instantiateAt modules ⟨some nesting, some size⟩ nesting 0
      = instantiate modules ⟨some nesting, some size⟩ nesting :=
    instantiateAt_eq_of_some rfl nesting (Nat.zero_add nesting) (Nat.le_refl nesting)
  have hends : EndsFrom .initial
      (declareAll modules (instantiateAt modules ⟨some nesting, some size⟩ nesting 0))
      (fun _ q ↦ Briefly modules nesting size 0 q) (fun _ ↦ True) := by
    refine (upholds_briefly modules nesting size).declareAll hmodules ?_ ?_ (briefly_initial _ _ _)
    · intro s hs hplain inner hinner
      refine briefAt_of_mem_demands hs ?_ hinner
      rw [hs.args_of_plain hplain]
      exact fun _ harg ↦ absurd harg List.not_mem_nil
    · intro s hs hplain p body hp _
      refine ⟨hp.depth_le, fun entry hentry ↦ ?_, hp.sizes⟩
      rcases Members.mem_put hentry with rfl | hentry
      · rw [Specialization.key_of_plain hplain]
        exact Nat.le_trans (length_text_declared_le hs) (le_nameBound modules nesting)
      · exact hp.keys entry hentry
  rw [hdepth] at hends
  exact hends.good_of_eq h

/-- **How long names get.** Under limits on both, a key is no longer than what all names and a
constant take together, times a factor for each level of nesting that the types in the longest body
make up. The limit on size bounds the types in the arguments of each application, where a reference
is one type, however long the name that it refers to. -/
theorem key_length_le {nesting size : Nat} {modules : List Module} {graph : Graph}
    (h : Expansion.graph ⟨some nesting, some size⟩ modules = .ok graph) :
    (∀ entry ∈ graph.entries, entry.1.text.length
      ≤ (nameChars modules + 32) * (longestBody modules + 1) ^ nesting) ∧
    ∃ done : Progress, (declareAll modules
        (instantiate modules ⟨some nesting, some size⟩ nesting)).run .initial = .ok ((), done) ∧
      done.graph = graph ∧
      ∀ made ∈ done.instances, (made.1.2.map Ty.size).sum ≤ size := by
  obtain ⟨hmodules, done, hrun, -, rfl⟩ := run_of_graph h
  have hbrief := briefly_of_run hmodules hrun
  exact ⟨hbrief.keys, done, hrun, rfl, hbrief.sizes⟩

end

/-! ### Names that triple

Each level applies a declaration to three references to what the level before it made. The arguments
stay as small as they are, and the names grow threefold. -/

/-- A declaration that drops two of its three arguments. -/
def tripleDecl : Decl := ⟨"T", ["x", "y", "z"], .ref (.builtin "x") []⟩

/-- Four levels, the first of which starts from a builtin type. -/
def tripled : List Module :=
  let triple (arg : TypeExpr) := TypeExpr.ref (.builtin "T") [arg, arg, arg]
  let param := TypeExpr.ref (.builtin "x") []
  [⟨"M", [tripleDecl,
    ⟨"A", ["x"], .ref (.builtin "B") [triple param]⟩,
    ⟨"B", ["x"], .ref (.builtin "C") [triple param]⟩,
    ⟨"C", ["x"], triple param⟩,
    ⟨"D", [], .ref (.builtin "A") [triple .boolean]⟩]⟩]

/-- What a level makes: the application to three times what the level before it made. -/
def tripledTy : Nat → Ty
  | 0 => .boolean
  | level + 1 => .ref (instanceKey "M" tripleDecl (List.replicate 3 (tripledTy level)))

theorem length_text_tripledTy_succ (level : Nat) :
    (tripledTy (level + 1)).text.length = 3 * (tripledTy level).text.length + 9 := by
  have hname : (instanceKey "M" tripleDecl (List.replicate 3 (tripledTy level))).name.length
      = 3 * (tripledTy level).text.length + 7 := by
    rw [← String.length_toList, instanceKey_name_toList]
    simp [tripleDecl, joined, further, List.replicate, String.length_toList]
    omega
  have htext := length_text_qualified "M"
    (instanceKey "M" tripleDecl (List.replicate 3 (tripledTy level))).name
  rw [hname] at htext
  exact htext.trans (by rw [show "M".length = 1 from rfl]; omega)

/-- With every level the text becomes three times as long, and a little longer. -/
theorem length_text_tripledTy (level : Nat) :
    2 * (tripledTy level).text.length + 9 = 23 * 3 ^ level := by
  induction level with
  | zero => rfl
  | succ level ih =>
    rw [length_text_tripledTy_succ, Nat.pow_succ]
    omega

/-- The key that the last level makes. -/
def tripledKey : Key := instanceKey "M" tripleDecl (List.replicate 3 (tripledTy 3))

theorem exists_graph_tripled :
    ∃ graph, Expansion.graph ⟨some 4, some 3⟩ tripled = .ok graph ∧
      graph.contains tripledKey = true := by
  have hcontains : (Expansion.graph ⟨some 4, some 3⟩ tripled).toOption.map
      (Graph.contains · tripledKey) = some true := by decide +kernel
  cases hgraph : Expansion.graph ⟨some 4, some 3⟩ tripled with
  | error e =>
    rw [hgraph] at hcontains
    cases hcontains
  | ok graph =>
    rw [hgraph] at hcontains
    exact ⟨graph, rfl, Option.some_inj.mp hcontains⟩

theorem key_length_le_tripled :
    ∃ graph, Expansion.graph ⟨some 4, some 3⟩ tripled = .ok graph ∧
      ∀ entry ∈ graph.entries, entry.1.text.length ≤ (12 + 32) * (5 + 1) ^ 4 := by
  obtain ⟨graph, hgraph, -⟩ := exists_graph_tripled
  exact ⟨graph, hgraph, (key_length_le hgraph).1⟩

/-- The keys are longer than the limits, one more than each, and the names make up in a product. -/
theorem key_length_not_le_product :
    ∃ graph, Expansion.graph ⟨some 4, some 3⟩ tripled = .ok graph ∧
      ∃ entry ∈ graph.entries,
        (4 + 1) * (3 + 1) * (nameChars tripled + 32) < entry.1.text.length := by
  obtain ⟨graph, hgraph, hkey⟩ := exists_graph_tripled
  obtain ⟨ty, hty⟩ := Option.isSome_iff_exists.mp hkey
  refine ⟨graph, hgraph, (tripledKey, ty), Graph.mem_of_get? hty, ?_⟩
  have hnames : nameChars tripled = 12 := rfl
  have hlast : tripledKey.text = (tripledTy 4).text := by rw [tripledTy, Ty.text, tripledKey]
  have hlength := length_text_tripledTy 4
  rw [hnames, hlast]
  omega

end Expansion

end SchemaCodec
