import SchemaCodec.Proofs.Expansion.Naming
import SchemaCodec.Proofs.Expansion.Translation

/-!
# The same body in two lists of modules

A body has the same translation in every list of modules in which its names lead to the same
declarations, and applications in it are the same. So whatever comes up in the expansion of some
modules comes up in that of more modules, and in that of the same modules in another order.

## Types that are written in two ways

The arguments of an application may hold the builtin name `None` where those of another hold the
shape it stands for. A translation does not depend on that, save for the places where the arguments
stand themselves, so everything here is up to making types plain.
-/

namespace SchemaCodec

namespace Expansion

/-! ## The builtin name of a shape -/

/-- A meaning in which the builtin name has been replaced by the shape. -/
def plainMeaning : Meaning → Meaning
  | .param ty => .param ty.plain
  | means => means

theorem map_bindings (f : Ty → Ty) (params : List String) (args : List Ty) (name : String) :
    (bindings params args name).map f = bindings params (args.map f) name := by
  rw [bindings, bindings, List.zip_map_right, ← List.map_reverse]
  generalize (params.zip args).reverse = pairs
  induction pairs with
  | nil => rfl
  | cons pair rest ih =>
    rw [List.map_cons, Prod.map, id, List.lookup_cons, List.lookup_cons, ← ih]
    cases name == pair.1 <;> rfl

theorem map_plainMeaning (modules : List Module) (module : String) (params : List String)
    (args : List Ty) (target : Key) :
    (meaning? modules module (bindings params args) target).map plainMeaning
      = meaning? modules module (bindings params (args.map Ty.plain)) target := by
  rw [meaning?, meaning?]
  cases target.module with
  | none =>
    dsimp only
    rw [← map_bindings]
    cases bindings params args target.name with
    | some ty => rfl
    | none => cases decl? modules module target.name with
      | some decl => rfl
      | none => cases Builtin.ofName? target.name <;> rfl
  | some other =>
    dsimp only
    cases decl? modules other target.name <;> rfl

theorem build?_plain {b : Builtin} {types types' : List Ty} {ty : Ty}
    (hty : b.build? types = some ty) (h : types'.map Ty.plain = types.map Ty.plain) :
    ∃ ty', b.build? types' = some ty' ∧ ty'.plain = ty.plain := by
  have hone : ∀ {arg : Ty}, types = [arg] → ∃ arg', types' = [arg'] ∧ arg'.plain = arg.plain := by
    rintro arg rfl
    obtain ⟨arg', hmap, harg⟩ := List.map_eq_singleton_iff.mp h
    exact ⟨arg', hmap, harg⟩
  rw [Builtin.build?.eq_def] at hty
  split at hty
  · obtain ⟨arg', rfl, harg⟩ := hone rfl
    cases hty
    exact ⟨_, rfl, by rw [Ty.plain, Ty.plain, harg]⟩
  · obtain ⟨arg', rfl, harg⟩ := hone rfl
    cases hty
    exact ⟨_, rfl, by simp [Ty.optional, Ty.plain, Ty.plainEntries, harg]⟩
  · obtain rfl := List.map_eq_nil_iff.mp h
    exact ⟨ty, by cases b <;> exact hty, rfl⟩
  · cases hty

section

variable {meaning meaning' : Key → Option Meaning}

/-- A name that means something in the first sense means the same in the second, made plain. -/
def Carries (meaning meaning' : Key → Option Meaning) : Prop :=
  ∀ {target means}, meaning target = some means →
    ∃ means', meaning' target = some means' ∧ plainMeaning means' = plainMeaning means

/-- Only what parameters mean can be written in two ways. -/
theorem Carries.same (h : Carries meaning meaning') {target : Key} {means : Meaning}
    (hmeans : meaning target = some means) (hparam : ∀ ty, means ≠ .param ty) :
    meaning' target = some means := by
  obtain ⟨means', hmeans', hplain⟩ := h hmeans
  rw [hmeans']
  cases means with
  | param ty => exact absurd rfl (hparam ty)
  | _ => cases means' <;> first | exact congrArg _ hplain | cases hplain

/-! ## One body -/

mutual

theorem translate_plain (h : Carries meaning meaning') : (e : TypeExpr) → {ty : Ty} →
    translate meaning e = some ty → ∃ ty', translate meaning' e = some ty' ∧ ty'.plain = ty.plain
  | .none, _, hty | .boolean, _, hty | .integer, _, hty | .float, _, hty | .string, _, hty
  | .bytes, _, hty => ⟨_, hty, rfl⟩
  | .array element, _, hty => by
    rw [translate] at hty
    obtain ⟨ty, helement, rfl⟩ := Option.map_eq_some_iff.mp hty
    obtain ⟨ty', helement', hplain⟩ := translate_plain h element helement
    exact ⟨.array ty', by rw [translate, helement', Option.map_some], congrArg Ty.array hplain⟩
  | .record fields, _, hty => by
    rw [translate, named_eq_some_iff] at hty
    obtain ⟨hnamed, entries, hentries, rfl⟩ := hty
    obtain ⟨entries', hentries', hplain⟩ := translateMembers_plain h fields hentries
    refine ⟨.record entries', ?_, congrArg Ty.record hplain⟩
    rw [translate, named_eq_some_iff]
    exact ⟨hnamed, entries', hentries', rfl⟩
  | .choice variants, _, hty => by
    rw [translate, named_eq_some_iff] at hty
    obtain ⟨hnamed, entries, hentries, rfl⟩ := hty
    obtain ⟨entries', hentries', hplain⟩ := translateMembers_plain h variants hentries
    refine ⟨.choice entries', ?_, congrArg Ty.choice hplain⟩
    rw [translate, named_eq_some_iff]
    exact ⟨hnamed, entries', hentries', rfl⟩
  | .ref target args, ty, hty => by
    rw [translate_ref_iff] at hty
    cases hty with
    | param hmeans hargs =>
      obtain ⟨means', hmeans', hplain⟩ := h hmeans
      cases means' with
      | param ty' =>
        exact ⟨ty', translate_ref_iff.mpr (.param hmeans' hargs), Meaning.param.inj hplain⟩
      | _ => cases hplain
    | builtin hmeans hargs hbuild =>
      obtain ⟨types', hargs', hplains⟩ := translateArgs_plain h args hargs
      obtain ⟨ty', hbuild', hty⟩ := build?_plain hbuild hplains
      exact ⟨ty', translate_ref_iff.mpr (.builtin (h.same hmeans nofun) hargs' hbuild'), hty⟩
    | plain hmeans hlength hplain =>
      exact ⟨_, translate_ref_iff.mpr (.plain (h.same hmeans nofun) hlength hplain), rfl⟩
    | @generic module decl types hmeans hlength hgeneric hargs =>
      obtain ⟨types', hargs', hplains⟩ := translateArgs_plain h args hargs
      refine ⟨_, translate_ref_iff.mpr (.generic (h.same hmeans nofun) hlength hgeneric hargs'), ?_⟩
      -- the name of the instance does not show what has been replaced
      rw [← instanceKey_plain, hplains, instanceKey_plain]

theorem translateMembers_plain (h : Carries meaning meaning') :
    (members : List (String × TypeExpr)) → {entries : List (String × Ty)} →
    translateMembers meaning members = some entries →
    ∃ entries', translateMembers meaning' members = some entries' ∧
      Ty.plainEntries entries' = Ty.plainEntries entries
  | [], _, hentries => ⟨_, hentries, rfl⟩
  | (name, body) :: rest, _, hentries => by
    rw [translateMembers] at hentries
    obtain ⟨ty, hbody, hmap⟩ := Option.bind_eq_some_iff.mp hentries
    obtain ⟨entries, hrest, rfl⟩ := Option.map_eq_some_iff.mp hmap
    obtain ⟨ty', hbody', hty⟩ := translate_plain h body hbody
    obtain ⟨entries', hrest', hplain⟩ := translateMembers_plain h rest hrest
    refine ⟨(name, ty') :: entries', ?_, ?_⟩
    · rw [translateMembers, hbody', Option.bind_some, hrest', Option.map_some]
    · rw [Ty.plainEntries, Ty.plainEntries, hty, hplain]

theorem translateArgs_plain (h : Carries meaning meaning') : (args : List TypeExpr) →
    {types : List Ty} → translateArgs meaning args = some types →
    ∃ types', translateArgs meaning' args = some types' ∧
      types'.map Ty.plain = types.map Ty.plain
  | [], _, htypes => ⟨_, htypes, rfl⟩
  | arg :: rest, _, htypes => by
    rw [translateArgs] at htypes
    obtain ⟨ty, harg, hmap⟩ := Option.bind_eq_some_iff.mp htypes
    obtain ⟨types, hrest, rfl⟩ := Option.map_eq_some_iff.mp hmap
    obtain ⟨ty', harg', hty⟩ := translate_plain h arg harg
    obtain ⟨types', hrest', hplain⟩ := translateArgs_plain h rest hrest
    refine ⟨ty' :: types', ?_, ?_⟩
    · rw [translateArgs, harg', Option.bind_some, hrest', Option.map_some]
    · rw [List.map_cons, List.map_cons, hty, hplain]

end

/-- The same declaration, with the same types in the place of its parameters when these are made
plain. -/
structure Similar (s s' : Specialization) : Prop where
  module : s'.module = s.module
  decl : s'.decl = s.decl
  args : s'.args.map Ty.plain = s.args.map Ty.plain

mutual

theorem demands_plain (h : Carries meaning meaning') {s : Specialization} : (e : TypeExpr) →
    s ∈ demands meaning e → ∃ s' ∈ demands meaning' e, Similar s s'
  | .array element, hs => by
    rw [demands] at hs ⊢
    exact demands_plain h element hs
  | .record members, hs | .choice members, hs => by
    rw [demands] at hs ⊢
    exact membersDemands_plain h members hs
  | .ref target args, hs => by
    rw [demands] at hs ⊢
    cases hmeans : meaning target with
    | none => simp [hmeans] at hs
    | some means => cases means with
      | param ty => simp [hmeans] at hs
      | builtin b =>
        rw [hmeans] at hs
        rw [h.same hmeans nofun]
        exact argsDemands_plain h args hs
      | decl module decl =>
        rw [hmeans] at hs
        rw [h.same hmeans nofun]
        rcases List.mem_append.mp hs with hs | hs
        · obtain ⟨s', hs', hsimilar⟩ := argsDemands_plain h args hs
          exact ⟨s', List.mem_append_left _ hs', hsimilar⟩
        · split at hs
          · next happlies =>
            obtain ⟨types, htypes, rfl⟩ := List.mem_map.mp hs
            obtain ⟨types', htypes', hplains⟩ :=
              translateArgs_plain h args (Option.mem_toList.mp htypes)
            refine ⟨⟨module, decl, types'⟩, List.mem_append_right _ ?_, rfl, rfl, hplains⟩
            rw [if_pos happlies]
            exact List.mem_map.mpr ⟨types', Option.mem_toList.mpr htypes', rfl⟩
          · exact absurd hs List.not_mem_nil
  | .none, hs | .boolean, hs | .integer, hs | .float, hs | .string, hs | .bytes, hs => by
    simp [demands] at hs

theorem membersDemands_plain (h : Carries meaning meaning') {s : Specialization} :
    (members : List (String × TypeExpr)) → s ∈ membersDemands meaning members →
    ∃ s' ∈ membersDemands meaning' members, Similar s s'
  | [], hs => absurd hs List.not_mem_nil
  | (_, body) :: rest, hs => by
    rw [membersDemands] at hs ⊢
    rcases List.mem_append.mp hs with hs | hs
    · obtain ⟨s', hs', hsimilar⟩ := demands_plain h body hs
      exact ⟨s', List.mem_append_left _ hs', hsimilar⟩
    · obtain ⟨s', hs', hsimilar⟩ := membersDemands_plain h rest hs
      exact ⟨s', List.mem_append_right _ hs', hsimilar⟩

theorem argsDemands_plain (h : Carries meaning meaning') {s : Specialization} :
    (args : List TypeExpr) → s ∈ argsDemands meaning args →
    ∃ s' ∈ argsDemands meaning' args, Similar s s'
  | [], hs => absurd hs List.not_mem_nil
  | arg :: rest, hs => by
    rw [argsDemands] at hs ⊢
    rcases List.mem_append.mp hs with hs | hs
    · obtain ⟨s', hs', hsimilar⟩ := demands_plain h arg hs
      exact ⟨s', List.mem_append_left _ hs', hsimilar⟩
    · obtain ⟨s', hs', hsimilar⟩ := argsDemands_plain h rest hs
      exact ⟨s', List.mem_append_right _ hs', hsimilar⟩

end

end

/-! ## More modules -/

/-- In every module of the first list, names lead to the same declarations in the second. -/
def Includes (modules more : List Module) : Prop :=
  ∀ module ∈ modules, ∀ name, decl? more module.name name = decl? modules module.name name

section

variable {modules more : List Module} {s s' : Specialization}

namespace Includes

theorem refl (modules : List Module) : Includes modules modules := fun _ _ _ ↦ rfl

theorem decl? (h : Includes modules more) {module name : String} {decl : Decl}
    (hdecl : Expansion.decl? modules module name = some decl) :
    Expansion.decl? more module name = some decl := by
  obtain ⟨found, hfound, rfl, -⟩ := mem_of_decl? hdecl
  rw [h found hfound, hdecl]

/-- What comes up has a body in which names mean the same. -/
theorem meaning? (h : Includes modules more) (hs : Reached modules s) {bound : String → Option Ty}
    {target : Key} {means : Meaning}
    (hmeans : Expansion.meaning? modules s.module bound target = some means) :
    Expansion.meaning? more s.module bound target = some means := by
  obtain ⟨found, hfound, hname, -⟩ := mem_of_decl? hs.decl?
  rw [Expansion.meaning?] at hmeans ⊢
  cases hmodule : target.module with
  | none =>
    rw [hmodule] at hmeans
    rwa [← hname, h found hfound, hname]
  | some other =>
    rw [hmodule] at hmeans
    obtain ⟨decl, hdecl, rfl⟩ := Option.map_eq_some_iff.mp hmeans
    dsimp only
    rw [h.decl? hdecl, Option.map_some]

end Includes

namespace Similar

theorem refl (s : Specialization) : Similar s s := ⟨rfl, rfl, rfl⟩

theorem symm (h : Similar s s') : Similar s' s := ⟨h.module.symm, h.decl.symm, h.args.symm⟩

/-- Both have one key. -/
theorem key_eq (h : Similar s s') : s'.key = s.key := by
  rw [Specialization.key, Specialization.key, h.module, h.decl, ← instanceKey_plain, h.args,
    instanceKey_plain]

theorem carries (h : Similar s s') (hmore : Includes modules more) (hs : Reached modules s) :
    Carries (s.meaning modules) (s'.meaning more) := by
  intro target means hmeans
  have hplain := map_plainMeaning more s.module s.decl.params s.args target
  rw [hmore.meaning? hs hmeans, ← h.args, ← map_plainMeaning] at hplain
  rw [Specialization.meaning, h.module, h.decl]
  exact Option.map_eq_some_iff.mp hplain.symm

/-- Both bodies stand for the same type. -/
theorem type? (h : Similar s s') (hmore : Includes modules more) (hs : Reached modules s) {ty : Ty}
    (hty : s.type? modules = some ty) :
    ∃ ty', s'.type? more = some ty' ∧ ty'.plain = ty.plain := by
  rw [Specialization.type?, h.decl]
  exact translate_plain (h.carries hmore hs) s.decl.body hty

end Similar

/-- What comes up in some modules comes up in more modules, by induction on why it comes up. -/
theorem Reached.similar (hmore : Includes modules more) (hs : Reached modules s) :
    ∃ s', Reached more s' ∧ Similar s s' := by
  induction hs with
  | declared hdecl hplain => exact ⟨_, .declared (hmore.decl? hdecl) hplain, .refl _⟩
  | @applied outer inner houter hinner ih =>
    obtain ⟨outer', houter', hsimilar⟩ := ih
    obtain ⟨inner', hinner', hsimilar'⟩ :=
      demands_plain (hsimilar.carries hmore houter) outer.decl.body hinner
    refine ⟨inner', .applied houter' ?_, hsimilar'⟩
    rw [Specialization.demands, hsimilar.decl]
    exact hinner'

end

end Expansion

end SchemaCodec
