import SchemaCodec.Proofs.Expansion.Substitution
import SchemaCodec.Schema.Portable

/-!
# Bodies under one key

A graph has one entry for each key, and a later body replaces an earlier one. Names that the lexer
reads keep bodies apart. Modules in portable form may have any names: one that looks like an
application of a generic declaration can be declared, and names that hold commas, dots or
parentheses can make two applications look alike. Nothing is refused then, and all references to the
key mean the body that was written last.

## When a body is kept

Of the bodies that come up under one key all are kept, up to how the shape `None` is written, if all
have one translation, and else not all are. What is declared under a name without a parenthesis is
always kept, since the name of every application has one.
-/

namespace SchemaCodec

namespace Expansion

/-- The entry under the key of a body is the translation of this body, up to how the shape `None` is
written. -/
def Kept (modules : List Module) (graph : Graph) (s : Specialization) : Prop :=
  ∃ ty body, graph.get? s.key = some ty ∧ s.type? modules = some body ∧ ty.plain = body.plain

section

variable {modules : List Module} {limits : Limits} {graph : Graph} {s t : Specialization}

/-- A body that comes up has an entry under its key, and this is the translation of one of the
bodies that come up under this key. -/
theorem exists_get?_of_graph (h : Expansion.graph limits modules = .ok graph)
    (hs : Reached modules s) :
    ∃ ty t, graph.get? s.key = some ty ∧ Reached modules t ∧ t.key = s.key ∧
      t.type? modules = some ty := by
  obtain ⟨hmodules, done, hrun, -, rfl⟩ := run_of_graph h
  have hsafe := declareAll_safe (wellFormed_initial modules)
    (instantiate_safe modules limits (limits.nesting.getD unlimitedRounds))
  obtain ⟨-, hext, hdeclared⟩ := hsafe _ _ hrun
  have hunfolded := (declareAll_unfolds hmodules limits _).good_of_eq hrun
  refine hunfolded.exists_get? (fun made hmade ↦ ?_) hdeclared hs
  exact (hext.settles made hmade).resolve_left List.not_mem_nil

/-- All bodies of one key are kept if they have one translation, and only then. -/
theorem kept_iff (h : Expansion.graph limits modules = .ok graph) (key : Key) :
    (∀ s, Reached modules s → s.key = key → Kept modules graph s) ↔
      ∀ s t, Reached modules s → Reached modules t → s.key = key → t.key = key →
        (s.type? modules).map Ty.plain = (t.type? modules).map Ty.plain := by
  constructor
  · intro hkept s t hs ht hskey htkey
    obtain ⟨ty, body, hget, hbody, hplain⟩ := hkept s hs hskey
    obtain ⟨ty', body', hget', hbody', hplain'⟩ := hkept t ht htkey
    -- there is one entry for both
    rw [hskey] at hget
    rw [htkey, hget] at hget'
    cases hget'
    rw [hbody, hbody', Option.map_some, Option.map_some, ← hplain, ← hplain']
  · intro hone s hs hskey
    obtain ⟨ty, t, hget, ht, htkey, hty⟩ := exists_get?_of_graph h hs
    have hsame := hone s t hs ht hskey (htkey.trans hskey)
    rw [hty, Option.map_some] at hsame
    obtain ⟨body, hbody, hplain⟩ := Option.map_eq_some_iff.mp hsame
    exact ⟨ty, body, hget, hbody, hplain.symm⟩

/-- The name of an application has a parenthesis. -/
theorem parenthesis_mem_instanceKey (module : String) (decl : Decl) (args : List Ty) :
    '(' ∈ (instanceKey module decl args).name.toList := by
  simp [instanceKey, Key.qualified]

/-- Under a key without a parenthesis nothing but one plain declaration comes up. -/
theorem Reached.eq_of_no_parenthesis (hs : Reached modules s) (ht : Reached modules t)
    (hkey : t.key = s.key) (hname : '(' ∉ s.key.name.toList) : t = s := by
  have hplain : ∀ {u : Specialization}, Reached modules u → u.key = s.key →
      u.decl.isGeneric = false ∧ u.args = [] := by
    intro u hu hukey
    refine hu.plain_or_generic.resolve_right fun ⟨hgeneric, _⟩ ↦ hname ?_
    rw [← hukey, Specialization.key_of_generic hgeneric]
    exact parenthesis_mem_instanceKey u.module u.decl u.args
  obtain ⟨hs', hsargs⟩ := hplain hs rfl
  obtain ⟨ht', htargs⟩ := hplain ht hkey
  rw [Specialization.key_of_plain hs', Specialization.key_of_plain ht'] at hkey
  refine ht.eq_of_application hs ?_
  rw [Specialization.application, Specialization.application, hkey, hsargs, htargs]

end

/-- **Bodies under one key.** In the graph of any modules, whatever their names, what is declared
under a name without a parenthesis has the translation of its body as its entry. Of the bodies that
come up under one key, declared or applied, all are kept exactly if all have one translation. Where
all names are names that the lexer reads, all bodies are kept. -/
theorem bodies_kept_iff {limits : Limits} {modules : List Module} {graph : Graph}
    (h : Expansion.graph limits modules = .ok graph) :
    (∀ module ∈ modules, ∀ decl ∈ module.decls, decl.isGeneric = false → '(' ∉ decl.name.toList →
      ∃ ty, graph.get? (.qualified module.name decl.name) = some ty ∧
        translate (meaning? modules module.name fun _ ↦ none) decl.body = some ty) ∧
    (∀ key, (∀ s, Reached modules s → s.key = key → Kept modules graph s) ↔
      ∀ s t, Reached modules s → Reached modules t → s.key = key → t.key = key →
        (s.type? modules).map Ty.plain = (t.type? modules).map Ty.plain) ∧
    ((∀ module ∈ modules, module.Named) → ∀ s, Reached modules s → Kept modules graph s) := by
  obtain ⟨hmodules, -⟩ := run_of_graph h
  refine ⟨fun module hmodule decl hdecl hplain hname ↦ ?_, kept_iff h,
    fun hnamed ↦ (expands_of_graph hnamed h).bodies⟩
  have hs : Reached modules ⟨module.name, decl, []⟩ :=
    .declared (hmodules.decl?_of_mem hmodule hdecl) hplain
  have hkey := Specialization.key_of_plain (s := ⟨module.name, decl, []⟩) hplain
  obtain ⟨ty, t, hget, ht, htkey, hty⟩ := exists_get?_of_graph h hs
  obtain rfl := hs.eq_of_no_parenthesis ht htkey (by rwa [hkey])
  rw [hkey] at hget
  rw [Specialization.type?, Specialization.meaning, bindings_nil_right] at hty
  exact ⟨ty, hget, hty⟩

/-- A box, something declared under the name of a box of integers, and such a box. -/
def lookalikes : List Module :=
  [⟨"M", [
    ⟨"Box", ["x"], .record [("v", .ref (.builtin "x") [])]⟩,
    ⟨"Box(Integer)", [], .string⟩,
    ⟨"Filled", [], .ref (.builtin "Box") [.integer]⟩]⟩]

/-- The graph of these modules: the box is written last, and it has replaced the string. -/
def lookalikesGraph : Graph :=
  let box := Key.qualified "M" "Box(Integer)"
  ((Graph.builtins.insert box .string).insert box (.record [("v", .integer)])).insert
    (.qualified "M" "Filled") (.ref box)

theorem bodies_kept_iff_lookalikes :
    Expansion.graph .standard lookalikes = .ok lookalikesGraph ∧
    lookalikesGraph.get? (.qualified "M" "Filled")
      = some (.ref (.qualified "M" "Box(Integer)")) ∧
    ∃ s, Reached lookalikes s ∧ s.key = .qualified "M" "Box(Integer)" ∧
      ¬Kept lookalikes lookalikesGraph s := by
  have h : Expansion.graph .standard lookalikes = .ok lookalikesGraph := rfl
  obtain ⟨hdeclared, hkept, -⟩ := bodies_kept_iff h
  refine ⟨h, ?_, ?_⟩
  · obtain ⟨ty, hget, hty⟩ := hdeclared _ List.mem_cons_self
      ⟨"Filled", [], .ref (.builtin "Box") [.integer]⟩ (by decide) rfl (by decide)
    rw [hget, ← hty]
    rfl
  · -- the string and the box come up under one key, and they have different translations
    have hstring : Reached lookalikes ⟨"M", ⟨"Box(Integer)", [], .string⟩, []⟩ := .declared rfl rfl
    have hfilled : Reached lookalikes ⟨"M", ⟨"Filled", [], .ref (.builtin "Box") [.integer]⟩, []⟩ :=
      .declared rfl rfl
    have hbox : Reached lookalikes
        ⟨"M", ⟨"Box", ["x"], .record [("v", .ref (.builtin "x") [])]⟩, [.integer]⟩ :=
      .applied hfilled List.mem_cons_self
    by_contra hall
    simp only [not_exists, not_and, not_not] at hall
    have hone := (hkept (.qualified "M" "Box(Integer)")).mp hall
    exact absurd (hone _ _ hstring hbox rfl rfl) (by decide)

/-- What is declared is not always kept: modules that can be read from their portable form declare a
string under a key whose entry is a record. -/
theorem declared_body_replaced :
    Portable.modules? (Portable.ofModules lookalikes) = some lookalikes ∧
    Expansion.graph .standard lookalikes = .ok lookalikesGraph ∧
    Reached lookalikes ⟨"M", ⟨"Box(Integer)", [], .string⟩, []⟩ ∧
    lookalikesGraph.get? (.qualified "M" "Box(Integer)") = some (.record [("v", .integer)]) ∧
    ¬Kept lookalikes lookalikesGraph ⟨"M", ⟨"Box(Integer)", [], .string⟩, []⟩ := by
  refine ⟨by cbv, rfl, .declared rfl rfl, rfl, ?_⟩
  rintro ⟨ty, body, hget, hbody, hplain⟩
  cases hget
  cases hbody
  cases hplain

end Expansion

end SchemaCodec
