import SchemaCodec.Proofs.Expansion.Graph
import SchemaCodec.Proofs.Expansion.Transfer
import SchemaCodec.Proofs.Expansion.Unfolding

/-!
# Instances are hygienic substitutions

When an expansion has succeeded, its graph can be told from the translation alone: it holds the
builtin shapes, the translation of each plain declaration, and for each application that comes up
the translation of the generic body with its own parameters bound to the arguments. Which body led
to an application, how often it came up and whether its entry was there already shows nowhere.

## Entries that are written twice

Two applications that differ only in how the shape `None` is written have one key, and the later
body replaces the earlier. Both bodies have the same translation when they are made plain, so it
does not matter which of them is left. Two different bodies never meet under one key, because the
arguments can be read back from it.
-/

namespace SchemaCodec

open Syntax

namespace Expansion

/-- A graph holds the builtin shapes and the bodies that come up, each under its key, and nothing
else. -/
structure Expands (modules : List Module) (graph : Graph) : Prop where
  builtins : ∀ (b : Builtin) shape, b.shape? = some shape →
    graph.get? (.builtin b.name) = some shape
  bodies : ∀ s, Reached modules s → ∃ ty body, graph.get? s.key = some ty ∧
    s.type? modules = some body ∧ ty.plain = body.plain
  only : ∀ entry ∈ graph.entries, Explained modules entry

/-- What is known of the progress that a successful expansion leaves. -/
structure Finished (modules : List Module) (p : Progress) : Prop where
  unfolded : Unfolded modules p
  recorded : Recorded modules p
  wellFormed : WellFormed modules p
  settled : ∀ made ∈ p.instances, p.graph.contains made.2 = true
  declared : ∀ module ∈ modules, Declared module p

section

variable {modules : List Module} {p : Progress} {s t : Specialization}

theorem finished_of_run {limits : Limits} {rounds : Nat} (hmodules : Distinct modules)
    (hnamed : ∀ module ∈ modules, module.Named)
    (h : (declareAll modules (instantiate modules limits rounds)).run .initial = .ok ((), p)) :
    Finished modules p := by
  have hsafe := declareAll_safe (wellFormed_initial modules)
    (instantiate_safe modules limits rounds)
  have hkeeps := declareAll_keeps hnamed (instantiate_keeps hnamed limits rounds)
  have hinitial : Recorded modules .initial := fun made hmade ↦ absurd hmade List.not_mem_nil
  obtain ⟨hp, hext, hdeclared⟩ := hsafe _ _ h
  exact
    { unfolded := (declareAll_unfolds hmodules limits rounds).good_of_eq h
      recorded := (hkeeps .initial hinitial () p h).1
      wellFormed := hp
      settled := fun made hmade ↦ (hext.settles made hmade).resolve_left List.not_mem_nil
      declared := hdeclared }

/-- What comes up has an entry, and this is the translation of a body that came up under the same
key, whatever the names are. -/
theorem Unfolded.exists_get? (h : Unfolded modules p)
    (hsettled : ∀ made ∈ p.instances, p.graph.contains made.2 = true)
    (hdeclared : ∀ module ∈ modules, Declared module p) (hs : Reached modules s) :
    ∃ ty t, p.graph.get? s.key = some ty ∧ Reached modules t ∧ t.key = s.key ∧
      t.type? modules = some ty := by
  have hcontains : p.graph.contains s.key = true := by
    cases hkind : s.decl.isGeneric with
    | true => exact hsettled _ (h.noted s hs hkind)
    | false =>
      obtain ⟨module, hmodule, hname, hdecl⟩ := mem_of_decl? hs.decl?
      rw [Specialization.key_of_plain hkind, ← hname]
      exact hdeclared module hmodule s.decl (List.mem_filter.mpr ⟨hdecl, by rw [hkind]; rfl⟩)
  obtain ⟨ty, hget⟩ := Option.isSome_iff_exists.mp hcontains
  have hexplained := h.faithful.entries _ (Graph.mem_of_get? hget)
  generalize hkey : s.key = key at hexplained
  cases hexplained with
  | builtin _ =>
    have hmodule := s.module_key
    rw [hkey] at hmodule
    cases hmodule
  | @body t _ ht hty => exact ⟨ty, t, hkey ▸ hget, ht, rfl, hty⟩

theorem Reached.isName (hs : Reached modules s) (hnamed : ∀ module ∈ modules, module.Named) :
    IsName s.decl.name := by
  obtain ⟨module, hmodule, -, hdecl⟩ := mem_of_decl? hs.decl?
  exact (hnamed module hmodule).decls s.decl hdecl

namespace Finished

/-! ## One entry for each key -/

theorem legible (h : Finished modules p) (hs : Reached modules s) :
    ∀ arg ∈ s.args, Legible arg.plain := by
  rcases hs.plain_or_generic with ⟨-, hargs⟩ | ⟨hgeneric, -⟩
  · rw [hargs]
    exact fun arg harg ↦ absurd harg List.not_mem_nil
  · have hrecorded := h.recorded _ (h.unfolded.noted s hs hgeneric)
    generalize hmade : (s.application, s.key) = made at hrecorded
    obtain @⟨module, decl, args, -, -, hargs⟩ := hrecorded
    have heq : s.args = args := congrArg (fun made ↦ made.1.2) hmade
    exact heq ▸ hargs

/-- What comes up under one key is one declaration, applied to the same arguments when these are
made plain. -/
theorem similar_of_key_eq (h : Finished modules p) (hnamed : ∀ module ∈ modules, module.Named)
    (hs : Reached modules s) (ht : Reached modules t) (hkey : t.key = s.key) : Similar s t := by
  have hsame : t.module = s.module ∧ t.decl.name = s.decl.name ∧
      t.args.map Ty.plain = s.args.map Ty.plain := by
    rcases hs.plain_or_generic with ⟨hplain, hargs⟩ | ⟨hgeneric, -⟩ <;>
      rcases ht.plain_or_generic with ⟨hplain', hargs'⟩ | ⟨hgeneric', -⟩
    · rw [Specialization.key_of_plain hplain, Specialization.key_of_plain hplain'] at hkey
      obtain ⟨hmodule, hname⟩ := Key.mk.inj hkey
      exact ⟨Option.some_inj.mp hmodule, hname, by rw [hargs, hargs']⟩
    · rw [Specialization.key_of_plain hplain, Specialization.key_of_generic hgeneric'] at hkey
      exact absurd hkey (Legible.instanceKey_ne_declared (ht.isName hnamed) (hs.isName hnamed))
    · rw [Specialization.key_of_generic hgeneric, Specialization.key_of_plain hplain'] at hkey
      exact absurd hkey.symm (Legible.instanceKey_ne_declared (hs.isName hnamed) (ht.isName hnamed))
    · rw [Specialization.key_of_generic hgeneric, Specialization.key_of_generic hgeneric',
        ← instanceKey_plain, ← instanceKey_plain s.module] at hkey
      exact Legible.instanceKey_inj (ht.isName hnamed) (hs.isName hnamed)
        (List.forall_mem_map.mpr (h.legible ht)) (List.forall_mem_map.mpr (h.legible hs)) hkey
  exact ⟨hsame.1, ht.decl_eq hs hsame.1 hsame.2.1, hsame.2.2⟩

/-- What comes up has an entry, and this is the translation of a body that came up under the same
key. -/
theorem exists_get? (h : Finished modules p) (hs : Reached modules s) :
    ∃ ty t, p.graph.get? s.key = some ty ∧ Reached modules t ∧ t.key = s.key ∧
      t.type? modules = some ty :=
  h.unfolded.exists_get? h.settled h.declared hs

theorem get?_plain (h : Finished modules p) (hnamed : ∀ module ∈ modules, module.Named)
    (hs : Reached modules s) (hplain : s.decl.isGeneric = false) :
    ∃ ty, p.graph.get? s.key = some ty ∧ s.type? modules = some ty := by
  obtain ⟨ty, t, hget, ht, hkey, hty⟩ := h.exists_get? hs
  obtain ⟨hmodule, hdecl, -⟩ := h.similar_of_key_eq hnamed hs ht hkey
  have hargs : ∀ {u : Specialization}, Reached modules u → u.decl.isGeneric = false →
      u.args = [] := by
    intro u hu hkind
    exact (hu.plain_or_generic.resolve_right fun h ↦ Bool.eq_false_iff.mp hkind h.1).2
  have heq : t = s := by
    refine ht.eq_of_application hs ?_
    rw [Specialization.application, Specialization.application, hmodule, hdecl,
      hargs hs hplain, hargs ht (hdecl ▸ hplain)]
  exact ⟨ty, hget, heq ▸ hty⟩

theorem expands (h : Finished modules p) (hnamed : ∀ module ∈ modules, module.Named) :
    Expands modules p.graph := by
  refine ⟨h.wellFormed.builtins, fun s hs ↦ ?_, h.unfolded.faithful.entries⟩
  obtain ⟨ty, t, hget, ht, hkey, hty⟩ := h.exists_get? hs
  have hsimilar := h.similar_of_key_eq hnamed hs ht hkey
  obtain ⟨body, hbody, hplain⟩ := hsimilar.symm.type? (.refl modules) ht hty
  exact ⟨ty, body, hget, hbody, hplain.symm⟩

/-- Every key is that of a builtin shape, of a plain declaration or of an application. -/
theorem key_cases (h : Finished modules p) {entry : Key × Ty} (hentry : entry ∈ p.graph.entries) :
    (∃ b : Builtin, entry.1 = .builtin b.name) ∨
    (∃ module ∈ modules, ∃ decl ∈ module.decls, decl.isGeneric = false ∧
      entry.1 = .qualified module.name decl.name) ∨
    ∃ made ∈ p.instances, entry.1 = made.2 := by
  cases h.unfolded.faithful.entries entry hentry with
  | @builtin b _ _ => exact .inl ⟨b, rfl⟩
  | @body s _ hs _ =>
    right
    rcases hs.plain_or_generic with ⟨hplain, -⟩ | ⟨hgeneric, -⟩
    · obtain ⟨module, hmodule, hname, hdecl⟩ := mem_of_decl? hs.decl?
      refine .inl ⟨module, hmodule, s.decl, hdecl, hplain, ?_⟩
      rw [hname, ← Specialization.key_of_plain hplain]
    · exact .inr ⟨_, h.unfolded.noted s hs hgeneric, rfl⟩

end Finished

/-! ## Whole schemas -/

/-- A graph comes from names that are told apart, a successful run, and the check of aliases. -/
theorem run_of_graph {limits : Limits} {graph : Graph}
    (h : Expansion.graph limits modules = .ok graph) :
    Distinct modules ∧ ∃ done : Progress, (declareAll modules (instantiate modules limits
        (limits.nesting.getD unlimitedRounds))).run .initial = .ok ((), done) ∧
      checkAliases graph = .ok () ∧ done.graph = graph := by
  obtain ⟨⟨⟩, hnames, hall⟩ := bind_ok h
  obtain ⟨⟨⟨⟩, done⟩, hrun, hcheck⟩ := bind_ok hall
  obtain ⟨⟨⟩, haliases, hgraph⟩ := bind_ok hcheck
  cases hgraph
  exact ⟨(checkNames_iff modules).mp hnames, done, hrun, haliases, rfl⟩

theorem expands_of_graph {limits : Limits} {graph : Graph}
    (hnamed : ∀ module ∈ modules, module.Named)
    (h : Expansion.graph limits modules = .ok graph) : Expands modules graph := by
  obtain ⟨hmodules, done, hrun, -, rfl⟩ := run_of_graph h
  exact (finished_of_run hmodules hnamed hrun).expands hnamed

end

/-- **Instances are hygienic substitutions.** In the graph of a schema the entry of a plain
declaration is the translation of its body in its own module with nothing bound. The entry of an
application is, up to how the shape `None` is written, the translation of the generic body in the
module of the generic declaration, with exactly its parameters bound to the arguments. Besides the
builtin shapes there are no other entries. -/
theorem graph_get?_eq_translate {limits : Limits} {modules : List Module} {graph : Graph}
    (hnamed : ∀ module ∈ modules, module.Named)
    (h : Expansion.graph limits modules = .ok graph) :
    (∀ module ∈ modules, ∀ decl ∈ module.decls, decl.isGeneric = false →
      ∃ ty, graph.get? (.qualified module.name decl.name) = some ty ∧
        translate (meaning? modules module.name fun _ ↦ none) decl.body = some ty) ∧
    ∃ done : Progress, (declareAll modules (instantiate modules limits
        (limits.nesting.getD unlimitedRounds))).run .initial = .ok ((), done) ∧
      done.graph = graph ∧
      (∀ made ∈ done.instances, ∃ module ∈ modules, ∃ decl ∈ module.decls, ∃ args ty body,
        made = ((.qualified module.name decl.name, args), instanceKey module.name decl args) ∧
        args.length = decl.params.length ∧ graph.get? made.2 = some ty ∧
        translate (meaning? modules module.name (bindings decl.params args)) decl.body
          = some body ∧
        ty.plain = body.plain) ∧
      ∀ entry ∈ graph.entries, (∃ b : Builtin, entry.1 = .builtin b.name) ∨
        (∃ module ∈ modules, ∃ decl ∈ module.decls, decl.isGeneric = false ∧
          entry.1 = .qualified module.name decl.name) ∨
        ∃ made ∈ done.instances, entry.1 = made.2 := by
  obtain ⟨hmodules, done, hrun, -, rfl⟩ := run_of_graph h
  have hfinished := finished_of_run hmodules hnamed hrun
  refine ⟨fun module hmodule decl hdecl hplain ↦ ?_, done, hrun, rfl, fun made hmade ↦ ?_,
    fun entry hentry ↦ hfinished.key_cases hentry⟩
  · have hs : Reached modules ⟨module.name, decl, []⟩ :=
      .declared (hmodules.decl?_of_mem hmodule hdecl) hplain
    obtain ⟨ty, hget, hty⟩ := hfinished.get?_plain hnamed hs hplain
    rw [Specialization.key_of_plain hplain] at hget
    rw [Specialization.type?, Specialization.meaning, bindings_nil_right] at hty
    exact ⟨ty, hget, hty⟩
  · obtain ⟨s, hs, hgeneric, rfl⟩ := hfinished.unfolded.faithful.instances made hmade
    obtain ⟨ty, body, hget, hbody, hplain⟩ := (hfinished.expands hnamed).bodies s hs
    obtain ⟨module, hmodule, hname, hdecl⟩ := mem_of_decl? hs.decl?
    have hlength := (hs.plain_or_generic.resolve_left fun h ↦ Bool.eq_false_iff.mp h.1 hgeneric).2
    refine ⟨module, hmodule, s.decl, hdecl, s.args, ty, body, ?_, hlength, hget, ?_, hplain⟩
    · rw [hname, ← Specialization.key_of_generic hgeneric, Specialization.application]
    · rw [hname]
      exact hbody

/-- Two modules with an item each, and a box of the first module that is filled from the second.
Both parameters of the box have one name. -/
def items : List Module :=
  [⟨"M", [
    ⟨"Item", [], .integer⟩,
    ⟨"Box", ["t", "t"], .record [("first", .ref (.builtin "t") []),
      ("item", .ref (.builtin "Item") [])]⟩]⟩,
   ⟨"N", [
    ⟨"Item", [], .string⟩,
    ⟨"Full", [], .ref (.qualified "M" "Box") [.boolean, .ref (.builtin "Item") []]⟩]⟩]

/-- The graph of these items: the box has the item of its own module. -/
def itemsGraph : Graph :=
  let box := Key.qualified "M" "Box(Boolean, N.Item)"
  let item (module : String) := Ty.ref (.qualified module "Item")
  (((Graph.builtins.insert (.qualified "M" "Item") .integer).insert
    (.qualified "N" "Item") .string).insert
    box (.record [("first", item "N"), ("item", item "M")])).insert
    (.qualified "N" "Full") (.ref box)

theorem graph_get?_eq_translate_items :
    Expansion.graph .standard items = .ok itemsGraph ∧
    ∃ done : Progress, done.graph = itemsGraph ∧ done.instances ≠ [] ∧
      ∀ made ∈ done.instances, ∃ module ∈ items, ∃ decl ∈ module.decls, ∃ args ty body,
        made = ((.qualified module.name decl.name, args), instanceKey module.name decl args) ∧
        args.length = decl.params.length ∧ itemsGraph.get? made.2 = some ty ∧
        translate (meaning? items module.name (bindings decl.params args)) decl.body
          = some body ∧
        ty.plain = body.plain := by
  have h : Expansion.graph .standard items = .ok itemsGraph := rfl
  have hnamed : ∀ module ∈ items, module.Named := by
    refine List.forall_mem_cons.mpr ⟨⟨by decide, by decide, by decide⟩, ?_⟩
    exact List.forall_mem_singleton.mpr ⟨by decide, by decide, by decide⟩
  obtain ⟨-, done, hrun, hgraph, hinstances, -⟩ := graph_get?_eq_translate hnamed h
  refine ⟨h, done, hgraph, ?_, hinstances⟩
  cases hrun
  exact List.cons_ne_nil _ _

end Expansion

end SchemaCodec
