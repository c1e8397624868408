import Mathlib.Data.List.Perm.Basic
import SchemaCodec.Proofs.Expansion.Inclusion

/-!
# The order of modules and declarations does not matter

Modules may be given in any order, and so may the declarations in each of them. The order decides
which body is gone through first and on whose behalf, but what comes up does not depend on it. Two
expansions of which none is stopped by a limit therefore both fail or both succeed, and then with
the same graph, up to the order of its entries and to how the shape `None` is written.

## Which failures a limit causes

A limit on nesting counts from a plain declaration inwards, so an application that is within reach
of one declaration can be out of reach of another. Which of them comes first is a matter of order;
hence what a limit stops is left out. Where nesting is not limited, an expansion that would go on
for ever is not told apart from one that is stopped.
-/

namespace SchemaCodec

/-- Graphs of which each has the entries of the other hold the same when they are made plain. -/
theorem Graph.Within.map_plain_eq {graph other : Graph} (h : graph.Within other)
    (h' : other.Within graph) (key : Key) :
    (graph.get? key).map Ty.plain = (other.get? key).map Ty.plain := by
  cases hget : graph.get? key with
  | some ty =>
    obtain ⟨ty', hget', hplain⟩ := h key ty hget
    rw [hget', Option.map_some, Option.map_some, hplain]
  | none =>
    cases hget' : other.get? key with
    | none => rfl
    | some ty' =>
      obtain ⟨ty, hsome, -⟩ := h' key ty' hget'
      rw [hget] at hsome
      cases hsome

namespace Expansion

/-! ## Other orders -/

/-- The same module with its declarations in another order. -/
structure SameDecls (module module' : Module) : Prop where
  name : module.name = module'.name
  decls : module.decls.Perm module'.decls

/-- The same modules in another order, each with its declarations in another order. -/
def Reordered (modules modules' : List Module) : Prop :=
  ∃ middle, modules.Perm middle ∧ List.Forall₂ SameDecls middle modules'

variable {modules modules' : List Module} {graph graph' : Graph}

namespace Reordered

theorem symm (h : Reordered modules modules') : Reordered modules' modules := by
  obtain ⟨middle, hperm, hsame⟩ := h
  obtain ⟨middle', hsame', hperm'⟩ := List.perm_comp_forall₂ hperm hsame
  refine ⟨middle', hperm'.symm, List.Forall₂.flip (hsame'.imp ?_)⟩
  rintro module module' ⟨hname, hdecls⟩
  exact ⟨hname.symm, hdecls.symm⟩

theorem exists_of_mem (h : Reordered modules modules') {module : Module}
    (hmodule : module ∈ modules) : ∃ module' ∈ modules', SameDecls module module' := by
  obtain ⟨middle, hperm, hsame⟩ := h
  have hmem := hperm.mem_iff.mp hmodule
  clear hperm
  induction hsame with
  | nil => exact absurd hmem List.not_mem_nil
  | @cons first first' rest rest' hfirst _ ih =>
    rcases List.mem_cons.mp hmem with rfl | hmem
    · exact ⟨first', List.mem_cons_self, hfirst⟩
    · obtain ⟨module', hmodule', hsame⟩ := ih hmem
      exact ⟨module', List.mem_cons_of_mem _ hmodule', hsame⟩

theorem map_name (h : Reordered modules modules') :
    (modules.map Module.name).Perm (modules'.map Module.name) := by
  obtain ⟨middle, hperm, hsame⟩ := h
  have hnames : middle.map Module.name = modules'.map Module.name := by
    rw [← List.forall₂_eq_eq_eq, List.forall₂_map_left_iff, List.forall₂_map_right_iff]
    exact hsame.imp fun _ _ h ↦ h.name
  exact hnames ▸ hperm.map Module.name

theorem distinct (h : Reordered modules modules') (hmodules : Distinct modules) :
    Distinct modules' := by
  refine ⟨h.map_name.nodup_iff.mp hmodules.1, fun module' hmodule' ↦ ?_⟩
  obtain ⟨module, hmodule, hsame⟩ := h.symm.exists_of_mem hmodule'
  exact (hsame.decls.map Decl.name).nodup_iff.mpr (hmodules.2 module hmodule)

theorem named (h : Reordered modules modules') (hnamed : ∀ module ∈ modules, module.Named) :
    ∀ module' ∈ modules', module'.Named := by
  intro module' hmodule'
  obtain ⟨module, hmodule, hname, hdecls⟩ := h.symm.exists_of_mem hmodule'
  obtain ⟨hmodule, hall, hentries⟩ := hnamed module hmodule
  refine ⟨hname ▸ hmodule, fun decl hdecl ↦ ?_, fun decl hdecl ↦ ?_⟩
  · exact hall decl (hdecls.mem_iff.mp hdecl)
  · exact hentries decl (hdecls.mem_iff.mp hdecl)

theorem includes (h : Reordered modules modules') (hmodules : Distinct modules) :
    Includes modules modules' := by
  refine includes_of_forall hmodules (h.distinct hmodules) fun module hmodule ↦ ?_
  obtain ⟨module', hmodule', hname, hdecls⟩ := h.exists_of_mem hmodule
  exact ⟨module', hmodule', hname.symm, hdecls.symm⟩

end Reordered

/-! ## Success in another order -/

theorem checkAliases_of_isShape {graph : Graph}
    (h : ∀ entry ∈ graph.entries, (graph.resolve entry.2).IsShape) :
    checkAliases graph = .ok () := by
  have hnone : (graph.entries.find? fun entry ↦ isCyclic graph entry.2) = none := by
    refine List.find?_eq_none.mpr fun entry hentry ↦ ?_
    have hshape := h entry hentry
    rw [isCyclic]
    split
    · next key hkey =>
      rw [hkey] at hshape
      cases hshape
    · exact Bool.false_ne_true
  rw [checkAliases, hnone]

/-- The chains of references of the one graph end on shapes if those of the other do. -/
theorem Expands.isShape_resolve (hmodules : Includes modules modules')
    (hmodules' : Includes modules' modules) (h : Expands modules graph) (hgraph : graph.WellFormed)
    (h' : Expands modules' graph') {entry : Key × Ty} (hentry : entry ∈ graph'.entries) :
    (graph'.resolve entry.2).IsShape := by
  have hwithin : graph.Within graph' := h.within hmodules h'
  have hnone : graph'.NamesNone := h'.builtins .none .none rfl
  have hsame : ∀ {key ty}, graph.get? key = some ty → entry.2.plain = ty.plain →
      (graph'.resolve entry.2).IsShape := by
    intro key ty hget hplain
    have hshape := hgraph.closed.isShape_resolve (hgraph.known _ (Graph.mem_of_get? hget))
    obtain ⟨steps, hshape', -⟩ := Graph.follow_plain hwithin hgraph.namesNone hnone hplain hshape
    exact Graph.isShape_resolve_iff.mpr ⟨steps, hshape'⟩
  cases h'.only entry hentry with
  | builtin hshape => exact hsame (h.builtins _ _ hshape) rfl
  | @body s' ty' hs' hty' =>
    obtain ⟨s, hs, hsimilar⟩ := hs'.similar hmodules'
    obtain ⟨ty, body, hget, hbody, hplain⟩ := h.bodies s hs
    obtain ⟨body', hbody', hplain'⟩ := hsimilar.type? hmodules' hs' hty'
    rw [hbody] at hbody'
    cases hbody'
    exact hsame hget (hplain.trans hplain').symm

/-- If the expansion succeeds in one order, it succeeds in the other, unless a limit stops it. -/
theorem exists_graph_of_reordered {limits limits' : Limits}
    (hnamed : ∀ module ∈ modules, module.Named) (hreordered : Reordered modules modules')
    (h : Expansion.graph limits modules = .ok graph)
    (hlimits : ∀ e, Expansion.graph limits' modules' = .error e → ¬limits'.Causes e) :
    ∃ graph', Expansion.graph limits' modules' = .ok graph' := by
  have hmodules := (run_of_graph h).1
  have hmodules' := hreordered.distinct hmodules
  have hincludes := hreordered.includes hmodules
  have hincludes' := hreordered.symm.includes hmodules'
  have hexpands := expands_of_graph hnamed h
  have hnames' : checkNames [] modules' = .ok () := (checkNames_iff modules').mpr hmodules'
  have hends := declareAll_unfolds hmodules' limits' (limits'.nesting.getD unlimitedRounds)
  rw [Expansion.graph, graphWithin, bind_of_ok hnames'] at hlimits ⊢
  cases hrun : (declareAll modules' (instantiate modules' limits'
      (limits'.nesting.getD unlimitedRounds))).run .initial with
  | error e =>
    -- a body without a translation would have stopped the expansion in the other order
    rcases hends.bad_of_eq hrun with hcauses | ⟨s', hs', hnone⟩
    · refine absurd hcauses (hlimits e ?_)
      rw [bind_of_error hrun]
    · obtain ⟨s, hs, hsimilar⟩ := hs'.similar hincludes'
      obtain ⟨ty, body, -, hbody, -⟩ := hexpands.bodies s hs
      obtain ⟨body', hbody', -⟩ := hsimilar.symm.type? hincludes hs hbody
      rw [hnone] at hbody'
      cases hbody'
  | ok r =>
    obtain ⟨⟨⟩, done⟩ := r
    have hexpands' := (finished_of_run hmodules' (hreordered.named hnamed) hrun).expands
      (hreordered.named hnamed)
    have haliases : checkAliases done.graph = .ok () :=
      checkAliases_of_isShape fun entry hentry ↦ hexpands.isShape_resolve hincludes hincludes'
        (wellFormed_of_graphWithin h) hexpands' hentry
    refine ⟨done.graph, ?_⟩
    exact bind_of_ok haliases _

/-- **The order does not matter.** Of a schema and the same modules and declarations in any other
order, both expansions fail or both succeed, if neither is stopped by a limit. If they succeed, the
graphs have the same keys, and the same entry under each when it is made plain. -/
theorem graph_reordered {limits limits' : Limits} (hnamed : ∀ module ∈ modules, module.Named)
    (hreordered : Reordered modules modules')
    (hlimits : ∀ e, Expansion.graph limits modules = .error e → ¬limits.Causes e)
    (hlimits' : ∀ e, Expansion.graph limits' modules' = .error e → ¬limits'.Causes e) :
    ((∃ e, Expansion.graph limits modules = .error e) ∧
      ∃ e', Expansion.graph limits' modules' = .error e') ∨
    ∃ graph graph', Expansion.graph limits modules = .ok graph ∧
      Expansion.graph limits' modules' = .ok graph' ∧
      ∀ key, (graph.get? key).map Ty.plain = (graph'.get? key).map Ty.plain := by
  have hnamed' := hreordered.named hnamed
  cases h : Expansion.graph limits modules with
  | error e =>
    cases h' : Expansion.graph limits' modules' with
    | error e' => exact .inl ⟨⟨e, rfl⟩, e', rfl⟩
    | ok graph' =>
      obtain ⟨graph, hgraph⟩ := exists_graph_of_reordered hnamed' hreordered.symm h' hlimits
      rw [h] at hgraph
      cases hgraph
  | ok graph =>
    obtain ⟨graph', h'⟩ := exists_graph_of_reordered hnamed hreordered h hlimits'
    have hexpands := expands_of_graph hnamed h
    have hexpands' := expands_of_graph hnamed' h'
    have hmodules := (run_of_graph h).1
    have hincludes := hreordered.includes hmodules
    have hincludes' := hreordered.symm.includes (hreordered.distinct hmodules)
    have hwithin : graph.Within graph' := hexpands.within hincludes hexpands'
    have hwithin' : graph'.Within graph := hexpands'.within hincludes' hexpands
    exact .inr ⟨graph, graph', rfl, h', hwithin.map_plain_eq hwithin'⟩

/-- The box and what is delivered to it, the last first. -/
def returned : List Module :=
  (stock ++ delivery).reverse.map fun module ↦ ⟨module.name, module.decls.reverse⟩

/-- The graph of these: the entry of the box has been written last in the other way. -/
def returnedGraph : Graph :=
  (((Graph.builtins.insert stockKey
    (.record [("v", .choice [("none", .none), ("value", .integer)])])).insert
    (.qualified "N" "B") (.ref stockKey)).insert
    stockKey (.record [("v", .optional .integer)])).insert
    (.qualified "M" "A") (.ref stockKey)

theorem graph_reordered_returned :
    Expansion.graph .standard (stock ++ delivery) = .ok deliveredGraph ∧
    Expansion.graph .standard returned = .ok returnedGraph ∧
    deliveredGraph ≠ returnedGraph ∧
    ∀ key, (deliveredGraph.get? key).map Ty.plain = (returnedGraph.get? key).map Ty.plain := by
  have h : Expansion.graph .standard (stock ++ delivery) = .ok deliveredGraph := rfl
  have h' : Expansion.graph .standard returned = .ok returnedGraph := rfl
  have hnamed : ∀ module ∈ stock ++ delivery, module.Named := by
    refine List.forall_mem_cons.mpr ⟨⟨by decide, by decide, by decide⟩, ?_⟩
    exact List.forall_mem_singleton.mpr ⟨by decide, by decide, by decide⟩
  have hreordered : Reordered (stock ++ delivery) returned := by
    refine ⟨_, (List.reverse_perm _).symm, List.forall₂_map_right_iff.mpr ?_⟩
    exact List.forall₂_same.mpr fun module _ ↦ ⟨rfl, (List.reverse_perm _).symm⟩
  have hlimits : ∀ e, Expansion.graph .standard (stock ++ delivery) = .error e →
      ¬Limits.standard.Causes e := fun e he ↦ by cases h.symm.trans he
  have hlimits' : ∀ e, Expansion.graph .standard returned = .error e →
      ¬Limits.standard.Causes e := fun e he ↦ by cases h'.symm.trans he
  refine ⟨h, h', by decide, ?_⟩
  rcases graph_reordered hnamed hreordered hlimits hlimits' with
    ⟨⟨e, he⟩, -⟩ | ⟨graph, graph', hgraph, hgraph', hsame⟩
  · cases h.symm.trans he
  · cases h.symm.trans hgraph
    cases h'.symm.trans hgraph'
    exact hsame

end Expansion

end SchemaCodec
