import SchemaCodec.Proofs.Expansion.Substitution
import SchemaCodec.Proofs.Interchange

/-!
# Adding modules changes no types

A schema may be expanded together with modules that use it. They may apply its generic declarations
before it does so itself, and to arguments that are written in another way, in which case entries
are shared or written again. None of that changes an entry by more than how the shape `None` is
written, and that cannot be told from the values of the type.

## Two runs are never compared

What an expansion leaves behind is described by the translation of bodies alone. So two graphs are
compared through what comes up in the two lists of modules, without following one expansion along
the other.
-/

namespace SchemaCodec

/-! ## Types that are written in two ways -/

namespace Ty

variable {ty ty' : Ty}

theorem eq_ref_of_plain {key : Key} (h : ty.plain = ref key) : ty = ref key := by
  cases ty with
  | ref other =>
    rw [plain] at h
    split at h
    · cases h
    · exact h
  | _ => cases h

/-- Made plain, a shape has the same constructor and the same entries, made plain. -/
theorem kind_entries_plain (h : ty.IsShape) :
    ty.plain.kind = ty.kind ∧ ty.plain.entries = plainEntries ty.entries := by
  cases ty with
  | ref key => exact absurd h (by simp [IsShape, key?])
  | _ => exact ⟨rfl, rfl⟩

/-- Shapes that are the same when made plain have children that are the same when made plain. -/
theorem alike_of_plain {R : Ty → Ty → Prop} (hty : ty.IsShape) (hty' : ty'.IsShape)
    (h : ty'.plain = ty.plain)
    (hR : ∀ child child', Child child ty → child'.plain = child.plain → R child child') :
    Alike R ty ty' := by
  obtain ⟨hkind, hentries⟩ := kind_entries_plain hty
  obtain ⟨hkind', hentries'⟩ := kind_entries_plain hty'
  refine ⟨by rw [← hkind, ← hkind', h], fun element element' hs hs' ↦ ?_, ?_⟩
  · subst hs hs'
    exact hR element element' (.element element) (Ty.array.inj h)
  · have hplain : plainEntries ty.entries = plainEntries ty'.entries := by
      rw [← hentries, ← hentries', h]
    rw [plainEntries_eq, plainEntries_eq, ← List.forall₂_eq_eq_eq, List.forall₂_map_left_iff,
      List.forall₂_map_right_iff] at hplain
    have hchild : ∀ entry ∈ ty.entries, Child entry.2 ty := fun _ hmem ↦ .entry hmem
    refine ((List.forall₂_and_left _ _).mpr ⟨hchild, hplain⟩).imp ?_
    rintro entry entry' ⟨hmem, heq⟩
    obtain ⟨hname, hsame⟩ := Prod.mk.inj heq
    exact ⟨hname, hR entry.2 entry'.2 hmem hsame.symm⟩

end Ty

namespace Graph

variable {graph other : Graph} {ty ty' : Ty}

/-- Every entry of the first graph is one of the second when both are made plain. -/
def Within (graph other : Graph) : Prop :=
  ∀ key ty, graph.get? key = some ty → ∃ ty', other.get? key = some ty' ∧ ty'.plain = ty.plain

/-- The builtin name `None` leads to its shape. -/
def NamesNone (graph : Graph) : Prop := graph.get? (.builtin "None") = some .none

theorem follow_shape_plain (hother : other.NamesNone) (hty : ty.IsShape)
    (h : ty'.plain = ty.plain) :
    ∃ steps, (other.follow steps ty').IsShape ∧ (other.follow steps ty').plain = ty.plain := by
  by_cases hty' : ty'.IsShape
  · exact ⟨0, hty', h⟩
  · obtain ⟨key, rfl⟩ := Ty.not_isShape_iff.mp hty'
    by_cases hkey : key = .builtin "None"
    · subst hkey
      refine ⟨1, ?_⟩
      rw [follow_ref hother]
      exact ⟨rfl, h⟩
    · rw [Ty.plain, if_neg hkey] at h
      rw [Ty.eq_ref_of_plain h.symm] at hty
      exact absurd hty hty'

/-- Walks from types that are the same when made plain lead to shapes of which that is true. Only
the name of the shape `None` may be passed in one of them alone. -/
theorem follow_plain (hwithin : graph.Within other) (hgraph : graph.NamesNone)
    (hother : other.NamesNone) {steps : Nat} (h : ty'.plain = ty.plain)
    (hshape : (graph.follow steps ty).IsShape) :
    ∃ steps', (other.follow steps' ty').IsShape ∧
      (other.follow steps' ty').plain = (graph.follow steps ty).plain := by
  induction steps generalizing ty ty' with
  | zero => exact follow_shape_plain hother hshape h
  | succ steps ih =>
    by_cases hty : ty.IsShape
    · rw [follow_shape hty]
      exact follow_shape_plain hother hty h
    · obtain ⟨key, rfl⟩ := Ty.not_isShape_iff.mp hty
      cases hget : graph.get? key with
      | none =>
        rw [follow_stuck hget] at hshape
        exact absurd hshape hty
      | some next =>
        rw [follow_ref hget] at hshape ⊢
        by_cases hkey : key = .builtin "None"
        · rw [hkey, hgraph] at hget
          cases hget
          rw [hkey] at h
          exact ih h hshape
        · rw [Ty.plain, if_neg hkey] at h
          obtain rfl := Ty.eq_ref_of_plain h
          obtain ⟨next', hget', hnext⟩ := hwithin key next hget
          obtain ⟨steps', hshape', hplain⟩ := ih hnext hshape
          exact ⟨steps' + 1, by rwa [follow_ref hget'], by rwa [follow_ref hget']⟩

/-- Types that are the same when made plain are bisimilar, if the second graph has the entries of
the first. -/
theorem Within.bisimilar (hwithin : graph.Within other) (hclosed : graph.Closed)
    (hgraph : graph.NamesNone) (hother : other.NamesNone) (hty : graph.Knows ty)
    (h : ty'.plain = ty.plain) : graph.Bisimilar other ty ty' := by
  refine ⟨fun s s' ↦ s'.plain = s.plain ∧ graph.Everywhere graph.Known s, ?_, h, hty,
    hclosed.known⟩
  rintro s s' ⟨hs, hknown⟩
  have hshape := hclosed.isShape_resolve hknown.1
  obtain ⟨steps, hshape', hplain⟩ := follow_plain hwithin hgraph hother hs hshape
  rw [resolve_eq_follow hshape']
  exact Ty.alike_of_plain hshape hshape' hplain
    fun child child' hchild hc ↦ ⟨hc, hknown.resolve.child hchild⟩

namespace WellFormed

theorem closed (h : graph.WellFormed) : graph.Closed :=
  ⟨h.known, fun key hkey ↦ ⟨_, h.grounded key hkey⟩⟩

theorem namesNone (h : graph.WellFormed) : graph.NamesNone := h.builtins .none .none rfl

end WellFormed

end Graph

namespace Expansion

/-! ## Graphs of more modules -/

variable {modules more : List Module} {graph other : Graph}

theorem Expands.within (hmore : Includes modules more) (h : Expands modules graph)
    (h' : Expands more other) : graph.Within other := by
  intro key ty hget
  cases h.only _ (Graph.mem_of_get? hget) with
  | builtin hshape => exact ⟨ty, h'.builtins _ _ hshape, rfl⟩
  | @body s _ hs hty =>
    obtain ⟨s', hs', hsimilar⟩ := hs.similar hmore
    obtain ⟨ty', body', hget', hbody', hplain'⟩ := h'.bodies s' hs'
    obtain ⟨body, hbody, hplain⟩ := hsimilar.type? hmore hs hty
    rw [hbody] at hbody'
    cases hbody'
    exact ⟨ty', hsimilar.key_eq ▸ hget', hplain'.trans hplain⟩

/-- Modules are included in others in which each of them stands, with its declarations in any
order. -/
theorem includes_of_forall (hmodules : Distinct modules) (hmore : Distinct more)
    (h : ∀ module ∈ modules, ∃ module' ∈ more,
      module'.name = module.name ∧ module'.decls.Perm module.decls) : Includes modules more := by
  intro module hmodule name
  obtain ⟨module', hmodule', hname, hdecls⟩ := h module hmodule
  have hfind : ∀ {all : List Module} {found : Module}, Distinct all → found ∈ all →
      ∀ decl, decl? all found.name name = some decl ↔ decl ∈ found.decls ∧ decl.name = name := by
    intro all found hall hfound decl
    rw [hall.decl?_eq_some_iff]
    constructor
    · rintro ⟨other, hother, hsame, hdecl⟩
      rwa [← List.inj_on_of_nodup_map hall.1 hother hfound hsame]
    · exact fun hdecl ↦ ⟨found, hfound, rfl, hdecl⟩
  refine Option.ext fun decl ↦ ?_
  rw [← hname, hfind hmore hmodule', hname, hfind hmodules hmodule, hdecls.mem_iff]

/-- **Adding modules changes no types.** Whatever modules are added to a schema, before, behind or
between its own, every entry of its graph is one of the greater graph, up to how the shape `None`
is written, and has the same values: they are written and read in the same way, by either
serializer and as JSON. -/
theorem graph_preserved {limits limits' : Limits} {extra all : List Module}
    (hnamed : ∀ module ∈ modules, module.Named) (hextra : ∀ module ∈ extra, module.Named)
    (hall : all.Perm (modules ++ extra)) (h : Expansion.graph limits modules = .ok graph)
    (h' : Expansion.graph limits' all = .ok other) (key : Key) (ty : Ty)
    (hget : graph.get? key = some ty) :
    (∃ ty', other.get? key = some ty' ∧ ty'.plain = ty.plain) ∧
    Interchangeable graph other (.ref key) (.ref key) := by
  have hnamed' : ∀ module ∈ all, module.Named := by
    intro module hmodule
    exact (List.mem_append.mp (hall.mem_iff.mp hmodule)).elim (hnamed module) (hextra module)
  have hincludes : Includes modules all := by
    refine includes_of_forall (run_of_graph h).1 (run_of_graph h').1 fun module hmodule ↦ ?_
    exact ⟨module, hall.mem_iff.mpr (List.mem_append_left _ hmodule), rfl, .refl _⟩
  have hwithin : graph.Within other :=
    (expands_of_graph hnamed h).within hincludes (expands_of_graph hnamed' h')
  have hgraph := wellFormed_of_graphWithin h
  have hother := wellFormed_of_graphWithin h'
  have hcontains : graph.contains key = true := by
    rw [Graph.contains, hget]
    rfl
  have hknows : graph.Knows (.ref key) := (hgraph.everywhere hcontains).1
  refine ⟨hwithin key ty hget, ?_⟩
  exact (hwithin.bisimilar hgraph.closed hgraph.namesNone hother.namesNone hknows
    rfl).interchangeable hgraph.closed hknows

/-- A box with an optional number in it. -/
def stock : List Module :=
  [⟨"M", [
    ⟨"Box", ["t"], .record [("v", .ref (.builtin "t") [])]⟩,
    ⟨"A", [], .ref (.builtin "Box") [.ref (.builtin "Optional") [.integer]]⟩]⟩]

/-- Another module that fills the box with the choice which an optional number is. -/
def delivery : List Module :=
  [⟨"N", [⟨"B", [], .ref (.qualified "M" "Box")
    [.choice [("none", .none), ("value", .integer)]]⟩]⟩]

/-- The key that both boxes have. -/
def stockKey : Key := .qualified "M" "Box(Choice \x7b none: None, value: Integer \x7d)"

def stockGraph : Graph :=
  (Graph.builtins.insert stockKey (.record [("v", .optional .integer)])).insert
    (.qualified "M" "A") (.ref stockKey)

/-- The graph of both: the entry of the box has been written again, in the other way. -/
def deliveredGraph : Graph :=
  (stockGraph.insert stockKey
    (.record [("v", .choice [("none", .none), ("value", .integer)])])).insert
    (.qualified "N" "B") (.ref stockKey)

theorem graph_preserved_stock :
    Expansion.graph .standard stock = .ok stockGraph ∧
    Expansion.graph .standard (stock ++ delivery) = .ok deliveredGraph ∧
    (∃ ty', deliveredGraph.get? stockKey = some ty' ∧
      ty'.plain = (Ty.record [("v", .optional .integer)]).plain) ∧
    Interchangeable stockGraph deliveredGraph (.ref stockKey) (.ref stockKey) := by
  have h : Expansion.graph .standard stock = .ok stockGraph := rfl
  have h' : Expansion.graph .standard (stock ++ delivery) = .ok deliveredGraph := rfl
  have hstock : ∀ module ∈ stock, module.Named :=
    List.forall_mem_singleton.mpr ⟨by decide, by decide, by decide⟩
  have hdelivery : ∀ module ∈ delivery, module.Named :=
    List.forall_mem_singleton.mpr ⟨by decide, by decide, by decide⟩
  exact ⟨h, h', graph_preserved hstock hdelivery (.refl _) h h' stockKey _ (by decide)⟩

end Expansion

end SchemaCodec
