import Mathlib.Data.List.Nodup
import SchemaCodec.Expansion.Scope

/-!
# Declarations by name

Modules that pass the check on names give no name twice, so that a declaration is found under its
name whatever stands before or behind it. Looking up is then a question of membership: the order of
modules, and of declarations in a module, is no part of the answer.
-/

namespace SchemaCodec.Expansion

/-- No two modules have one name, nor have two declarations in one module. -/
def Distinct (modules : List Module) : Prop :=
  (modules.map Module.name).Nodup ∧ ∀ module ∈ modules, (module.decls.map Decl.name).Nodup

/-! ## The check on names -/

theorem repeated?_eq_none_iff (seen names : List String) :
    repeated? seen names = none ↔ names.Nodup ∧ ∀ name ∈ names, name ∉ seen := by
  induction names generalizing seen with
  | nil => simp [repeated?]
  | cons name rest ih =>
    rw [repeated?]
    split
    · next hseen =>
      refine iff_of_false (by simp) ?_
      rintro ⟨-, hnew⟩
      exact hnew name List.mem_cons_self hseen
    · next hnew =>
      rw [ih, List.nodup_cons]
      constructor
      · rintro ⟨hrest, hfresh⟩
        refine ⟨⟨fun hmem ↦ hfresh name hmem List.mem_cons_self, hrest⟩, ?_⟩
        exact List.forall_mem_cons.mpr
          ⟨hnew, fun other hmem hseen ↦ hfresh other hmem (List.mem_cons_of_mem _ hseen)⟩
      · rintro ⟨⟨hname, hrest⟩, hfresh⟩
        refine ⟨hrest, fun other hmem hseen ↦ ?_⟩
        rcases List.mem_cons.mp hseen with rfl | hseen
        · exact hname hmem
        · exact hfresh other (List.mem_cons_of_mem _ hmem) hseen

theorem checkNames_eq_ok_iff (seen : List String) (modules : List Module) :
    checkNames seen modules = .ok () ↔
      Distinct modules ∧ ∀ module ∈ modules, module.name ∉ seen := by
  induction modules generalizing seen with
  | nil => simp [checkNames, Distinct]
  | cons module rest ih =>
    rw [checkNames, Distinct, List.map_cons, List.nodup_cons, List.forall_mem_cons,
      List.forall_mem_cons]
    split
    · next hseen =>
      refine iff_of_false (by simp) ?_
      rintro ⟨-, hnew, -⟩
      exact hnew hseen
    · next hnew =>
      cases hrepeated : repeated? [] (module.decls.map Decl.name) with
      | some name =>
        refine iff_of_false (by simp) ?_
        rintro ⟨⟨-, hdecls, -⟩, -⟩
        have hnone := (repeated?_eq_none_iff [] _).mpr ⟨hdecls, fun _ _ ↦ List.not_mem_nil⟩
        rw [hrepeated] at hnone
        cases hnone
      | none =>
        have hdecls := ((repeated?_eq_none_iff [] _).mp hrepeated).1
        dsimp only
        rw [ih, Distinct]
        constructor
        · rintro ⟨⟨hnames, hall⟩, hfresh⟩
          refine ⟨⟨⟨fun hmem ↦ ?_, hnames⟩, hdecls, hall⟩, hnew, fun other hmem hseen ↦ ?_⟩
          · obtain ⟨other, hother, hname⟩ := List.mem_map.mp hmem
            exact hfresh other hother (hname ▸ List.mem_cons_self)
          · exact hfresh other hmem (List.mem_cons_of_mem _ hseen)
        · rintro ⟨⟨⟨hname, hnames⟩, -, hall⟩, -, hfresh⟩
          refine ⟨⟨hnames, hall⟩, fun other hmem hseen ↦ ?_⟩
          rcases List.mem_cons.mp hseen with heq | hseen
          · exact hname (heq ▸ List.mem_map_of_mem hmem)
          · exact hfresh other hmem hseen

theorem checkNames_iff (modules : List Module) :
    checkNames [] modules = .ok () ↔ Distinct modules := by
  rw [checkNames_eq_ok_iff]
  exact and_iff_left fun _ _ ↦ List.not_mem_nil

/-! ## What is found -/

/-- Of names that are not given twice, each leads to what has it. -/
theorem find?_eq_some_iff_of_nodup {α : Type} {name : α → String} {items : List α}
    (h : (items.map name).Nodup) {wanted : String} {a : α} :
    items.find? (fun item ↦ name item = wanted) = some a ↔ a ∈ items ∧ name a = wanted := by
  constructor
  · intro hfind
    exact ⟨List.mem_of_find?_eq_some hfind, by simpa using List.find?_some hfind⟩
  · rintro ⟨hmem, rfl⟩
    have hsome : (items.find? fun item ↦ name item = name a).isSome = true :=
      List.find?_isSome.mpr ⟨a, hmem, by simp⟩
    obtain ⟨found, hfound⟩ := Option.isSome_iff_exists.mp hsome
    have hname : name found = name a := by simpa using List.find?_some hfound
    rw [hfound, List.inj_on_of_nodup_map h (List.mem_of_find?_eq_some hfound) hmem hname]

section

variable {modules : List Module}

theorem name_of_decl? {module name : String} {decl : Decl}
    (h : decl? modules module name = some decl) : decl.name = name := by
  obtain ⟨found, -, hdecl⟩ := Option.bind_eq_some_iff.mp h
  simpa using List.find?_some hdecl

theorem Distinct.decl?_eq_some_iff (h : Distinct modules) {module name : String} {decl : Decl} :
    decl? modules module name = some decl ↔
      ∃ found ∈ modules, found.name = module ∧ decl ∈ found.decls ∧ decl.name = name := by
  rw [decl?, Option.bind_eq_some_iff]
  constructor
  · rintro ⟨found, hfound, hdecl⟩
    obtain ⟨hmem, hname⟩ := (find?_eq_some_iff_of_nodup h.1).mp hfound
    exact ⟨found, hmem, hname, (find?_eq_some_iff_of_nodup (h.2 found hmem)).mp hdecl⟩
  · rintro ⟨found, hmem, hname, hdecl⟩
    exact ⟨found, (find?_eq_some_iff_of_nodup h.1).mpr ⟨hmem, hname⟩,
      (find?_eq_some_iff_of_nodup (h.2 found hmem)).mpr hdecl⟩

theorem Distinct.decl?_of_mem (h : Distinct modules) {module : Module} (hmodule : module ∈ modules)
    {decl : Decl} (hdecl : decl ∈ module.decls) :
    decl? modules module.name decl.name = some decl :=
  h.decl?_eq_some_iff.mpr ⟨module, hmodule, rfl, hdecl, rfl⟩

end

end SchemaCodec.Expansion
