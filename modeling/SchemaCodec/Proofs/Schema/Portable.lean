import SchemaCodec.Catalog.Basic
import SchemaCodec.Proofs.Outcome

/-!
# The portable form is exact

What is written of a schema is read as the same schema, whatever its names are and however deep its
types nest. Writing leaves out the module of a reference that has none and empty lists of parameters
and arguments, and reading supplies them.

## Levels

Reading a body recurses on a number of levels that is taken from the JSON value. An expression takes
one level more than its parts have, so the levels are enough for all of them.
-/

namespace SchemaCodec

namespace Portable

/-- Items that were written one by one are read one by one. -/
theorem mapM_map_of_some {α β : Type} {read : β → Option α} {write : α → β} {items : List α}
    (h : ∀ a ∈ items, read (write a) = some a) : (items.map write).mapM read = some items := by
  induction items with
  | nil => rfl
  | cons a rest ih =>
    rw [List.map_cons, List.mapM_cons, h a List.mem_cons_self,
      ih fun b hb ↦ h b (List.mem_cons_of_mem _ hb)]
    rfl

/-! ## Expressions -/

def member? (levels : Nat) (json : Json) : Option (String × TypeExpr) := do
  match ← parts? ["name", "type"] json with
  | [some name, some ty] =>
    let name ← string? name
    let ty ← expr? levels false ty
    some (name, ty)
  | _ => none

section

variable {levels : Nat} (atTop : Bool)

theorem expr?_array (element : Json) :
    expr? (levels + 1) atTop (.object [("kind", .string "array"), ("element", element)])
      = (expr? levels false element).map .array := rfl

theorem expr?_record (fields : List Json) :
    expr? (levels + 1) atTop (.object [("kind", .string "record"), ("fields", .array fields)])
      = (fields.mapM (member? levels)).map .record := rfl

theorem expr?_choice (variants : List Json) :
    expr? (levels + 1) atTop (.object [("kind", .string "choice"), ("variants", .array variants)])
      = (variants.mapM (member? levels)).map .choice := rfl

theorem target?_ofTarget (target : Key) : target? (ofTarget target) = some target := by
  obtain ⟨module, name⟩ := target
  cases module <;> rfl

theorem expr?_plainRef (target : Key) :
    expr? (levels + 1) atTop (.object [("kind", .string "ref"), ("target", ofTarget target)])
      = some (.ref target []) := by
  change (target? (ofTarget target) >>= fun target ↦ some (TypeExpr.ref target [])) = _
  rw [target?_ofTarget]
  rfl

theorem expr?_ref (target : Key) (args : List Json) :
    expr? (levels + 1) atTop
        (.object [("kind", .string "ref"), ("target", ofTarget target), ("args", .array args)])
      = (args.mapM (expr? levels false)).map (.ref target) := by
  change (target? (ofTarget target) >>= fun target ↦ args.mapM (expr? levels false) >>= fun args ↦
    some (TypeExpr.ref target args)) = _
  rw [target?_ofTarget]
  cases args.mapM (expr? levels false) <;> rfl

theorem member?_of_expr? {name : String} {ty : Json} {expr : TypeExpr}
    (h : expr? levels false ty = some expr) :
    member? levels (.object [("name", .string name), ("type", ty)]) = some (name, expr) := by
  change (expr? levels false ty >>= fun ty ↦ some (name, ty)) = _
  rw [h]
  rfl

/-- An expression takes a level at least. -/
theorem exists_levels {expr : TypeExpr} (h : nesting (ofExpr expr) ≤ levels) :
    ∃ fewer, levels = fewer + 1 := by
  refine Nat.exists_eq_add_one_of_ne_zero fun hzero ↦ ?_
  rw [hzero] at h
  cases expr with
  | ref target args => cases args <;> simp [ofExpr, nesting] at h
  | _ => simp [ofExpr, ofKind, nesting] at h

end

mutual

/-- An expression is read from its form with as many levels as the form has. -/
theorem expr?_ofExpr : (expr : TypeExpr) → {levels : Nat} → (atTop : Bool) →
    nesting (ofExpr expr) ≤ levels → expr? levels atTop (ofExpr expr) = some expr
  | .none, levels, atTop, h | .boolean, levels, atTop, h | .integer, levels, atTop, h
  | .float, levels, atTop, h | .string, levels, atTop, h | .bytes, levels, atTop, h => by
    obtain ⟨levels, rfl⟩ := exists_levels h
    rfl
  | .array element, levels, atTop, h => by
    obtain ⟨levels, rfl⟩ := exists_levels h
    have helement : nesting (ofExpr element) ≤ levels := by
      simp only [ofExpr, nesting, membersNesting] at h
      omega
    rw [ofExpr, expr?_array, expr?_ofExpr element false helement]
    rfl
  | .record fields, levels, atTop, h => by
    obtain ⟨levels, rfl⟩ := exists_levels h
    have hfields : itemsNesting (ofMembers fields) ≤ levels := by
      simp only [ofExpr, nesting, membersNesting] at h
      omega
    rw [ofExpr, expr?_record, mapM_member? fields hfields]
    rfl
  | .choice variants, levels, atTop, h => by
    obtain ⟨levels, rfl⟩ := exists_levels h
    have hvariants : itemsNesting (ofMembers variants) ≤ levels := by
      simp only [ofExpr, nesting, membersNesting] at h
      omega
    rw [ofExpr, expr?_choice, mapM_member? variants hvariants]
    rfl
  | .ref target [], levels, atTop, h => by
    obtain ⟨levels, rfl⟩ := exists_levels h
    exact expr?_plainRef atTop target
  | .ref target (arg :: args), levels, atTop, h => by
    obtain ⟨levels, rfl⟩ := exists_levels h
    have hargs : itemsNesting (ofArgs (arg :: args)) ≤ levels := by
      simp only [ofExpr, nesting, membersNesting] at h
      rw [ofArgs]
      omega
    rw [ofExpr, ← ofArgs, expr?_ref, mapM_expr? (arg :: args) hargs]
    rfl

theorem mapM_member? : (members : List (String × TypeExpr)) → {levels : Nat} →
    itemsNesting (ofMembers members) ≤ levels →
    (ofMembers members).mapM (member? levels) = some members
  | [], _, _ => rfl
  | (name, expr) :: rest, levels, h => by
    simp only [ofMembers, itemsNesting, nesting, membersNesting] at h
    have hexpr : nesting (ofExpr expr) ≤ levels := by omega
    have hrest : itemsNesting (ofMembers rest) ≤ levels := by omega
    rw [ofMembers, List.mapM_cons, member?_of_expr? (expr?_ofExpr expr false hexpr),
      mapM_member? rest hrest]
    rfl

theorem mapM_expr? : (args : List TypeExpr) → {levels : Nat} →
    itemsNesting (ofArgs args) ≤ levels → (ofArgs args).mapM (expr? levels false) = some args
  | [], _, _ => rfl
  | expr :: rest, levels, h => by
    simp only [ofArgs, itemsNesting] at h
    have hexpr : nesting (ofExpr expr) ≤ levels := by omega
    have hrest : itemsNesting (ofArgs rest) ≤ levels := by omega
    rw [ofArgs, List.mapM_cons, expr?_ofExpr expr false hexpr, mapM_expr? rest hrest]
    rfl

end

/-! ## Declarations and modules -/

theorem decl?_ofDecl (decl : Decl) : decl? (ofDecl decl) = some decl := by
  obtain ⟨name, params, body⟩ := decl
  have hbody : expr? (nesting (ofExpr body) + 1) true (ofExpr body) = some body :=
    expr?_ofExpr body true (Nat.le_succ _)
  cases params with
  | nil =>
    change (expr? (nesting (ofExpr body) + 1) true (ofExpr body) >>= fun body ↦
      some (Decl.mk name [] body)) = _
    rw [hbody]
    rfl
  | cons param params =>
    have hparams : ((param :: params).map Json.string).mapM string? = some (param :: params) :=
      mapM_map_of_some fun _ _ ↦ rfl
    change (((param :: params).map Json.string).mapM string? >>= fun params ↦
      expr? (nesting (ofExpr body) + 1) true (ofExpr body) >>= fun body ↦
        some (Decl.mk name params body)) = _
    rw [hparams, hbody]
    rfl

theorem module?_ofModule (module : Module) : module? (ofModule module) = some module := by
  obtain ⟨name, decls⟩ := module
  have hdecls : (decls.map ofDecl).mapM decl? = some decls :=
    mapM_map_of_some fun decl _ ↦ decl?_ofDecl decl
  change ((decls.map ofDecl).mapM decl? >>= fun decls ↦ some (Module.mk name decls)) = _
  rw [hdecls]
  rfl

theorem modules?_ofModules (modules : List Module) : modules? (ofModules modules) = some modules :=
  mapM_map_of_some fun module _ ↦ module?_ofModule module

end Portable

/-! ## Catalogs -/

theorem Source.load_text {view : FileView} {limits : Syntax.Limits} {content : String}
    {module : Module} (h : Syntax.readModule limits textOrigin content = .ok module) :
    load view limits (text content) = .ok [module] := by
  rw [load, readModule, h]
  rfl

namespace Catalog

/-- A catalog of modules holds these modules and the graph that they expand to. -/
theorem graph_of_ofModules {settings : Settings} {modules : List Module} {catalog : Catalog}
    (h : ofModules settings modules = .ok catalog) :
    catalog.modules = modules ∧
      Expansion.graph settings.expansion modules = .ok catalog.graph := by
  rw [ofModules] at h
  split at h
  · next graph hgraph =>
    cases h
    exact ⟨rfl, hgraph⟩
  · cases h

/-- A catalog has the graph that its modules expand to, whatever sources they come from. -/
theorem graph_of_load {view : FileView} {settings : Settings} {sources : List Source}
    {catalog : Catalog} (h : load view settings sources = .ok catalog) :
    Expansion.graph settings.expansion catalog.modules = .ok catalog.graph := by
  obtain ⟨loaded, -, hcatalog⟩ := bind_ok h
  obtain ⟨hmodules, hgraph⟩ := graph_of_ofModules hcatalog
  rw [hmodules, hgraph]

/-- A catalog whose modules expand within the limits is given back by its modules. -/
theorem ofModules_modules {catalog : Catalog}
    (h : Expansion.graph .standard catalog.modules = .ok catalog.graph) :
    ofModules .standard catalog.modules = .ok { catalog with serializer := .standard } := by
  have hgraph : Expansion.graph Settings.standard.expansion catalog.modules = .ok catalog.graph := h
  rw [ofModules, hgraph]
  rfl

/-- **The portable form is exact.** Reading the portable form of modules gives back these modules.
So a catalog that was loaded from any sources, with any limits on reading and the standard limits on
expansion, is given back by its portable form, with the serializer that is standard. -/
theorem ofPortable_toPortable :
    (∀ modules, Portable.modules? (Portable.ofModules modules) = some modules) ∧
    ∀ (view : FileView) (settings : Settings) (sources : List Source) (catalog : Catalog),
      settings.expansion = .standard → load view settings sources = .ok catalog →
        ofPortable catalog.toPortable = .ok { catalog with serializer := .standard } := by
  refine ⟨Portable.modules?_ofModules, fun view settings sources catalog hlimits h ↦ ?_⟩
  have hgraph := graph_of_load h
  rw [hlimits] at hgraph
  rw [ofPortable, toPortable, Portable.modules?_ofModules]
  exact ofModules_modules hgraph

/-- A generic list, a module that applies it, and names that are no names of the schema language. -/
def lists : List Module :=
  [⟨"L", [⟨"List", ["x"], .choice [("end", .none), ("item", .record [("head", .ref ⟨none, "x"⟩ []),
    ("tail", .ref ⟨none, "List"⟩ [.ref ⟨none, "x"⟩ []])])]⟩]⟩,
    ⟨"\"M\"", [⟨"", [], .array (.ref ⟨some "L", "List"⟩ [.integer])⟩]⟩, ⟨"empty", []⟩]

theorem ofPortable_toPortable_lists :
    ∃ catalog, load (fun _ ↦ default) .standard [.modules lists] = .ok catalog ∧
      ofPortable catalog.toPortable = .ok { catalog with serializer := .standard } := by
  obtain ⟨catalog, h⟩ : ∃ catalog,
      load (fun _ ↦ default) .standard [.modules lists] = .ok catalog := ⟨_, rfl⟩
  exact ⟨catalog, h, ofPortable_toPortable.2 _ .standard _ catalog rfl h⟩

end Catalog

end SchemaCodec
