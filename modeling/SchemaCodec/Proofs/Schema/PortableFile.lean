import SchemaCodec.Proofs.Json.Text
import SchemaCodec.Proofs.Scalar
import SchemaCodec.Proofs.Schema.Portable
import SchemaCodec.Proofs.Syntax.Acceptance

/-!
# Portable files

A file that holds the portable form of a catalog gives the catalog back, in either layout, as long
as its text is not nested too deep for the reader of JSON texts. That is a bound on the bodies of
the declarations alone: a body stands below the list of modules, a module, its list of declarations
and a declaration, which leaves it 123 of the 127 levels. A type takes up to three of them, so the
bound is far below the number of nested types that a schema text may have, and a catalog may well
have a portable form that no portable file can hold.
-/

namespace SchemaCodec

namespace TypeExpr

mutual

/-- How many levels of arrays and objects the portable form of an expression has. -/
def levels : TypeExpr → Nat
  | array element => levels element + 1
  | record fields => membersLevels fields + 2
  | choice variants => membersLevels variants + 2
  | ref _ args => argsLevels args + 2
  | _ => 1

/-- The greatest number of levels that a field or a variant takes. -/
def membersLevels : List (String × TypeExpr) → Nat
  | [] => 0
  | (_, expr) :: rest => max (levels expr + 1) (membersLevels rest)

def argsLevels : List TypeExpr → Nat
  | [] => 0
  | expr :: rest => max (levels expr) (argsLevels rest)

end

end TypeExpr

namespace Portable

open Json TypeExpr

/-! ## Levels -/

mutual

theorem depth_ofExpr : (expr : TypeExpr) → (ofExpr expr).depth = expr.levels
  | .none | .boolean | .integer | .float | .string | .bytes => rfl
  | .array element => by
    simp [ofExpr, depth, membersDepth, levels, depth_ofExpr element]
  | .record fields => by
    simp [ofExpr, depth, membersDepth, levels, itemsDepth_ofMembers fields]
  | .choice variants => by
    simp [ofExpr, depth, membersDepth, levels, itemsDepth_ofMembers variants]
  | .ref target [] => by
    obtain ⟨module, name⟩ := target
    cases module <;> rfl
  | .ref target (arg :: args) => by
    have htarget : (ofTarget target).depth = 1 := by
      obtain ⟨module, name⟩ := target
      cases module <;> rfl
    have hargs : itemsDepth (ofExpr arg :: ofArgs args) = argsLevels (arg :: args) :=
      itemsDepth_ofArgs (arg :: args)
    simp only [ofExpr, depth, membersDepth, levels, hargs, htarget]
    omega

theorem itemsDepth_ofMembers : (members : List (String × TypeExpr)) →
    itemsDepth (ofMembers members) = membersLevels members
  | [] => rfl
  | (name, expr) :: rest => by
    simp [ofMembers, itemsDepth, depth, membersDepth, membersLevels, depth_ofExpr expr,
      itemsDepth_ofMembers rest]

theorem itemsDepth_ofArgs : (args : List TypeExpr) → itemsDepth (ofArgs args) = argsLevels args
  | [] => rfl
  | expr :: rest => by
    simp [ofArgs, itemsDepth, argsLevels, depth_ofExpr expr, itemsDepth_ofArgs rest]

end

theorem one_le_levels (expr : TypeExpr) : 1 ≤ expr.levels := by
  cases expr <;> simp [levels]

theorem depth_ofDecl (decl : Decl) : (ofDecl decl).depth = decl.body.levels + 1 := by
  have hbody := one_le_levels decl.body
  have hparams : ∀ params : List String, itemsDepth (params.map .string) = 0 := by
    intro params
    induction params with
    | nil => rfl
    | cons param rest ih => simp [itemsDepth, depth, ih]
  by_cases h : decl.params.isEmpty = true
  · simp [ofDecl, h, depth, membersDepth, depth_ofExpr]
  · simp [ofDecl, h, depth, membersDepth, hparams, depth_ofExpr, hbody]

theorem itemsDepth_map_le_iff {α : Type} {write : α → Json} {items : List α} {n : Nat} :
    itemsDepth (items.map write) ≤ n ↔ ∀ a ∈ items, (write a).depth ≤ n := by
  induction items with
  | nil => simp [itemsDepth]
  | cons a rest ih => simp [itemsDepth, ih]

/-- Whether a text can hold the portable form of modules. -/
def FitsText (modules : List Module) : Prop :=
  ∀ module ∈ modules, ∀ decl ∈ module.decls, decl.body.levels ≤ 123

instance : DecidablePred FitsText := fun modules ↦
  inferInstanceAs (Decidable (∀ module ∈ modules, ∀ decl ∈ module.decls, decl.body.levels ≤ 123))

/-- The levels above the bodies are four. -/
theorem depth_ofModules_le_iff (modules : List Module) :
    (ofModules modules).depth ≤ maxNesting ↔ FitsText modules := by
  have hdecl (decl : Decl) : (ofDecl decl).depth ≤ 124 ↔ decl.body.levels ≤ 123 := by
    rw [depth_ofDecl, Nat.succ_le_succ_iff]
  have hmodule (module : Module) : (ofModule module).depth ≤ 126 ↔
      ∀ decl ∈ module.decls, decl.body.levels ≤ 123 := by
    have hdecls : (ofModule module).depth = itemsDepth (module.decls.map ofDecl) + 1 + 1 := by
      simp [ofModule, depth, membersDepth]
    rw [hdecls, Nat.succ_le_succ_iff, Nat.succ_le_succ_iff, itemsDepth_map_le_iff]
    exact forall₂_congr fun decl _ ↦ hdecl decl
  rw [ofModules, depth, maxNesting, Nat.succ_le_succ_iff, itemsDepth_map_le_iff]
  exact forall₂_congr fun module _ ↦ hmodule module

/-! ## What a reader of a text finds -/

theorem exact_object_cons {key : String} {json : Json} {members : List (String × Json)}
    (hjson : Exact json) (hmembers : Exact (object members)) :
    Exact (object ((key, json) :: members)) := by
  cases hmembers with
  | object h =>
    refine .object fun member hmember ↦ ?_
    obtain rfl | hmember := List.mem_cons.mp hmember
    · exact hjson
    · exact h member hmember

theorem exact_object_nil : Exact (object []) := .object fun _ h ↦ absurd h List.not_mem_nil

theorem exact_ofTarget (target : Key) : Exact (ofTarget target) := by
  obtain ⟨module, name⟩ := target
  cases module with
  | none => exact exact_object_cons (.string name) exact_object_nil
  | some module =>
    exact exact_object_cons (.string module) (exact_object_cons (.string name) exact_object_nil)

mutual

theorem exact_ofExpr : (expr : TypeExpr) → Exact (ofExpr expr)
  | .none | .boolean | .integer | .float | .string | .bytes =>
    exact_object_cons (.string _) exact_object_nil
  | .array element =>
    exact_object_cons (.string _) (exact_object_cons (exact_ofExpr element) exact_object_nil)
  | .record fields =>
    exact_object_cons (.string _)
      (exact_object_cons (.array (exact_ofMembers fields)) exact_object_nil)
  | .choice variants =>
    exact_object_cons (.string _)
      (exact_object_cons (.array (exact_ofMembers variants)) exact_object_nil)
  | .ref target [] =>
    exact_object_cons (.string _) (exact_object_cons (exact_ofTarget target) exact_object_nil)
  | .ref target (arg :: args) =>
    exact_object_cons (.string _) (exact_object_cons (exact_ofTarget target)
      (exact_object_cons (.array (exact_ofArgs (arg :: args))) exact_object_nil))

theorem exact_ofMembers : (members : List (String × TypeExpr)) →
    ∀ json ∈ ofMembers members, Exact json
  | [], _, h => absurd h List.not_mem_nil
  | (name, expr) :: rest, json, h => by
    obtain rfl | h := List.mem_cons.mp h
    · exact exact_object_cons (.string name)
        (exact_object_cons (exact_ofExpr expr) exact_object_nil)
    · exact exact_ofMembers rest json h

theorem exact_ofArgs : (args : List TypeExpr) → ∀ json ∈ ofArgs args, Exact json
  | [], _, h => absurd h List.not_mem_nil
  | expr :: rest, json, h => by
    obtain rfl | h := List.mem_cons.mp h
    · exact exact_ofExpr expr
    · exact exact_ofArgs rest json h

end

theorem exact_ofDecl (decl : Decl) : Exact (ofDecl decl) := by
  have hparams : Exact (.array (decl.params.map .string)) := by
    refine .array fun json hjson ↦ ?_
    obtain ⟨param, -, rfl⟩ := List.mem_map.mp hjson
    exact .string param
  have hbody : Exact (object [("body", ofExpr decl.body)]) :=
    exact_object_cons (exact_ofExpr decl.body) exact_object_nil
  refine exact_object_cons (.string decl.name) ?_
  split
  · exact hbody
  · exact exact_object_cons hparams hbody

theorem exact_ofModules (modules : List Module) : Exact (ofModules modules) := by
  refine .array fun json hjson ↦ ?_
  obtain ⟨module, -, rfl⟩ := List.mem_map.mp hjson
  refine exact_object_cons (.string module.name) (exact_object_cons (.array fun json hjson ↦ ?_)
    exact_object_nil)
  obtain ⟨decl, -, rfl⟩ := List.mem_map.mp hjson
  exact exact_ofDecl decl

theorem known_ofDecl (decl : Decl) : Known declShape (ofDecl decl) := by
  have hkeys : ∀ member ∈ (("name", Json.string decl.name) ::
      ((if decl.params.isEmpty then [] else [("params", .array (decl.params.map .string))]) ++
        [("body", ofExpr decl.body)])),
      member.1 ∈ ["name", "params", "body"] := by
    split <;> simp
  have hany : ∀ key ∈ ["name", "params", "body"],
      Members.get? key [("name", Shape.any), ("params", .any), ("body", .any)] = some .any := by
    simp [Members.get?]
  refine .parts (fun member hmember ↦ ?_) fun member hmember shape hshape ↦ ?_
  · rw [hany _ (hkeys member hmember)]
    rfl
  · rw [hany _ (hkeys member hmember)] at hshape
    cases hshape
    exact .any _

theorem known_ofModules (modules : List Module) : Known shape (ofModules modules) := by
  refine .items fun json hjson ↦ ?_
  obtain ⟨module, -, rfl⟩ := List.mem_map.mp hjson
  have hdecls : Known (.items declShape) (.array (module.decls.map ofDecl)) := by
    refine .items fun json hjson ↦ ?_
    obtain ⟨decl, -, rfl⟩ := List.mem_map.mp hjson
    exact known_ofDecl decl
  refine .parts ?_ ?_
  · rintro member hmember
    obtain rfl | rfl : member = ("name", .string module.name) ∨
        member = ("decls", .array (module.decls.map ofDecl)) := by simpa using hmember
    · rfl
    · rfl
  · rintro member hmember shape hshape
    obtain rfl | rfl : member = ("name", .string module.name) ∨
        member = ("decls", .array (module.decls.map ofDecl)) := by simpa using hmember
    · cases hshape
      exact .any _
    · cases hshape
      exact hdecls

/-- The text of the portable form of modules is read as these modules, if a text can hold it. -/
theorem ofText?_render (modules : List Module) (layout : Layout) :
    ofText? (render layout (ofModules modules))
      = if FitsText modules then some modules else none := by
  rw [ofText?, parseShaped?_render (known_ofModules modules) (exact_ofModules modules), within]
  simp only [depth_ofModules_le_iff]
  split
  · exact modules?_ofModules modules
  · rfl

end Portable

namespace Catalog

/-! ## Files -/

theorem ofPortableFile_text {files : FileView} {path content : String}
    (h : files path = .file (Text.toBytes content)) :
    ofPortableFile files path = ofRead (Portable.ofText? content) := by
  have htext : Source.readText path (files path) = .ok content := by
    rw [Source.readText, h]
    simp only [FileTree.read, Text.ofBytes?_toBytes]
  rw [ofPortableFile, htext]
  rfl

/-- A text without errors whose module expands gives a catalog of this one module. -/
theorem exists_load_text (view : FileView) (content : String) (module : Module)
    (hclean : (Syntax.Parsed.run .standard content).2.excess = none ∧
      (Syntax.Parsed.run .standard content).2.reports.isEmpty = true ∧
      (Syntax.Parsed.run .standard content).1.outline.module = module)
    (hexpands : (Expansion.graph .standard [module]).isOk = true) :
    ∃ catalog, load view .standard [.text content] = .ok catalog ∧ catalog.modules = [module] := by
  obtain ⟨hexcess, hreports, hmodule⟩ := hclean
  have hread : Syntax.readModule .standard Source.textOrigin content = .ok module := by
    rw [Syntax.readModule_eq, hexcess, List.isEmpty_iff.mp hreports, ← hmodule]
    rfl
  have hsource : Source.load view .standard (.text content) = .ok [module] :=
    Source.load_text hread
  cases hgraph : Expansion.graph .standard [module] with
  | error e =>
    rw [hgraph] at hexpands
    cases hexpands
  | ok graph =>
    have hmodules : ofModules .standard [module] = .ok ⟨[module], graph, .standard⟩ := by
      rw [ofModules, Settings.standard, hgraph]
    refine ⟨⟨[module], graph, .standard⟩, ?_, rfl⟩
    rw [load, List.mapM_cons, Settings.standard, hsource]
    exact hmodules

/-- **What a portable file gives back.** Let a catalog be loaded from any sources with the standard
limits on expansion, and let a file hold the text of its portable form, in either layout. If no body
of a declaration takes more than 123 levels of arrays and objects, the file gives the catalog back,
with the serializer that is standard. If some body does, the file is refused. -/
theorem ofPortableFile_render {view : FileView} {settings : Settings} {sources : List Source}
    {catalog : Catalog} (hlimits : settings.expansion = .standard)
    (hload : load view settings sources = .ok catalog) (layout : Json.Layout) {files : FileView}
    {path : String}
    (hfile : files path = .file (Text.toBytes (catalog.toPortable.render layout))) :
    ofPortableFile files path
      = if Portable.FitsText catalog.modules then .ok { catalog with serializer := .standard }
        else .error .notPortable := by
  have hgraph := graph_of_load hload
  rw [hlimits] at hgraph
  rw [ofPortableFile_text hfile, toPortable, Portable.ofText?_render]
  split
  · exact ofModules_modules hgraph
  · rfl

theorem ofPortableFile_render_list :
    ∃ catalog, load (fun _ ↦ default) .standard [.text "module M\nT=Array(Integer)"] = .ok catalog ∧
      ofPortableFile (fun _ ↦ .file (Text.toBytes (catalog.toPortable.render .indented))) "m.json"
        = .ok { catalog with serializer := .standard } := by
  obtain ⟨catalog, hload, hmodules⟩ := exists_load_text (fun _ ↦ default)
    "module M\nT=Array(Integer)"
    ⟨"M", [⟨"T", [], .ref ⟨none, "Array"⟩ [.ref ⟨none, "Integer"⟩ []]⟩]⟩
    (by decide +kernel) (by decide +kernel)
  refine ⟨catalog, hload, ?_⟩
  rw [ofPortableFile_render rfl hload .indented rfl, if_pos (by rw [hmodules]; decide)]

/-! ## A catalog that no portable file holds -/

/-- An integer in records of one field each. -/
def nestedRecords : Nat → TypeExpr
  | 0 => .ref ⟨none, "Integer"⟩ []
  | depth + 1 => .record [("a", nestedRecords depth)]

def nestedChars : Nat → List Char
  | 0 => "Integer".toList
  | depth + 1 => "Record\x7ba:".toList ++ nestedChars depth ++ ['}']

/-- A schema text with 41 nested records. -/
def nestedText : String := String.ofList ("module M\nT=".toList ++ nestedChars 41)

/-- The parse of this text is clean. The characters are at hand and are not decoded again. -/
theorem run_nestedText : (Syntax.Parsed.run .standard nestedText).2.excess = none ∧
    (Syntax.Parsed.run .standard nestedText).2.reports.isEmpty = true ∧
    (Syntax.Parsed.run .standard nestedText).1.outline.module
      = ⟨"M", [⟨"T", [], nestedRecords 41⟩]⟩ := by
  have hlex : Syntax.Token.lex nestedText
      = Syntax.Token.cutFrom 0 0 ⟨[], []⟩ ("module M\nT=".toList ++ nestedChars 41) :=
    congrArg (Syntax.Token.cutFrom 0 0 ⟨[], []⟩) String.toList_ofList
  rw [Syntax.Parsed.run, Syntax.State.initial, hlex]
  decide +kernel

theorem ofPortableFile_nestedText :
    ∃ catalog, load (fun _ ↦ default) .standard [.text nestedText] = .ok catalog ∧
      ofPortable catalog.toPortable = .ok { catalog with serializer := .standard } ∧
      ∀ layout, ofPortableFile
          (fun _ ↦ .file (Text.toBytes (catalog.toPortable.render layout))) "schema.json"
        = .error .notPortable := by
  obtain ⟨catalog, hload, hmodules⟩ := exists_load_text (fun _ ↦ default) nestedText
    ⟨"M", [⟨"T", [], nestedRecords 41⟩]⟩ run_nestedText (by decide +kernel)
  have hgraph := graph_of_load hload
  refine ⟨catalog, hload, ?_, fun layout ↦ ?_⟩
  · rw [ofPortable, toPortable, Portable.modules?_ofModules]
    exact ofModules_modules hgraph
  · have hdeep : ¬ Portable.FitsText catalog.modules := by
      rw [hmodules]
      decide +kernel
    rw [ofPortableFile_text rfl, toPortable, Portable.ofText?_render, if_neg hdeep]
    rfl

end Catalog

end SchemaCodec
