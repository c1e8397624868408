import SchemaCodec.Catalog.Basic
import SchemaCodec.Proofs.Expansion.Inclusion
import SchemaCodec.Proofs.Key
import SchemaCodec.Proofs.Schema.Portable
import SchemaCodec.Proofs.Schema.Texts

/-!
# Entries and dotted names

Values are written and read by the dotted name of a type, which is split at its first dot. The name
of an application is made of the texts of its arguments, so it may hold any number of dots, commas
and braces. All the same the dotted form of each key leads back to the key, and no other name leads
there, if the modules were read from texts.

## Where the first dot stands

What comes behind the module makes no difference, so nothing has to be known of the types in a name.
A key in a graph is that of a builtin shape, whose name holds no dot, or it has the module of some
declaration, and modules of a text have names that the lexer reads.
-/

namespace SchemaCodec

/-! ## The keys of a graph -/

namespace Expansion

variable {modules : List Module}

/-- In front of the key of a body that comes up stands the name of a module. -/
theorem Reached.readable {s : Specialization} (hs : Reached modules s)
    (hdots : ∀ module ∈ modules, '.' ∉ module.name.toList) : s.key.Readable := by
  obtain ⟨module, hmodule, hname, -⟩ := mem_of_decl? hs.decl?
  rw [Key.Readable, s.module_key, Option.getD_some, ← hname]
  exact hdots module hmodule

theorem readable_of_graph {limits : Limits} {graph : Graph}
    (hdots : ∀ module ∈ modules, '.' ∉ module.name.toList)
    (h : Expansion.graph limits modules = .ok graph) {key : Key}
    (hkey : graph.contains key = true) : key.Readable := by
  obtain ⟨hdistinct, done, hrun, -, rfl⟩ := run_of_graph h
  have hunfolded := (declareAll_unfolds hdistinct limits _).good_of_eq hrun
  obtain ⟨ty, hget⟩ := Option.isSome_iff_exists.mp hkey
  cases hunfolded.faithful.entries _ (Graph.mem_of_get? hget) with
  | @builtin b _ _ => cases b <;> decide
  | body hs _ => exact hs.readable hdots

end Expansion

/-! ## From a key to its entry -/

namespace Graph

variable {graph : Graph}

/-- A key can be put for the type of its entry. -/
theorem WellFormed.interchangeable (h : graph.WellFormed) {key : Key} {ty : Ty}
    (hget : graph.get? key = some ty) : Interchangeable graph graph (.ref key) ty := by
  have hknows : graph.Knows ty := h.known _ (mem_of_get? hget)
  have hresolve := resolve_ref hget (h.closed.isShape_resolve hknows)
  exact ((Bisimilar.refl graph ty).of_resolve_eq hresolve).interchangeable h.closed
    (h.everywhere (contains_of_get? hget)).1

end Graph

/-! ## Catalogs of texts -/

namespace Source

/-- A source of texts: a text, a file, a directory, or modules that were read from texts before. -/
def OfTexts : Source → Prop
  | modules held => ∀ module ∈ held, module.HasText
  | _ => True

theorem hasText_of_readModule {limits : Syntax.Limits} {origin source : String} {module : Module}
    (h : readModule limits origin source = .ok module) : module.HasText :=
  ⟨limits, origin, source, mapError_ok h⟩

theorem hasText_of_readFile {limits : Syntax.Limits} {path : String} {node : FileTree}
    {module : Module} (h : readFile limits path node = .ok module) : module.HasText := by
  obtain ⟨content, -, hread⟩ := bind_ok h
  exact hasText_of_readModule hread

theorem hasText_of_load {view : FileView} {limits : Syntax.Limits} {source : Source}
    {found : List Module} (hsource : source.OfTexts) (h : source.load view limits = .ok found) :
    ∀ module ∈ found, module.HasText := by
  cases source with
  | text content =>
    obtain ⟨module, hread, hfound⟩ := bind_ok h
    cases hfound
    exact List.forall_mem_singleton.mpr (hasText_of_readModule hread)
  | modules held =>
    cases h
    exact hsource
  | path place =>
    rw [load] at h
    split at h
    · intro module hmodule
      obtain ⟨file, -, hread⟩ := exists_of_mem_mapM h hmodule
      exact hasText_of_readFile hread
    · split at h
      · obtain ⟨module, hread, hfound⟩ := bind_ok h
        cases hfound
        exact List.forall_mem_singleton.mpr (hasText_of_readFile hread)
      · cases h

end Source

namespace Catalog

/-- A catalog that is loaded from texts is the catalog of its modules, and these have texts. -/
theorem hasText_of_load {view : FileView} {settings : Settings} {sources : List Source}
    {catalog : Catalog} (hsources : ∀ source ∈ sources, source.OfTexts)
    (h : load view settings sources = .ok catalog) :
    (∀ module ∈ catalog.modules, module.HasText) ∧
      ofModules settings catalog.modules = .ok catalog := by
  obtain ⟨loaded, hloaded, hcatalog⟩ := bind_ok h
  rw [(graph_of_ofModules hcatalog).1]
  refine ⟨fun module hmodule ↦ ?_, hcatalog⟩
  obtain ⟨found, hfound, hmem⟩ := List.mem_flatten.mp hmodule
  obtain ⟨source, hsource, hload⟩ := exists_of_mem_mapM hloaded hfound
  exact Source.hasText_of_load (hsources source hsource) hload module hmem

/-- Under a name, the operations of a catalog on values, with either serializer, are those at a
type. -/
structure Reaches (catalog : Catalog) (name : String) (ty : Ty) : Prop where
  encode : ∀ serializer value, { catalog with serializer }.encode name value
    = serializer.encode catalog.graph ty value
  decode : ∀ serializer data, { catalog with serializer }.decode name data
    = serializer.decode catalog.graph ty data
  toJson : ∀ value, catalog.toJson name value = Json.ofValue catalog.graph ty value
  ofJson : ∀ json, catalog.ofJson name json = Json.toValue catalog.graph ty json

theorem Reaches.of_interchangeable {catalog : Catalog} {name : String} {ty : Ty}
    (h : Interchangeable catalog.graph catalog.graph (typeOf name) ty) : catalog.Reaches name ty :=
  ⟨h.encode, h.decode, h.ofValue, h.toValue⟩

/-- **Entries are reached by their dotted names.** In the graph of modules that were read from texts
each key is read back from its dotted form, and different keys have different ones. So under the
dotted form of its key, and under no other name, values are written and read as the type of an entry
says, whatever the name of the entry is made of. -/
theorem entries_reached_by_text {settings : Settings} {modules : List Module} {catalog : Catalog}
    (hmodules : ∀ module ∈ modules, module.HasText) (h : ofModules settings modules = .ok catalog) :
    (∀ key, catalog.graph.contains key = true → Key.ofText key.text = key) ∧
    (∀ key other, catalog.graph.contains key = true → catalog.graph.contains other = true →
      key ≠ other → key.text ≠ other.text) ∧
    ∀ key ty, catalog.graph.get? key = some ty →
      catalog.Reaches key.text ty ∧ ∀ name, typeOf name = .ref key ↔ name = key.text := by
  obtain ⟨-, hgraph⟩ := graph_of_ofModules h
  have hdots : ∀ module ∈ modules, '.' ∉ module.name.toList := by
    intro module hmodule
    exact (hmodules module hmodule).named.name.dot_not_mem
  have hreadable : ∀ key, catalog.graph.contains key = true → key.Readable := by
    intro key hkey
    exact Expansion.readable_of_graph hdots hgraph hkey
  refine ⟨?_, ?_, ?_⟩
  · intro key hkey
    exact Key.ofText_text_iff.mpr (hreadable key hkey)
  · intro key other hkey hother hne htext
    exact hne (Key.eq_of_text_eq (hreadable key hkey) (hreadable other hother) htext)
  · intro key ty hget
    have hkey : key.Readable := hreadable key (Graph.contains_of_get? hget)
    have htype : ∀ name, typeOf name = .ref key ↔ name = key.text := by
      intro name
      rw [typeOf, Ty.ref.injEq, Key.ofText_eq_iff hkey]
    refine ⟨.of_interchangeable ?_, htype⟩
    rw [(htype key.text).mpr rfl]
    exact (Expansion.wellFormed_of_graphWithin hgraph).interchangeable hget

/-- An item, and a generic box of two things. -/
def shelfText : String := "module A Item = Integer Box(t, u) = Record \x7b first: t, second: u \x7d"

/-- A box of an item and of a record with another one. -/
def parcelText : String := "module B Pair = A.Box(A.Item, Record \x7b x: A.Item, y: String \x7d)"

def shelf : Syntax.ModulePhrase :=
  ⟨"A", [⟨"Item", [], .ref none "Integer" []⟩,
    ⟨"Box", ["t", "u"], .braced .record [("first", .ref none "t" [], true),
      ("second", .ref none "u" [], false)]⟩]⟩

def parcel : Syntax.ModulePhrase :=
  ⟨"B", [⟨"Pair", [], .ref (some "A") "Box" [.ref (some "A") "Item" [],
    .braced .record [("x", .ref (some "A") "Item" [], true),
      ("y", .ref none "String" [], false)]]⟩]⟩

/-- The key of the box, with dots, commas and braces in its name. -/
def parcelKey : Key := .qualified "A" "Box(A.Item, Record \x7b x: A.Item, y: String \x7d)"

/-- What is in the box. -/
def parcelTy : Ty :=
  .record [("first", .ref (.qualified "A" "Item")),
    ("second", .record [("x", .ref (.qualified "A" "Item")), ("y", .string)])]

set_option maxRecDepth 4000 in
theorem entries_reached_by_text_parcel :
    ∃ catalog, load (fun _ ↦ default) ⟨.standard, .unlimited, .standard⟩
        [.text shelfText, .text parcelText] = .ok catalog ∧
      Key.ofText "A.Box(A.Item, Record \x7b x: A.Item, y: String \x7d)" = parcelKey ∧
      catalog.Reaches "A.Box(A.Item, Record \x7b x: A.Item, y: String \x7d)" parcelTy := by
  obtain ⟨graph, hgraph, hget⟩ : ∃ graph,
      ofModules ⟨.standard, .unlimited, .standard⟩ [shelf.module, parcel.module]
        = .ok ⟨[shelf.module, parcel.module], graph, .standard⟩ ∧
      graph.get? parcelKey = some parcelTy := ⟨_, rfl, rfl⟩
  have hshelf : shelf.yield = Syntax.terminals (Syntax.Token.lex shelfText) := by decide
  have hparcel : parcel.yield = Syntax.terminals (Syntax.Token.lex parcelText) := by decide
  have hload : load (fun _ ↦ default) ⟨.standard, .unlimited, .standard⟩
      [.text shelfText, .text parcelText]
      = .ok ⟨[shelf.module, parcel.module], graph, .standard⟩ := by
    have hfirst := Syntax.readModule_of_phrase hshelf Source.textOrigin
    have hsecond := Syntax.readModule_of_phrase hparcel Source.textOrigin
    rw [← hgraph, load, List.mapM_cons, Source.load_text hfirst, List.mapM_cons,
      Source.load_text hsecond]
    rfl
  have hsources : ∀ source ∈ [Source.text shelfText, .text parcelText], source.OfTexts :=
    List.forall_mem_cons.mpr ⟨trivial, List.forall_mem_singleton.mpr trivial⟩
  obtain ⟨hmodules, hcatalog⟩ := hasText_of_load hsources hload
  obtain ⟨htext, -, hreaches⟩ := entries_reached_by_text hmodules hcatalog
  refine ⟨_, hload, htext parcelKey (Graph.contains_of_get? hget), ?_⟩
  exact (hreaches parcelKey parcelTy hget).1

end Catalog

end SchemaCodec
