import SchemaCodec.Proofs.Chase
import SchemaCodec.Proofs.Expansion.Progress
import SchemaCodec.Proofs.Json.Bridge
import SchemaCodec.Proofs.Wire.Parity

/-!
# The graph of a schema

When an expansion has succeeded, every promise has been kept: each reference in the graph is to an
entry, and a chain of references ends on a shape, or the last check would have refused the graph. A
serializer or the bridge to JSON that starts from an entry therefore never comes upon a type that is
unknown, whatever the value or the data.
-/

namespace SchemaCodec

open Wire

namespace Graph

/-- All references are to entries, records and choices are well named, entries lead to shapes, and
the builtin types are what they are. -/
structure WellFormed (graph : Graph) : Prop where
  known : ∀ entry ∈ graph.entries, ∀ part ∈ entry.2.parts, graph.Known part
  wellNamed : ∀ entry ∈ graph.entries, ∀ part ∈ entry.2.parts, part.WellNamed
  grounded : ∀ key, graph.contains key = true → (graph.resolve (.ref key)).IsShape
  builtins : ∀ (b : Builtin) shape, b.shape? = some shape →
    graph.get? (.builtin b.name) = some shape

namespace WellFormed

variable {graph : Graph} {key : Key}

/-! ## Operations on a well-formed graph -/

theorem everywhere (h : graph.WellFormed) (hkey : graph.contains key = true) :
    graph.Everywhere graph.Known (.ref key) := by
  refine ⟨fun part hpart ↦ ?_, h.known⟩
  rw [List.mem_singleton.mp hpart]
  exact fun other hother ↦ Ty.ref.inj hother ▸ hkey

theorem not_stuck (h : graph.WellFormed) (key : Key) : ¬graph.Stuck graph.Known key := by
  rintro ⟨ty, hty, hshape⟩
  have hresolve := hty.isShape_resolve h.grounded
  rw [hshape] at hresolve
  cases hresolve

theorem encode_ne_unknownType (h : graph.WellFormed) (hkey : graph.contains key = true)
    (serializer : Serializer) (value : Value) (unknown : Key) :
    serializer.encode graph (.ref key) value ≠ .error (.unknownType unknown) := by
  intro herror
  rcases (encode_ends (h.everywhere hkey) value serializer).bad_of_eq herror with hbad | hbad
  · cases hbad with
    | unknownType hstuck => exact h.not_stuck unknown hstuck
  · cases hbad

theorem decode_ne_unknownType (h : graph.WellFormed) (hkey : graph.contains key = true)
    (serializer : Serializer) (data : List UInt8) (unknown : Key) :
    serializer.decode graph (.ref key) data ≠ .error (.unknownType unknown) := by
  intro herror
  rcases (decode_ends (h.everywhere hkey) data serializer).bad_of_eq herror with hbad | hbad
  · cases hbad with
    | unknownType hstuck => exact h.not_stuck unknown hstuck
  · cases hbad

theorem ofValue_ne_unknownType (h : graph.WellFormed) (hkey : graph.contains key = true)
    (value : Value) (unknown : Key) :
    Json.ofValue graph (.ref key) value ≠ .error (.wire (.unknownType unknown)) :=
  fun herror ↦ h.not_stuck unknown
    ((Json.ofValue_ends (h.everywhere hkey) value).bad_of_eq herror unknown rfl)

theorem toValue_ne_unknownType (h : graph.WellFormed) (hkey : graph.contains key = true)
    (json : Json) (unknown : Key) :
    Json.toValue graph (.ref key) json ≠ .error (.wire (.unknownType unknown)) :=
  fun herror ↦ h.not_stuck unknown
    ((Json.toValue_ends (h.everywhere hkey) json).bad_of_eq herror unknown rfl)

end WellFormed

end Graph

namespace Expansion

/-! ## What an expansion leaves behind -/

theorem contains_of_promised {modules : List Module} {p : Progress} (hp : WellFormed modules p)
    (hext : Extends .initial p) (hdeclared : ∀ module ∈ modules, Declared module p) {key : Key}
    (hkey : Promised modules p key) : p.graph.contains key = true := by
  cases hkey with
  | builtin hshape =>
    rw [Graph.contains, hp.builtins _ _ hshape]
    rfl
  | declared hmodule hdecl hplain =>
    refine hdeclared _ hmodule _ (List.mem_filter.mpr ⟨hdecl, ?_⟩)
    rw [hplain]
    rfl
  | made hmade => exact (hext.settles _ hmade).resolve_left List.not_mem_nil

theorem not_cyclic_of_checkAliases {graph : Graph} (h : checkAliases graph = .ok ())
    {entry : Key × Ty} (hentry : entry ∈ graph.entries) : isCyclic graph entry.2 = false := by
  rw [checkAliases] at h
  split at h
  · cases h
  · next hnone => exact Bool.eq_false_iff.mpr (List.find?_eq_none.mp hnone entry hentry)

/-- What a run that has succeeded leaves behind is sound, and every reference in it is to an
entry. -/
theorem known_of_run {rounds : Nat} {limits : Limits} {modules : List Module} {done : Progress}
    (h : (declareAll modules (instantiate modules limits rounds)).run .initial = .ok ((), done)) :
    WellFormed modules done ∧
      ∀ entry ∈ done.graph.entries, ∀ part ∈ entry.2.parts, done.graph.Known part := by
  have hsafe := declareAll_safe (wellFormed_initial modules)
    (instantiate_safe modules limits rounds)
  obtain ⟨hp, hext, hdeclared⟩ := hsafe _ _ h
  -- every promise has been kept
  exact ⟨hp, fun entry hentry part hpart key hkey ↦
    contains_of_promised hp hext hdeclared ((hp.sound entry hentry part hpart).1 key hkey)⟩

theorem wellFormed_of_graphWithin {rounds : Nat} {limits : Limits} {modules : List Module}
    {graph : Graph} (h : graphWithin rounds limits modules = .ok graph) : graph.WellFormed := by
  obtain ⟨-, -, hall⟩ := bind_ok h
  obtain ⟨⟨⟨⟩, p⟩, hrun, hcheck⟩ := bind_ok hall
  obtain ⟨⟨⟩, haliases, hgraph⟩ := bind_ok hcheck
  cases hgraph
  obtain ⟨hp, hknown⟩ := known_of_run hrun
  refine ⟨hknown, fun entry hentry part hpart ↦ (hp.sound entry hentry part hpart).2, ?_,
    hp.builtins⟩
  intro key hkey
  obtain ⟨ty, hget⟩ := Option.isSome_iff_exists.mp hkey
  have hentry := Graph.mem_of_get? hget
  refine Graph.isShape_resolve_ref hget ?_
  -- a chain that ended on a reference to an entry would have been refused
  by_contra hshape
  obtain ⟨last, hlast⟩ := Ty.not_isShape_iff.mp hshape
  have hty : p.graph.Everywhere p.graph.Known ty := ⟨hknown _ hentry, hknown⟩
  have hcyclic := not_cyclic_of_checkAliases haliases hentry
  rw [isCyclic, hlast] at hcyclic
  exact absurd (hty.resolve.self last hlast) (Bool.eq_false_iff.mp hcyclic)

/-- **The graph of a schema** is well formed, and from no entry of it a type that is unknown can be
reached, in writing or reading with either serializer and in converting to JSON or back. -/
theorem graph_wellFormed {limits : Limits} {modules : List Module} {graph : Graph}
    (h : Expansion.graph limits modules = .ok graph) :
    graph.WellFormed ∧ ∀ key, graph.contains key = true → ∀ unknown,
      (∀ (serializer : Serializer) value,
        serializer.encode graph (.ref key) value ≠ .error (.unknownType unknown)) ∧
      (∀ (serializer : Serializer) data,
        serializer.decode graph (.ref key) data ≠ .error (.unknownType unknown)) ∧
      (∀ value, Json.ofValue graph (.ref key) value ≠ .error (.wire (.unknownType unknown))) ∧
      (∀ json, Json.toValue graph (.ref key) json ≠ .error (.wire (.unknownType unknown))) := by
  have hgraph : graph.WellFormed := wellFormed_of_graphWithin h
  refine ⟨hgraph, fun key hkey unknown ↦ ⟨?_, ?_, ?_, ?_⟩⟩
  · exact fun serializer value ↦ hgraph.encode_ne_unknownType hkey serializer value unknown
  · exact fun serializer data ↦ hgraph.decode_ne_unknownType hkey serializer data unknown
  · exact fun value ↦ hgraph.ofValue_ne_unknownType hkey value unknown
  · exact fun json ↦ hgraph.toValue_ne_unknownType hkey json unknown

/-- A generic list that applies itself, and a plain name for one application of it. -/
def lists : List Module :=
  [⟨"M", [
    ⟨"List", ["t"], .choice [("nil", .none), ("cons", .record [("head", .ref (.builtin "t") []),
      ("tail", .ref (.builtin "List") [.ref (.builtin "t") []])])]⟩,
    ⟨"Numbers", [], .ref (.builtin "List") [.integer]⟩]⟩]

/-- The graph of these lists: the entry of the application refers to itself. -/
def listsGraph : Graph :=
  let numbers := Key.qualified "M" "List(Integer)"
  let cons := Ty.record [("head", .integer), ("tail", .ref numbers)]
  (Graph.builtins.insert numbers (.choice [("nil", .none), ("cons", cons)])).insert
    (.qualified "M" "Numbers") (.ref numbers)

theorem graph_wellFormed_lists :
    Expansion.graph .standard lists = .ok listsGraph ∧ listsGraph.WellFormed ∧
    ∀ value unknown, Serializer.standard.encode listsGraph (.ref (.qualified "M" "Numbers")) value
      ≠ .error (.unknownType unknown) := by
  have h : Expansion.graph .standard lists = .ok listsGraph := rfl
  refine ⟨h, (graph_wellFormed h).1, fun value unknown ↦ ?_⟩
  exact ((graph_wellFormed h).2 (.qualified "M" "Numbers") (by decide) unknown).1 .standard value

end Expansion

end SchemaCodec
