import SchemaCodec.Proofs.Json.Interchange
import SchemaCodec.Proofs.Wire.Interchange

/-!
# Only the unfolded shape of a type matters

Types that are bisimilar cannot be told apart by writing or reading values, with either serializer
or as JSON. A name for a type, a name that another module gives to it and the entry of a generic
application are hops on the way to a shape, and hops show nowhere: not in bytes, not in values, not
in what is left unread and not in failures.
-/

namespace SchemaCodec

open Wire

/-- No operation on values tells two types apart, each in its graph. -/
structure Interchangeable (graph other : Graph) (ty ty' : Ty) : Prop where
  encode : ∀ (serializer : Serializer) value,
    serializer.encode graph ty value = serializer.encode other ty' value
  decode : ∀ (serializer : Serializer) data,
    serializer.decode graph ty data = serializer.decode other ty' data
  ofValue : ∀ value, Json.ofValue graph ty value = Json.ofValue other ty' value
  toValue : ∀ json, Json.toValue graph ty json = Json.toValue other ty' json

namespace Graph

variable {graph other : Graph} {ty ty' : Ty}

theorem Bisimilar.interchangeable (hgraph : graph.Closed) (hty : graph.Knows ty)
    (h : graph.Bisimilar other ty ty') : Interchangeable graph other ty ty' := by
  obtain ⟨R, hR, hrel⟩ := h
  have hpairing := hR.pairing hgraph
  have hpair : R ty ty' ∧ graph.Everywhere graph.Known ty := ⟨hrel, hty, hgraph.known⟩
  constructor
  · intro serializer value
    exact encode_eq hpairing hpair serializer value
  · intro serializer data
    exact decode_eq hpairing hpair serializer data
  · intro value
    exact Json.ofValue_eq hpairing hpair value
  · intro json
    exact Json.toValue_eq hpairing hpair json

/-- **Only the unfolded shape matters.** Bisimilar types, the first of them in a closed graph, are
interchangeable, and so is every name for the first with the second. -/
theorem bisimilar_interchangeable (hgraph : graph.Closed) (hty : graph.Knows ty)
    (h : graph.Bisimilar other ty ty') :
    Interchangeable graph other ty ty' ∧
    ∀ key, graph.get? key = some ty → Interchangeable graph other (.ref key) ty' := by
  refine ⟨h.interchangeable hgraph hty, fun key hget ↦ ?_⟩
  have hknows : graph.Knows (.ref key) := by
    intro part hpart name hname
    rw [List.mem_singleton.mp hpart] at hname
    rw [← Ty.ref.inj hname, contains, hget]
    rfl
  have hresolve := resolve_ref hget (hgraph.isShape_resolve hty)
  exact (h.of_resolve_eq hresolve).interchangeable hgraph hknows

end Graph

/-- A chain of nodes, and the name that another module gives to it. -/
def chain : Graph :=
  (Graph.builtins.insert (.qualified "M" "Node")
    (.record [("next", .optional (.ref (.qualified "M" "Node")))])).insert
    (.qualified "N" "Node") (.ref (.qualified "M" "Node"))

/-- The same chain, written with two nodes at a time. -/
def pairedChain : Graph :=
  Graph.builtins.insert (.qualified "K" "Node") (.record [("next",
    .optional (.record [("next", .optional (.ref (.qualified "K" "Node")))]))])

/-- Where the walks through both chains meet. -/
inductive InChains : Ty → Ty → Prop
  | none : InChains (.ref (.builtin "None")) (.ref (.builtin "None"))
  | start : InChains (.ref (.qualified "N" "Node")) (.ref (.qualified "K" "Node"))
  | first : InChains (.optional (.ref (.qualified "M" "Node")))
      (.optional (.record [("next", .optional (.ref (.qualified "K" "Node")))]))
  | second : InChains (.ref (.qualified "M" "Node"))
      (.record [("next", .optional (.ref (.qualified "K" "Node")))])
  | last : InChains (.optional (.ref (.qualified "M" "Node")))
      (.optional (.ref (.qualified "K" "Node")))
  | again : InChains (.ref (.qualified "M" "Node")) (.ref (.qualified "K" "Node"))

theorem bisimulation_inChains : chain.Bisimulation pairedChain InChains := by
  have hnode : ∀ {next next'}, InChains next next' →
      (Ty.record [("next", next)]).Alike InChains (.record [("next", next')]) := by
    intro next next' h
    refine Ty.Paired.alike (.record ?_)
    exact .cons ⟨rfl, h⟩ .nil
  have hoptional : ∀ {value value'}, InChains value value' →
      (Ty.optional value).Alike InChains (.optional value') := by
    intro value value' h
    refine Ty.Paired.alike (.choice ?_)
    exact .cons ⟨rfl, .none⟩ (.cons ⟨rfl, h⟩ .nil)
  intro ty ty' h
  cases h with
  | none => exact (Ty.Paired.leaf (b := .none) rfl).alike
  | start => exact hnode .first
  | first => exact hoptional .second
  | second => exact hnode .last
  | last => exact hoptional .again
  | again => exact hnode .first

theorem bisimilar_interchangeable_chains :
    chain.Closed ∧ chain.Knows (.ref (.qualified "N" "Node")) ∧
    chain.Bisimilar pairedChain (.ref (.qualified "N" "Node")) (.ref (.qualified "K" "Node")) ∧
    Interchangeable chain pairedChain (.ref (.qualified "N" "Node"))
      (.ref (.qualified "K" "Node")) := by
  have hclosed : chain.Closed := Graph.closed_of_entries (by decide) (by decide)
  have hknows : chain.Knows (.ref (.qualified "N" "Node")) := by decide
  have hbisimilar : chain.Bisimilar pairedChain (.ref (.qualified "N" "Node"))
      (.ref (.qualified "K" "Node")) := ⟨InChains, bisimulation_inChains, .start⟩
  exact ⟨hclosed, hknows, hbisimilar,
    (Graph.bisimilar_interchangeable hclosed hknows hbisimilar).1⟩

end SchemaCodec
