import SchemaCodec.Proofs.Expansion.Substitution
import SchemaCodec.Proofs.Expansion.Traversal

/-!
# Aliases that come to no shape

A declaration whose body is the name of another one is an alias. The last check of an expansion
refuses graphs in which the aliases of some key never come to a shape, and it refuses no others. All
references are to entries by then, so a chain that comes to no shape never ends, and the bounded
walk of the check tells.

## Which key is named

The failure says that a key is an alias of itself. The key it names is the first one in the order of
the entries whose chain never ends. Such a chain leads into a circle, but the circle need not lead
back to the key: an alias that stands before the circle it leads into is named in its place. What is
certain is that the named key leads to a key that is an alias of itself, and it is one as well
exactly if it is reached from there.
-/

namespace SchemaCodec

namespace Graph

variable {graph : Graph} {ty : Ty} {key : Key}

/-! ## Graphs whose references are to entries -/

/-- No chain of references from a type gets to a shape. -/
def Shapeless (graph : Graph) (ty : Ty) : Prop :=
  ∀ shape, shape.IsShape → ¬graph.Reaches ty shape

/-- Every key is listed once, and every reference is to an entry. -/
structure Linked (graph : Graph) : Prop where
  once : graph.entries.keys.Nodup
  known : ∀ entry ∈ graph.entries, graph.Known entry.2

namespace Linked

theorem known_of_reaches (h : graph.Linked) {met : Ty} (hty : graph.Known ty)
    (hreaches : graph.Reaches ty met) : graph.Known met := by
  rcases Relation.ReflTransGen.cases_tail hreaches with rfl | ⟨_, -, ⟨hget⟩⟩
  · exact hty
  · exact h.known _ (mem_of_get? hget)

/-- With all references to entries, a chain without a shape has nowhere to end. -/
theorem endless_iff_shapeless (h : graph.Linked) (hty : graph.Known ty) :
    graph.Endless ty ↔ graph.Shapeless ty := by
  constructor
  · intro hendless shape hshape hreaches
    obtain ⟨key, rfl, -⟩ := hendless shape hreaches
    exact absurd hshape (by simp [Ty.IsShape, Ty.key?])
  · intro hshapeless met hreaches
    obtain ⟨key, rfl⟩ := Ty.not_isShape_iff.mp fun hshape ↦ hshapeless met hshape hreaches
    exact ⟨key, rfl, h.known_of_reaches hty hreaches key rfl⟩

theorem get?_of_mem (h : graph.Linked) {entry : Key × Ty} (hentry : entry ∈ graph.entries) :
    graph.get? entry.1 = some entry.2 := Members.get?_of_mem h.once hentry

theorem known_key (h : graph.Linked) {entry : Key × Ty} (hentry : entry ∈ graph.entries) :
    graph.Known (.ref entry.1) := by
  rintro _ ⟨⟩
  rw [contains, h.get?_of_mem hentry]
  rfl

/-- The chain from the key of an entry goes on from what the entry holds. -/
theorem endless_iff_key (h : graph.Linked) {entry : Key × Ty} (hentry : entry ∈ graph.entries) :
    graph.Endless entry.2 ↔ graph.Endless (.ref entry.1) := by
  have hhop : graph.Hop (.ref entry.1) entry.2 := .entry (h.get?_of_mem hentry)
  exact ⟨.of_reaches (.single hhop), fun hkey met hmet ↦ hkey met (.head hhop hmet)⟩

end Linked

/-- A key lies on the circle that it leads into exactly if it is reached from there. -/
theorem circular_iff_reaches {other : Key} (hreaches : graph.Reaches (.ref key) (.ref other))
    (hother : graph.Circular other) : graph.Circular key ↔ graph.Reaches (.ref other) (.ref key) :=
  ⟨fun hkey ↦ hkey.reaches_back hreaches,
    fun hback ↦ .trans_left (.trans_right hreaches hother) hback⟩

end Graph

namespace Expansion

/-! ## The check of aliases -/

theorem isCyclic_iff {graph : Graph} {ty : Ty} : isCyclic graph ty = true ↔ graph.Endless ty := by
  constructor
  · intro h
    rw [isCyclic] at h
    split at h
    · next key hkey =>
      have hlast : ¬graph.Last (graph.resolve ty) := Graph.not_last_iff.mpr ⟨key, hkey, h⟩
      exact Graph.endless_iff_circular.mpr
        ((Graph.resolve_last_or_circular graph ty).resolve_left hlast)
    · cases h
  · intro h
    obtain ⟨key, hkey, hcontains⟩ := h _ (Graph.reaches_resolve graph ty)
    rw [isCyclic, hkey]
    exact hcontains

theorem isCyclic_entry_iff {graph : Graph} (hgraph : graph.Linked) {entry : Key × Ty}
    (hentry : entry ∈ graph.entries) :
    isCyclic graph entry.2 = true ↔ graph.Shapeless (.ref entry.1) := by
  rw [isCyclic_iff, hgraph.endless_iff_key hentry,
    hgraph.endless_iff_shapeless (hgraph.known_key hentry)]

/-- The check names the first key of which the aliases come to no shape. -/
theorem checkAliases_eq_error_iff {graph : Graph} (hgraph : graph.Linked) {key : Key} :
    checkAliases graph = .error (.aliasCycle key) ↔
      ∃ before ty after, graph.entries = before ++ (key, ty) :: after ∧
        graph.Shapeless (.ref key) ∧ ∀ entry ∈ before, ¬graph.Shapeless (.ref entry.1) := by
  rw [checkAliases]
  constructor
  · intro h
    split at h
    · next first ty hfind =>
      obtain ⟨hfirst, before, after, hentries, hbefore⟩ := List.find?_eq_some_iff_append.mp hfind
      obtain rfl : first = key := by simpa using h
      have hmem : (first, ty) ∈ graph.entries := by simp [hentries]
      refine ⟨before, ty, after, hentries, (isCyclic_entry_iff hgraph hmem).mp hfirst, ?_⟩
      intro entry hentry
      rw [← isCyclic_entry_iff hgraph (by simp [hentries, hentry])]
      simpa using hbefore entry hentry
    · cases h
  · rintro ⟨before, ty, after, hentries, hkey, hbefore⟩
    have hmem : (key, ty) ∈ graph.entries := by simp [hentries]
    have hfind : graph.entries.find? (fun entry ↦ isCyclic graph entry.2) = some (key, ty) := by
      refine List.find?_eq_some_iff_append.mpr
        ⟨(isCyclic_entry_iff hgraph hmem).mpr hkey, before, after, hentries, fun entry hentry ↦ ?_⟩
      have hshape := hbefore entry hentry
      rw [← isCyclic_entry_iff hgraph (by simp [hentries, hentry])] at hshape
      simpa using hshape
    rw [hfind]

/-- The check fails exactly if there is such a key. -/
theorem exists_aliasCycle_iff {graph : Graph} (hgraph : graph.Linked) :
    (∃ key, checkAliases graph = .error (.aliasCycle key)) ↔
      ∃ key, graph.contains key = true ∧ graph.Shapeless (.ref key) := by
  constructor
  · rintro ⟨key, h⟩
    obtain ⟨before, ty, after, hentries, hkey, -⟩ := (checkAliases_eq_error_iff hgraph).mp h
    have hmem : (key, ty) ∈ graph.entries := by simp [hentries]
    exact ⟨key, hgraph.known_key hmem key rfl, hkey⟩
  · rintro ⟨key, hcontains, hkey⟩
    obtain ⟨ty, hget⟩ := Option.isSome_iff_exists.mp hcontains
    have hcyclic := (isCyclic_entry_iff hgraph (Graph.mem_of_get? hget)).mpr hkey
    cases hcheck : checkAliases graph with
    | ok =>
      rw [not_cyclic_of_checkAliases hcheck (Graph.mem_of_get? hget)] at hcyclic
      cases hcyclic
    | error e =>
      obtain ⟨first, rfl⟩ := eq_of_checkAliases hcheck
      exact ⟨first, rfl⟩

/-! ## Graphs of schemas -/

/-- The graph of a schema before its aliases are checked. -/
def unchecked (limits : Limits) (modules : List Module) : Except ExpansionError Graph := do
  checkNames [] modules
  let (_, done) ← (declareAll modules
    (instantiate modules limits (limits.nesting.getD unlimitedRounds))).run .initial
  return done.graph

section

variable {limits : Limits} {modules : List Module}

theorem graph_eq_unchecked (limits : Limits) (modules : List Module) :
    graph limits modules = (do
      let built ← unchecked limits modules
      checkAliases built
      return built) := by
  rw [graph, graphWithin, unchecked]
  cases checkNames [] modules with
  | error e => rfl
  | ok u =>
    change _ = ((declareAll modules _).run .initial >>= _) >>= _
    rw [bind_assoc]
    rfl

/-- However often it writes an entry, an expansion lists no key twice, and it does not find fault
with aliases. -/
theorem upholds_once : Upholds limits modules (fun _ s ↦ s.decl.isGeneric = true)
    (fun _ _ p ↦ p.graph.entries.keys.Nodup) (fun e ↦ ∀ key, e ≠ .aliasCycle key) where
  fails := by
    rintro _ he key rfl
    exact he
  generic := fun _ _ hs ↦ hs
  asks := fun _ _ _ _ hinner ↦ (of_mem_demands _ hinner).2.1
  runsOut := fun _ _ _ _ _ _ _ _ ↦ ExpansionError.noConfusion
  note := fun _ _ _ _ _ hp _ _ _ ↦ hp
  insert := fun _ _ _ _ _ _ hp _ ↦ Members.nodup_keys_put hp

theorem declareAll_once (hmodules : Distinct modules) (limits : Limits) (calls : Nat) :
    EndsFrom .initial (declareAll modules (instantiateAt modules limits calls 0))
      (fun _ q ↦ q.graph.entries.keys.Nodup) (fun e ↦ ∀ key, e ≠ .aliasCycle key) := by
  refine upholds_once.declareAll hmodules ?_ (fun _ _ _ _ _ hp _ ↦ Members.nodup_keys_put hp)
    (by decide)
  exact fun _ _ _ _ hinner ↦ (of_mem_demands _ hinner).2.1

/-- Up to the check of aliases an expansion gives a graph whose references are to entries, or it
fails for a reason other than aliases. -/
theorem unchecked_ends (limits : Limits) (modules : List Module) :
    Ends Graph.Linked (fun e ↦ ∀ key, e ≠ .aliasCycle key) (unchecked limits modules) := by
  have hrounds : limits.nesting.getD (limits.nesting.getD unlimitedRounds)
      = limits.nesting.getD unlimitedRounds := by cases limits.nesting <;> rfl
  have hnames : Ends (fun _ ↦ Distinct modules) (fun e ↦ ∀ key, e ≠ .aliasCycle key)
      (checkNames [] modules) := by
    refine .of_forall (fun _ ↦ (checkNames_iff modules).mp) ?_
    rintro _ he key rfl
    exact ordinary_of_checkNames he
  refine hnames.bind fun _ _ hmodules ↦ ?_
  have hrun := declareAll_once hmodules limits (limits.nesting.getD unlimitedRounds)
  rw [instantiateAt_eq (Nat.le_of_eq hrounds), hrounds] at hrun
  refine Ends.bind hrun fun r hr honce ↦ .ok ⟨honce, fun entry hentry ↦ ?_⟩
  exact (known_of_run hr).2 entry hentry _ entry.2.self_mem_parts

/-- An expansion that can only fail for its aliases has a graph to check. -/
theorem exists_unchecked
    (h : ∀ e, Expansion.graph limits modules = .error e → ∃ key, e = .aliasCycle key) :
    ∃ built, unchecked limits modules = .ok built ∧ built.Linked := by
  have hends := unchecked_ends limits modules
  cases hbuilt : unchecked limits modules with
  | ok built => exact ⟨built, rfl, hends.good_of_eq hbuilt⟩
  | error e =>
    have hgraph : Expansion.graph limits modules = .error e := by
      rw [graph_eq_unchecked, hbuilt]
      rfl
    obtain ⟨key, rfl⟩ := h e hgraph
    exact absurd rfl (hends.bad_of_eq hbuilt key)

/-- **Main result.** Where an expansion fails for no other reason than its aliases, it fails exactly
if the graph it has built has a key whose references never come to a shape. It names the first such
key in the order of the entries. That key leads to one that is an alias of itself, and is one as
well exactly if it is reached from there. -/
theorem aliasCycle_names_first
    (h : ∀ e, Expansion.graph limits modules = .error e → ∃ key, e = .aliasCycle key) :
    ∃ built, unchecked limits modules = .ok built ∧
      ((∃ key, Expansion.graph limits modules = .error (.aliasCycle key)) ↔
        ∃ key, built.contains key = true ∧ built.Shapeless (.ref key)) ∧
      (∀ key, Expansion.graph limits modules = .error (.aliasCycle key) ↔
        ∃ before ty after, built.entries = before ++ (key, ty) :: after ∧
          built.Shapeless (.ref key) ∧ ∀ entry ∈ before, ¬built.Shapeless (.ref entry.1)) ∧
      ∀ key, Expansion.graph limits modules = .error (.aliasCycle key) →
        ∃ other, built.Reaches (.ref key) (.ref other) ∧ built.Circular other ∧
          (built.Circular key ↔ built.Reaches (.ref other) (.ref key)) := by
  obtain ⟨built, hbuilt, hlinked⟩ := exists_unchecked h
  have hgraph (key : Key) : Expansion.graph limits modules = .error (.aliasCycle key) ↔
      checkAliases built = .error (.aliasCycle key) := by
    rw [graph_eq_unchecked, hbuilt, bind_of_ok rfl]
    cases checkAliases built <;> simp [bind, Except.bind, pure, Except.pure]
  refine ⟨built, hbuilt, ?_, ?_, ?_⟩
  · rw [← exists_aliasCycle_iff hlinked]
    exact exists_congr hgraph
  · exact fun key ↦ (hgraph key).trans (checkAliases_eq_error_iff hlinked)
  · intro key herror
    obtain ⟨before, ty, after, hentries, hshapeless, -⟩ :=
      (checkAliases_eq_error_iff hlinked).mp ((hgraph key).mp herror)
    have hmem : (key, ty) ∈ built.entries := by simp [hentries]
    have hknown := hlinked.known_key hmem
    obtain ⟨other, hother, hcircular⟩ := Graph.endless_iff_circular.mp
      ((hlinked.endless_iff_shapeless hknown).mpr hshapeless)
    have hreaches := Graph.reaches_resolve built (.ref key)
    rw [hother] at hreaches
    exact ⟨other, hreaches, hcircular, Graph.circular_iff_reaches hreaches hcircular⟩

/-- An alias that stands before one that is an alias of itself. -/
def bystander : List Module :=
  [⟨"M", [⟨"A", [], .ref (.builtin "B") []⟩, ⟨"B", [], .ref (.builtin "B") []⟩]⟩]

/-- The graph of these aliases, unchecked. -/
def bystanderGraph : Graph :=
  (Graph.builtins.insert (.qualified "M" "A") (.ref (.qualified "M" "B"))).insert
    (.qualified "M" "B") (.ref (.qualified "M" "B"))

theorem aliasCycle_names_first_bystander :
    Expansion.graph .standard bystander = .error (.aliasCycle (.qualified "M" "A")) ∧
    ∃ built, unchecked .standard bystander = .ok built ∧
      ∃ other, built.Reaches (.ref (.qualified "M" "A")) (.ref other) ∧ built.Circular other := by
  have hgraph : Expansion.graph .standard bystander = .error (.aliasCycle (.qualified "M" "A")) :=
    rfl
  have honly : ∀ e, Expansion.graph .standard bystander = .error e →
      ∃ key, e = .aliasCycle key := by
    intro e he
    exact ⟨_, Except.error.inj (he.symm.trans hgraph)⟩
  obtain ⟨built, hbuilt, -, -, hnamed⟩ := aliasCycle_names_first honly
  obtain ⟨other, hreaches, hcircular, -⟩ := hnamed _ hgraph
  exact ⟨hgraph, built, hbuilt, other, hreaches, hcircular⟩

/-- The key that is named need not be an alias of itself. -/
theorem named_not_circular :
    unchecked .standard bystander = .ok bystanderGraph ∧
    Expansion.graph .standard bystander = .error (.aliasCycle (.qualified "M" "A")) ∧
    ¬bystanderGraph.Circular (.qualified "M" "A") := by
  refine ⟨rfl, rfl, fun hcircular ↦ ?_⟩
  -- nothing refers to the first alias
  have hnone : ∀ entry ∈ bystanderGraph.entries, entry.2 ≠ .ref (.qualified "M" "A") := by decide
  obtain ⟨last, -, hhop⟩ := Relation.TransGen.tail'_iff.mp hcircular
  obtain ⟨hget⟩ := hhop
  exact hnone _ (Graph.mem_of_get? hget) rfl

end

end Expansion

end SchemaCodec
