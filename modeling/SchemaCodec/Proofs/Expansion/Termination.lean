import Mathlib.Data.Set.Card
import SchemaCodec.Proofs.Expansion.Traversal

/-!
# Expansions come to an end

Bodies lead to further bodies with other arguments, so that nothing gets smaller from one body to
the next. What gets smaller is what is left. With a limit it is the distance of the depth to the
limit, whatever the arguments are. Without one it is the number of applications that have not been
noted, if there are finitely many to begin with: an application is noted before its body is gone
through, and what has been noted is not gone through again.
-/

namespace SchemaCodec

namespace Expansion

section

variable {limits : Limits} {modules : List Module}

/-! ## Results that are no accident of the calls -/

theorem not_unfinished_of_checkAliases {graph : Graph} {e : ExpansionError}
    (h : checkAliases graph = .error e) : ¬Unfinished e := by
  obtain ⟨key, rfl⟩ := eq_of_checkAliases h
  exact id

/-- A result is returned if the calls last for the declarations. -/
theorem returns_of_declareAll {calls : Nat} {good : PUnit → Progress → Prop}
    (h : Distinct modules → EndsFrom .initial
      (declareAll modules (instantiateAt modules limits calls 0)) good (¬Unfinished ·)) :
    Returns limits modules (graphIn calls limits modules) := by
  have hnames : Ends (fun _ ↦ Distinct modules) (¬Unfinished ·) (checkNames [] modules) :=
    .of_forall (fun _ ↦ (checkNames_iff modules).mp) fun _ h ↦
      (ordinary_of_checkNames h).not_unfinished
  have haliases (graph : Graph) : Ends (fun _ ↦ True) (¬Unfinished ·) (checkAliases graph) :=
    .of_forall (fun _ _ ↦ trivial) fun _ ↦ not_unfinished_of_checkAliases
  have hends : Ends (fun _ ↦ True) (¬Unfinished ·) (graphIn calls limits modules) :=
    hnames.bind fun _ _ hmodules ↦ Ends.bind (h hmodules) fun r _ _ ↦
      (haliases r.2.graph).bind fun _ _ _ ↦ .ok trivial
  exact ⟨⟨calls, rfl⟩, fun e he ↦ hends.bad_of_eq he⟩

/-! ## Applications that come up -/

/-- The applications that come up in the expansion of modules. -/
def applications (modules : List Module) : Set Specialization :=
  {s | Reached modules s ∧ s.decl.isGeneric = true}

theorem applications_of_mem_demands {s inner : Specialization} (hs : Reached modules s)
    (h : inner ∈ s.demands modules) : inner ∈ applications modules :=
  ⟨.applied hs h, (of_mem_demands _ h).2.1⟩

/-- The applications that have not been noted yet. -/
def pending (modules : List Module) (p : Progress) : Set Specialization :=
  {s ∈ applications modules | ¬Noted p s}

theorem finite_pending (hfinite : (applications modules).Finite) (p : Progress) :
    (pending modules p).Finite := hfinite.subset (Set.sep_subset _ _)

theorem pending_note {p : Progress} {s : Specialization} (hs : Reached modules s) :
    pending modules (p.note s) = pending modules p \ {s} := by
  ext other
  rw [pending, pending, Set.mem_sdiff_singleton, Set.mem_sep_iff, Set.mem_sep_iff]
  constructor
  · rintro ⟨hother, hnew⟩
    rw [noted_note_iff hs hother.1, not_or] at hnew
    exact ⟨⟨hother, hnew.2⟩, hnew.1⟩
  · rintro ⟨⟨hother, hnew⟩, hne⟩
    rw [noted_note_iff hs hother.1, not_or]
    exact ⟨hother, hne, hnew⟩

/-! ## Two measures -/

/-- With a limit, the calls last as long as the depth stays below it. -/
theorem upholds_depth {limit : Nat} (hlimit : limits.nesting = some limit) :
    Upholds limits modules (fun _ s ↦ s ∈ applications modules)
      (fun calls depth _ ↦ limit ≤ depth + calls) (¬Unfinished ·) where
  fails := fun _ he ↦ he.not_unfinished
  generic := fun _ _ hs ↦ hs.2
  asks := fun _ _ hs _ hinner ↦ applications_of_mem_demands hs.1 hinner
  runsOut := by
    intro depth s _ p hdepth _ hnesting
    exact absurd (checkNesting_eq_ok_iff.mp hnesting limit hlimit) (Nat.not_lt.mpr hdepth)
  note := by
    intro calls depth s _ p hdepth _ _ _
    omega
  insert := by
    intro calls depth s _ p body hdepth _
    omega

/-- The calls last as long as there are no more applications that have not been noted. -/
theorem upholds_pending (hfinite : (applications modules).Finite) :
    Upholds limits modules (fun _ s ↦ s ∈ applications modules)
      (fun calls _ p ↦ (pending modules p).ncard ≤ calls) (¬Unfinished ·) where
  fails := fun _ he ↦ he.not_unfinished
  generic := fun _ _ hs ↦ hs.2
  asks := fun _ _ hs _ hinner ↦ applications_of_mem_demands hs.1 hinner
  runsOut := by
    intro depth s hs p hcalls hnew _
    have hmem : s ∈ pending modules p := ⟨hs, hnew⟩
    rw [Nat.le_zero, Set.ncard_eq_zero (finite_pending hfinite p)] at hcalls
    rw [hcalls] at hmem
    exact absurd hmem (Set.notMem_empty s)
  note := by
    intro calls depth s hs p hcalls hnew _ _
    have hmem : s ∈ pending modules p := ⟨hs, hnew⟩
    have hcard := Set.ncard_sdiff_singleton_add_one hmem (finite_pending hfinite p)
    rw [pending_note hs.1]
    omega
  insert := fun _ _ _ _ _ _ hcalls _ ↦ Nat.le_succ_of_le hcalls

theorem returns_of_nesting {limit : Nat} (hlimit : limits.nesting = some limit)
    (modules : List Module) : Returns limits modules (graphIn limit limits modules) := by
  refine returns_of_declareAll fun hmodules ↦
    (upholds_depth hlimit).declareAll hmodules ?_ (fun _ _ _ _ _ hp _ ↦ hp) ?_
  · exact fun s hs _ inner hinner ↦ applications_of_mem_demands hs hinner
  · exact Nat.le_add_left limit 0

theorem returns_of_finite (limits : Limits) (hfinite : (applications modules).Finite) :
    Returns limits modules (graphIn (applications modules).ncard limits modules) := by
  refine returns_of_declareAll fun hmodules ↦
    (upholds_pending hfinite).declareAll hmodules ?_ (fun _ _ _ _ _ hp _ ↦ hp) ?_
  · exact fun s hs _ inner hinner ↦ applications_of_mem_demands hs hinner
  · exact Set.ncard_le_ncard (Set.sep_subset _ _) hfinite

/-! ## Once for each application -/

/-- The table has applications that come up, and none of them twice. -/
structure NotedOnce (modules : List Module) (p : Progress) : Prop where
  faithful : Faithful modules p
  nodup : (p.instances.map Prod.fst).Nodup

theorem NotedOnce.note {p : Progress} {s : Specialization} (hp : NotedOnce modules p)
    (hs : s ∈ applications modules) (hnew : ¬Noted p s) : NotedOnce modules (p.note s) := by
  refine ⟨hp.faithful.note hs.1 hs.2, List.nodup_cons.mpr ⟨?_, hp.nodup⟩⟩
  intro hmem
  obtain ⟨made, hmade, happlication⟩ := List.mem_map.mp hmem
  obtain ⟨other, hother, -, rfl⟩ := hp.faithful.instances made hmade
  -- one and the same application has been noted with its key
  obtain rfl : other = s := hother.eq_of_application hs.1 happlication
  exact hnew hmade

theorem NotedOnce.insert {p : Progress} {s : Specialization} {body : Ty} (hp : NotedOnce modules p)
    (hs : Reached modules s) (hbody : s.type? modules = some body) :
    NotedOnce modules (p.insert s.key body) := ⟨hp.faithful.insert hs hbody, hp.nodup⟩

theorem upholds_notedOnce : Upholds limits modules (fun _ s ↦ s ∈ applications modules)
    (fun _ _ p ↦ NotedOnce modules p) (fun _ ↦ True) where
  fails := fun _ _ ↦ trivial
  generic := fun _ _ hs ↦ hs.2
  asks := fun _ _ hs _ hinner ↦ applications_of_mem_demands hs.1 hinner
  runsOut := fun _ _ _ _ _ _ _ ↦ trivial
  note := fun _ _ _ hs _ hp hnew _ _ ↦ hp.note hs hnew
  insert := fun _ _ _ hs _ _ hp hbody ↦ hp.insert hs.1 hbody

theorem notedOnce_of_run {calls : Nat} {done : Progress} (hmodules : Distinct modules)
    (h : (declareAll modules (instantiateAt modules limits calls 0)).run .initial
      = .ok ((), done)) : NotedOnce modules done := by
  have hends : EndsFrom .initial (declareAll modules (instantiateAt modules limits calls 0))
      (fun _ q ↦ NotedOnce modules q) (fun _ ↦ True) := by
    refine upholds_notedOnce.declareAll hmodules ?_ (fun _ hs _ _ _ hp hbody ↦ hp.insert hs hbody)
      ⟨faithful_initial modules, List.nodup_nil⟩
    exact fun s hs _ inner hinner ↦ applications_of_mem_demands hs hinner
  exact hends.good_of_eq h

/-- **Expansions come to an end.** With a limit on nesting an expansion returns, whatever the limit
on size. Under any limits it returns if finitely many applications come up, and as many calls are
enough. Of the applications that come up, none is expanded twice. -/
theorem expansion_returns (limits : Limits) (modules : List Module) :
    (limits.nesting ≠ none → Returns limits modules (graph limits modules)) ∧
    ((applications modules).Finite →
      Returns limits modules (graphIn (applications modules).ncard limits modules)) ∧
    ∀ calls done, checkNames [] modules = .ok () →
      (declareAll modules (instantiateAt modules limits calls 0)).run .initial = .ok ((), done) →
      (done.instances.map Prod.fst).Nodup ∧
        ∀ made ∈ done.instances, ∃ s ∈ applications modules, made.1 = s.application := by
  refine ⟨fun hnesting ↦ ?_, returns_of_finite limits, fun calls done hnames hrun ↦ ?_⟩
  · obtain ⟨limit, hlimit⟩ := Option.ne_none_iff_exists'.mp hnesting
    have hgraph : graph limits modules = graphIn limit limits modules := by
      refine graph_eq_graphIn ?_ fun hnone ↦ absurd hnone hnesting
      rw [hlimit, Option.getD_some]
    rw [hgraph]
    exact returns_of_nesting hlimit modules
  · obtain ⟨hfaithful, hnodup⟩ := notedOnce_of_run ((checkNames_iff modules).mp hnames) hrun
    refine ⟨hnodup, fun made hmade ↦ ?_⟩
    obtain ⟨s, hs, hgeneric, rfl⟩ := hfaithful.instances made hmade
    exact ⟨s, ⟨hs, hgeneric⟩, rfl⟩

/-! ### Trees and forests -/

/-- A tree has a root and branches. -/
def treeDecl : Decl :=
  ⟨"Tree", ["t"], .record [("root", .ref (.builtin "t") []),
    ("branches", .ref (.builtin "Forest") [.ref (.builtin "t") []])]⟩

/-- A forest is nothing, or a tree and the rest of it. -/
def forestDecl : Decl :=
  ⟨"Forest", ["t"], .choice [("none", .none),
    ("some", .record [("first", .ref (.builtin "Tree") [.ref (.builtin "t") []]),
      ("rest", .ref (.builtin "Forest") [.ref (.builtin "t") []])])]⟩

/-- A plain name for trees of integers. -/
def numbersDecl : Decl := ⟨"Numbers", [], .ref (.builtin "Tree") [.integer]⟩

/-- Trees and forests of each other, and a forest of itself. -/
def woods : List Module := [⟨"M", [treeDecl, forestDecl, numbersDecl]⟩]

/-- The graph of trees and forests: the entries refer to each other. -/
def woodsGraph : Graph :=
  let tree := Key.qualified "M" "Tree(Integer)"
  let forest := Key.qualified "M" "Forest(Integer)"
  let some := Ty.record [("first", .ref tree), ("rest", .ref forest)]
  ((Graph.builtins.insert forest (.choice [("none", .none), ("some", some)])).insert
    tree (.record [("root", .integer), ("branches", .ref forest)])).insert
    (.qualified "M" "Numbers") (.ref tree)

/-- Of trees and forests there are those of integers alone. -/
theorem finite_applications_woods : (applications woods).Finite := by
  let tree : Specialization := ⟨"M", treeDecl, [.integer]⟩
  let forest : Specialization := ⟨"M", forestDecl, [.integer]⟩
  have hreached (s : Specialization) (hs : Reached woods s) :
      s = ⟨"M", numbersDecl, []⟩ ∨ s = tree ∨ s = forest := by
    induction hs with
    | declared hdecl hplain =>
      obtain ⟨module, hmodule, rfl, hmem⟩ := mem_of_decl? hdecl
      obtain rfl := List.mem_singleton.mp hmodule
      simp only [List.mem_cons, List.not_mem_nil, or_false] at hmem
      rcases hmem with rfl | rfl | rfl
      · cases hplain
      · cases hplain
      · exact .inl rfl
    | applied _ hinner ih =>
      rcases ih with rfl | rfl | rfl
      · exact .inr (.inl (List.mem_singleton.mp hinner))
      · exact .inr (.inr (List.mem_singleton.mp hinner))
      · have hboth : _ ∈ [tree, forest] := hinner
        exact .inr (by simpa using hboth)
  refine (Set.toFinite {tree, forest}).subset fun s hs ↦ ?_
  rcases hreached s hs.1 with rfl | hs
  · cases hs.2
  · exact hs

theorem expansion_returns_woods :
    (applications woods).Finite ∧ Returns ⟨none, none⟩ woods (.ok woodsGraph) ∧
    Returns ⟨some 2, none⟩ woods (.ok woodsGraph) := by
  have hfinite := finite_applications_woods
  obtain ⟨-, hfree, -⟩ := expansion_returns ⟨none, none⟩ woods
  obtain ⟨hlimited, -, -⟩ := expansion_returns ⟨some 2, none⟩ woods
  have hwoods : Returns ⟨none, none⟩ woods (.ok woodsGraph) := by
    refine ⟨⟨2, rfl⟩, ?_⟩
    rintro _ ⟨⟩
  have hgraph : graph ⟨some 2, none⟩ woods = .ok woodsGraph := rfl
  refine ⟨hfinite, (hfree hfinite).unique hwoods ▸ hfree hfinite, ?_⟩
  rw [← hgraph]
  exact hlimited (by decide)

end

end Expansion

end SchemaCodec
