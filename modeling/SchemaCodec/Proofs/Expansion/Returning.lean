import SchemaCodec.Proofs.Expansion.Graph

/-!
# When an expansion returns

An expansion counts how deep the applications that it is in are nested, and a limit is compared with
that depth. Nothing else bounds how far it goes: without a limit it may go on for ever. It is
followed here with a number of calls that are left, which has nothing to do with the limits. An
expansion returns a result if it has that result with some number of calls, and one that runs out of
calls has not returned.

The rounds of an expansion are both at once. With a limit they are what the depth leaves of the
limit, and without one they are the calls.

## What limits and calls can change

Two expansions that differ in the calls and in the limits alone go through the same steps until one
of them is stopped. What an expansion that is not stopped returns is therefore returned with more
calls and under looser limits as well, to the last entry or the last word of the failure.
-/

namespace SchemaCodec

namespace Expansion

/-! ## Depth and calls -/

/-- Refuses an application at a depth that the limit on nesting does not allow. -/
def checkNesting (limits : Limits) (origin : Key) (depth : Nat) : Except ExpansionError Unit :=
  match limits.nesting with
  | none => .ok ()
  | some limit =>
    if limit ≤ depth then .error (.instantiationLimitExceeded origin limit) else .ok ()

/-- Expands an application at a depth, with a number of calls left for it. -/
def instantiateAt (modules : List Module) (limits : Limits) : (calls depth : Nat) → Apply
  | calls, depth, module, decl, args => do
    let origin := Key.qualified module decl.name
    let key := instanceKey module decl args
    if (← get).instances.any fun made ↦ made.2 = key && made.1 = (origin, args) then
      return .ref key
    else
      checkNesting limits origin depth
      match calls with
      | 0 => throw (.unfinished origin)
      | calls + 1 => do
        checkSize limits origin args
        modify fun p ↦ { p with instances := ((origin, args), key) :: p.instances }
        let body ←
          expr modules (instantiateAt modules limits calls (depth + 1)) (.of module decl args)
            decl.body
        modify fun p ↦ { p with graph := p.graph.insert key body }
        return .ref key

/-- The graph of a schema, if applications are expanded in a certain way. -/
def graphBy (apply : Apply) (modules : List Module) : Except ExpansionError Graph := do
  checkNames [] modules
  let (_, done) ← (declareAll modules apply).run .initial
  checkAliases done.graph
  return done.graph

/-- The graph of a schema, with a number of calls for each application that a plain declaration
makes. -/
def graphIn (calls : Nat) (limits : Limits) (modules : List Module) : Except ExpansionError Graph :=
  graphBy (instantiateAt modules limits calls 0) modules

/-- The failure of an expansion that has run out of calls. -/
def Unfinished : ExpansionError → Prop
  | .unfinished .. => True
  | _ => False

/-- With enough calls an expansion comes to an end, and this is its result. -/
def Returns (limits : Limits) (modules : List Module) (result : Except ExpansionError Graph) :
    Prop :=
  (∃ calls, graphIn calls limits modules = result) ∧ ∀ e, result = .error e → ¬Unfinished e

/-! ## The checks -/

section

variable {limits : Limits} {modules : List Module}

theorem checkNesting_eq_ok_iff {origin : Key} {depth : Nat} :
    checkNesting limits origin depth = .ok () ↔ ∀ limit ∈ limits.nesting, depth < limit := by
  rw [checkNesting]
  cases limits.nesting with
  | none => simp
  | some limit => simp

theorem checkSize_eq_ok_iff {origin : Key} {args : List Ty} :
    checkSize limits origin args = .ok () ↔
      ∀ limit ∈ limits.size, (args.map Ty.size).sum ≤ limit := by
  rw [checkSize, List.sum_eq_foldr, List.foldr_map]
  cases limits.size with
  | none => simp
  | some limit => simp

theorem eq_of_checkNesting {origin : Key} {depth : Nat} {e : ExpansionError}
    (h : checkNesting limits origin depth = .error e) :
    ∃ limit, e = .instantiationLimitExceeded origin limit := by
  rw [checkNesting] at h
  split at h
  · cases h
  · next limit _ =>
    split at h
    · exact ⟨limit, (Except.error.inj h).symm⟩
    · cases h

theorem eq_of_checkSize {origin : Key} {args : List Ty} {e : ExpansionError}
    (h : checkSize limits origin args = .error e) :
    ∃ size limit, e = .instantiationTooLarge origin size limit := by
  rw [checkSize] at h
  split at h
  · cases h
  · next limit _ =>
    dsimp only at h
    split at h
    · exact ⟨_, limit, (Except.error.inj h).symm⟩
    · cases h

theorem eq_of_checkAliases {graph : Graph} {e : ExpansionError}
    (h : checkAliases graph = .error e) : ∃ key, e = .aliasCycle key := by
  rw [checkAliases] at h
  split at h
  · exact ⟨_, (Except.error.inj h).symm⟩
  · cases h

/-! ## Rounds -/

theorem graphWithin_eq (rounds : Nat) :
    graphWithin rounds limits modules = graphBy (instantiate modules limits rounds) modules := rfl

theorem checkNesting_self {limit : Nat} (hlimit : limits.nesting = some limit) (origin : Key) :
    checkNesting limits origin limit = .error (.instantiationLimitExceeded origin limit) := by
  rw [checkNesting, hlimit]
  exact if_pos (Nat.le_refl limit)

theorem checkNesting_of_none (h : limits.nesting = none) (origin : Key) (depth : Nat) :
    checkNesting limits origin depth = .ok () := by
  rw [checkNesting, h]

/-- With a limit the rounds are what the depth leaves of it, if there are calls for as many. -/
theorem instantiateAt_eq_of_some {limit : Nat} (hlimit : limits.nesting = some limit) (rounds : Nat)
    {calls depth : Nat} (hdepth : depth + rounds = limit) (hcalls : rounds ≤ calls) :
    instantiateAt modules limits calls depth = instantiate modules limits rounds := by
  induction rounds generalizing calls depth with
  | zero =>
    obtain rfl : limit = depth := hdepth.symm
    funext module decl args
    -- the limit is met before the calls are looked at
    rcases calls with _ | calls <;>
      rw [instantiateAt, instantiate, checkNesting_self hlimit, noRoundLeft, hlimit] <;> rfl
  | succ rounds ih =>
    obtain ⟨calls, rfl⟩ : ∃ more, calls = more + 1 := ⟨calls - 1, by omega⟩
    have hbelow : instantiateAt modules limits calls (depth + 1)
        = instantiate modules limits rounds := ih (by omega) (Nat.le_of_succ_le_succ hcalls)
    funext module decl args
    have hpasses : checkNesting limits (.qualified module decl.name) depth = .ok () := by
      rw [checkNesting_eq_ok_iff, hlimit]
      rintro _ ⟨⟩
      omega
    rw [instantiateAt, instantiate, hpasses, hbelow]
    rfl

/-- Without a limit the rounds are the calls, and the depth does not matter. -/
theorem instantiateAt_eq_of_none (h : limits.nesting = none) (calls depth : Nat) :
    instantiateAt modules limits calls depth = instantiate modules limits calls := by
  induction calls generalizing depth with
  | zero =>
    funext module decl args
    rw [instantiateAt, instantiate, checkNesting_of_none h, noRoundLeft, h]
    rfl
  | succ calls ih =>
    funext module decl args
    rw [instantiateAt, instantiate, checkNesting_of_none h, ih]
    rfl

/-- The rounds of an expansion are its calls from the outside on. -/
theorem instantiateAt_eq {calls : Nat} (h : limits.nesting.getD calls ≤ calls) :
    instantiateAt modules limits calls 0
      = instantiate modules limits (limits.nesting.getD calls) := by
  cases hlimit : limits.nesting with
  | none => rw [instantiateAt_eq_of_none hlimit, Option.getD_none]
  | some limit =>
    rw [hlimit, Option.getD_some] at h
    rw [instantiateAt_eq_of_some hlimit limit (Nat.zero_add limit) h, Option.getD_some]

theorem graphIn_eq {calls : Nat} (h : limits.nesting.getD calls ≤ calls) :
    graphIn calls limits modules = graphWithin (limits.nesting.getD calls) limits modules := by
  rw [graphIn, graphWithin_eq, instantiateAt_eq h]

end

/-! ## Two expansions side by side -/

/-- The first of two computations is stopped, or the second is the same. -/
inductive Gates (stop : ExpansionError → Prop) {α : Type} :
    Except ExpansionError α → Except ExpansionError α → Prop
  | same (x : Except ExpansionError α) : Gates stop x x
  | stopped {e : ExpansionError} (h : stop e) (y : Except ExpansionError α) :
    Gates stop (.error e) y

/-- From any progress, the first of two steps is stopped, or the second does the same. -/
def GatesFrom (stop : ExpansionError → Prop) {α : Type} (x y : Expand α) : Prop :=
  ∀ p, Gates stop (x p) (y p)

section

variable {α β : Type} {stop : ExpansionError → Prop}

theorem Gates.eq {x y : Except ExpansionError α} (h : Gates stop x y)
    (hx : ∀ e, x = .error e → ¬stop e) : x = y := by
  cases h with
  | same => rfl
  | stopped hstop => exact absurd hstop (hx _ rfl)

theorem Gates.bind {x y : Except ExpansionError β} {k l : β → Except ExpansionError α}
    (h : Gates stop x y) (hk : ∀ b, Gates stop (k b) (l b)) :
    Gates stop (x >>= k) (y >>= l) := by
  cases h with
  | same =>
    cases x with
    | error e => exact .same _
    | ok b => exact hk b
  | stopped hstop => exact .stopped hstop _

/-- A check that can only stop a computation, and that passes where a stricter one does. -/
theorem Gates.of_ok {x y : Except ExpansionError Unit} (hstop : ∀ e, x = .error e → stop e)
    (hok : x = .ok () → y = .ok ()) : Gates stop x y := by
  cases x with
  | error e => exact .stopped (hstop e rfl) y
  | ok u =>
    rw [hok rfl]
    exact .same _

namespace GatesFrom

theorem refl (x : Expand α) : GatesFrom stop x x := fun _ ↦ .same _

theorem throw {e : ExpansionError} (h : stop e) (y : Expand α) :
    GatesFrom stop (MonadExcept.throw e) y := fun _ ↦ .stopped h _

theorem bind {x y : Expand β} {k l : β → Expand α} (h : GatesFrom stop x y)
    (hk : ∀ b, GatesFrom stop (k b) (l b)) : GatesFrom stop (x >>= k) (y >>= l) :=
  fun p ↦ (h p).bind fun r ↦ hk r.1 r.2

/-- A check comes before, on either side. -/
theorem check {x y : Except ExpansionError β} {k l : β → Expand α} (h : Gates stop x y)
    (hk : ∀ b, GatesFrom stop (k b) (l b)) : GatesFrom stop (liftM x >>= k) (liftM y >>= l) := by
  refine GatesFrom.bind (fun p ↦ ?_) hk
  cases h with
  | same => exact .same _
  | stopped hstop => exact .stopped hstop _

end GatesFrom

/-! ### Bodies -/

variable {modules : List Module} {apply apply' : Apply}

/-- Whatever is applied to whatever, the first way to expand it gates the second. -/
def GatesApply (stop : ExpansionError → Prop) (apply apply' : Apply) : Prop :=
  ∀ module decl args, GatesFrom stop (apply module decl args) (apply' module decl args)

mutual

/-- Expressions gate what their applications gate, by induction on the expression. -/
theorem expr_gates (h : GatesApply stop apply apply') (scope : Scope) : (e : TypeExpr) →
    GatesFrom stop (expr modules apply scope e) (expr modules apply' scope e)
  | .none | .boolean | .integer | .float | .string | .bytes => by
    rw [expr, expr]
    exact .refl _
  | .array element => by
    rw [expr, expr]
    exact (expr_gates h scope element).bind fun _ ↦ .refl _
  | .record [] | .choice [] => by
    rw [expr, expr]
    exact .refl _
  | .record (field :: fields) => by
    rw [expr, expr]
    exact (entries_gates h scope [] (field :: fields)).bind fun _ ↦ .refl _
  | .choice (variant :: variants) => by
    rw [expr, expr]
    exact (entries_gates h scope [] (variant :: variants)).bind fun _ ↦ .refl _
  | .ref target args => by
    have hargs := arguments_gates h scope args
    rw [expr, expr]
    refine (GatesFrom.refl _).bind fun means ↦ ?_
    cases means with
    | param ty => exact .refl _
    | builtin b => exact (GatesFrom.refl _).bind fun _ ↦ hargs.bind fun _ ↦ .refl _
    | decl module decl =>
      refine (GatesFrom.refl _).bind fun _ ↦ ?_
      by_cases hgeneric : decl.isGeneric = true
      · rw [if_pos hgeneric, if_pos hgeneric]
        exact hargs.bind fun types ↦ h module decl types
      · rw [if_neg hgeneric, if_neg hgeneric]
        exact .refl _

theorem entries_gates (h : GatesApply stop apply apply') (scope : Scope)
    (done : List (String × Ty)) : (members : List (String × TypeExpr)) →
    GatesFrom stop (entries modules apply scope done members)
      (entries modules apply' scope done members)
  | [] => by
    rw [entries, entries]
    exact .refl _
  | (name, body) :: rest => by
    rw [entries, entries]
    split
    · exact .refl _
    · exact (expr_gates h scope body).bind fun ty ↦ entries_gates h scope ((name, ty) :: done) rest

theorem arguments_gates (h : GatesApply stop apply apply') (scope : Scope) :
    (args : List TypeExpr) →
    GatesFrom stop (arguments modules apply scope args) (arguments modules apply' scope args)
  | [] => by
    rw [arguments, arguments]
    exact .refl _
  | arg :: rest => by
    rw [arguments, arguments]
    exact (expr_gates h scope arg).bind fun _ ↦ (arguments_gates h scope rest).bind fun _ ↦ .refl _

end

/-! ### Applications and schemas -/

/-- What the limits of two expansions must be like for the first to gate the second. -/
structure Limits.Gating (stop : ExpansionError → Prop) (limits limits' : Limits) : Prop where
  nesting : ∀ origin depth,
    Gates stop (checkNesting limits origin depth) (checkNesting limits' origin depth)
  size : ∀ origin args, Gates stop (checkSize limits origin args) (checkSize limits' origin args)
  calls : ∀ origin, stop (.unfinished origin)

variable {limits limits' : Limits}

/-- Both expansions of an application look it up, check it and note it in the same way. So they go
on together into the body, with as many calls left as before, less one. -/
theorem instantiateAt_gates (h : limits.Gating stop limits') {calls calls' : Nat}
    (hcalls : calls ≤ calls') (depth : Nat) :
    GatesApply stop (instantiateAt modules limits calls depth)
      (instantiateAt modules limits' calls' depth) := by
  induction calls generalizing calls' depth with
  | zero =>
    intro module decl args
    rw [instantiateAt, instantiateAt.eq_def modules limits' calls']
    refine (GatesFrom.refl _).bind fun p ↦ ?_
    split
    · exact .refl _
    · exact .check (h.nesting _ depth) fun _ ↦ .throw (h.calls _) _
  | succ calls ih =>
    obtain ⟨calls', rfl⟩ : ∃ more, calls' = more + 1 := ⟨calls' - 1, by omega⟩
    have happly := ih (Nat.le_of_succ_le_succ hcalls) (depth + 1)
    intro module decl args
    rw [instantiateAt, instantiateAt]
    refine (GatesFrom.refl _).bind fun p ↦ ?_
    split
    · exact .refl _
    · refine .check (h.nesting _ depth) fun _ ↦ .check (h.size _ args) fun _ ↦ ?_
      refine (GatesFrom.refl _).bind fun _ ↦ ?_
      exact (expr_gates happly _ decl.body).bind fun _ ↦ .refl _

theorem forM_gates {step step' : α → Expand PUnit} (h : ∀ a, GatesFrom stop (step a) (step' a))
    (items : List α) : GatesFrom stop (items.forM step) (items.forM step') := by
  induction items with
  | nil => exact .refl _
  | cons a rest ih => exact (h a).bind fun _ ↦ ih

theorem declare_gates (h : GatesApply stop apply apply') (module : String) (decl : Decl) :
    GatesFrom stop (declare modules apply module decl) (declare modules apply' module decl) :=
  (expr_gates h (.of module decl []) decl.body).bind fun _ ↦ .refl _

theorem declareAll_gates (h : GatesApply stop apply apply') :
    GatesFrom stop (declareAll modules apply) (declareAll modules apply') := by
  rw [declareAll, declareAll]
  refine forM_gates (fun module ↦ ?_) modules
  exact forM_gates (declare_gates h module.name) _

theorem graphBy_gates (h : GatesApply stop apply apply') :
    Gates stop (graphBy apply modules) (graphBy apply' modules) := by
  have hall : GatesFrom stop (declareAll modules apply) (declareAll modules apply') :=
    declareAll_gates h
  exact (Gates.same _).bind fun _ ↦ (hall .initial).bind fun _ ↦ .same _

theorem graphIn_gates (h : limits.Gating stop limits') {calls calls' : Nat}
    (hcalls : calls ≤ calls') :
    Gates stop (graphIn calls limits modules) (graphIn calls' limits' modules) :=
  graphBy_gates (instantiateAt_gates h hcalls 0)

end

/-! ## More calls -/

theorem Limits.gating_self (limits : Limits) : limits.Gating Unfinished limits :=
  ⟨fun _ _ ↦ .same _, fun _ _ ↦ .same _, fun _ ↦ trivial⟩

namespace Returns

variable {limits : Limits} {modules : List Module} {result other : Except ExpansionError Graph}

/-- What is returned is returned with any larger number of calls. -/
theorem eventually (h : Returns limits modules result) :
    ∃ calls, ∀ more, calls ≤ more → graphIn more limits modules = result := by
  obtain ⟨⟨calls, rfl⟩, hfinished⟩ := h
  refine ⟨calls, fun more hmore ↦ ?_⟩
  exact ((graphIn_gates limits.gating_self hmore).eq hfinished).symm

/-- An expansion returns one result at most. -/
theorem unique (h : Returns limits modules result) (hother : Returns limits modules other) :
    result = other := by
  obtain ⟨calls, hcalls⟩ := h.eventually
  obtain ⟨calls', hcalls'⟩ := hother.eventually
  rw [← hcalls (max calls calls') (Nat.le_max_left _ _),
    hcalls' (max calls calls') (Nat.le_max_right _ _)]

end Returns

/-! ## Looser limits -/

/-- Failures of an expansion that is stopped: by a limit, or because it may not go on. -/
def Stops : ExpansionError → Prop
  | .instantiationLimitExceeded .. | .instantiationTooLarge .. | .unfinished .. => True
  | _ => False

/-- Each of the second limits is there only if the first is, and is no smaller. -/
structure Limits.Loosened (limits limits' : Limits) : Prop where
  nesting : ∀ limit' ∈ limits'.nesting, ∃ limit ∈ limits.nesting, limit ≤ limit'
  size : ∀ limit' ∈ limits'.size, ∃ limit ∈ limits.size, limit ≤ limit'

section

variable {limits limits' : Limits} {modules : List Module}

theorem Limits.Loosened.gating (h : limits.Loosened limits') : limits.Gating Stops limits' := by
  refine ⟨fun origin depth ↦ ?_, fun origin args ↦ ?_, fun _ ↦ trivial⟩
  · refine .of_ok (fun e he ↦ ?_) fun hok ↦ ?_
    · obtain ⟨limit, rfl⟩ := eq_of_checkNesting he
      trivial
    · rw [checkNesting_eq_ok_iff] at hok ⊢
      intro limit' hlimit'
      obtain ⟨limit, hlimit, hle⟩ := h.nesting limit' hlimit'
      exact Nat.lt_of_lt_of_le (hok limit hlimit) hle
  · refine .of_ok (fun e he ↦ ?_) fun hok ↦ ?_
    · obtain ⟨size, limit, rfl⟩ := eq_of_checkSize he
      trivial
    · rw [checkSize_eq_ok_iff] at hok ⊢
      intro limit' hlimit'
      obtain ⟨limit, hlimit, hle⟩ := h.size limit' hlimit'
      exact Nat.le_trans (hok limit hlimit) hle

/-- The graph of a schema takes no more calls than rounds, and without a limit no fewer. -/
theorem graph_eq_graphIn {calls : Nat} (hcalls : limits.nesting.getD unlimitedRounds ≤ calls)
    (hnone : limits.nesting = none → calls = unlimitedRounds) :
    graph limits modules = graphIn calls limits modules := by
  have hrounds : limits.nesting.getD calls = limits.nesting.getD unlimitedRounds := by
    by_cases hlimit : limits.nesting = none
    · rw [hnone hlimit]
    · obtain ⟨limit, hlimit⟩ := Option.ne_none_iff_exists'.mp hlimit
      rw [hlimit, Option.getD_some, Option.getD_some]
  rw [graphIn_eq (hrounds.trans_le hcalls), hrounds, graph]

/-- Under looser limits there are no fewer rounds, if without a limit there are enough of them. -/
theorem Limits.Loosened.rounds_le (h : limits.Loosened limits')
    (hbound : ∀ limit ∈ limits.nesting, limit ≤ unlimitedRounds) :
    limits.nesting.getD unlimitedRounds ≤ limits'.nesting.getD unlimitedRounds := by
  by_cases hlimit' : limits'.nesting = none
  · rw [hlimit', Option.getD_none]
    cases hlimit : limits.nesting with
    | none => exact Nat.le_refl _
    | some limit => exact hbound limit hlimit
  · obtain ⟨limit', hlimit'⟩ := Option.ne_none_iff_exists'.mp hlimit'
    obtain ⟨limit, hlimit, hle⟩ := h.nesting limit' hlimit'
    rw [hlimit', Option.mem_def.mp hlimit]
    exact hle

theorem Limits.Loosened.nesting_eq_none (h : limits.Loosened limits')
    (hnone : limits.nesting = none) : limits'.nesting = none := by
  refine Option.eq_none_iff_forall_not_mem.mpr fun limit' hlimit' ↦ ?_
  obtain ⟨limit, hlimit, -⟩ := h.nesting limit' hlimit'
  rw [hnone] at hlimit
  exact Option.not_mem_none limit hlimit

/-- **Limits only gate.** What is returned under some limits and is no failure of a limit is
returned under looser limits too: the same graph, with the same entries in the same order, or the
same failure. So it is for the rounds of an expansion, if these allow what the stricter limit on
nesting allows. -/
theorem limits_only_gate (h : limits.Loosened limits') (modules : List Module) :
    (∀ result, Returns limits modules result → (∀ e, result = .error e → ¬Stops e) →
      Returns limits' modules result) ∧
    ((∀ limit ∈ limits.nesting, limit ≤ unlimitedRounds) →
      (∀ e, graph limits modules = .error e → ¬Stops e) →
      graph limits' modules = graph limits modules) := by
  constructor
  · rintro result ⟨⟨calls, rfl⟩, hfinished⟩ hfree
    have heq := (graphIn_gates h.gating (Nat.le_refl calls)).eq hfree
    exact ⟨⟨calls, heq.symm⟩, hfinished⟩
  · intro hbound hfree
    -- the looser limits need the more calls, and these are enough for both
    let calls := limits'.nesting.getD unlimitedRounds
    have hcalls (hnone : limits'.nesting = none) : calls = unlimitedRounds :=
      congrArg (Option.getD · unlimitedRounds) hnone
    have hgraph' : graph limits' modules = graphIn calls limits' modules :=
      graph_eq_graphIn (Nat.le_refl calls) hcalls
    have hgraph : graph limits modules = graphIn calls limits modules :=
      graph_eq_graphIn (h.rounds_le hbound) fun hnone ↦ hcalls (h.nesting_eq_none hnone)
    rw [hgraph] at hfree ⊢
    rw [hgraph', (graphIn_gates h.gating (Nat.le_refl calls)).eq hfree]

/-- The lists need one application inside no other, to one argument. -/
theorem limits_only_gate_lists :
    Limits.Loosened ⟨some 1, some 1⟩ ⟨some 2, none⟩ ∧
    Returns ⟨some 1, some 1⟩ lists (.ok listsGraph) ∧
    Returns ⟨some 2, none⟩ lists (.ok listsGraph) ∧
    graph ⟨some 2, none⟩ lists = graph ⟨some 1, some 1⟩ lists := by
  have hloosened : Limits.Loosened ⟨some 1, some 1⟩ ⟨some 2, none⟩ := by
    constructor
    · rintro _ ⟨⟩
      exact ⟨1, rfl, by decide⟩
    · rintro _ ⟨⟩
  have hreturns : Returns ⟨some 1, some 1⟩ lists (.ok listsGraph) := by
    refine ⟨⟨1, rfl⟩, ?_⟩
    rintro _ ⟨⟩
  have hgraph : graph ⟨some 1, some 1⟩ lists = .ok listsGraph := rfl
  obtain ⟨hmore, hrounds⟩ := limits_only_gate hloosened lists
  refine ⟨hloosened, hreturns, hmore _ hreturns ?_, hrounds ?_ ?_⟩
  · rintro _ ⟨⟩
  · rintro _ ⟨⟩
    exact Nat.one_le_two_pow
  · intro e he
    rw [hgraph] at he
    cases he

end

end Expansion

end SchemaCodec
