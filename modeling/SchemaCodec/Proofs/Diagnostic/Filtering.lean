import Mathlib.Logic.Relation
import SchemaCodec.Proofs.Syntax.Acceptance

/-!
# Filtering hides what is explained

Filtering leaves out diagnostics, and of those that it leaves out each goes back to one that is
shown, by one diagnostic explaining the next. The shown ones do not explain each other. So a list
with a diagnostic in it shows one, and a text that is refused comes with a reason.

## What hides what

A diagnostic that is hidden may have hidden others before its own turn to be hidden, and then these
stay hidden. Explaining is no order either: it is not transitive, and two diagnostics can explain
each other. What decides is the order of the turns. `hiders` collects those that are not hidden when
their turn comes, the latest first, and filtering keeps what none of them explains.

## Why someone is left

A hider is never explained by an earlier one, or it would not have got its turn. So the latest of
them is shown, and what is explained among them is explained by a later one: going back from hider
to hider ends.
-/

namespace SchemaCodec

namespace Diagnostic

variable {ds heard : List Diagnostic} {a b : Diagnostic}

/-! ## Explaining -/

theorem dominates_iff :
    a.dominates b = true ↔
      (a.suppression.start < b.range.start ∧ b.range.stop ≤ a.suppression.stop ∧
        a.kind.outranks b.kind = true) ∨
      a.range.start = b.range.start ∧
        (a.kind.isRootCause = true ∧ b.kind.isStructural = true ∨
          ¬(a.kind.isStructural = true ∧ b.kind.isRootCause = true) ∧
            a.kind.outranks b.kind = true) := by
  simp only [dominates, Span.strictlyContains, Bool.or_eq_true, Bool.and_eq_true,
    decide_eq_true_iff, Bool.not_eq_true', ← Bool.not_eq_true, and_assoc]

/-- No diagnostic explains itself, nor another one that is equal to it. -/
theorem dominates_self (a : Diagnostic) : a.dominates a = false := by
  have hrank : a.kind.outranks a.kind = false := by simp [DiagnosticKind.outranks]
  have hrole : ¬(a.kind.isRootCause = true ∧ a.kind.isStructural = true) := by
    cases a.kind <;> decide
  rw [← Bool.not_eq_true, dominates_iff, hrank]
  simp [hrole]

/-- One diagnostic of a list explains another one of it. -/
def ExplainsIn (ds : List Diagnostic) (a b : Diagnostic) : Prop :=
  a ∈ ds ∧ b ∈ ds ∧ a.dominates b = true

/-! ## The hiders -/

/-- Those that hide others, the latest first: of `ds` those that no earlier one explains, on top of
those that were heard before. -/
def hiders (heard : List Diagnostic) : List Diagnostic → List Diagnostic
  | [] => heard
  | a :: ds => if heard.any (·.dominates a) then hiders heard ds else hiders (a :: heard) ds

/-- The diagnostics of a list, marked where one that was heard explains them. -/
def marked (heard ds : List Diagnostic) : List (Diagnostic × Bool) :=
  ds.map fun d ↦ (d, heard.any (·.dominates d))

/-- One turn: what is explained by the diagnostic whose turn it is gets marked as well. -/
theorem markFrom_marked {position : Nat} (h : ds[position]? = some a) :
    markFrom position a (marked heard ds) = marked (a :: heard) ds := by
  apply List.ext_getElem?
  intro j
  rw [markFrom, marked, marked, List.getElem?_mapIdx, List.getElem?_map, List.getElem?_map]
  cases hj : ds[j]? with
  | none => rfl
  | some b =>
    -- its own position is left out, and would not be marked anyway
    have hself : (j != position && a.dominates b) = a.dominates b := by
      by_cases hne : j = position
      · obtain rfl : b = a := Option.some_inj.mp (hj.symm.trans (hne ▸ h))
        rw [dominates_self, Bool.and_false]
      · rw [bne_iff_ne.mpr hne, Bool.true_and]
    simp only [Option.map_some, hself, List.any_cons, Bool.or_comm]

/-- All turns from a position on. -/
theorem hideFrom_marked (before rest heard : List Diagnostic) :
    hideFrom rest.length before.length (marked heard (before ++ rest))
      = marked (hiders heard rest) (before ++ rest) := by
  induction rest generalizing before heard with
  | nil => rfl
  | cons a rest ih =>
    have hat : (before ++ a :: rest)[before.length]? = some a := by simp
    have hturn : (marked heard (before ++ a :: rest))[before.length]?
        = some (a, heard.any (·.dominates a)) := by
      rw [marked, List.getElem?_map, hat, Option.map_some]
    have hnext : before ++ a :: rest = (before ++ [a]) ++ rest := by simp
    have hlength : before.length + 1 = (before ++ [a]).length := by simp
    rw [List.length_cons, hideFrom, hturn, hiders]
    cases hheard : heard.any (·.dominates a) with
    | true =>
      simp only [if_true]
      rw [hnext, hlength, ih]
    | false =>
      simp only [Bool.false_eq_true, if_false]
      rw [markFrom_marked hat, hnext, hlength, ih]

/-- Filtering keeps what no hider explains. -/
theorem filtered_eq (ds : List Diagnostic) :
    filtered ds = ds.filter fun d ↦ !(hiders [] ds).any (·.dominates d) := by
  have hrun := hideFrom_marked [] ds []
  rw [List.nil_append, List.length_nil] at hrun
  have hstart : (ds.map fun d ↦ (d, false)) = marked [] ds := rfl
  rw [filtered, hstart, hrun, marked, List.filter_map, List.map_map]
  exact List.map_id _

theorem mem_filtered :
    a ∈ filtered ds ↔ a ∈ ds ∧ ∀ c ∈ hiders [] ds, c.dominates a = false := by
  rw [filtered_eq, List.mem_filter, Bool.not_eq_true', List.any_eq_false]
  simp only [Bool.not_eq_true]

/-! ## What is heard -/

theorem mem_hiders_of_heard (ds : List Diagnostic) (h : a ∈ heard) : a ∈ hiders heard ds := by
  induction ds generalizing heard with
  | nil => exact h
  | cons d ds ih =>
    rw [hiders]
    split
    · exact ih h
    · exact ih (List.mem_cons_of_mem d h)

theorem mem_of_mem_hiders (h : a ∈ hiders heard ds) : a ∈ heard ∨ a ∈ ds := by
  induction ds generalizing heard with
  | nil => exact .inl h
  | cons d ds ih =>
    rw [hiders] at h
    split at h
    · exact (ih h).imp_right (List.mem_cons_of_mem d)
    · rcases ih h with hmem | hmem
      · exact (List.mem_cons.mp hmem).elim (fun heq ↦ .inr (heq ▸ List.mem_cons_self)) .inl
      · exact .inr (List.mem_cons_of_mem d hmem)

/-- What no hider explains is a hider. -/
theorem mem_hiders (hmem : a ∈ ds) (h : ∀ c ∈ hiders heard ds, c.dominates a = false) :
    a ∈ hiders heard ds := by
  induction ds generalizing heard with
  | nil => cases hmem
  | cons d ds ih =>
    rw [hiders] at h ⊢
    split at h
    · next hheard =>
      rw [if_pos hheard]
      rcases List.mem_cons.mp hmem with rfl | hmem
      · obtain ⟨c, hc, hexplains⟩ := List.any_eq_true.mp hheard
        exact absurd hexplains (by simp [h c (mem_hiders_of_heard ds hc)])
      · exact ih hmem h
    · next hheard =>
      rw [if_neg hheard]
      rcases List.mem_cons.mp hmem with rfl | hmem
      · exact mem_hiders_of_heard ds List.mem_cons_self
      · exact ih hmem h

/-- No hider is explained by an earlier one. -/
theorem pairwise_hiders (ds : List Diagnostic)
    (h : heard.Pairwise fun late early ↦ early.dominates late = false) :
    (hiders heard ds).Pairwise fun late early ↦ early.dominates late = false := by
  induction ds generalizing heard with
  | nil => exact h
  | cons d ds ih =>
    rw [hiders]
    split
    · exact ih h
    · next hheard =>
      rw [List.any_eq_true] at hheard
      refine ih (List.pairwise_cons.mpr ⟨fun c hc ↦ ?_, h⟩)
      rw [← Bool.not_eq_true]
      exact fun hexplains ↦ hheard ⟨c, hc, hexplains⟩

/-! ## Going back -/

/-- Among diagnostics none of which is explained by an earlier one, each goes back to one that none
of them explains. -/
theorem exists_unexplained {hs : List Diagnostic} (hsub : hs ⊆ ds)
    (h : hs.Pairwise fun late early ↦ early.dominates late = false) (hb : b ∈ hs) :
    ∃ a ∈ hs, (∀ c ∈ hs, c.dominates a = false) ∧ Relation.ReflTransGen (ExplainsIn ds) a b := by
  induction hs generalizing b with
  | nil => cases hb
  | cons late hs ih =>
    obtain ⟨hlate, hs'⟩ := List.pairwise_cons.mp h
    -- the latest is explained by none of them
    have htop : ∀ c ∈ late :: hs, c.dominates late = false :=
      List.forall_mem_cons.mpr ⟨dominates_self late, hlate⟩
    rcases List.mem_cons.mp hb with rfl | hb
    · exact ⟨b, List.mem_cons_self, htop, .refl⟩
    · obtain ⟨a, ha, hfree, hchain⟩ := ih (List.subset_of_cons_subset hsub) hs' hb
      cases hexplains : late.dominates a with
      | false =>
        exact ⟨a, List.mem_cons_of_mem _ ha, List.forall_mem_cons.mpr ⟨hexplains, hfree⟩, hchain⟩
      | true =>
        exact ⟨late, List.mem_cons_self, htop, .head
          ⟨hsub List.mem_cons_self, hsub (List.mem_cons_of_mem _ ha), hexplains⟩ hchain⟩

/-- What is hidden goes back to what is shown. -/
theorem exists_shown (hb : b ∈ ds) (hhidden : b ∉ filtered ds) :
    ∃ a ∈ filtered ds, Relation.TransGen (ExplainsIn ds) a b := by
  have hsub : hiders [] ds ⊆ ds := fun c hc ↦ (mem_of_mem_hiders hc).resolve_left (by simp)
  obtain ⟨c, hc, hexplains⟩ : ∃ c ∈ hiders [] ds, c.dominates b = true := by
    by_contra hnone
    refine hhidden (mem_filtered.mpr ⟨hb, fun c hc ↦ ?_⟩)
    rw [← Bool.not_eq_true]
    exact fun hexplains ↦ hnone ⟨c, hc, hexplains⟩
  obtain ⟨a, ha, hfree, hchain⟩ := exists_unexplained hsub (pairwise_hiders ds .nil) hc
  exact ⟨a, mem_filtered.mpr ⟨hsub ha, hfree⟩, .tail' hchain ⟨hsub hc, hb, hexplains⟩⟩

theorem filtered_ne_nil (h : ds ≠ []) : filtered ds ≠ [] := by
  obtain ⟨d, hd⟩ := List.exists_mem_of_ne_nil ds h
  by_cases hshown : d ∈ filtered ds
  · exact List.ne_nil_of_mem hshown
  · obtain ⟨a, ha, -⟩ := exists_shown hd hshown
    exact List.ne_nil_of_mem ha

/-- What is shown explains nothing else that is shown. -/
theorem not_dominates_of_mem (ha : a ∈ filtered ds) (hb : b ∈ filtered ds) :
    a.dominates b = false := by
  obtain ⟨hmem, hfree⟩ := mem_filtered.mp ha
  exact (mem_filtered.mp hb).2 a (mem_hiders hmem hfree)

theorem filtered_eq_self (h : ∀ a ∈ ds, ∀ b ∈ ds, a.dominates b = false) : filtered ds = ds := by
  rw [filtered_eq, List.filter_eq_self]
  intro b hb
  rw [Bool.not_eq_true', List.any_eq_false]
  intro c hc
  rw [h c ((mem_of_mem_hiders hc).resolve_left (by simp)) b hb]
  decide

end Diagnostic

namespace Syntax

/-- A text that is refused comes with a diagnostic. -/
theorem diagnostics_ne_nil {limits : Limits} {origin source name text : String}
    {ds : List Diagnostic} (h : readModule limits origin source = .error (.invalid name text ds)) :
    ds ≠ [] := by
  rw [readModule_eq] at h
  split at h
  · cases h
  · split at h
    · next herrors =>
      cases h
      apply Diagnostic.filtered_ne_nil
      rintro hnil
      rw [hnil] at herrors
      cases herrors
    · cases h

end Syntax

namespace Diagnostic

/-- **Filtering.** Filtering keeps some of the diagnostics, in their order. What it leaves out goes
back to what it keeps, each diagnostic on the way explaining the next. It keeps one if there is one,
and none that another one kept explains, so that nothing changes when it is done again. A text that
is refused comes with a diagnostic. -/
theorem filtered_explains :
    (∀ ds : List Diagnostic,
      (∃ keep : Diagnostic → Bool, filtered ds = ds.filter keep ∧
        ∀ b ∈ ds, keep b = false →
          ∃ a ∈ filtered ds, Relation.TransGen (ExplainsIn ds) a b) ∧
      (ds ≠ [] → filtered ds ≠ []) ∧
      (∀ a ∈ filtered ds, ∀ b ∈ filtered ds, a.dominates b = false) ∧
      filtered (filtered ds) = filtered ds) ∧
    ∀ limits origin source name text ds,
      Syntax.readModule limits origin source = .error (.invalid name text ds) → ds ≠ [] := by
  refine ⟨fun ds ↦ ⟨⟨_, filtered_eq ds, fun b hb hdropped ↦ ?_⟩, filtered_ne_nil,
    fun a ha b hb ↦ not_dominates_of_mem ha hb,
    filtered_eq_self fun a ha b hb ↦ not_dominates_of_mem ha hb⟩,
    fun _ _ _ _ _ _ ↦ Syntax.diagnostics_ne_nil⟩
  refine exists_shown hb fun hshown ↦ ?_
  rw [filtered_eq, List.mem_filter, hdropped] at hshown
  exact absurd hshown.2 (by decide)

/-- A missing equals sign within an open delimiter. -/
def missingEquals : Diagnostic := { plain .expectedEquals ⟨5, 6⟩ none with suppression := ⟨5, 10⟩ }

/-- What does not belong behind it. -/
def strayToken : Diagnostic := plain .unexpectedToken ⟨7, 8⟩ none

/-- A missing header in front of both, which does not reach as far as the second. -/
def missingHeader : Diagnostic := plain .expectedModuleHeader ⟨0, 6⟩ none

/-- Something else, far behind. -/
def lateToken : Diagnostic := plain .unexpectedToken ⟨20, 21⟩ none

/-- The four of them in the order in which they arose. -/
def faults : List Diagnostic := [missingEquals, strayToken, missingHeader, lateToken]

/-- A text without a header that ends too early. -/
def unfinished : String := "A = Array("

/-- What explains the stray token is itself hidden after its turn, so the token goes back to the
missing header by way of it. -/
theorem filtered_explains_faults :
    filtered faults = [missingHeader, lateToken] ∧ filtered faults ≠ [] ∧
    missingHeader.dominates strayToken = false ∧
    Relation.TransGen (ExplainsIn faults) missingHeader strayToken ∧
    missingHeader.dominates lateToken = false ∧
    ∃ ds, Syntax.readModule .standard "text" unfinished = .error (.invalid "text" unfinished ds) ∧
      ds ≠ [] := by
  obtain ⟨hfilter, hread⟩ := filtered_explains
  obtain ⟨⟨keep, hkeep, hchain⟩, hne, hfree, -⟩ := hfilter faults
  have hshown : filtered faults = [missingHeader, lateToken] := by decide
  have hdropped : keep strayToken = false := by
    have hnot : strayToken ∉ faults.filter keep := by
      rw [← hkeep, hshown]
      decide
    rw [← Bool.not_eq_true]
    exact fun hkept ↦ hnot (List.mem_filter.mpr ⟨by decide, hkept⟩)
  have hback : Relation.TransGen (ExplainsIn faults) missingHeader strayToken := by
    obtain ⟨a, ha, hback⟩ := hchain strayToken (by decide) hdropped
    rw [hshown, List.mem_cons, List.mem_singleton] at ha
    obtain rfl | rfl := ha
    · exact hback
    · -- nothing begins with the late token, since it explains none of them
      obtain ⟨b, hfirst, -⟩ := Relation.TransGen.head'_iff.mp hback
      have hnone : ∀ b ∈ faults, lateToken.dominates b = false := by decide
      exact absurd hfirst.2.2 (by simp [hnone b hfirst.2.1])
  have hexcess : (Syntax.Parsed.run .standard unfinished).2.excess = none := by decide +kernel
  have herrors : (Syntax.Parsed.run .standard unfinished).2.reports.reverse.any isError = true := by
    decide +kernel
  have hrefused : Syntax.readModule .standard "text" unfinished = .error (.invalid "text" unfinished
      (filtered (Syntax.Parsed.run .standard unfinished).2.reports.reverse)) := by
    rw [Syntax.readModule_eq, hexcess]
    simp only [herrors, if_true]
  exact ⟨hshown, hne (by decide), by decide, hback,
    hfree missingHeader (by decide) lateToken (by decide), _, hrefused, hread _ _ _ _ _ _ hrefused⟩

end Diagnostic

end SchemaCodec
