import SchemaCodec.Expansion.Basic
import SchemaCodec.Proofs.Outcome

/-!
# Steps of an expansion

An expansion threads what has been expanded so far through steps that may fail. A statement about a
step says what holds of its result and of the progress after it, if it succeeds; the rules below
carry such statements through sequencing.
-/

namespace SchemaCodec.Expansion

variable {α β : Type}

/-- From a progress, a step that succeeds leads to a result and a progress of which `post` holds. -/
def Leads (x : Expand α) (p : Progress) (post : α → Progress → Prop) : Prop :=
  ∀ a q, x p = .ok (a, q) → post a q

namespace Leads

variable {p : Progress} {post : α → Progress → Prop}

theorem pure {a : α} (h : post a p) : Leads (Pure.pure a) p post := by
  rintro _ _ ⟨⟩
  exact h

theorem throw (e : ExpansionError) : Leads (MonadExcept.throw e) p post := by
  rintro _ _ ⟨⟩

theorem bind {x : Expand β} {mid : β → Progress → Prop} {k : β → Expand α} (hx : Leads x p mid)
    (hk : ∀ b q, mid b q → Leads (k b) q post) : Leads (x >>= k) p post := by
  intro a r h
  change (x p >>= fun s ↦ k s.1 s.2) = .ok (a, r) at h
  cases hstep : x p with
  | error e =>
    rw [hstep] at h
    cases h
  | ok s =>
    rw [hstep] at h
    exact hk s.1 s.2 (hx s.1 s.2 hstep) a r h

theorem imp {weaker : α → Progress → Prop} {x : Expand α} (hx : Leads x p post)
    (h : ∀ a q, post a q → weaker a q) : Leads x p weaker :=
  fun a q hrun ↦ h a q (hx a q hrun)

/-- A check changes nothing. -/
theorem lift {x : Except ExpansionError α} (h : ∀ a, x = .ok a → post a p) :
    Leads (liftM x) p post := by
  intro a q hrun
  cases x with
  | error e => cases hrun
  | ok b =>
    cases hrun
    exact h a rfl

theorem get {post : Progress → Progress → Prop} (h : post p p) : Leads MonadState.get p post := by
  rintro _ _ ⟨⟩
  exact h

theorem modify {post : PUnit → Progress → Prop} {f : Progress → Progress} (h : post ⟨⟩ (f p)) :
    Leads (modify f) p post := by
  rintro _ _ ⟨⟩
  exact h

end Leads

/-! ## Steps that may fail -/

/-- From a progress, a step ends in a good result and progress, or in a bad failure. -/
def EndsFrom (p : Progress) (x : Expand α) (good : α → Progress → Prop)
    (bad : ExpansionError → Prop) : Prop := Ends (fun r ↦ good r.1 r.2) bad (x p)

namespace EndsFrom

variable {p : Progress} {good : α → Progress → Prop} {bad : ExpansionError → Prop}

theorem pure {a : α} (h : good a p) : EndsFrom p (Pure.pure a) good bad := .ok h

theorem throw {e : ExpansionError} (h : bad e) :
    EndsFrom p (MonadExcept.throw e : Expand α) good bad := .error h

/-- What comes first may fail for reasons of its own. -/
theorem bind {x : Expand β} {k : β → Expand α} {mid : β → Progress → Prop}
    {own : ExpansionError → Prop} (hx : EndsFrom p x mid own) (hbad : ∀ e, own e → bad e)
    (hk : ∀ b q, mid b q → EndsFrom q (k b) good bad) : EndsFrom p (x >>= k) good bad :=
  (Ends.imp hx (fun _ h ↦ h) hbad).bind fun r _ hr ↦ hk r.1 r.2 hr

/-- A check comes before. -/
theorem check {x : Except ExpansionError β} {k : β → Expand α} (hbad : ∀ e, x = .error e → bad e)
    (hk : ∀ b, x = .ok b → EndsFrom p (k b) good bad) : EndsFrom p (liftM x >>= k) good bad := by
  cases x with
  | error e => exact .error (hbad e rfl)
  | ok b => exact hk b rfl

theorem get {k : Progress → Expand α} (hk : EndsFrom p (k p) good bad) :
    EndsFrom p (MonadState.get >>= k) good bad := hk

theorem modify {f : Progress → Progress} {k : PUnit → Expand α}
    (hk : EndsFrom (f p) (k ⟨⟩) good bad) : EndsFrom p (modify f >>= k) good bad := hk

end EndsFrom

end SchemaCodec.Expansion
