/-!
# Outcomes

A computation that may fail is described by what holds of its result and what holds of its failure.
Both are carried through sequencing and loops by the rules below, so that a fact about a traversal
is shown of its steps, and which of them failed never has to be found out.
-/

namespace SchemaCodec

variable {ε α β : Type}

/-- What comes second, after what came first has succeeded. -/
theorem bind_of_ok {x : Except ε α} {a : α} (h : x = .ok a) (k : α → Except ε β) :
    x >>= k = k a := by
  subst h
  rfl

/-- What comes second does not come to pass after a failure. -/
theorem bind_of_error {x : Except ε α} {e : ε} (h : x = .error e) (k : α → Except ε β) :
    x >>= k = .error e := by
  subst h
  rfl

theorem bind_ok {x : Except ε α} {k : α → Except ε β} {b : β} (h : x >>= k = .ok b) :
    ∃ a, x = .ok a ∧ k a = .ok b := by
  cases x with
  | error e => cases h
  | ok a => exact ⟨a, rfl, h⟩

theorem map_ok {x : Except ε α} {f : α → β} {b : β} (h : x.map f = .ok b) :
    ∃ a, x = .ok a ∧ b = f a := by
  cases x with
  | error e => cases h
  | ok a => exact ⟨a, rfl, (Except.ok.inj h).symm⟩

theorem map_error {x : Except ε α} {f : α → β} {e : ε} (h : x.map f = .error e) :
    x = .error e := by
  cases x with
  | error e' => exact congrArg Except.error (Except.error.inj h)
  | ok a => cases h

theorem mapError_ok {ε' : Type} {x : Except ε α} {f : ε → ε'} {a : α}
    (h : x.mapError f = .ok a) : x = .ok a := by
  cases x with
  | error e => cases h
  | ok b => exact congrArg Except.ok (Except.ok.inj h)

theorem mapM_of_ok {f : α → Except ε β} {g : α → β} {items : List α}
    (h : ∀ a ∈ items, f a = .ok (g a)) : items.mapM f = .ok (items.map g) := by
  induction items with
  | nil => rfl
  | cons a rest ih =>
    rw [List.mapM_cons, bind_of_ok (h a List.mem_cons_self),
      bind_of_ok (ih fun b hb ↦ h b (List.mem_cons_of_mem _ hb))]
    rfl

/-- A computation ends in a good result or in a bad failure. -/
inductive Ends (good : α → Prop) (bad : ε → Prop) : Except ε α → Prop where
  | ok {a : α} (h : good a) : Ends good bad (.ok a)
  | error {e : ε} (h : bad e) : Ends good bad (.error e)

namespace Ends

variable {good : α → Prop} {bad : ε → Prop} {x : Except ε α}

theorem of_forall (hgood : ∀ a, x = .ok a → good a) (hbad : ∀ e, x = .error e → bad e) :
    Ends good bad x := by
  cases x with
  | ok a => exact .ok (hgood a rfl)
  | error e => exact .error (hbad e rfl)

theorem good_of_eq {a : α} (h : Ends good bad x) (hx : x = .ok a) : good a := by
  subst hx
  cases h with
  | ok h => exact h

theorem bad_of_eq {e : ε} (h : Ends good bad x) (hx : x = .error e) : bad e := by
  subst hx
  cases h with
  | error h => exact h

theorem imp {better : α → Prop} {worse : ε → Prop} (h : Ends good bad x)
    (hgood : ∀ a, good a → better a) (hbad : ∀ e, bad e → worse e) : Ends better worse x := by
  cases h with
  | ok h => exact .ok (hgood _ h)
  | error h => exact .error (hbad _ h)

/-- What comes second may use that what came first succeeded, and with which result. -/
theorem bind {better : β → Prop} {k : α → Except ε β} (h : Ends good bad x)
    (hk : ∀ a, x = .ok a → good a → Ends better bad (k a)) : Ends better bad (x >>= k) := by
  cases h with
  | ok h => exact hk _ rfl h
  | error h => exact .error h

theorem map {better : β → Prop} {f : α → β} (h : Ends good bad x)
    (hf : ∀ a, good a → better (f a)) : Ends better bad (x.map f) := by
  cases h with
  | ok h => exact .ok (hf _ h)
  | error h => exact .error h

/-- A loop keeps what each of its steps keeps. -/
theorem foldlM (invariant : β → Prop) {items : List α} {step : β → α → Except ε β} {init : β}
    (hinit : invariant init)
    (hstep : ∀ b, invariant b → ∀ a ∈ items, Ends invariant bad (step b a)) :
    Ends invariant bad (items.foldlM step init) := by
  induction items generalizing init with
  | nil => exact .ok hinit
  | cons a rest ih =>
    rw [List.foldlM_cons]
    refine (hstep init hinit a List.mem_cons_self).bind fun b _ hb ↦ ?_
    exact ih hb fun b hb a ha ↦ hstep b hb a (List.mem_cons_of_mem _ ha)

/-- Items that are converted one by one, each to a result of its own. -/
theorem mapM [Inhabited β] {better : α → β → Prop} {items : List α} {f : α → Except ε β}
    (h : ∀ a ∈ items, Ends (better a) bad (f a)) :
    Ends (fun results ↦ ∃ g : α → β, results = items.map g ∧
      ∀ a ∈ items, f a = .ok (g a) ∧ better a (g a)) bad (items.mapM f) := by
  -- the results are told by the items alone, also where an item occurs twice
  let g (a : α) : β := (f a).toOption.getD default
  suffices hg : Ends (fun results ↦ results = items.map g ∧
      ∀ a ∈ items, f a = .ok (g a) ∧ better a (g a)) bad (items.mapM f) from
    hg.imp (fun results hresults ↦ ⟨g, hresults⟩) fun _ he ↦ he
  induction items with
  | nil => exact .ok ⟨rfl, fun _ ha ↦ absurd ha List.not_mem_nil⟩
  | cons a rest ih =>
    rw [List.mapM_cons]
    refine (h a List.mem_cons_self).bind fun b hb hbetter ↦ ?_
    refine (ih fun c hc ↦ h c (List.mem_cons_of_mem _ hc)).bind fun results _ hrest ↦ .ok ?_
    have hgb : g a = b := by
      change (f a).toOption.getD default = b
      rw [hb]
      rfl
    rw [hrest.1, List.map_cons, hgb]
    exact ⟨rfl, List.forall_mem_cons.mpr ⟨⟨hgb ▸ hb, hgb ▸ hbetter⟩, hrest.2⟩⟩

end Ends

theorem mapM_ok [Inhabited β] {f : α → Except ε β} {items : List α} {results : List β}
    (h : items.mapM f = .ok results) :
    ∃ g : α → β, results = items.map g ∧ ∀ a ∈ items, f a = .ok (g a) := by
  have heach : ∀ a ∈ items, Ends (fun _ ↦ True) (fun _ ↦ True) (f a) := fun a _ ↦ by
    cases f a <;> constructor <;> trivial
  have hends := Ends.mapM heach
  obtain ⟨g, hresults, hg⟩ := hends.good_of_eq h
  exact ⟨g, hresults, fun a ha ↦ (hg a ha).1⟩

/-- A result of a loop is that of one of the items. -/
theorem exists_of_mem_mapM {f : α → Except ε β} {items : List α} {results : List β}
    (h : items.mapM f = .ok results) {b : β} (hb : b ∈ results) : ∃ a ∈ items, f a = .ok b := by
  have : Inhabited β := ⟨b⟩
  obtain ⟨g, rfl, hg⟩ := mapM_ok h
  obtain ⟨a, ha, rfl⟩ := List.mem_map.mp hb
  exact ⟨a, ha, hg a ha⟩

end SchemaCodec
