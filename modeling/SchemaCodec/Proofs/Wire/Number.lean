import SchemaCodec.Proofs.Groups.Word
import SchemaCodec.Proofs.Outcome

/-!
# Numbers on the wire

Four kinds of integers stand on the wire: values of type integer, lengths of payloads, counts of
items and positions of variants. A serializer whose integers are words can differ from one whose
integers are unbounded only where such a number is out of range.

## Following

Let `numbers` be what the unbounded serializer meets on its way, in order, up to its end or its
first failure. The other one *follows* it if its result is the same as long as all of them are in
range, and `integerOverflow` as soon as one is not. Which of several failures comes first is thereby
settled too. Following is closed under sequencing, so it is shown step by step and never for a whole
traversal at once.
-/

namespace SchemaCodec.Wire

/-- What a number on the wire is for. -/
inductive Role where
  | integer | length | count | index
deriving DecidableEq, Repr

/-- A number on the wire. -/
structure Number where
  role : Role
  value : Int
deriving DecidableEq, Repr

namespace Number

/-- All of some numbers can be held by words. -/
def AllInRange (numbers : List Number) : Prop := ∀ n ∈ numbers, Groups.Word.InRange n.value

/-- The integers among some numbers can be held by words. -/
def IntegersInRange (numbers : List Number) : Prop :=
  ∀ n ∈ numbers, n.role = .integer → Groups.Word.InRange n.value

/-- Whatever is not an integer among some numbers can be held by words. -/
def SizesInRange (numbers : List Number) : Prop :=
  ∀ n ∈ numbers, n.role = .integer ∨ Groups.Word.InRange n.value

instance : DecidablePred AllInRange := fun _ ↦ inferInstanceAs (Decidable (∀ n ∈ _, _))

instance : DecidablePred IntegersInRange := fun _ ↦ inferInstanceAs (Decidable (∀ n ∈ _, _ → _))

theorem allInRange_iff {numbers : List Number} (h : SizesInRange numbers) :
    AllInRange numbers ↔ IntegersInRange numbers := by
  constructor
  · intro hall n hn _
    exact hall n hn
  · intro hint n hn
    rcases h n hn with hrole | hrange
    · exact hint n hn hrole
    · exact hrange

@[simp] theorem allInRange_nil : AllInRange [] := by
  intro n hn
  exact absurd hn List.not_mem_nil

@[simp] theorem allInRange_singleton {role : Role} {n : Int} :
    AllInRange [⟨role, n⟩] ↔ Groups.Word.InRange n := by
  rw [AllInRange, List.forall_mem_singleton]

@[simp] theorem allInRange_append {ns ms : List Number} :
    AllInRange (ns ++ ms) ↔ AllInRange ns ∧ AllInRange ms := by
  rw [AllInRange, List.forall_mem_append]
  rfl

end Number

variable {α β γ δ : Type}

/-- The numbers met after a step, which are none if the step fails. -/
def after (y : Except WireError β) (numbers : β → List Number) : List Number :=
  match y with
  | .ok b => numbers b
  | .error _ => []

@[simp] theorem mem_after {y : Except WireError β} {numbers : β → List Number} {n : Number} :
    n ∈ after y numbers ↔ ∃ b, y = .ok b ∧ n ∈ numbers b := by
  cases y with
  | error e => simp [after]
  | ok b => simp [after]

@[simp] theorem after_map (y : Except WireError β) (f : β → γ) (numbers : γ → List Number) :
    after (y.map f) numbers = after y fun b ↦ numbers (f b) := by
  cases y <;> rfl

/-- The result `x`, under a view, is `y` if the numbers are in range, and an overflow otherwise. -/
structure Follows (v : α → β) (numbers : List Number) (x : Except WireError α)
    (y : Except WireError β) : Prop where
  agrees : Number.AllInRange numbers → x.map v = y
  overflows : ¬Number.AllInRange numbers → x = .error .integerOverflow

namespace Follows

variable {v : α → β} {w : γ → δ} {numbers : List Number} {x : Except WireError α}
  {y : Except WireError β}

theorem ok (a : α) : Follows v [] (.ok a) (.ok (v a)) :=
  ⟨fun _ ↦ rfl, fun h ↦ absurd Number.allInRange_nil h⟩

theorem error (e : WireError) : Follows v [] (.error e) (.error e) :=
  ⟨fun _ ↦ rfl, fun h ↦ absurd Number.allInRange_nil h⟩

/-- Sequencing: what comes second meets its numbers only if what comes first succeeds. -/
theorem bind {k : α → Except WireError γ} {l : β → Except WireError δ} {m : β → List Number}
    (h : Follows v numbers x y)
    (hk : ∀ a, y = .ok (v a) → Follows w (m (v a)) (k a) (l (v a))) :
    Follows w (numbers ++ after y m) (x >>= k) (y >>= l) := by
  by_cases hr : Number.AllInRange numbers
  · -- the first step ends in the same way on both sides, and the second decides
    have hxy := h.agrees hr
    cases x with
    | error e =>
      subst hxy
      refine ⟨fun _ ↦ rfl, fun hall ↦ absurd hr fun _ ↦ hall ?_⟩
      exact Number.allInRange_append.mpr ⟨hr, Number.allInRange_nil⟩
    | ok a =>
      have hnext := hk a hxy.symm
      subst hxy
      exact ⟨fun hall ↦ hnext.agrees (Number.allInRange_append.mp hall).2,
        fun hall ↦ hnext.overflows fun hmore ↦ hall (Number.allInRange_append.mpr ⟨hr, hmore⟩)⟩
  · refine ⟨fun hall ↦ absurd (Number.allInRange_append.mp hall).1 hr, fun _ ↦ ?_⟩
    -- the overflow of the first step is that of the whole
    rw [h.overflows hr]
    rfl

/-- What comes second may meet no numbers. -/
theorem bind_nil {k : α → Except WireError γ} {l : β → Except WireError δ}
    (h : Follows v numbers x y) (hk : ∀ a, Follows w [] (k a) (l (v a))) :
    Follows w numbers (x >>= k) (y >>= l) := by
  have hbind := h.bind (m := fun _ ↦ []) fun a _ ↦ hk a
  have hnil : after y (fun _ ↦ []) = [] := by
    cases y <;> rfl
  rw [hnil, List.append_nil] at hbind
  exact hbind

/-- A step that only changes the view of the result meets no numbers of its own. -/
theorem map {f : α → γ} {g : β → δ} (h : Follows v numbers x y)
    (hfg : ∀ a, w (f a) = g (v a)) : Follows w numbers (x.map f) (y.map g) := by
  refine ⟨fun hr ↦ ?_, fun hr ↦ by rw [h.overflows hr]; rfl⟩
  rw [← h.agrees hr]
  cases x with
  | error e => rfl
  | ok a => exact congrArg Except.ok (hfg a)

theorem eq_of_inRange {x y : Except WireError α} (h : Follows id numbers x y)
    (hr : Number.AllInRange numbers) : x = y := by
  rw [← h.agrees hr]
  cases x <;> rfl

/-- What is known of the outcome carries over, but for the overflow. -/
theorem ends {x y : Except WireError α} {good : α → Prop} {bad : WireError → Prop}
    (h : Follows id numbers x y) (hy : Ends good bad y) :
    Ends good (fun e ↦ bad e ∨ e = .integerOverflow) x := by
  by_cases hr : Number.AllInRange numbers
  · rw [h.eq_of_inRange hr]
    exact hy.imp (fun _ ha ↦ ha) fun _ he ↦ .inl he
  · rw [h.overflows hr]
    exact .error (.inr rfl)

/-- A failure that the followed computation does not know tells whether all was in range. -/
theorem overflow_iff (h : Follows v numbers x y) (hy : y ≠ .error .integerOverflow) :
    x = .error .integerOverflow ↔ ¬Number.AllInRange numbers := by
  refine ⟨fun hx hr ↦ hy ?_, h.overflows⟩
  rw [← h.agrees hr, hx]
  rfl

end Follows

end SchemaCodec.Wire
