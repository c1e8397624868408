import Mathlib.Data.List.Forall2
import SchemaCodec.Proofs.Chase

/-!
# Bisimilar types

A graph with references presents infinite trees. Two types present the same tree if they are
bisimilar: after chasing references both have the same constructor, entries of the same names in the
same order, and bisimilar children. Which keys were passed on the way, and how many, is no part of
that.

## Why one closed graph is enough

In a closed graph every chain of references ends on a shape. Bisimilar types have the same
constructor, so where one of them has a shape, the other has one too. What goes through two types at
once therefore never meets a reference, and it can split on *pairs of shapes*: two leaves of one
kind, two arrays, two records or two choices.
-/

namespace SchemaCodec

/-- Entries of the same names in the same order, with related types. -/
def EntriesAlike (R : Ty → Ty → Prop) (entries entries' : List (String × Ty)) : Prop :=
  List.Forall₂ (fun entry entry' ↦ entry.1 = entry'.1 ∧ R entry.2 entry'.2) entries entries'

namespace EntriesAlike

variable {R : Ty → Ty → Prop} {entries entries' : List (String × Ty)}

theorem position?_eq (h : EntriesAlike R entries entries') (name : String) :
    Members.position? name entries = Members.position? name entries' := by
  induction h with
  | nil => rfl
  | @cons entry entry' rest rest' hentry _ ih =>
    rw [Members.position?, Members.position?, ih, hentry.1]

/-- A name has a type in both lists, and these are related, or in neither. -/
theorem get?_cases (h : EntriesAlike R entries entries') (name : String) :
    (∃ ty ty', Members.get? name entries = some ty ∧ Members.get? name entries' = some ty' ∧
      R ty ty') ∨
    (Members.get? name entries = none ∧ Members.get? name entries' = none) := by
  induction h with
  | nil => exact .inr ⟨rfl, rfl⟩
  | @cons entry entry' rest rest' hentry _ ih =>
    rw [Members.get?, Members.get?, ← hentry.1]
    by_cases hname : entry.1 = name
    · rw [if_pos hname, if_pos hname]
      exact .inl ⟨_, _, rfl, rfl, hentry.2⟩
    · rw [if_neg hname, if_neg hname]
      exact ih

/-- A position holds an entry in both lists, and these are alike, or in neither. -/
theorem getElem?_cases (h : EntriesAlike R entries entries') (index : Nat) :
    (∃ name ty ty', entries[index]? = some (name, ty) ∧ entries'[index]? = some (name, ty') ∧
      R ty ty') ∨
    (entries[index]? = none ∧ entries'[index]? = none) := by
  induction h generalizing index with
  | nil => exact .inr ⟨rfl, rfl⟩
  | @cons entry entry' rest rest' hentry _ ih =>
    obtain ⟨name, ty⟩ := entry
    obtain ⟨name', ty'⟩ := entry'
    obtain ⟨rfl, hty⟩ := hentry
    cases index with
    | zero => exact .inl ⟨name, ty, ty', rfl, rfl, hty⟩
    | succ index => exact ih index

/-- Loops over entries that are alike agree if their steps agree. -/
theorem foldlM_eq {ε β : Type} {step step' : β → String × Ty → Except ε β}
    (h : EntriesAlike R entries entries')
    (hstep : ∀ b name ty ty', R ty ty' → step b (name, ty) = step' b (name, ty')) (init : β) :
    entries.foldlM step init = entries'.foldlM step' init := by
  induction h generalizing init with
  | nil => rfl
  | @cons entry entry' rest rest' hentry _ ih =>
    obtain ⟨name, ty⟩ := entry
    obtain ⟨name', ty'⟩ := entry'
    obtain ⟨rfl, hty⟩ := hentry
    rw [List.foldlM_cons, List.foldlM_cons, hstep init name ty ty' hty]
    exact congrArg _ (funext fun b ↦ ih b)

end EntriesAlike

/-! ## Pairs of shapes -/

namespace Ty

/-- Two types have the same constructor, entries of the same names in the same order, and related
children. -/
structure Alike (R : Ty → Ty → Prop) (ty ty' : Ty) : Prop where
  kind : ty.kind = ty'.kind
  element : ∀ element element', ty = array element → ty' = array element' → R element element'
  entries : EntriesAlike R ty.entries ty'.entries

/-- Two shapes of one constructor, with related children. -/
inductive Paired (R : Ty → Ty → Prop) : Ty → Ty → Prop
  | leaf {b : Builtin} {shape : Ty} (h : b.shape? = some shape) : Paired R shape shape
  | array {element element' : Ty} (h : R element element') :
    Paired R (.array element) (.array element')
  | record {entries entries' : List (String × Ty)} (h : EntriesAlike R entries entries') :
    Paired R (.record entries) (.record entries')
  | choice {entries entries' : List (String × Ty)} (h : EntriesAlike R entries entries') :
    Paired R (.choice entries) (.choice entries')

variable {R : Ty → Ty → Prop} {ty ty' : Ty}

theorem Alike.imp {S : Ty → Ty → Prop} (h : Alike R ty ty') (hRS : ∀ ty ty', R ty ty' → S ty ty') :
    Alike S ty ty' := by
  refine ⟨h.kind, fun element element' hs hs' ↦ hRS _ _ (h.element element element' hs hs'), ?_⟩
  exact h.entries.imp fun entry entry' hentry ↦ ⟨hentry.1, hRS _ _ hentry.2⟩

theorem Paired.alike (h : Paired R ty ty') : Alike R ty ty' := by
  cases h with
  | @leaf b shape h =>
    cases b <;> cases h <;> exact ⟨rfl, fun _ _ hs ↦ Ty.noConfusion hs, .nil⟩
  | array h => exact ⟨rfl, fun _ _ hs hs' ↦ Ty.array.inj hs ▸ Ty.array.inj hs' ▸ h, .nil⟩
  | record h => exact ⟨rfl, fun _ _ hs ↦ Ty.noConfusion hs, h⟩
  | choice h => exact ⟨rfl, fun _ _ hs ↦ Ty.noConfusion hs, h⟩

theorem Alike.paired (h : Alike R ty ty') (hshape : ty.IsShape) : Paired R ty ty' := by
  obtain ⟨hkind, helement, hentries⟩ := h
  cases ty with
  | ref key => exact absurd hshape (by simp [IsShape, key?])
  | array element => cases ty' with
    | array element' => exact .array (helement element element' rfl rfl)
    | _ => cases hkind
  | record es => cases ty' with
    | record es' => exact .record hentries
    | _ => cases hkind
  | choice es => cases ty' with
    | choice es' => exact .choice hentries
    | _ => cases hkind
  | none => cases ty' <;> first | exact .leaf (b := .none) rfl | cases hkind
  | boolean => cases ty' <;> first | exact .leaf (b := .boolean) rfl | cases hkind
  | integer => cases ty' <;> first | exact .leaf (b := .integer) rfl | cases hkind
  | float => cases ty' <;> first | exact .leaf (b := .float) rfl | cases hkind
  | string => cases ty' <;> first | exact .leaf (b := .string) rfl | cases hkind
  | bytes => cases ty' <;> first | exact .leaf (b := .bytes) rfl | cases hkind

end Ty

/-! ## Types in their graphs -/

namespace Graph

/-- References lead somewhere: each of them is to an entry, and every chain of them ends on a
shape. -/
structure Closed (graph : Graph) : Prop where
  known : ∀ entry ∈ graph.entries, ∀ part ∈ entry.2.parts, graph.Known part
  grounded : ∀ key, graph.contains key = true → ∃ steps, (graph.follow steps (.ref key)).IsShape

/-- All references in a type are to entries. -/
def Knows (graph : Graph) (ty : Ty) : Prop := ∀ part ∈ ty.parts, graph.Known part

instance (graph : Graph) : DecidablePred graph.Known := fun ty ↦
  match ty with
  | .ref key => decidable_of_iff (graph.contains key = true)
      ⟨fun h _ heq ↦ Ty.ref.inj heq ▸ h, fun h ↦ h key rfl⟩
  | .none | .boolean | .integer | .float | .string | .bytes | .array _ | .record _ | .choice _ =>
    isTrue fun _ ↦ Ty.noConfusion

instance (graph : Graph) : DecidablePred graph.Knows :=
  fun _ ↦ inferInstanceAs (Decidable (∀ part ∈ _, _))

variable {graph other : Graph} {R : Ty → Ty → Prop} {ty ty' : Ty}

/-- It is enough to look at the entries. -/
theorem closed_of_entries (hknown : ∀ entry ∈ graph.entries, graph.Knows entry.2)
    (hshape : ∀ entry ∈ graph.entries, (graph.resolve entry.2).IsShape) : graph.Closed := by
  refine ⟨hknown, fun key hkey ↦ ?_⟩
  obtain ⟨ty, hget⟩ := Option.isSome_iff_exists.mp hkey
  exact isShape_resolve_iff.mp (isShape_resolve_ref hget (hshape _ (mem_of_get? hget)))

theorem Closed.isShape_resolve (h : graph.Closed) (hty : graph.Knows ty) :
    (graph.resolve ty).IsShape := by
  have heverywhere : graph.Everywhere graph.Known ty := ⟨hty, h.known⟩
  exact heverywhere.isShape_resolve fun key hkey ↦ isShape_resolve_iff.mpr (h.grounded key hkey)

/-- The shape at the end of a walk is what the walk resolves to. -/
theorem resolve_eq_follow {steps : Nat} (h : (graph.follow steps ty).IsShape) :
    graph.resolve ty = graph.follow steps ty := by
  have hresolve : (graph.resolve ty).IsShape := isShape_resolve_iff.mpr ⟨steps, h⟩
  -- both walks go on to the same place, and a walk stays on a shape
  calc graph.resolve ty = graph.follow steps (graph.resolve ty) := (follow_shape hresolve _).symm
    _ = graph.follow (graph.size + 1 + steps) ty := (follow_add _ _ _).symm
    _ = graph.follow (steps + (graph.size + 1)) ty := by rw [Nat.add_comm]
    _ = graph.follow steps ty := by rw [follow_add, follow_shape h]

/-- A name leads where the type leads that it stands for. -/
theorem resolve_ref {key : Key} (hget : graph.get? key = some ty)
    (h : (graph.resolve ty).IsShape) : graph.resolve (.ref key) = graph.resolve ty := by
  have hfollow : graph.follow (graph.size + 2) (.ref key) = graph.resolve ty := follow_ref hget _
  rw [← hfollow]
  exact resolve_eq_follow (hfollow ▸ h)

/-- Related types are alike once references have been chased. -/
def Bisimulation (graph other : Graph) (R : Ty → Ty → Prop) : Prop :=
  ∀ ty ty', R ty ty' → (graph.resolve ty).Alike R (other.resolve ty')

/-- Two types, each in its graph, present the same infinite tree. -/
def Bisimilar (graph other : Graph) (ty ty' : Ty) : Prop :=
  ∃ R, graph.Bisimulation other R ∧ R ty ty'

theorem Bisimilar.refl (graph : Graph) (ty : Ty) : graph.Bisimilar graph ty ty := by
  refine ⟨Eq, ?_, rfl⟩
  rintro ty - rfl
  refine ⟨rfl, ?_, List.forall₂_same.mpr fun _ _ ↦ ⟨rfl, rfl⟩⟩
  intro element element' h h'
  exact Ty.array.inj (h.symm.trans h')

/-- Related types lead to paired shapes. -/
def Pairing (graph other : Graph) (R : Ty → Ty → Prop) : Prop :=
  ∀ ty ty', R ty ty' → (graph.resolve ty).Paired R (other.resolve ty')

theorem Bisimulation.pairing (hgraph : graph.Closed) (h : graph.Bisimulation other R) :
    graph.Pairing other fun ty ty' ↦ R ty ty' ∧ graph.Everywhere graph.Known ty := by
  rintro ty ty' ⟨hR, hty⟩
  have hshape := hgraph.isShape_resolve hty.1
  obtain ⟨hkind, helement, hentries⟩ := h ty ty' hR
  refine Ty.Alike.paired ⟨hkind, fun element element' hs hs' ↦ ?_, ?_⟩ hshape
  · exact ⟨helement element element' hs hs', hty.element hs⟩
  · -- what is known of the whole list is known of each pair of entries
    have hknown : ∀ entry ∈ (graph.resolve ty).entries, graph.Everywhere graph.Known entry.2 :=
      fun entry hmem ↦ hty.entry rfl hmem
    refine ((List.forall₂_and_left _ _).mpr ⟨hknown, hentries⟩).imp ?_
    rintro entry entry' ⟨hentry, hname, hrel⟩
    exact ⟨hname, hrel, hentry⟩

/-- What leads to the same place is bisimilar to the same types. -/
theorem Bisimilar.of_resolve_eq {start : Ty} (h : graph.Bisimilar other ty ty')
    (hstart : graph.resolve start = graph.resolve ty) : graph.Bisimilar other start ty' := by
  obtain ⟨R, hR, hrel⟩ := h
  refine ⟨fun s t' ↦ ∃ t, graph.resolve s = graph.resolve t ∧ R t t', ?_, ty, hstart, hrel⟩
  rintro s t' ⟨t, hs, ht⟩
  rw [hs]
  exact (hR t t' ht).imp fun element element' h ↦ ⟨element, rfl, h⟩

end Graph

end SchemaCodec
