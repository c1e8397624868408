import Mathlib.Data.List.Nodup
import Mathlib.Data.List.Perm.Subperm
import Mathlib.Logic.Relation
import SchemaCodec.Proofs.Parts

/-!
# Chasing references

A chain of references is a relation here: a reference to an entry hops to what the entry holds, and
no bound is put on the number of hops. The walk of `resolve` is bounded by the number of entries,
and all the same it tells apart the three ways a chain can go. It ends on a shape, it ends on a
reference without an entry, or it never ends.

## Why one walk decides

A hop leaves no choice, so two chains from one type are parts of each other, and at most one end is
reached. A walk stays where it has ended. So there is nothing to show for a chain that ends within
`size + 1` steps. One that does not is on a reference to an entry at each of its steps `0, …, size`,
that is, on one more type than there are entries, and two of them are the same. From there on the
walk goes round, and its last type lies on the circle as well.
-/

namespace SchemaCodec

/-- Whether a type is a shape, that is, no reference. -/
def Ty.IsShape (ty : Ty) : Prop := ty.key? = Option.none

instance : DecidablePred Ty.IsShape := fun _ ↦ inferInstanceAs (Decidable (_ = Option.none))

theorem Ty.not_isShape_iff {ty : Ty} : ¬ty.IsShape ↔ ∃ key, ty = ref key := by
  cases ty <;> simp [IsShape, key?]

namespace Graph

variable {graph : Graph} {ty : Ty}

/-! ## Walks -/

theorem follow_shape (h : ty.IsShape) (steps : Nat) : graph.follow steps ty = ty := by
  cases steps with
  | zero => rfl
  | succ steps => cases ty with
    | ref key => exact absurd h (by simp [Ty.IsShape, Ty.key?])
    | _ => rfl

theorem follow_ref {key : Key} {next : Ty} (h : graph.get? key = some next) (steps : Nat) :
    graph.follow (steps + 1) (.ref key) = graph.follow steps next := by
  rw [follow, h]

theorem follow_stuck {key : Key} (h : graph.get? key = none) (steps : Nat) :
    graph.follow steps (.ref key) = .ref key := by
  cases steps with
  | zero => rfl
  | succ steps => rw [follow, h]

theorem follow_add (first second : Nat) (ty : Ty) :
    graph.follow (first + second) ty = graph.follow second (graph.follow first ty) := by
  induction first generalizing ty with
  | zero => rw [Nat.zero_add]; rfl
  | succ first ih =>
    by_cases hty : ty.IsShape
    · rw [follow_shape hty, follow_shape hty, follow_shape hty]
    · obtain ⟨key, rfl⟩ := Ty.not_isShape_iff.mp hty
      rw [Nat.add_right_comm]
      cases hget : graph.get? key with
      | none => rw [follow_stuck hget, follow_stuck hget, follow_stuck hget]
      | some next => rw [follow_ref hget, follow_ref hget, ih]

/-! ## Chains -/

/-- A reference to an entry leads to what the entry holds. -/
inductive Hop (graph : Graph) : Ty → Ty → Prop
  | entry {key : Key} {next : Ty} (h : graph.get? key = some next) : graph.Hop (.ref key) next

/-- A chain of references leads from one type to the other, in any number of hops. -/
def Reaches (graph : Graph) : Ty → Ty → Prop := Relation.ReflTransGen graph.Hop

/-- The chain from a key comes back to it. -/
def Circular (graph : Graph) (key : Key) : Prop :=
  Relation.TransGen graph.Hop (.ref key) (.ref key)

/-- A chain goes no further than a shape or a reference without an entry. -/
def Last (graph : Graph) (ty : Ty) : Prop := ∀ next, ¬graph.Hop ty next

/-- A chain only ever meets references to entries. -/
def Endless (graph : Graph) (ty : Ty) : Prop :=
  ∀ met, graph.Reaches ty met → ∃ key, met = .ref key ∧ graph.contains key = true

theorem hop_unique : Relator.RightUnique graph.Hop := by
  rintro _ first second ⟨hfirst⟩ ⟨hsecond⟩
  exact Option.some_inj.mp (hfirst.symm.trans hsecond)

theorem last_of_isShape (h : ty.IsShape) : graph.Last ty := by
  rintro next ⟨hget⟩
  exact absurd h (by simp [Ty.IsShape, Ty.key?])

theorem contains_of_get? {key : Key} (h : graph.get? key = some ty) :
    graph.contains key = true := by
  rw [contains, h]
  rfl

theorem last_of_not_contains {key : Key} (h : graph.contains key = false) :
    graph.Last (.ref key) := by
  rintro next ⟨hget⟩
  rw [contains, hget] at h
  exact absurd h (by simp)

theorem not_last_iff : ¬graph.Last ty ↔ ∃ key, ty = .ref key ∧ graph.contains key = true := by
  simp only [Last, not_forall, not_not]
  constructor
  · rintro ⟨next, ⟨hget⟩⟩
    exact ⟨_, rfl, contains_of_get? hget⟩
  · rintro ⟨key, rfl, hkey⟩
    obtain ⟨next, hget⟩ := Option.isSome_iff_exists.mp hkey
    exact ⟨next, .entry hget⟩

theorem endless_iff : graph.Endless ty ↔ ∀ met, graph.Reaches ty met → ¬graph.Last met := by
  simp only [Endless, not_last_iff]

/-- What a chain meets lies before its end. -/
theorem Reaches.onward {met last : Ty} (hmet : graph.Reaches ty met)
    (hlast : graph.Reaches ty last) (h : graph.Last last) : graph.Reaches met last := by
  rcases Relation.ReflTransGen.total_of_right_unique hop_unique hmet hlast with honward | hback
  · exact honward
  · rcases Relation.ReflTransGen.cases_head hback with rfl | ⟨next, hhop, -⟩
    · exact hback
    · exact absurd hhop (h next)

/-- A chain has at most one end. -/
theorem Reaches.last_unique {last other : Ty} (hlast : graph.Reaches ty last)
    (h : graph.Last last) (hother : graph.Reaches ty other) (h' : graph.Last other) :
    last = other := by
  rcases Relation.ReflTransGen.cases_head (hlast.onward hother h') with heq | ⟨next, hhop, -⟩
  · exact heq
  · exact absurd hhop (h next)

/-- From any type it meets, a chain on a circle comes back to where it was. -/
theorem Circular.reaches_back {key : Key} (h : graph.Circular key) {met : Ty}
    (hmet : graph.Reaches (.ref key) met) : graph.Reaches met (.ref key) := by
  induction hmet with
  | refl => exact .refl
  | @tail met next _ hhop ih =>
    rcases Relation.ReflTransGen.cases_head ih with rfl | ⟨other, hother, hback⟩
    · obtain ⟨other, hother, hback⟩ := Relation.TransGen.head'_iff.mp h
      exact hop_unique hhop hother ▸ hback
    · exact hop_unique hhop hother ▸ hback

/-- A circle has no end. -/
theorem Circular.endless {key : Key} (h : graph.Circular key) : graph.Endless (.ref key) := by
  refine endless_iff.mpr fun met hmet hlast ↦ ?_
  rcases Relation.ReflTransGen.cases_head (h.reaches_back hmet) with rfl | ⟨next, hhop, -⟩
  · obtain ⟨next, hhop, -⟩ := Relation.TransGen.head'_iff.mp h
    exact hlast next hhop
  · exact hlast next hhop

/-- A chain never ends if a part of it does not. -/
theorem Endless.of_reaches {part : Ty} (hreaches : graph.Reaches ty part)
    (h : graph.Endless part) : graph.Endless ty := by
  refine endless_iff.mpr fun met hmet hlast ↦ ?_
  exact endless_iff.mp h met (hreaches.onward hmet hlast) hlast

/-! ## Walks along a chain -/

theorem follow_last (h : graph.Last ty) (steps : Nat) : graph.follow steps ty = ty := by
  by_cases hshape : ty.IsShape
  · exact follow_shape hshape steps
  · obtain ⟨key, rfl⟩ := Ty.not_isShape_iff.mp hshape
    refine follow_stuck (Option.eq_none_iff_forall_ne_some.mpr fun next hget ↦ ?_) steps
    exact h next (.entry hget)

theorem follow_hop {next : Ty} (h : graph.Hop ty next) (steps : Nat) :
    graph.follow (steps + 1) ty = graph.follow steps next := by
  obtain ⟨hget⟩ := h
  exact follow_ref hget steps

theorem reaches_follow (steps : Nat) (ty : Ty) : graph.Reaches ty (graph.follow steps ty) := by
  induction steps generalizing ty with
  | zero => exact .refl
  | succ steps ih =>
    by_cases h : graph.Last ty
    · rw [follow_last h]
      exact .refl
    · obtain ⟨next, hhop⟩ := by simpa [Last] using h
      rw [follow_hop hhop]
      exact .head hhop (ih next)

/-- A walk that takes a step leaves the type it starts from. -/
theorem transGen_follow (h : ¬graph.Last ty) (steps : Nat) :
    Relation.TransGen graph.Hop ty (graph.follow (steps + 1) ty) := by
  obtain ⟨next, hhop⟩ := by simpa [Last] using h
  rw [follow_hop hhop]
  exact .head' hhop (reaches_follow steps next)

theorem not_last_follow {steps more : Nat} (h : ¬graph.Last (graph.follow more ty))
    (hle : steps ≤ more) : ¬graph.Last (graph.follow steps ty) := by
  intro hlast
  have hmore : graph.follow more ty = graph.follow steps ty := by
    rw [← Nat.add_sub_cancel' hle, follow_add, follow_last hlast]
  exact h (hmore ▸ hlast)

/-- **Two of the types are the same.** A walk that is still not at its end has met one more type
than there are entries. -/
theorem exists_follow_eq (h : ¬graph.Last (graph.follow graph.size ty)) :
    ∃ i j, i < j ∧ j ≤ graph.size ∧ graph.follow i ty = graph.follow j ty := by
  by_contra hnone
  have hne : ∀ i j, i < j → j ≤ graph.size → graph.follow i ty ≠ graph.follow j ty :=
    fun i j hij hj heq ↦ hnone ⟨i, j, hij, hj, heq⟩
  let met := (List.range (graph.size + 1)).map fun steps ↦ graph.follow steps ty
  have hnodup : met.Nodup := by
    refine List.Nodup.map_on (fun i hi j hj heq ↦ ?_) List.nodup_range
    rcases lt_trichotomy i j with hlt | rfl | hlt
    · exact absurd heq (hne i j hlt (Nat.lt_succ_iff.mp (List.mem_range.mp hj)))
    · rfl
    · exact absurd heq.symm (hne j i hlt (Nat.lt_succ_iff.mp (List.mem_range.mp hi)))
  have hsubset : met ⊆ graph.entries.map fun entry ↦ .ref entry.1 := by
    intro part hpart
    obtain ⟨steps, hsteps, rfl⟩ := List.mem_map.mp hpart
    have hle := Nat.lt_succ_iff.mp (List.mem_range.mp hsteps)
    obtain ⟨key, hkey, hcontains⟩ := not_last_iff.mp (not_last_follow h hle)
    obtain ⟨next, hget⟩ := Option.isSome_iff_exists.mp hcontains
    exact List.mem_map.mpr ⟨(key, next), mem_of_get? hget, hkey.symm⟩
  have hlength := (hnodup.subperm hsubset).length_le
  rw [List.length_map, List.length_range, List.length_map] at hlength
  exact Nat.not_succ_le_self _ hlength

/-- A walk that comes back to a type goes round from there on. -/
theorem follow_round {round : Nat} (h : graph.follow round ty = ty) (steps : Nat) :
    graph.follow round (graph.follow steps ty) = graph.follow steps ty := by
  rw [← follow_add, Nat.add_comm, follow_add, h]

/-! ## The three ways -/

theorem reaches_resolve (graph : Graph) (ty : Ty) : graph.Reaches ty (graph.resolve ty) :=
  reaches_follow _ ty

/-- A walk as long as that of `resolve` is at its end, or on a circle. -/
theorem resolve_last_or_circular (graph : Graph) (ty : Ty) :
    graph.Last (graph.resolve ty) ∨ ∃ key, graph.resolve ty = .ref key ∧ graph.Circular key := by
  by_cases h : graph.Last (graph.resolve ty)
  · exact .inl h
  · obtain ⟨i, j, hij, hj, heq⟩ :=
      exists_follow_eq (not_last_follow h (Nat.le_succ graph.size))
    obtain ⟨round, rfl⟩ : ∃ round, j = i + (round + 1) := ⟨j - i - 1, by omega⟩
    rw [follow_add] at heq
    have hround := follow_round heq.symm (graph.size + 1 - i)
    rw [← follow_add i, Nat.add_sub_cancel' (by omega), ← resolve] at hround
    obtain ⟨key, hkey, -⟩ := not_last_iff.mp h
    refine .inr ⟨key, hkey, ?_⟩
    have hback := transGen_follow h round
    rwa [hround, hkey] at hback

theorem resolve_eq_iff {last : Ty} (h : graph.Last last) :
    graph.resolve ty = last ↔ graph.Reaches ty last := by
  refine ⟨fun heq ↦ heq ▸ reaches_resolve graph ty, fun hreaches ↦ ?_⟩
  rcases resolve_last_or_circular graph ty with hlast | ⟨key, hkey, hcircular⟩
  · exact (reaches_resolve graph ty).last_unique hlast hreaches h
  · have hendless := hcircular.endless.of_reaches (hkey ▸ reaches_resolve graph ty)
    exact absurd h (endless_iff.mp hendless last hreaches)

theorem endless_iff_circular :
    graph.Endless ty ↔ ∃ key, graph.resolve ty = .ref key ∧ graph.Circular key := by
  constructor
  · intro h
    exact (resolve_last_or_circular graph ty).resolve_left
      (endless_iff.mp h _ (reaches_resolve graph ty))
  · rintro ⟨key, hkey, hcircular⟩
    exact hcircular.endless.of_reaches (hkey ▸ reaches_resolve graph ty)

/-- The result is a shape exactly when a walk of any length reaches one. -/
theorem isShape_resolve_iff :
    (graph.resolve ty).IsShape ↔ ∃ steps, (graph.follow steps ty).IsShape := by
  refine ⟨fun h ↦ ⟨graph.size + 1, h⟩, ?_⟩
  rintro ⟨steps, h⟩
  rw [(resolve_eq_iff (last_of_isShape h)).mpr (reaches_follow steps ty)]
  exact h

theorem isShape_resolve_ref {key : Key} {next : Ty} (hget : graph.get? key = some next)
    (h : (graph.resolve next).IsShape) : (graph.resolve (.ref key)).IsShape := by
  refine isShape_resolve_iff.mpr ⟨graph.size + 2, ?_⟩
  rwa [follow_ref hget]

/-- **Main result.** What a type resolves to tells how its chain of references goes, whatever the
graph and however long the chain: it is a shape exactly if the chain gets to this shape, a reference
without an entry exactly if the chain gets to this reference, and otherwise, where the chain never
ends, a reference that the chain meets and comes back to. -/
theorem resolve_ends (graph : Graph) (ty : Ty) :
    (∀ shape, shape.IsShape → (graph.resolve ty = shape ↔ graph.Reaches ty shape)) ∧
    (∀ key, graph.contains key = false →
      (graph.resolve ty = .ref key ↔ graph.Reaches ty (.ref key))) ∧
    (graph.Endless ty ↔
      ∃ key, graph.resolve ty = .ref key ∧ graph.Reaches ty (.ref key) ∧ graph.Circular key) := by
  refine ⟨fun shape hshape ↦ resolve_eq_iff (last_of_isShape hshape),
    fun key hkey ↦ resolve_eq_iff (last_of_not_contains hkey), ?_⟩
  rw [endless_iff_circular]
  refine exists_congr fun key ↦ and_congr_right fun hkey ↦ ?_
  exact (and_iff_right (hkey ▸ reaches_resolve graph ty)).symm

/-- Chains of each kind: through an alias to a shape, to a key that is missing, and past an alias
into a circle. -/
def crossroads : Graph :=
  ⟨[(.builtin "Length", .ref (.builtin "Count")), (.builtin "Count", .integer),
    (.builtin "Lost", .ref (.builtin "Missing")),
    (.builtin "Outside", .ref (.builtin "Round")), (.builtin "Round", .ref (.builtin "About")),
    (.builtin "About", .ref (.builtin "Round"))]⟩

theorem resolve_ends_crossroads :
    crossroads.Reaches (.ref (.builtin "Length")) .integer ∧
    crossroads.Reaches (.ref (.builtin "Lost")) (.ref (.builtin "Missing")) ∧
    crossroads.Endless (.ref (.builtin "Outside")) := by
  refine ⟨((resolve_ends crossroads _).1 .integer rfl).mp (by decide),
    ((resolve_ends crossroads _).2.1 (.builtin "Missing") (by decide)).mp (by decide),
    (resolve_ends crossroads _).2.2.mpr ⟨.builtin "Round", by decide, ?_, ?_⟩⟩
  · exact .single (.entry rfl)
  · exact .head (.entry rfl) (.single (.entry rfl))

/-! ## Graphs without dead ends -/

/-- A type is no reference, or one to an entry. -/
def Known (graph : Graph) (ty : Ty) : Prop := ∀ key, ty = .ref key → graph.contains key = true

/-- Where all references are to entries, and all entries lead to a shape, everything does. -/
theorem Everywhere.isShape_resolve (hty : graph.Everywhere graph.Known ty)
    (hgrounded : ∀ key, graph.contains key = true → (graph.resolve (.ref key)).IsShape) :
    (graph.resolve ty).IsShape := by
  by_cases h : ty.IsShape
  · rw [Graph.resolve, follow_shape h]
    exact h
  · obtain ⟨key, rfl⟩ := Ty.not_isShape_iff.mp h
    exact hgrounded key (hty.self key rfl)

end Graph

end SchemaCodec
