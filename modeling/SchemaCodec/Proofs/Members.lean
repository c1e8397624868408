import Mathlib.Data.List.Induction
import SchemaCodec.Members

/-!
# Looking up and writing members

What is found under a key stands in the list, and the position of the key leads to it as well. A key
that is new goes to the end. A list that gives no key twice is therefore what writing its pairs one
after another makes of them.
-/

namespace SchemaCodec.Members

variable {κ α : Type} [DecidableEq κ]

/-! ## Contents and positions -/

theorem mem_of_get? {key : κ} {a : α} {ms : Members κ α} (h : get? key ms = some a) :
    (key, a) ∈ ms := by
  induction ms with
  | nil => simp [get?] at h
  | cons entry rest ih =>
    rw [get?] at h
    split at h
    · next heq =>
      rw [← heq, ← Option.some_inj.mp h]
      exact List.mem_cons_self
    · exact List.mem_cons_of_mem _ (ih h)

/-- The first occurrence of a key has a position and a content, and the position leads to it. -/
theorem position?_of_get? {key : κ} {a : α} {ms : Members κ α} (h : get? key ms = some a) :
    ∃ index, position? key ms = some index ∧ ms[index]? = some (key, a) := by
  induction ms with
  | nil => simp [get?] at h
  | cons entry rest ih =>
    rw [get?] at h
    split at h
    · next heq =>
      refine ⟨0, by rw [position?, if_pos heq], ?_⟩
      rw [← heq, ← Option.some_inj.mp h]
      rfl
    · next hne =>
      obtain ⟨index, hpos, hget⟩ := ih h
      exact ⟨index + 1, by rw [position?, if_neg hne, hpos]; rfl, hget⟩

theorem position?_of_get?_none {key : κ} {ms : Members κ α} (h : get? key ms = none) :
    position? key ms = none := by
  induction ms with
  | nil => rfl
  | cons entry rest ih =>
    rw [get?] at h
    split at h
    · exact absurd h (by simp)
    · next hne => rw [position?, if_neg hne, ih h]; rfl

/-! ## Writing -/

theorem put_of_not_mem {key : κ} (a : α) {ms : Members κ α} (h : key ∉ ms.keys) :
    put key a ms = ms ++ [(key, a)] := by
  induction ms with
  | nil => rfl
  | cons entry rest ih =>
    rw [keys, List.map_cons, List.mem_cons, not_or] at h
    rw [put, if_neg (Ne.symm h.1), ih h.2, List.cons_append]

theorem mem_put {key : κ} {a : α} {ms : Members κ α} {entry : κ × α} (h : entry ∈ put key a ms) :
    entry = (key, a) ∨ entry ∈ ms := by
  induction ms with
  | nil => exact .inl (List.mem_singleton.mp h)
  | cons first rest ih =>
    rw [put] at h
    split at h
    · next heq =>
      rcases List.mem_cons.mp h with rfl | h
      · exact .inl (by rw [heq])
      · exact .inr (List.mem_cons_of_mem _ h)
    · rcases List.mem_cons.mp h with rfl | h
      · exact .inr List.mem_cons_self
      · exact (ih h).imp_right (List.mem_cons_of_mem _)

theorem keys_put_of_mem {key : κ} (a : α) {ms : Members κ α} (h : key ∈ ms.keys) :
    (put key a ms).keys = ms.keys := by
  induction ms with
  | nil => exact absurd h List.not_mem_nil
  | cons entry rest ih =>
    rw [put]
    split
    · rfl
    · next hne =>
      have hrest : key ∈ keys rest := (List.mem_cons.mp h).resolve_left (Ne.symm hne)
      exact congrArg (entry.1 :: ·) (ih hrest)

theorem nodup_keys_put {key : κ} {a : α} {ms : Members κ α} (h : ms.keys.Nodup) :
    (put key a ms).keys.Nodup := by
  by_cases hmem : key ∈ ms.keys
  · rwa [keys_put_of_mem a hmem]
  · rw [put_of_not_mem a hmem, keys, List.map_append, ← keys]
    refine List.nodup_append.mpr ⟨h, by simp, fun other hother fresh hfresh heq ↦ ?_⟩
    rw [heq, List.mem_singleton.mp hfresh] at hother
    exact hmem hother

/-- Where no key is given twice, what is listed under a key is found there. -/
theorem get?_of_mem {key : κ} {a : α} {ms : Members κ α} (h : ms.keys.Nodup)
    (hmem : (key, a) ∈ ms) : get? key ms = some a := by
  induction ms with
  | nil => exact absurd hmem List.not_mem_nil
  | cons first rest ih =>
    rw [keys, List.map_cons, List.nodup_cons] at h
    rw [get?]
    rcases List.mem_cons.mp hmem with rfl | hmem
    · exact if_pos rfl
    · have hne : first.1 ≠ key := fun heq ↦ h.1 (heq ▸ List.mem_map_of_mem hmem)
      rw [if_neg hne, ih h.2 hmem]

theorem mem_of_mem_ofPairs {pairs : List (κ × α)} {entry : κ × α} (h : entry ∈ ofPairs pairs) :
    entry ∈ pairs := by
  have hfold : ∀ (pairs : List (κ × α)) (ms : Members κ α),
      entry ∈ pairs.foldl (fun ms p ↦ put p.1 p.2 ms) ms → entry ∈ pairs ∨ entry ∈ ms := by
    intro pairs
    induction pairs with
    | nil => exact fun ms hmem ↦ .inr hmem
    | cons pair pairs ih =>
      intro ms hmem
      rcases ih _ hmem with hmem | hmem
      · exact .inl (List.mem_cons_of_mem _ hmem)
      · rcases mem_put hmem with rfl | hmem
        · exact .inl List.mem_cons_self
        · exact .inr hmem
  exact (hfold pairs [] h).resolve_right List.not_mem_nil

/-- Of pairs of one key the last counts. -/
theorem get?_ofPairs (key : κ) (pairs : List (κ × α)) :
    get? key (ofPairs pairs) = pairs.reverse.lookup key := by
  induction pairs using List.reverseRecOn with
  | nil => rfl
  | append_singleton pairs pair ih =>
    have hput : ofPairs (pairs ++ [pair]) = put pair.1 pair.2 (ofPairs pairs) := List.foldl_append
    rw [hput, List.reverse_append, List.reverse_singleton, List.singleton_append]
    by_cases h : key = pair.1
    · rw [h, get?_put_self, List.lookup_cons_self]
    · rw [get?_put_of_ne h, ih, List.lookup_cons, beq_false_of_ne h]

theorem isSome_get?_put {key other : κ} {a : α} {ms : Members κ α}
    (h : other = key ∨ (get? other ms).isSome = true) :
    (get? other (put key a ms)).isSome = true := by
  by_cases heq : other = key
  · rw [heq, get?_put_self]
    rfl
  · rw [get?_put_of_ne heq]
    exact h.resolve_left heq

theorem foldl_put_of_nodup {pairs : List (κ × α)} {ms : Members κ α}
    (h : (ms.keys ++ pairs.map Prod.fst).Nodup) :
    pairs.foldl (fun ms p ↦ put p.1 p.2 ms) ms = ms ++ pairs := by
  induction pairs generalizing ms with
  | nil => rw [List.foldl_nil, List.append_nil]
  | cons pair pairs ih =>
    have hnew : pair.1 ∉ ms.keys := by
      intro hmem
      exact (List.nodup_append.mp h).2.2 _ hmem _ List.mem_cons_self rfl
    rw [List.foldl_cons, put_of_not_mem _ hnew, ih, List.append_assoc, List.singleton_append]
    rw [keys, List.map_append, ← keys, List.append_assoc]
    exact h

/-- A list that gives no key twice is left as it is. -/
theorem ofPairs_of_nodup {pairs : List (κ × α)} (h : (pairs.map Prod.fst).Nodup) :
    ofPairs pairs = pairs := by
  rw [ofPairs, foldl_put_of_nodup (by simpa [keys] using h), List.nil_append]

end SchemaCodec.Members
