import Mathlib.Data.List.Basic
import SchemaCodec.Key

/-!
# Keys and dotted names

A dotted name is split at its first dot, and nothing gets lost there: every name is the dotted form
of the key that it is read as. The way back is open only to keys whose first dot is the one behind
the module. For what comes after that dot there is no condition, so a key is read back however many
dots its name holds, if its module holds none.
-/

namespace SchemaCodec.Key

/-! ## The first dot -/

theorem splitAtDot_append {front : List Char} (h : '.' ∉ front) (behind : List Char) :
    splitAtDot (front ++ '.' :: behind) = some (front, behind) := by
  induction front with
  | nil => rfl
  | cons c front ih =>
    obtain ⟨hc, hfront⟩ := List.ne_and_not_mem_of_not_mem_cons h
    rw [List.cons_append, splitAtDot, if_neg hc.symm, ih hfront, Option.map_some]

theorem splitAtDot_eq_none {chars : List Char} (h : '.' ∉ chars) : splitAtDot chars = none := by
  induction chars with
  | nil => rfl
  | cons c rest ih =>
    obtain ⟨hc, hrest⟩ := List.ne_and_not_mem_of_not_mem_cons h
    rw [splitAtDot, if_neg hc.symm, ih hrest, Option.map_none]

/-! ## Reading dotted forms -/

theorem ofText_append {module : String} (h : '.' ∉ module.toList) (name : String) :
    ofText (module ++ "." ++ name) = qualified module name := by
  have hchars : (module ++ "." ++ name).toList = module.toList ++ '.' :: name.toList := by simp
  rw [ofText, hchars, splitAtDot_append h]
  simp only [String.ofList_toList]

theorem ofText_of_not_mem {name : String} (h : '.' ∉ name.toList) : ofText name = builtin name := by
  rw [ofText, splitAtDot_eq_none h]

/-- Every name is the dotted form of a key, and of the one that it is read as. -/
theorem text_ofText (dotted : String) : (ofText dotted).text = dotted := by
  by_cases hdot : '.' ∈ dotted.toList
  · obtain ⟨front, behind, hchars, hfront⟩ := List.eq_append_cons_of_mem hdot
    have hdotted : dotted = String.ofList front ++ "." ++ String.ofList behind := by
      rw [← String.toList_inj]
      simpa using hchars
    rw [hdotted, ofText_append (by rwa [String.toList_ofList])]
    rfl
  · rw [ofText_of_not_mem hdot]
    rfl

/-- What comes first in the dotted form holds no dot: the module, or the name where there is no
module. -/
def Readable (key : Key) : Prop := '.' ∉ (key.module.getD key.name).toList

instance : DecidablePred Readable := fun _ ↦ inferInstanceAs (Decidable (_ ∉ _))

/-- The readable keys are those that are read back from their dotted forms. -/
theorem ofText_text_iff {key : Key} : ofText key.text = key ↔ key.Readable := by
  constructor
  · intro h
    by_cases hdot : '.' ∈ key.text.toList
    · obtain ⟨front, behind, hchars, hfront⟩ := List.eq_append_cons_of_mem hdot
      rw [ofText, hchars, splitAtDot_append hfront] at h
      rw [← h, Readable]
      simpa [qualified] using hfront
    · rw [ofText_of_not_mem hdot] at h
      rwa [← h, Readable]
  · intro h
    obtain ⟨_ | module, name⟩ := key
    · exact ofText_of_not_mem h
    · exact ofText_append h name

/-- A readable key is what its dotted form is read as, and no other name is read as it. -/
theorem ofText_eq_iff {key : Key} (h : key.Readable) {dotted : String} :
    ofText dotted = key ↔ dotted = key.text := by
  constructor
  · rintro rfl
    exact (text_ofText dotted).symm
  · rintro rfl
    exact ofText_text_iff.mpr h

theorem eq_of_text_eq {key other : Key} (hkey : key.Readable) (hother : other.Readable)
    (h : key.text = other.text) : key = other := by
  rw [← ofText_text_iff.mpr hkey, h, ofText_text_iff.mpr hother]

example : (qualified "a" "b.c").Readable ∧ ¬(qualified "a.b" "c").Readable := by decide

end SchemaCodec.Key
