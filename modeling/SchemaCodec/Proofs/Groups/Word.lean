import Mathlib.Tactic.NormNum
import SchemaCodec.Groups.Word
import SchemaCodec.Proofs.Groups.Big
import SchemaCodec.Proofs.Outcome

/-!
# Words are integers in range

A word is written as the integer that it is, and read as the integer that the bytes spell, as long
as that lies in the range of words. The range is checked at each group and not at the end. This
makes no difference, since a number once out of range stays out of it when groups are added, and
it is why an integer that is cut off can be too large before it is found unterminated.

Reading is compared through a view: a word with the position after it is an integer with the bytes
from there on.
-/

namespace SchemaCodec.Groups.Word

/-- The integers that a word can hold. -/
def InRange (n : Int) : Prop := -9223372036854775808 ≤ n ∧ n < 9223372036854775808

instance : DecidablePred InRange := fun _ ↦ inferInstanceAs (Decidable (_ ∧ _))

theorem inRange_toInt (v : Int64) : InRange v.toInt :=
  ⟨v.le_toInt, v.toInt_lt⟩

theorem toInt_ofInt {n : Int} (h : InRange n) : (Int64.ofInt n).toInt = n :=
  Int64.toInt_ofInt_of_le h.1 h.2

@[simp] theorem ofInt?_of_inRange {n : Int} (h : InRange n) : ofInt? n = some (Int64.ofInt n) :=
  if_pos (toInt_ofInt h)

theorem ofInt?_of_not_inRange {n : Int} (h : ¬InRange n) : ofInt? n = none := by
  refine if_neg fun heq ↦ h ?_
  rw [← heq]
  exact inRange_toInt (Int64.ofInt n)

/-- A number below `2 ^ 63`, as every length of a list in memory is, is in range. -/
theorem inRange_natCast {n : Nat} (h : n < 2 ^ 63) : InRange n := by
  rw [InRange]
  omega

/-! ## Writing -/

theorem toInt_shiftRight (v : Int64) : (v >>> 7).toInt = v.toInt / 128 := by
  rw [← Int64.toInt_toBitVec, Int64.toBitVec_shiftRight, BitVec.toInt_sshiftRight']
  exact Int.shiftRight_eq_div_pow v.toInt 7

theorem low_eq (v : Int64) : low v = Groups.low v.toInt := by
  -- the bits of a word and its number differ by a multiple of `2 ^ 64`
  have hmod : (v.toUInt64.toNat : Int) % 128 = v.toInt % 128 := by
    have hbv : v.toInt = (v.toUInt64.toNat : Int).bmod (2 ^ 64) := by
      rw [← Int64.toInt_toBitVec, BitVec.toInt_eq_toNat_bmod]
      rfl
    have hcongr : v.toInt % 2 ^ 64 = v.toUInt64.toNat % 2 ^ 64 := by
      rw [hbv]
      exact Int.bmod_emod
    omega
  apply UInt8.toNat_inj.mp
  have hlow := toNat_low v.toInt
  rw [low, Int64.toUInt64_and, UInt64.toNat_toUInt8, UInt64.toNat_and]
  have hand : v.toUInt64.toNat &&& (0x7f : Int64).toUInt64.toNat = v.toUInt64.toNat % 128 :=
    Nat.and_two_pow_sub_one_eq_mod _ 7
  rw [hand]
  omega

/-- Nothing but sign is left above a group exactly when the word fits that group. -/
theorem closes_iff (v : Int64) :
    closes (low v) (v >>> 7) = true ↔ -64 ≤ v.toInt ∧ v.toInt < 64 := by
  rw [fits_iff, ← low_eq, ← toInt_shiftRight, closes]
  split
  · rw [decide_eq_true_iff, ← Int64.toInt_inj]
    rfl
  · rw [decide_eq_true_iff, ← Int64.toInt_inj]
    rfl

/-- The groups above the lowest one, put in order, are those of the integer, if there is room. -/
theorem higher_append (room : Nat) (v : Int64) (tail : List UInt8)
    (h : -(64 * 128 ^ room) ≤ v.toInt ∧ v.toInt < 64 * 128 ^ room) :
    (higher room v).reverse ++ tail
      = if -64 ≤ v.toInt ∧ v.toInt < 64 then tail else onto (v.toInt / 128) tail := by
  induction room generalizing v tail with
  | zero =>
    rw [pow_zero, mul_one] at h
    rw [higher, if_pos h, List.reverse_nil, List.nil_append]
  | succ room ih =>
    rw [higher]
    by_cases hc : -64 ≤ v.toInt ∧ v.toInt < 64
    · rw [if_pos ((closes_iff v).mpr hc), if_pos hc, List.reverse_nil, List.nil_append]
    · have habove := toInt_shiftRight v
      have hpow : (128 : Int) ^ (room + 1) = 128 ^ room * 128 := pow_succ _ _
      rw [if_neg (mt (closes_iff v).mp hc), if_neg hc, List.reverse_cons, List.append_assoc,
        List.singleton_append, ih _ _ (by omega), habove, low_eq, habove, onto.eq_1 (v.toInt / 128)]

/-- Nine groups above the lowest one hold all that is left of a word. -/
theorem room_suffices (v : Int64) :
    -(64 * 128 ^ (maxGroups - 1)) ≤ v.toInt ∧ v.toInt < 64 * 128 ^ (maxGroups - 1) := by
  have h := inRange_toInt v
  norm_num [maxGroups, InRange] at h ⊢
  omega

theorem toList_foldr_push (groups : List UInt8) (buffer : Array UInt8) :
    (groups.foldr (fun group out ↦ out.push group) buffer).toList
      = buffer.toList ++ groups.reverse := by
  induction groups with
  | nil => rw [List.foldr_nil, List.reverse_nil, List.append_nil]
  | cons group groups ih =>
    rw [List.foldr_cons, Array.toList_push, ih, List.reverse_cons, List.append_assoc]

/-- **Writing a word** appends the written form of its integer. -/
theorem toList_write (v : Int64) (buffer : Array UInt8) :
    (write v buffer).toList = buffer.toList ++ Groups.write v.toInt := by
  rw [write, Array.toList_push, toList_foldr_push, List.append_assoc,
    higher_append _ _ _ (room_suffices v), low_eq, Groups.write]

/-! ## Reading -/

theorem extend?_eq (v : Int64) (byte : UInt8) :
    extend? v byte = ofInt? (v.toInt * 128 + (byte &&& groupMask).toNat) := by
  have hlt := toNat_and_groupMask_lt byte
  rw [extend?]
  by_cases h : InRange (v.toInt * 128)
  · rw [ofInt?_of_inRange h, Option.bind_eq_bind, Option.bind_some, toInt_ofInt h]
  · -- a product out of range stays so: it is a multiple of 128 and so is the lower bound
    have hsum : ¬InRange (v.toInt * 128 + (byte &&& groupMask).toNat) := by
      rw [InRange] at h ⊢
      omega
    rw [ofInt?_of_not_inRange h, ofInt?_of_not_inRange hsum]
    rfl

theorem toInt_of_extend? {v w : Int64} {byte : UInt8} (h : extend? v byte = some w) :
    w.toInt = v.toInt * 128 + (byte &&& groupMask).toNat := by
  rw [extend?_eq] at h
  by_cases hin : InRange (v.toInt * 128 + (byte &&& groupMask).toNat)
  · rw [ofInt?_of_inRange hin, Option.some_inj] at h
    rw [← h, toInt_ofInt hin]
  · rw [ofInt?_of_not_inRange hin] at h
    exact absurd h (by simp)

/-- Groups never bring a number back into range. -/
theorem inRange_of_spelledOnto {acc : Int} {bytes : List UInt8}
    (h : InRange (spelledOnto acc bytes)) : InRange acc := by
  induction bytes generalizing acc with
  | nil => exact h
  | cons byte bytes ih =>
    have hlt := toNat_and_groupMask_lt byte
    have hstep : InRange (acc * 128 + (byte &&& groupMask).toNat) := by
      rw [spelledOnto] at h
      split at h
      · exact ih h
      · exact h
    rw [InRange] at hstep ⊢
    omega

theorem inRange_spelledOnto_of_append {acc : Int} {bytes more : List UInt8}
    (h : InRange (spelledOnto acc (bytes ++ more))) :
    InRange (spelledOnto acc bytes) := by
  induction bytes generalizing acc with
  | nil => exact inRange_of_spelledOnto h
  | cons byte bytes ih =>
    rw [List.cons_append, spelledOnto] at h
    rw [spelledOnto]
    split at h
    · rw [if_pos ‹_›]
      exact ih h
    · rw [if_neg ‹_›]
      exact h

/-- A number that is cut off and out of range stays so, whatever comes behind it. -/
theorem inRange_spelled_of_append {bytes more : List UInt8}
    (h : ∀ n ∈ spelled (bytes ++ more), InRange n) :
    ∀ n ∈ spelled bytes, InRange n := by
  intro n hn
  cases bytes with
  | nil => cases hn
  | cons byte bytes =>
    rw [spelled, Option.mem_def, Option.some_inj] at hn
    rw [List.cons_append, spelled] at h
    have hwhole := h _ rfl
    rw [← hn]
    exact inRange_spelledOnto_of_append hwhole

/-- A word with the position after it, as an integer with the bytes from there on. -/
def viewAt (data : Array UInt8) (r : Int64 × Nat) : Int × List UInt8 :=
  (r.1.toInt, data.toList.drop r.2)

theorem drop_eq_cons {data : Array UInt8} {pos : Nat} (h : pos < data.size) :
    data.toList.drop pos = data[pos] :: data.toList.drop (pos + 1) :=
  List.drop_eq_getElem_cons (by rwa [Array.length_toList])

theorem drop_eq_nil {data : Array UInt8} {pos : Nat} (h : ¬pos < data.size) :
    data.toList.drop pos = [] := by
  rw [List.drop_eq_nil_iff, Array.length_toList]
  exact Nat.le_of_not_lt h

theorem readOnto_view (data : Array UInt8) (pos : Nat) (acc : Int64) :
    (readOnto data pos acc).map (viewAt data)
      = if InRange (spelledOnto acc.toInt (data.toList.drop pos))
        then Groups.readOnto acc.toInt (data.toList.drop pos) else .error .integerOverflow := by
  fun_induction readOnto data pos acc with
  | case1 pos acc h hnone =>
    rw [extend?_eq] at hnone
    have hout : ¬InRange (acc.toInt * 128 + (data[pos] &&& groupMask).toNat) := by
      intro hin
      rw [ofInt?_of_inRange hin] at hnone
      exact absurd hnone (by simp)
    -- the range is left at this byte, and what follows cannot lead back into it
    rw [drop_eq_cons h, spelledOnto, if_neg]
    · rfl
    · split
      · exact mt inRange_of_spelledOnto hout
      · exact hout
  | case2 pos acc h acc' hsome hmark ih =>
    rw [drop_eq_cons h, spelledOnto, Groups.readOnto, if_pos hmark, if_pos hmark,
      ← toInt_of_extend? hsome, ih]
  | case3 pos acc h acc' hsome hmark =>
    rw [drop_eq_cons h, spelledOnto, Groups.readOnto, if_neg hmark, if_neg hmark,
      ← toInt_of_extend? hsome, if_pos (inRange_toInt acc')]
    rfl
  | case4 pos acc h =>
    rw [drop_eq_nil h, spelledOnto, if_pos (inRange_toInt acc)]
    rfl

/-- **Reading a word** is reading an integer, unless the number that the bytes spell is out of
range. -/
theorem readAt_view (data : Array UInt8) (pos : Nat) :
    (readAt data pos).map (viewAt data)
      = if ∀ n ∈ spelled (data.toList.drop pos), InRange n
        then Groups.read (data.toList.drop pos) else .error .integerOverflow := by
  by_cases h : pos < data.size
  · have hsign : ((if data[pos] &&& signBit = 0 then 0 else -1 : Int64)).toInt
        = if data[pos] &&& signBit = 0 then 0 else -1 := by
      split <;> rfl
    have hget : data[pos]? = some data[pos] := Array.getElem?_eq_getElem h
    rw [readAt, hget]
    dsimp only
    rw [readOnto_view, hsign, drop_eq_cons h, spelled, Groups.read]
    simp only [Option.mem_def, Option.some.injEq, forall_eq']
  · have hget : data[pos]? = none := Array.getElem?_eq_none (by omega)
    rw [readAt, hget, drop_eq_nil h, spelled, Groups.read, if_pos (by simp)]
    rfl

theorem readAt_of_inRange {data : Array UInt8} {pos : Nat} {bytes : List UInt8}
    (hbytes : data.toList.drop pos = bytes)
    (h : ∀ n ∈ spelled bytes, InRange n) :
    (readAt data pos).map (viewAt data) = Groups.read bytes := by
  rw [readAt_view, hbytes, if_pos h]

theorem readAt_of_not_inRange {data : Array UInt8} {pos : Nat} {bytes : List UInt8}
    (hbytes : data.toList.drop pos = bytes)
    (h : ¬∀ n ∈ spelled bytes, InRange n) : readAt data pos = .error .integerOverflow :=
  map_error (by rw [readAt_view, hbytes, if_neg h])

end SchemaCodec.Groups.Word
