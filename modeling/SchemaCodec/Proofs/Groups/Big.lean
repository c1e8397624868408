import SchemaCodec.Groups.Big

/-!
# Reading groups back

What is read from the written form of an integer is the integer, and what stands behind it is left
alone. The bits of a byte are moved to arithmetic once, in the first section; after that a group is
a number below 128 and the marks are comparisons.

Reading is also told apart from what it reads: `spelled` is the number that the groups at the front
of the bytes stand for, whether or not an end mark closes them. A reader that gives up on large
numbers is compared by means of it.
-/

namespace SchemaCodec.Groups

/-! ## Bits of a byte -/

theorem toNat_and_groupMask (byte : UInt8) : (byte &&& groupMask).toNat = byte.toNat % 128 := by
  rw [UInt8.toNat_and]
  exact Nat.and_two_pow_sub_one_eq_mod byte.toNat 7

/-- A group is a digit in base 128. -/
theorem toNat_and_groupMask_lt (byte : UInt8) : (byte &&& groupMask).toNat < 128 := by
  rw [toNat_and_groupMask]
  exact Nat.mod_lt _ (by decide)

theorem and_endMark_eq_zero_iff (byte : UInt8) : byte &&& endMark = 0 ↔ byte.toNat < 128 := by
  have key : ∀ i : Fin 256, (i.val &&& 128 = 0 ↔ i.val < 128) := by decide +kernel
  rw [← UInt8.toNat_inj, UInt8.toNat_and]
  exact key ⟨byte.toNat, byte.toNat_lt⟩

theorem and_signBit_eq_zero_iff (byte : UInt8) : byte &&& signBit = 0 ↔ byte.toNat % 128 < 64 := by
  have key : ∀ i : Fin 256, (i.val &&& 64 = 0 ↔ i.val % 128 < 64) := by decide +kernel
  rw [← UInt8.toNat_inj, UInt8.toNat_and]
  exact key ⟨byte.toNat, byte.toNat_lt⟩

theorem toNat_or_endMark {byte : UInt8} (h : byte.toNat < 128) :
    (byte ||| endMark).toNat = byte.toNat + 128 := by
  have key : ∀ i : Fin 128, i.val ||| 128 = i.val + 128 := by decide +kernel
  rw [UInt8.toNat_or]
  exact key ⟨byte.toNat, h⟩

theorem toNat_low (n : Int) : ((low n).toNat : Int) = n % 128 := by
  rw [low, UInt8.toNat_ofNat']
  omega

theorem toNat_low_lt (n : Int) : (low n).toNat < 128 := by
  have := toNat_low n
  omega

theorem low_and_endMark (n : Int) : low n &&& endMark = 0 :=
  (and_endMark_eq_zero_iff _).mpr (toNat_low_lt n)

theorem toNat_low_and_groupMask (n : Int) : ((low n &&& groupMask).toNat : Int) = n % 128 := by
  rw [toNat_and_groupMask, Nat.mod_eq_of_lt (toNat_low_lt n), toNat_low]

theorem last_and_endMark (n : Int) : (low n ||| endMark) &&& endMark ≠ 0 := by
  rw [ne_eq, and_endMark_eq_zero_iff, toNat_or_endMark (toNat_low_lt n)]
  omega

theorem toNat_last_and_groupMask (n : Int) :
    (((low n ||| endMark) &&& groupMask).toNat : Int) = n % 128 := by
  have := toNat_low n
  rw [toNat_and_groupMask, toNat_or_endMark (toNat_low_lt n)]
  omega

/-! ## The number above the groups -/

/-- What reading starts from: the number that stands above all groups of `n`. -/
def sign (n : Int) : Int := if n < 0 then -1 else 0

theorem sign_div (n : Int) : sign (n / 128) = sign n := by
  rw [sign, sign]
  split <;> split <;> omega

/-- A number of one group is its group below its sign. -/
theorem sign_mul_add {n : Int} (h : -64 ≤ n ∧ n < 64) : sign n * 128 + n % 128 = n := by
  rw [sign]
  split <;> omega

/-- A number fits one group exactly when nothing but the sign of that group stands above it. -/
theorem fits_iff (n : Int) :
    -64 ≤ n ∧ n < 64 ↔ n / 128 = if low n &&& signBit = 0 then 0 else -1 := by
  have := toNat_low n
  simp only [and_signBit_eq_zero_iff]
  split <;> omega

theorem low_and_signBit {n : Int} (h : -64 ≤ n ∧ n < 64) :
    (if low n &&& signBit = 0 then 0 else -1) = sign n := by
  have := toNat_low n
  simp only [and_signBit_eq_zero_iff, sign]
  split <;> split <;> omega

theorem last_and_signBit {n : Int} (h : -64 ≤ n ∧ n < 64) :
    (if (low n ||| endMark) &&& signBit = 0 then 0 else -1) = sign n := by
  have := toNat_low n
  simp only [and_signBit_eq_zero_iff, toNat_or_endMark (toNat_low_lt n), sign]
  split <;> split <;> omega

/-! ## Reading what was written -/

theorem readOnto_low (acc n : Int) (rest : List UInt8) :
    readOnto acc (low n :: rest) = readOnto (acc * 128 + n % 128) rest := by
  rw [readOnto, if_pos (low_and_endMark n), toNat_low_and_groupMask]

theorem readOnto_last (acc n : Int) (rest : List UInt8) :
    readOnto acc ((low n ||| endMark) :: rest) = .ok (acc * 128 + n % 128, rest) := by
  rw [readOnto, if_neg (last_and_endMark n), toNat_last_and_groupMask]

/-- All groups of `n`, read on top of its sign, give `n` and leave the reader at what follows. -/
theorem readOnto_onto (n : Int) (tail : List UInt8) :
    readOnto (sign n) (onto n tail) = readOnto n tail := by
  fun_induction onto n tail with
  | case1 n tail h => rw [readOnto_low, sign_mul_add h]
  | case2 n tail h ih =>
    -- the groups above give `n / 128`, and this one goes below it
    rw [sign_div] at ih
    rw [ih, readOnto_low]
    congr 1
    omega

theorem onto_append (n : Int) (tail s : List UInt8) : onto n tail ++ s = onto n (tail ++ s) := by
  fun_induction onto n tail with
  | case1 n tail h => rw [onto, if_pos h, List.cons_append]
  | case2 n tail h ih => rw [ih, List.cons_append, onto.eq_1 n, if_neg h]

/-- The first group of `n` carries its sign. -/
theorem onto_eq_cons (n : Int) (tail : List UInt8) :
    ∃ byte rest, onto n tail = byte :: rest ∧
      (if byte &&& signBit = 0 then 0 else -1) = sign n := by
  fun_induction onto n tail with
  | case1 n tail h => exact ⟨low n, tail, rfl, low_and_signBit h⟩
  | case2 n tail h ih =>
    obtain ⟨byte, rest, heq, hsign⟩ := ih
    exact ⟨byte, rest, heq, by rw [hsign, sign_div]⟩

/-- The groups of `n` that are written, read on top of its sign, give `n`. -/
theorem readOnto_write (n : Int) (s : List UInt8) :
    readOnto (sign n) (write n ++ s) = .ok (n, s) := by
  rw [write]
  by_cases h : -64 ≤ n ∧ n < 64
  · simp only [if_pos h, List.cons_append, List.nil_append]
    rw [readOnto_last, sign_mul_add h]
  · simp only [if_neg h]
    rw [onto_append, ← sign_div, readOnto_onto, List.cons_append, List.nil_append, readOnto_last]
    congr 2
    omega

/-- The first byte that is written carries the sign. -/
theorem write_eq_cons (n : Int) :
    ∃ byte rest, write n = byte :: rest ∧
      (if byte &&& signBit = 0 then 0 else -1) = sign n := by
  by_cases h : -64 ≤ n ∧ n < 64
  · exact ⟨low n ||| endMark, [], by simp only [write, if_pos h], last_and_signBit h⟩
  · obtain ⟨byte, rest, heq, hsign⟩ := onto_eq_cons (n / 128) [low n ||| endMark]
    exact ⟨byte, rest, by simp only [write, if_neg h, heq], by rw [hsign, sign_div]⟩

/-- **Reading back.** The written form of an integer reads as the integer, whatever follows. -/
theorem read_write_append (n : Int) (s : List UInt8) : read (write n ++ s) = .ok (n, s) := by
  obtain ⟨byte, rest, heq, hsign⟩ := write_eq_cons n
  have hread := readOnto_write n s
  rw [heq, List.cons_append] at hread ⊢
  rw [read, hsign, hread]

/-! ## The number that bytes spell -/

/-- What groups make of a number read before, up to the end mark or the end of the bytes. -/
def spelledOnto (acc : Int) : List UInt8 → Int
  | [] => acc
  | byte :: rest =>
    let acc := acc * 128 + (byte &&& groupMask).toNat
    if byte &&& endMark = 0 then spelledOnto acc rest else acc

/-- The number that the groups at the front of the bytes spell, complete or cut off. No bytes spell
no number. -/
def spelled : List UInt8 → Option Int
  | [] => none
  | byte :: rest => some (spelledOnto (if byte &&& signBit = 0 then 0 else -1) (byte :: rest))

theorem spelledOnto_of_readOnto {acc n : Int} {bytes rest : List UInt8}
    (h : readOnto acc bytes = .ok (n, rest)) : spelledOnto acc bytes = n := by
  induction bytes generalizing acc with
  | nil => simp [readOnto] at h
  | cons byte bytes ih =>
    rw [readOnto] at h
    rw [spelledOnto]
    split at h
    · rw [if_pos ‹_›]
      exact ih h
    · rw [if_neg ‹_›]
      simp only [Except.ok.injEq, Prod.mk.injEq] at h
      exact h.1

theorem spelled_of_read {n : Int} {bytes rest : List UInt8} (h : read bytes = .ok (n, rest)) :
    spelled bytes = some n := by
  cases bytes with
  | nil => simp [read] at h
  | cons byte bytes => rw [spelled, spelledOnto_of_readOnto h]

/-! ## What stands behind a number -/

theorem readOnto_append {acc n : Int} {bytes rest : List UInt8}
    (h : readOnto acc bytes = .ok (n, rest)) (more : List UInt8) :
    readOnto acc (bytes ++ more) = .ok (n, rest ++ more) := by
  induction bytes generalizing acc with
  | nil => simp [readOnto] at h
  | cons byte bytes ih =>
    rw [readOnto] at h
    rw [List.cons_append, readOnto]
    split at h
    · rw [if_pos ‹_›]
      exact ih h
    · rw [if_neg ‹_›]
      simp only [Except.ok.injEq, Prod.mk.injEq] at h
      rw [h.1, h.2]

theorem read_append {n : Int} {bytes rest : List UInt8} (h : read bytes = .ok (n, rest))
    (more : List UInt8) : read (bytes ++ more) = .ok (n, rest ++ more) := by
  cases bytes with
  | nil => simp [read] at h
  | cons byte bytes => exact readOnto_append h more

/-! ## What is left after reading -/

theorem length_of_readOnto {acc n : Int} {bytes rest : List UInt8}
    (h : readOnto acc bytes = .ok (n, rest)) : rest.length < bytes.length := by
  induction bytes generalizing acc with
  | nil => simp [readOnto] at h
  | cons byte bytes ih =>
    rw [readOnto] at h
    rw [List.length_cons]
    split at h
    · have := ih h
      omega
    · simp only [Except.ok.injEq, Prod.mk.injEq] at h
      rw [h.2]
      omega

theorem length_of_read {n : Int} {bytes rest : List UInt8} (h : read bytes = .ok (n, rest)) :
    rest.length < bytes.length := by
  cases bytes with
  | nil => simp [read] at h
  | cons byte bytes => exact length_of_readOnto h

theorem readOnto_error {acc : Int} {bytes : List UInt8} {e : WireError}
    (h : readOnto acc bytes = .error e) : e = .unterminatedInteger := by
  induction bytes generalizing acc with
  | nil =>
    rw [readOnto] at h
    exact (Except.error.inj h).symm
  | cons byte bytes ih =>
    rw [readOnto] at h
    split at h
    · exact ih h
    · exact absurd h (by simp)

/-- Reading a number fails in two ways, and neither is about its size. -/
theorem read_error {bytes : List UInt8} {e : WireError} (h : read bytes = .error e) :
    e = .unexpectedEnd 1 0 ∨ e = .unterminatedInteger := by
  cases bytes with
  | nil =>
    rw [read] at h
    exact .inl (Except.error.inj h).symm
  | cons byte bytes => exact .inr (readOnto_error h)

end SchemaCodec.Groups
