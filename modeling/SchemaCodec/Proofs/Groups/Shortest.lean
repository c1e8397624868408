import SchemaCodec.Proofs.Groups.Big

/-!
# The written form is the shortest

Whatever reads as an integer is its written form behind groups that only repeat its sign. So the
written form is shorter than anything else that reads as the same integer. Such sign groups can be
put in front at will, and neither they nor the groups above the last one carry the end mark.

The proof follows the reader. What has been read so far is kept as the groups of the number read so
far, behind such sign groups; one more group either extends the number, or leaves a number of one
group, and then the group before it was one of sign.
-/

namespace SchemaCodec.Groups

variable {acc n : Int} {byte : UInt8} {bytes rest : List UInt8}

/-! ## One more group -/

theorem div_group (acc : Int) (byte : UInt8) :
    (acc * 128 + (byte &&& groupMask).toNat) / 128 = acc := by
  have hlt := toNat_and_groupMask_lt byte
  omega

theorem low_group (acc : Int) (byte : UInt8) :
    (low (acc * 128 + (byte &&& groupMask).toNat)).toNat = byte.toNat % 128 := by
  have hlow := toNat_low (acc * 128 + (byte &&& groupMask).toNat)
  rw [toNat_and_groupMask] at hlow ⊢
  omega

theorem sign_group (acc : Int) (byte : UInt8) :
    sign (acc * 128 + (byte &&& groupMask).toNat) = sign acc := by
  rw [← sign_div, div_group]

theorem low_group_of_unmarked (acc : Int) (h : byte &&& endMark = 0) :
    low (acc * 128 + (byte &&& groupMask).toNat) = byte := by
  rw [and_endMark_eq_zero_iff] at h
  rw [← UInt8.toNat_inj, low_group, Nat.mod_eq_of_lt h]

theorem low_group_of_marked (acc : Int) (h : byte &&& endMark ≠ 0) :
    low (acc * 128 + (byte &&& groupMask).toNat) ||| endMark = byte := by
  rw [ne_eq, and_endMark_eq_zero_iff] at h
  have hbyte := byte.toNat_lt
  rw [← UInt8.toNat_inj, toNat_or_endMark (toNat_low_lt _), low_group]
  omega

/-- What stands above a number of one group is its sign. -/
theorem eq_sign_of_fits {n : Int} (h : -64 ≤ n ∧ n < 64) : n / 128 = sign n := by
  rw [sign]
  split <;> omega

theorem sign_fits (n : Int) : -64 ≤ sign n ∧ sign n < 64 := by
  rw [sign]
  split <;> omega

/-- The groups of a number, followed by one group, are those of the extended number, behind a sign
group if one group suffices for it. -/
theorem onto_group (acc : Int) (h : byte &&& endMark = 0) (tail : List UInt8) :
    ∃ k, onto acc (byte :: tail)
      = List.replicate k (low (sign acc)) ++
        onto (acc * 128 + (byte &&& groupMask).toNat) tail := by
  have hdiv := div_group acc byte
  have hlow := low_group_of_unmarked acc h
  have hsign := sign_group acc byte
  generalize acc * 128 + ((byte &&& groupMask).toNat : Int) = m at hdiv hlow hsign ⊢
  by_cases hfits : -64 ≤ m ∧ m < 64
  · refine ⟨1, ?_⟩
    have hacc : acc = sign acc := by rw [← hsign, ← eq_sign_of_fits hfits, hdiv]
    rw [onto.eq_1 m, if_pos hfits, hlow, onto, if_pos (hacc ▸ sign_fits acc), ← hacc]
    rfl
  · refine ⟨0, ?_⟩
    rw [onto.eq_1 m, if_neg hfits, hdiv, hlow]
    rfl

/-- Likewise for the last group. -/
theorem onto_last (acc : Int) (h : byte &&& endMark ≠ 0) :
    ∃ k, onto acc [byte]
      = List.replicate k (low (sign acc)) ++ write (acc * 128 + (byte &&& groupMask).toNat) := by
  have hdiv := div_group acc byte
  have hlow := low_group_of_marked acc h
  have hsign := sign_group acc byte
  generalize acc * 128 + ((byte &&& groupMask).toNat : Int) = m at hdiv hlow hsign ⊢
  rw [write, hlow]
  by_cases hfits : -64 ≤ m ∧ m < 64
  · refine ⟨1, ?_⟩
    have hacc : acc = sign acc := by rw [← hsign, ← eq_sign_of_fits hfits, hdiv]
    rw [onto, if_pos (hacc ▸ sign_fits acc), ← hacc]
    simp only [if_pos hfits]
    rfl
  · refine ⟨0, ?_⟩
    simp only [if_neg hfits, hdiv]
    rfl

/-! ## All groups -/

/-- What is read on top of a number, put behind the groups of that number, is the written form of
the result behind sign groups. -/
theorem onto_of_readOnto (h : readOnto acc bytes = .ok (n, rest)) :
    sign n = sign acc ∧ ∃ consumed k, bytes = consumed ++ rest ∧
      onto acc consumed = List.replicate k (low (sign n)) ++ write n := by
  induction bytes generalizing acc with
  | nil => simp [readOnto] at h
  | cons byte bytes ih =>
    rw [readOnto] at h
    split at h
    · next hmark =>
      obtain ⟨hsign, consumed, k, rfl, hconsumed⟩ := ih h
      rw [sign_group] at hsign
      obtain ⟨j, hgroup⟩ := onto_group acc hmark consumed
      refine ⟨hsign, byte :: consumed, j + k, rfl, ?_⟩
      rw [hgroup, hconsumed, hsign, ← List.append_assoc, List.replicate_append_replicate]
    · next hmark =>
      cases h
      obtain ⟨k, hlast⟩ := onto_last acc hmark
      exact ⟨sign_group acc byte, [byte], k, rfl, by rw [hlast, sign_group]⟩

/-- The first byte is a number of one group, since reading starts from its sign. -/
theorem first_fits (byte : UInt8) :
    -64 ≤ (if byte &&& signBit = 0 then 0 else -1 : Int) * 128 + (byte &&& groupMask).toNat ∧
      (if byte &&& signBit = 0 then 0 else -1 : Int) * 128 + (byte &&& groupMask).toNat < 64 := by
  have hlt := toNat_and_groupMask_lt byte
  simp only [and_signBit_eq_zero_iff, toNat_and_groupMask] at hlt ⊢
  split <;> omega

/-- **Shortest form.** What reads as an integer is its written form behind sign groups. -/
theorem eq_write_of_read (h : read bytes = .ok (n, rest)) :
    ∃ k, bytes = List.replicate k (low (sign n)) ++ write n ++ rest := by
  cases bytes with
  | nil => simp [read] at h
  | cons byte bytes =>
    have hfits := first_fits byte
    rw [read] at h
    generalize (if byte &&& signBit = 0 then 0 else -1 : Int) = start at h hfits
    rw [readOnto] at h
    split at h
    · next hmark =>
      -- the groups of the number read so far are this byte
      obtain ⟨-, consumed, k, rfl, hconsumed⟩ := onto_of_readOnto h
      rw [onto, if_pos hfits, low_group_of_unmarked start hmark] at hconsumed
      exact ⟨k, by rw [← hconsumed, List.cons_append]⟩
    · next hmark =>
      cases h
      refine ⟨0, ?_⟩
      simp only [write, if_pos hfits, low_group_of_marked start hmark]
      rfl

/-! ## Sign groups -/

/-- The group that only repeats the sign of a number. -/
def signGroup (n : Int) : UInt8 := if 0 ≤ n then 0x00 else 0x7f

theorem sign_sign (n : Int) : sign (sign n) = sign n := by
  by_cases h : n < 0 <;> simp [sign, h]

theorem low_sign (n : Int) : low (sign n) = signGroup n := by
  rw [sign, signGroup]
  split
  · rw [if_neg (by omega)]
    rfl
  · rw [if_pos (by omega)]
    rfl

/-- A sign group changes nothing about a number of which only the sign has been read. -/
theorem readOnto_signGroups (n : Int) (k : Nat) (bytes : List UInt8) :
    readOnto (sign n) (List.replicate k (signGroup n) ++ bytes) = readOnto (sign n) bytes := by
  induction k with
  | zero => rfl
  | succ k ih =>
    have hgroup : sign n * 128 + sign n % 128 = sign n := by
      have hfits := sign_mul_add (sign_fits n)
      rwa [sign_sign] at hfits
    rw [List.replicate_succ, List.cons_append, ← low_sign, readOnto_low, hgroup, low_sign, ih]

theorem read_signGroups (n : Int) (k : Nat) (s : List UInt8) :
    read (List.replicate k (signGroup n) ++ (write n ++ s)) = .ok (n, s) := by
  cases k with
  | zero => exact read_write_append n s
  | succ k =>
    have hread := readOnto_signGroups n (k + 1) (write n ++ s)
    rw [List.replicate_succ, List.cons_append] at hread ⊢
    rw [read, ← low_sign, low_and_signBit (sign_fits n), sign_sign, low_sign, hread, readOnto_write]

/-! ## The end mark -/

theorem onto_unmarked (n : Int) {tail : List UInt8} (h : ∀ group ∈ tail, group &&& endMark = 0) :
    ∀ group ∈ onto n tail, group &&& endMark = 0 := by
  fun_induction onto n tail with
  | case1 n tail hfits => exact List.forall_mem_cons.mpr ⟨low_and_endMark n, h⟩
  | case2 n tail hfits ih => exact ih (List.forall_mem_cons.mpr ⟨low_and_endMark n, h⟩)

/-- The last byte that is written is marked, and none before it is. -/
theorem write_eq_append (n : Int) :
    ∃ groups last, write n = groups ++ [last] ∧ (∀ group ∈ groups, group &&& endMark = 0) ∧
      last &&& endMark ≠ 0 := by
  by_cases h : -64 ≤ n ∧ n < 64
  · exact ⟨[], low n ||| endMark, by simp only [write, if_pos h, List.nil_append],
      by simp, last_and_endMark n⟩
  · refine ⟨onto (n / 128) [], low n ||| endMark, ?_, onto_unmarked _ (by simp), last_and_endMark n⟩
    rw [onto_append, List.nil_append]
    simp only [write, if_neg h]

/-! ## The written form among all that read the same -/

/-- **Round trip and minimality.** The written form of an integer reads as the integer, whatever
follows. The bytes that read completely as the integer are its written form behind any number of
sign groups, so all others are longer. Only the last byte written carries the end mark. -/
theorem write_minimal (n : Int) :
    (∀ s, read (write n ++ s) = .ok (n, s)) ∧
      (∀ bytes, read bytes = .ok (n, []) ↔
        ∃ k, bytes = List.replicate k (signGroup n) ++ write n) ∧
      (∀ bytes, read bytes = .ok (n, []) → bytes ≠ write n →
        (write n).length < bytes.length) ∧
      ∃ groups last, write n = groups ++ [last] ∧ (∀ group ∈ groups, group &&& endMark = 0) ∧
        last &&& endMark ≠ 0 := by
  have hform : ∀ bytes, read bytes = .ok (n, []) →
      ∃ k, bytes = List.replicate k (signGroup n) ++ write n := by
    intro bytes h
    obtain ⟨k, hbytes⟩ := eq_write_of_read h
    exact ⟨k, by rwa [List.append_nil, low_sign] at hbytes⟩
  refine ⟨read_write_append n, fun bytes ↦ ⟨hform bytes, ?_⟩, ?_, write_eq_append n⟩
  · rintro ⟨k, rfl⟩
    have hread := read_signGroups n k []
    rwa [List.append_nil] at hread
  · intro bytes h hne
    obtain ⟨k, rfl⟩ := hform bytes h
    have hk : k ≠ 0 := by
      rintro rfl
      exact hne rfl
    rw [List.length_append, List.length_replicate]
    omega

/-- The number 64 needs a second group, since the sign bit of the first would make it negative; a
third one is too many. -/
theorem write_minimal_sixtyFour :
    write 64 = [0x00, 0xc0] ∧ read [0x00, 0x00, 0xc0] = .ok (64, []) ∧
      (write 64).length < [0x00, 0x00, 0xc0].length := by
  have hwrite : write 64 = [0x00, 0xc0] := by cbv
  have hne : [0x00, 0x00, 0xc0] ≠ write 64 := by rw [hwrite]; decide
  exact ⟨hwrite, rfl, (write_minimal 64).2.2.1 [0x00, 0x00, 0xc0] rfl hne⟩

end SchemaCodec.Groups
