import SchemaCodec.Proofs.Groups.Word

/-!
# Words against integers

The writer, the counter and the reader of words are loops of their own. Together they make no
difference to a format that is described by integers: a word has the bytes of its integer, the count
is the number of these bytes, and reading succeeds on exactly the integers that a word can hold.

## Room for the groups

The loops of the writer and of the counter run in a room for ten groups. An integer is written
without such a bound, so the equality of the two forms already says that no group is missing. That
the room is never what ends a loop is more: the loops end in the same way however much more room
there is.

## Where the range is left

A number that is cut off has no value in the end, and the reader still refuses it as too large if it
was too large by then. What counts is the number that the groups of some beginning of the bytes
spell. The whole of the bytes is the beginning to look at, since groups never lead back into the
range.
-/

namespace SchemaCodec.Groups.Word

/-! ## Counting groups -/

theorem length_higher_le (room : Nat) (v : Int64) : (higher room v).length ≤ room := by
  induction room generalizing v with
  | zero => exact Nat.le_refl 0
  | succ room ih =>
    rw [higher]
    split
    · exact Nat.zero_le _
    · rw [List.length_cons]
      exact Nat.succ_le_succ (ih _)

/-- The counter goes through the words that the writer goes through. -/
theorem countFrom_eq (room : Nat) (v : Int64) :
    countFrom room (low v) (v >>> 7) = (higher room v).length + 1 := by
  induction room generalizing v with
  | zero => rfl
  | succ room ih =>
    rw [countFrom, higher]
    split
    · rfl
    · rw [ih, List.length_cons]

/-- More room gives no more groups. -/
theorem higher_add (extra : Nat) (v : Int64) :
    higher (maxGroups - 1 + extra) v = higher (maxGroups - 1) v := by
  have hroom := room_suffices v
  have hpow : (128 : Int) ^ (maxGroups - 1) ≤ 128 ^ (maxGroups - 1 + extra) :=
    pow_le_pow_right₀ (by decide) (Nat.le_add_right _ _)
  have hwide := higher_append (maxGroups - 1 + extra) v [] (by omega)
  rw [← higher_append (maxGroups - 1) v [] hroom] at hwide
  exact List.reverse_inj.mp (List.append_cancel_right hwide)

theorem length_write (v : Int64) :
    (Groups.write v.toInt).length = (higher (maxGroups - 1) v).length + 1 := by
  have hwrite := toList_write v #[]
  rw [write, Array.toList_push, toList_foldr_push, List.nil_append, List.nil_append] at hwrite
  rw [← hwrite, List.length_append, List.length_reverse, List.length_singleton]

/-- **Writing within the room.** A word is written with the bytes of its integer, at most ten, and
counted as many. More room makes no difference to the groups or to the count. -/
theorem write_within (v : Int64) (buffer : Array UInt8) :
    (write v buffer).toList = buffer.toList ++ Groups.write v.toInt ∧
      (Groups.write v.toInt).length ≤ maxGroups ∧
      size v = (Groups.write v.toInt).length ∧
      ∀ extra, higher (maxGroups - 1 + extra) v = higher (maxGroups - 1) v ∧
        countFrom (maxGroups - 1 + extra) (low v) (v >>> 7) = size v := by
  have hsize : size v = (Groups.write v.toInt).length := by
    rw [size, countFrom_eq, length_write]
  refine ⟨toList_write v buffer, ?_, hsize, fun extra ↦ ⟨higher_add extra v, ?_⟩⟩
  · rw [length_write]
    exact Nat.succ_le_succ (length_higher_le _ v)
  · rw [countFrom_eq, higher_add, hsize, length_write]

/-! ## Positions -/

variable {data : Array UInt8} {pos stop : Nat} {acc v : Int64} {bytes : List UInt8}

theorem readOnto_pos (h : readOnto data pos acc = .ok (v, stop)) :
    pos < stop ∧ stop ≤ data.size := by
  fun_induction readOnto data pos acc with
  | case1 pos acc hlt hnone => cases h
  | case2 pos acc hlt acc' hsome hmark ih =>
    have hstop := ih h
    omega
  | case3 pos acc hlt acc' hsome hmark =>
    cases h
    omega
  | case4 pos acc hlt => cases h

/-- The position after a word is that of the bytes which are left. -/
theorem readAt_consumed (h : readAt data pos = .ok (v, stop)) :
    ∃ consumed, data.toList.drop pos = consumed ++ data.toList.drop stop ∧
      stop = pos + consumed.length := by
  have hstop : pos < stop ∧ stop ≤ data.size := by
    rw [readAt] at h
    split at h
    · cases h
    · exact readOnto_pos h
  refine ⟨(data.toList.drop pos).take (stop - pos), ?_, ?_⟩
  · have hdrop : data.toList.drop stop = (data.toList.drop pos).drop (stop - pos) := by
      rw [List.drop_drop, Nat.add_sub_cancel' hstop.1.le]
    rw [hdrop, List.take_append_drop]
  · rw [List.length_take, List.length_drop, Array.length_toList]
    omega

/-! ## Leaving the range -/

/-- Some beginning of the bytes spells a number out of range exactly when all of them do. -/
theorem exists_prefix_iff :
    (∃ p, p <+: bytes ∧ ∃ n ∈ spelled p, ¬InRange n) ↔ ¬∀ n ∈ spelled bytes, InRange n := by
  constructor
  · rintro ⟨p, ⟨more, rfl⟩, n, hn, hout⟩ hin
    exact hout (inRange_spelled_of_append hin n hn)
  · intro h
    push Not at h
    exact ⟨bytes, List.prefix_rfl, h⟩

/-- A word whose integer is read completely. -/
theorem readAt_of_read {n : Int} {rest : List UInt8} (hbytes : data.toList.drop pos = bytes)
    (hread : Groups.read bytes = .ok (n, rest)) (hn : InRange n) :
    ∃ v consumed, v.toInt = n ∧ bytes = consumed ++ rest ∧
      readAt data pos = .ok (v, pos + consumed.length) := by
  have hspelled : ∀ m ∈ spelled bytes, InRange m := by
    rw [spelled_of_read hread]
    rintro m ⟨⟩
    exact hn
  obtain ⟨⟨v, stop⟩, hat, hview⟩ := map_ok ((readAt_of_inRange hbytes hspelled).trans hread)
  obtain ⟨consumed, hsplit, rfl⟩ := readAt_consumed hat
  obtain ⟨rfl, rfl⟩ := Prod.mk.inj hview
  exact ⟨v, consumed, rfl, hbytes ▸ hsplit, hat⟩

/-- **The exact restriction.** Where an integer is read, a word is read from the same bytes if it
can hold the integer, and is too large otherwise. Where there is nothing to read, there is no word
either. Where the integer is cut off, so is the word, unless some beginning of the bytes spells a
number out of range, and then the word is too large. -/
theorem readAt_restricts (data : Array UInt8) (pos : Nat) (hbytes : data.toList.drop pos = bytes) :
    (∀ n rest, Groups.read bytes = .ok (n, rest) →
      (InRange n → ∃ v consumed, v.toInt = n ∧ bytes = consumed ++ rest ∧
        readAt data pos = .ok (v, pos + consumed.length)) ∧
      (¬InRange n → readAt data pos = .error .integerOverflow)) ∧
    (∀ needed available, Groups.read bytes = .error (.unexpectedEnd needed available) →
      readAt data pos = .error (.unexpectedEnd needed available)) ∧
    (Groups.read bytes = .error .unterminatedInteger →
      (readAt data pos = .error .unterminatedInteger ∨
        readAt data pos = .error .integerOverflow) ∧
      (readAt data pos = .error .integerOverflow ↔
        ∃ p, p <+: bytes ∧ ∃ n ∈ spelled p, ¬InRange n)) := by
  refine ⟨fun n rest hread ↦ ⟨readAt_of_read hbytes hread, fun hn ↦ ?_⟩,
    fun needed available hread ↦ ?_, fun hread ↦ ?_⟩
  · refine readAt_of_not_inRange hbytes fun hin ↦ hn ?_
    exact hin n (spelled_of_read hread)
  · cases bytes with
    | nil => exact map_error ((readAt_of_inRange hbytes (by simp [spelled])).trans hread)
    | cons byte bytes => cases readOnto_error hread
  · rw [exists_prefix_iff]
    by_cases hin : ∀ n ∈ spelled bytes, InRange n
    · have hat := map_error ((readAt_of_inRange hbytes hin).trans hread)
      refine ⟨.inl hat, fun hover ↦ ?_, fun hout ↦ absurd hin hout⟩
      rw [hat] at hover
      cases hover
    · have hat := readAt_of_not_inRange hbytes hin
      exact ⟨.inr hat, fun _ ↦ hin, fun _ ↦ hat⟩

/-- Two bytes with more behind them, the first number above the range, no byte at all, and that
number cut off. -/
theorem readAt_restricts_boundary :
    (∃ (v : Int64) (consumed : List UInt8), v.toInt = 64 ∧
      [0x00, 0xc0, 0xaa] = consumed ++ [0xaa] ∧
      readAt #[0x00, 0xc0, 0xaa] 0 = .ok (v, 0 + consumed.length)) ∧
    readAt #[0x01, 0, 0, 0, 0, 0, 0, 0, 0, 0x80] 0 = .error .integerOverflow ∧
    readAt #[] 0 = .error (.unexpectedEnd 1 0) ∧
    readAt #[0x01, 0, 0, 0, 0, 0, 0, 0, 0, 0] 0 = .error .integerOverflow := by
  have hread : Groups.read [0x00, 0xc0, 0xaa] = .ok (64, [0xaa]) := rfl
  have habove : Groups.read [0x01, 0, 0, 0, 0, 0, 0, 0, 0, 0x80] = .ok (2 ^ 63, []) := rfl
  have hnone : Groups.read [] = .error (.unexpectedEnd 1 0) := rfl
  have hcut : Groups.read [0x01, 0, 0, 0, 0, 0, 0, 0, 0, 0] = .error .unterminatedInteger := rfl
  refine ⟨((readAt_restricts #[0x00, 0xc0, 0xaa] 0 rfl).1 64 [0xaa] hread).1 (by decide),
    ((readAt_restricts #[0x01, 0, 0, 0, 0, 0, 0, 0, 0, 0x80] 0 rfl).1 _ [] habove).2 (by decide),
    (readAt_restricts #[] 0 rfl).2.1 1 0 hnone,
    ((readAt_restricts #[0x01, 0, 0, 0, 0, 0, 0, 0, 0, 0] 0 rfl).2.2 hcut).2.mpr ?_⟩
  exact ⟨_, List.prefix_rfl, 2 ^ 63, rfl, by decide⟩

end SchemaCodec.Groups.Word
