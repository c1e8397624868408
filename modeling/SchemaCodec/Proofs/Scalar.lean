import Mathlib.Algebra.Ring.Nat
import SchemaCodec.Binary64
import SchemaCodec.Text

/-!
# Scalars as bytes

The two scalars whose bytes are fixed elsewhere: a text is its UTF-8 form, and a float is its word,
most significant byte first. Both come back from their bytes, and bytes that are read as one of them
are its bytes. For floats these are statements about words, so they cover the infinities, both zeros
and every NaN.
-/

namespace SchemaCodec

/-! ## Texts -/

@[simp] theorem Text.ofBytes?_toBytes (s : String) : Text.ofBytes? (Text.toBytes s) = some s := by
  have hvalid : ByteArray.IsValidUTF8 ⟨s.toByteArray.data.toList.toArray⟩ := s.isValidUTF8
  rw [ofBytes?, toBytes, String.fromUTF8?, dif_pos hvalid]
  rfl

theorem Text.toBytes_of_ofBytes? {bytes : List UInt8} {s : String}
    (h : Text.ofBytes? bytes = some s) : Text.toBytes s = bytes := by
  rw [ofBytes?, String.fromUTF8?] at h
  split at h
  · cases h
    rfl
  · cases h

/-! ## Floats -/

namespace Binary64

@[simp] theorem length_toBytes (x : Binary64) : x.toBytes.length = 8 := rfl

/-- A word without its last bytes, continued by the next byte of the same word. -/
theorem shiftRight_step (x : Binary64) {s t : UInt64} (hst : t.toNat = s.toNat + 8)
    (ht : t.toNat < 64) :
    ((x >>> t) <<< 8) ||| (x >>> s).toUInt8.toUInt64 = x >>> s := by
  apply UInt64.toNat_inj.mp
  have hlt : x.toNat / 2 ^ s.toNat < 2 ^ 64 :=
    Nat.lt_of_le_of_lt (Nat.div_le_self _ _) x.toNat_lt
  rw [UInt64.toNat_or, UInt64.toNat_shiftLeft, UInt64.toNat_shiftRight, UInt8.toNat_toUInt64,
    UInt64.toNat_toUInt8, UInt64.toNat_shiftRight, Nat.mod_eq_of_lt ht, hst,
    Nat.mod_eq_of_lt (show s.toNat < 64 by omega)]
  simp only [Nat.shiftRight_eq_div_pow, Nat.shiftLeft_eq]
  rw [Nat.pow_add, ← Nat.div_div_eq_div_mul]
  generalize x.toNat / 2 ^ s.toNat = y at hlt
  have hmul : y / 2 ^ 8 * 2 ^ ((8 : UInt64).toNat % 64) % 2 ^ 64 = 2 ^ 8 * (y / 2 ^ 8) := by
    rw [show (8 : UInt64).toNat % 64 = 8 from rfl]
    omega
  -- the shift leaves eight zeros, and the lower byte fills them
  rw [hmul, ← Nat.two_pow_add_eq_or_of_lt (Nat.mod_lt y (by decide))]
  exact Nat.div_add_mod y (2 ^ 8)

/-- The first byte has nothing above it. -/
theorem shiftRight_first (x : Binary64) :
    ((0 : UInt64) <<< 8) ||| (x >>> 56).toUInt8.toUInt64 = x >>> 56 := by
  apply UInt64.toNat_inj.mp
  have hlt := x.toNat_lt
  rw [UInt64.toNat_or, UInt8.toNat_toUInt64, UInt64.toNat_toUInt8, UInt64.toNat_shiftRight,
    show ((0 : UInt64) <<< 8).toNat = 0 from rfl, Nat.zero_or, Nat.shiftRight_eq_div_pow,
    show (56 : UInt64).toNat % 64 = 56 from rfl]
  omega

@[simp] theorem ofBytes_toBytes (x : Binary64) : ofBytes x.toBytes = x := by
  simp only [ofBytes, toBytes, List.map_cons, List.map_nil, List.foldl_cons, List.foldl_nil]
  rw [shiftRight_first, shiftRight_step x rfl (by decide), shiftRight_step x rfl (by decide),
    shiftRight_step x rfl (by decide), shiftRight_step x rfl (by decide),
    shiftRight_step x rfl (by decide), shiftRight_step x rfl (by decide),
    shiftRight_step x rfl (by decide)]
  exact UInt64.shiftRight_zero

/-- One more byte behind a word that leaves room for it. -/
theorem toNat_pushByte {word : UInt64} (h : word.toNat < 2 ^ 56) (byte : UInt8) :
    ((word <<< 8) ||| byte.toUInt64).toNat = word.toNat * 256 + byte.toNat := by
  have hmod : word.toNat * 2 ^ 8 % 2 ^ 64 = 2 ^ 8 * word.toNat := by omega
  rw [UInt64.toNat_or, UInt64.toNat_shiftLeft, UInt8.toNat_toUInt64,
    show (8 : UInt64).toNat % 64 = 8 from rfl, Nat.shiftLeft_eq, hmod,
    ← Nat.two_pow_add_eq_or_of_lt byte.toNat_lt]
  omega

/-- Bytes behind a word that leaves room for all of them are digits in base 256. -/
theorem toNat_pushBytes {word : UInt64} {bytes : List UInt8} {room : Nat}
    (h : word.toNat < 256 ^ room) (hroom : room + bytes.length ≤ 8) :
    (bytes.foldl (fun (word : UInt64) byte ↦ (word <<< 8) ||| byte.toUInt64) word).toNat
      = bytes.foldl (fun n byte ↦ n * 256 + byte.toNat) word.toNat := by
  induction bytes generalizing word room with
  | nil => rfl
  | cons byte bytes ih =>
    rw [List.length_cons] at hroom
    have hlt : word.toNat < 2 ^ 56 :=
      Nat.lt_of_lt_of_le h (Nat.pow_le_pow_right (by decide) (show room ≤ 7 by omega))
    have hpush := toNat_pushByte hlt byte
    have hbyte := byte.toNat_lt
    have hnext : ((word <<< 8) ||| byte.toUInt64).toNat < 256 ^ (room + 1) := by
      rw [hpush, Nat.pow_succ]
      omega
    rw [List.foldl_cons, List.foldl_cons, ih hnext (by omega), hpush]

theorem toNat_byteAt (x : Binary64) {shift : UInt64} (h : shift.toNat < 64) :
    (x >>> shift).toUInt8.toNat = x.toNat / 2 ^ shift.toNat % 256 := by
  rw [UInt64.toNat_toUInt8, UInt64.toNat_shiftRight, Nat.mod_eq_of_lt h,
    Nat.shiftRight_eq_div_pow]

theorem toBytes_ofBytes {bytes : List UInt8} (h : bytes.length = 8) :
    (ofBytes bytes).toBytes = bytes := by
  have hzero : (0 : UInt64).toNat < 256 ^ 0 := by decide
  have hword : (ofBytes bytes).toNat = bytes.foldl (fun n byte ↦ n * 256 + byte.toNat) 0 :=
    toNat_pushBytes hzero (by omega)
  match bytes, h with
  | [a, b, c, d, e, f, g, i], _ =>
    have hlt : ∀ byte : UInt8, byte.toNat < 256 := UInt8.toNat_lt
    have ha := hlt a
    have hb := hlt b
    have hc := hlt c
    have hd := hlt d
    have he := hlt e
    have hf := hlt f
    have hg := hlt g
    have hi := hlt i
    simp only [List.foldl_cons, List.foldl_nil] at hword
    generalize ofBytes [a, b, c, d, e, f, g, i] = x at hword
    have hat := fun (shift : UInt64) (h : shift.toNat < 64) ↦ toNat_byteAt x h
    simp only [toBytes, List.map_cons, List.map_nil, List.cons.injEq, ← UInt8.toNat_inj]
    rw [hat 56 (by decide), hat 48 (by decide), hat 40 (by decide), hat 32 (by decide),
      hat 24 (by decide), hat 16 (by decide), hat 8 (by decide), hat 0 (by decide), hword]
    simp
    omega

end Binary64

end SchemaCodec
