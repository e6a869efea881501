/-
**The wire format of protocol buffers.**

A message is a sequence of fields, each a tag and a value: a number in base 128, low digits first,
where every byte but the last has its high bit set, or a string of bytes after its length.

Main definitions:

* `Wire.varint`, `Wire.varintField`, `Wire.bytesField` — the encoders;
* `Wire.readVarint`, `Wire.readVarintField`, `Wire.readBytesField` — the decoders, which return the
  value and the bytes after it.

Main results:

* `Wire.readVarint_varint`, `Wire.readVarintField_varintField`, `Wire.readBytesField_bytesField` — a
  decoder undoes its encoder, whatever bytes follow.

The lengths of the tags are those of fields numbered up to 15, which have one byte.
-/

import Mathlib.Data.List.Basic
import Mathlib.Data.Nat.Notation

set_option relaxedAutoImplicit false
set_option autoImplicit false

namespace Wire

/-- The digits of a number, at most `fuel + 1` of them. -/
def digits : ℕ → ℕ → List UInt8
  | 0, n => [n.toUInt8]
  | fuel + 1, n => if n < 128 then [n.toUInt8] else (n % 128 + 128).toUInt8 :: digits fuel (n / 128)

/-- A number in base 128. -/
def varint (n : ℕ) : List UInt8 := digits n n

/-- The number at the start of the bytes. -/
def readVarint : List UInt8 → Option (ℕ × List UInt8)
  | [] => none
  | b :: l =>
      if b.toNat < 128 then some (b.toNat, l)
      else (readVarint l).map fun r => (r.1 * 128 + (b.toNat - 128), r.2)

theorem toNat_toUInt8 {n : ℕ} (h : n < 256) : n.toUInt8.toNat = n := by
  simp [Nat.mod_eq_of_lt h]

theorem readVarint_digits (l : List UInt8) : ∀ fuel n, n ≤ fuel →
    readVarint (digits fuel n ++ l) = some (n, l) := by
  intro fuel
  induction fuel with
  | zero =>
      intro n hn
      obtain rfl : n = 0 := by omega
      simp [digits, readVarint]
  | succ fuel ih =>
      intro n hn
      rw [digits]
      rcases Nat.lt_or_ge n 128 with h | h
      · rw [if_pos h, List.singleton_append, readVarint, toNat_toUInt8 (by omega), if_pos h]
      · have hd : (n % 128 + 128).toUInt8.toNat = n % 128 + 128 := toNat_toUInt8 (by omega)
        rw [if_neg (by omega), List.cons_append, readVarint, hd, if_neg (by omega), ih _ (by omega)]
        simp only [Option.map_some, Option.some.injEq, Prod.mk.injEq, and_true]
        omega

/-- **Reading a number.** -/
theorem readVarint_varint (n : ℕ) (l : List UInt8) : readVarint (varint n ++ l) = some (n, l) :=
  readVarint_digits l n n (Nat.le_refl n)

/-- A tag that is expected. -/
def readTag (tag : UInt8) : List UInt8 → Option (List UInt8)
  | [] => none
  | b :: l => if b = tag then some l else none

/-- A field that holds a number. -/
def varintField (tag : UInt8) (n : ℕ) : List UInt8 := tag :: varint n

/-- A field that holds a string. -/
def bytesField (tag : UInt8) (b : List UInt8) : List UInt8 := tag :: (varint b.length ++ b)

/-- Reading a field that holds a number. -/
def readVarintField (tag : UInt8) (l : List UInt8) : Option (ℕ × List UInt8) :=
  (readTag tag l).bind readVarint

/-- Reading a field that holds a string. -/
def readBytesField (tag : UInt8) (l : List UInt8) : Option (List UInt8 × List UInt8) :=
  (readVarintField tag l).bind fun r =>
    if r.1 ≤ r.2.length then some (r.2.take r.1, r.2.drop r.1) else none

theorem readVarintField_varintField (tag : UInt8) (n : ℕ) (l : List UInt8) :
    readVarintField tag (varintField tag n ++ l) = some (n, l) := by
  simp [readVarintField, varintField, readTag, readVarint_varint]

theorem readBytesField_bytesField (tag : UInt8) (b l : List UInt8) :
    readBytesField tag (bytesField tag b ++ l) = some (b, l) := by
  simp [readBytesField, bytesField, readVarintField, readTag, readVarint_varint]

theorem length_bytesField_pos (tag : UInt8) (b : List UInt8) : 0 < (bytesField tag b).length :=
  Nat.succ_pos _

end Wire
