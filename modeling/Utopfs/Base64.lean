/-
**Base 64, line by line.**

`libutp/src/Base64.cpp` writes three bytes as four characters, each of which stands for six bits, and
fills up the last group with `=`.  The result has no line ends, so a text with one such string on each
line is read back as it was written.

Main definitions:

* `Base64.chars`, `Base64.encode`, `Base64.decode` — the two conversions;
* `Base64.getlines` — reading a text line by line.

Main results:

* `Base64.decode_encode` — decoding undoes encoding;
* `Base64.getlines_encode` — what is written line by line is read line by line.

The bit operations of the source are written as divisions and remainders by powers of two.
-/

import Mathlib.Data.List.Basic
import Mathlib.Data.Nat.Notation
import Mathlib.Tactic

set_option relaxedAutoImplicit false
set_option autoImplicit false

namespace Utopfs

namespace Base64

/-- `base64_chars` -/
def chars : List Char := "ABCDEFGHIJKLMNOPQRSTUVWXYZabcdefghijklmnopqrstuvwxyz0123456789+/".toList

/-- The character of six bits. -/
def char (n : ℕ) : Char := chars.getD n '='

/-- `is_base64` -/
def isBase64 (c : Char) : Bool := c.isAlphanum || c = '+' || c = '/'

/-- `Base64::encode` -/
def encode : List UInt8 → List Char
  | a :: b :: c :: l =>
      char (a.toNat / 4) :: char (a.toNat % 4 * 16 + b.toNat / 16) ::
        char (b.toNat % 16 * 4 + c.toNat / 64) :: char (c.toNat % 64) :: encode l
  | [a, b] =>
      [char (a.toNat / 4), char (a.toNat % 4 * 16 + b.toNat / 16), char (b.toNat % 16 * 4), '=']
  | [a] => [char (a.toNat / 4), char (a.toNat % 4 * 16), '=', '=']
  | [] => []

/-- The bytes of groups of four times six bits. -/
def decodeGroups : List ℕ → List UInt8
  | a :: b :: c :: d :: l =>
      (a * 4 + b / 16).toUInt8 :: (b % 16 * 16 + c / 4).toUInt8 :: (c % 4 * 64 + d).toUInt8 ::
        decodeGroups l
  | [a, b, c] => [(a * 4 + b / 16).toUInt8, (b % 16 * 16 + c / 4).toUInt8]
  | [a, b] => [(a * 4 + b / 16).toUInt8]
  | _ => []

/-- `Base64::decode`, which stops at the first character that it does not know. -/
def decode (l : List Char) : List UInt8 :=
  decodeGroups ((l.takeWhile fun c => c ≠ '=' && isBase64 c).map fun c => chars.idxOf c)

/-- The characters of six bits are known. -/
theorem char_spec : ∀ n < 64, (char n ≠ '=' && isBase64 (char n)) = true ∧ chars.idxOf (char n) = n ∧
    char n ≠ '\n' := by
  decide +kernel

theorem toUInt8_toNat (a : UInt8) {n : ℕ} (h : n = a.toNat) : n.toUInt8 = a := by
  rw [h]
  exact UInt8.ofNat_toNat

/-- The characters before the filling. -/
theorem takeWhile_chars (ns : List ℕ) (h : ∀ n ∈ ns, n < 64) {l : List Char}
    (hl : l.takeWhile (fun c => c ≠ '=' && isBase64 c) = []) :
    ((ns.map char ++ l).takeWhile fun c => c ≠ '=' && isBase64 c).map (fun c => chars.idxOf c) = ns := by
  induction ns with
  | nil => simp only [List.map_nil, List.nil_append, hl]
  | cons n ns ih =>
      obtain ⟨hknown, hidx, -⟩ := char_spec n (h n List.mem_cons_self)
      rw [List.map_cons, List.cons_append, List.takeWhile_cons_of_pos (by simpa using hknown),
        List.map_cons, hidx, ih fun m hm => h m (List.mem_cons_of_mem n hm)]

/-- The groups of six bits of a string of bytes, and how they are filled up. -/
theorem encode_eq (l : List UInt8) : ∃ ns fill, encode l = ns.map char ++ fill ∧ (∀ n ∈ ns, n < 64) ∧
    (∀ c ∈ fill, c = '=') ∧ decodeGroups ns = l := by
  induction l using encode.induct with
  | case1 a b c l ih =>
      obtain ⟨ns, fill, henc, hns, hfill, hdec⟩ := ih
      have ha := a.toNat_lt
      have hb := b.toNat_lt
      have hc := c.toNat_lt
      refine ⟨a.toNat / 4 :: (a.toNat % 4 * 16 + b.toNat / 16) ::
        (b.toNat % 16 * 4 + c.toNat / 64) :: c.toNat % 64 :: ns, fill, ?_, ?_, hfill, ?_⟩
      · simp [encode, henc]
      · simp only [List.mem_cons, forall_eq_or_imp]
        refine ⟨by omega, by omega, by omega, by omega, hns⟩
      · rw [decodeGroups, hdec, toUInt8_toNat a (by omega), toUInt8_toNat b (by omega),
          toUInt8_toNat c (by omega)]
  | case2 a b =>
      have ha := a.toNat_lt
      have hb := b.toNat_lt
      refine ⟨[a.toNat / 4, a.toNat % 4 * 16 + b.toNat / 16, b.toNat % 16 * 4], ['='], rfl, ?_,
        by simp, ?_⟩
      · simp only [List.mem_cons, List.not_mem_nil, forall_eq_or_imp]
        refine ⟨by omega, by omega, by omega, by simp⟩
      · rw [decodeGroups, toUInt8_toNat a (by omega), toUInt8_toNat b (by omega)]
  | case3 a =>
      have ha := a.toNat_lt
      refine ⟨[a.toNat / 4, a.toNat % 4 * 16], ['=', '='], rfl, ?_, by simp, ?_⟩
      · simp only [List.mem_cons, List.not_mem_nil, forall_eq_or_imp]
        refine ⟨by omega, by omega, by simp⟩
      · rw [decodeGroups, toUInt8_toNat a (by omega)]
  | case4 => exact ⟨[], [], rfl, by simp, by simp, rfl⟩

/-- **Decoding undoes encoding.** -/
theorem decode_encode (l : List UInt8) : decode (encode l) = l := by
  obtain ⟨ns, fill, henc, hns, hfill, hdec⟩ := encode_eq l
  have hstop : fill.takeWhile (fun c => c ≠ '=' && isBase64 c) = [] := by
    cases fill with
    | nil => rfl
    | cons c fill => simp [hfill c List.mem_cons_self]
  rw [decode, henc, takeWhile_chars ns hns hstop, hdec]

theorem newline_notMem_encode (l : List UInt8) : '\n' ∉ encode l := by
  obtain ⟨ns, fill, henc, hns, hfill, -⟩ := encode_eq l
  rw [henc, List.mem_append, not_or]
  constructor
  · intro hmem
    obtain ⟨n, hn, hchar⟩ := List.mem_map.1 hmem
    exact (char_spec n (hns n hn)).2.2 hchar
  · intro hmem
    exact absurd (hfill _ hmem) (by decide)

/-! ### Lines -/

/-- The lines that `getline` reads from a text. -/
def getlines : List Char → List (List Char)
  | [] => []
  | c :: l =>
      if c = '\n' then [] :: getlines l
      else
        match getlines l with
        | [] => [[c]]
        | x :: xs => (c :: x) :: xs

theorem getlines_line (x l : List Char) (h : '\n' ∉ x) :
    getlines (x ++ '\n' :: l) = x :: getlines l := by
  induction x with
  | nil => simp [getlines]
  | cons c x ih =>
      obtain ⟨hc, hx⟩ := not_or.1 (mt List.mem_cons.2 h)
      rw [List.cons_append, getlines, if_neg (Ne.symm hc), ih hx]

/-- The text with one string on each line. -/
def text (ls : List (List UInt8)) : List Char := ls.flatMap fun l => encode l ++ ['\n']

/-- **What is written line by line is read line by line.** -/
theorem getlines_text (ls : List (List UInt8)) : getlines (text ls) = ls.map encode := by
  induction ls with
  | nil => rfl
  | cons l ls ih =>
      have hcons : text (l :: ls) = encode l ++ '\n' :: text ls := by simp [text]
      rw [hcons, getlines_line _ _ (newline_notMem_encode l), ih, List.map_cons]

end Base64

end Utopfs
