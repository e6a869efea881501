/-
**Base 32, and the names of the files and objects that hold blocks.**

`libutp/src/Base32.cpp` writes five bytes as eight characters, each of which stands for five bits.  A
last chunk of fewer bytes gives fewer characters, and is filled up with `=`.

`FSBlockStore` and `S3BlockStore` name a block by the Base 32 form of its key.  The marks of the refresh
cycles, `RID-<number>` and `MARK`, lie in the same directory or under the same prefix.

Main definitions:

* `Base32.base32map`, `Base32.chunkEncode`, `Base32.encode` — the conversion;
* `FSBS.Name.text`, `FSBS.blockpath` — the names and the paths of the files;
* `S3BS.Name.text` — the names of the objects and of their entries.

Main results:

* `Base32.encode_injective`, `Base32.length_encode`, `Base32.mem_encode` — the form of the result;
* `FSBS.Name.text_injective`, `S3BS.Name.text_injective` — different things have different names.
-/

import Mathlib.Data.List.Basic
import Mathlib.Data.Nat.Notation
import Mathlib.Tactic
import Utopfs.FSBlockStore
import Utopfs.S3BlockStore

set_option relaxedAutoImplicit false
set_option autoImplicit false

namespace Utopfs

namespace Base32

/-! ### The conversion -/

/-- `base32map` -/
def base32map : List Char := "ABCDEFGHIJKLMNOPQRSTUVWXYZ234567".toList

/-- `MAP(x)` -/
def map (x : UInt8) : Char := base32map.getD x.toNat '='

/-- The characters of a chunk of `sz` bytes that are in `inbuf`, before the padding. -/
def chunkChars (sz : ℕ) (inbuf : ℕ → UInt8) : List Char :=
  (if 0 < sz then
    [map ((inbuf 0 &&& 0xf8) >>> 3), map (((inbuf 0 &&& 0x07) <<< 2) ||| ((inbuf 1 &&& 0xc0) >>> 6))]
  else []) ++
  (if 1 < sz then
    [map ((inbuf 1 &&& 0x3e) >>> 1), map (((inbuf 1 &&& 0x01) <<< 4) ||| ((inbuf 2 &&& 0xf0) >>> 4))]
  else []) ++
  (if 2 < sz then [map (((inbuf 2 &&& 0x0f) <<< 1) ||| ((inbuf 3 &&& 0x80) >>> 7))] else []) ++
  (if 3 < sz then
    [map ((inbuf 3 &&& 0x7c) >>> 2), map (((inbuf 3 &&& 0x03) <<< 3) ||| ((inbuf 4 &&& 0xe0) >>> 5))]
  else []) ++
  if 4 < sz then [map (inbuf 4 &&& 0x1f)] else []

/-- `chunkEncode`: the characters of the first five bytes, or of all where there are fewer, and what is
left. -/
def chunkEncode (l : List UInt8) : List Char × List UInt8 :=
  let out := chunkChars (l.take 5).length fun i => (l.take 5).getD i 0
  (out ++ List.replicate (8 - out.length) '=', l.drop 5)

/-- The loop of `Base32::encode`. -/
def encode : List UInt8 → List Char
  | [] => []
  | x :: l => (chunkEncode (x :: l)).1 ++ encode (chunkEncode (x :: l)).2
termination_by l => l.length
decreasing_by
  simp only [chunkEncode, List.length_drop, List.length_cons]
  omega

/-! ### Groups of five bits -/

/-- The character of five bits. -/
def char (n : ℕ) : Char := base32map.getD n '='

theorem char_spec : ∀ n < 32, char n ≠ '=' ∧ base32map.idxOf (char n) = n ∧ char n ∈ base32map := by
  decide +kernel

/-- A property of all bytes, one by one. -/
theorem forall_byte {p : UInt8 → Prop} (h : ∀ n < 256, p (UInt8.ofNat n)) (b : UInt8) : p b := by
  have hb := h b.toNat b.toNat_lt
  rwa [UInt8.ofNat_toNat] at hb

/-- Five bits of one byte. -/
theorem masks (b : UInt8) : ((b &&& 0xf8) >>> 3).toNat = b.toNat / 8 ∧
    ((b &&& 0x3e) >>> 1).toNat = b.toNat / 2 % 32 ∧ ((b &&& 0x7c) >>> 2).toNat = b.toNat / 4 % 32 ∧
    (b &&& 0x1f).toNat = b.toNat % 32 := by
  revert b
  exact forall_byte (by decide +kernel)

/-- The low bits of a byte, in the place of the high bits of a group. -/
theorem masks_low (b : UInt8) : ((b &&& 0x07) <<< 2).toNat = b.toNat % 8 * 4 ∧
    ((b &&& 0x01) <<< 4).toNat = b.toNat % 2 * 16 ∧ ((b &&& 0x0f) <<< 1).toNat = b.toNat % 16 * 2 ∧
    ((b &&& 0x03) <<< 3).toNat = b.toNat % 4 * 8 := by
  revert b
  exact forall_byte (by decide +kernel)

/-- The high bits of a byte, in the place of the low bits of a group. -/
theorem masks_high (b : UInt8) : ((b &&& 0xc0) >>> 6).toNat = b.toNat / 64 ∧
    ((b &&& 0xf0) >>> 4).toNat = b.toNat / 16 ∧ ((b &&& 0x80) >>> 7).toNat = b.toNat / 128 ∧
    ((b &&& 0xe0) >>> 5).toNat = b.toNat / 32 := by
  revert b
  exact forall_byte (by decide +kernel)

/-- Bits in different places. -/
theorem toNat_or {x y : UInt8} {u v : ℕ} (k : ℕ) (hx : x.toNat = u * 2 ^ k) (hy : y.toNat = v) (hv : v < 2 ^ k) :
    (x ||| y).toNat = u * 2 ^ k + v := by
  rw [UInt8.toNat_or, hx, hy, Nat.mul_comm, Nat.two_pow_add_eq_or_of_lt hv]

/-- The groups of a chunk of `sz` bytes. -/
def groups (sz : ℕ) (inbuf : ℕ → UInt8) : List ℕ :=
  (if 0 < sz then [(inbuf 0).toNat / 8, (inbuf 0).toNat % 8 * 4 + (inbuf 1).toNat / 64] else []) ++
  (if 1 < sz then [(inbuf 1).toNat / 2 % 32, (inbuf 1).toNat % 2 * 16 + (inbuf 2).toNat / 16] else []) ++
  (if 2 < sz then [(inbuf 2).toNat % 16 * 2 + (inbuf 3).toNat / 128] else []) ++
  (if 3 < sz then [(inbuf 3).toNat / 4 % 32, (inbuf 3).toNat % 4 * 8 + (inbuf 4).toNat / 32] else []) ++
  if 4 < sz then [(inbuf 4).toNat % 32] else []

/-- **The masks of the source cut a chunk into groups of five bits.** -/
theorem chunkChars_eq (sz : ℕ) (inbuf : ℕ → UInt8) : chunkChars sz inbuf = (groups sz inbuf).map char := by
  have h₁ := toNat_or 2 (masks_low (inbuf 0)).1 (masks_high (inbuf 1)).1 (by have := (inbuf 1).toNat_lt; omega)
  have h₃ := toNat_or 4 (masks_low (inbuf 1)).2.1 (masks_high (inbuf 2)).2.1
    (by have := (inbuf 2).toNat_lt; omega)
  have h₄ := toNat_or 1 (masks_low (inbuf 2)).2.2.1 (masks_high (inbuf 3)).2.2.1
    (by have := (inbuf 3).toNat_lt; omega)
  have h₆ := toNat_or 3 (masks_low (inbuf 3)).2.2.2 (masks_high (inbuf 4)).2.2.2
    (by have := (inbuf 4).toNat_lt; omega)
  have hchar : ∀ x : UInt8, map x = char x.toNat := fun _ => rfl
  simp only [chunkChars, groups, hchar, (masks _).1, (masks _).2.1, (masks _).2.2.1, (masks _).2.2.2, h₁, h₃, h₄,
    h₆, Nat.reducePow, List.map_append, apply_ite (List.map char), List.map_cons, List.map_nil]

theorem length_groups {sz : ℕ} (hsz : sz ≤ 5) (inbuf : ℕ → UInt8) : (groups sz inbuf).length ≤ 8 := by
  interval_cases sz <;> simp [groups]

/-- The groups have five bits. -/
theorem groups_lt (sz : ℕ) (inbuf : ℕ → UInt8) : ∀ n ∈ groups sz inbuf, n < 32 := by
  have h := fun i => (inbuf i).toNat_lt
  have h₀ := h 0
  have h₁ := h 1
  have h₂ := h 2
  have h₃ := h 3
  have h₄ := h 4
  intro n hn
  simp only [groups, List.mem_append, List.mem_ite_nil_right, List.mem_cons, List.not_mem_nil, or_false] at hn
  omega

/-- The bytes of groups of eight times five bits; the last groups may be fewer. -/
def ungroup : List ℕ → List UInt8
  | a :: b :: c :: d :: e :: f :: g :: h :: l =>
      (a * 8 + b / 4).toUInt8 :: (b % 4 * 64 + c * 2 + d / 16).toUInt8 :: (d % 16 * 16 + e / 2).toUInt8 ::
        (e % 2 * 128 + f * 4 + g / 8).toUInt8 :: (g % 8 * 32 + h).toUInt8 :: ungroup l
  | [a, b, c, d, e, f, g] =>
      [(a * 8 + b / 4).toUInt8, (b % 4 * 64 + c * 2 + d / 16).toUInt8, (d % 16 * 16 + e / 2).toUInt8,
        (e % 2 * 128 + f * 4 + g / 8).toUInt8]
  | [a, b, c, d, e] =>
      [(a * 8 + b / 4).toUInt8, (b % 4 * 64 + c * 2 + d / 16).toUInt8, (d % 16 * 16 + e / 2).toUInt8]
  | [a, b, c, d] => [(a * 8 + b / 4).toUInt8, (b % 4 * 64 + c * 2 + d / 16).toUInt8]
  | [a, b] => [(a * 8 + b / 4).toUInt8]
  | _ => []

/-- Reading the groups of a result, up to the padding. -/
def decode (l : List Char) : List UInt8 :=
  ungroup ((l.takeWhile fun c => c ≠ '=').map fun c => base32map.idxOf c)

theorem toUInt8_toNat {n : ℕ} {b : UInt8} (h : n = b.toNat) : n.toUInt8 = b := by
  rw [h]
  exact UInt8.ofNat_toNat

/-- The groups before the padding. -/
theorem decode_groups {ns : List ℕ} (hns : ∀ n ∈ ns, n < 32) (k : ℕ) :
    decode (ns.map char ++ List.replicate k '=') = ungroup ns := by
  have hstop : (List.replicate k '=').takeWhile (fun c => c ≠ '=') = [] := by
    cases k with
    | zero => rfl
    | succ k => simp [List.replicate_succ]
  have hall : ∀ c ∈ ns.map char, decide (c ≠ '=') = true := by
    intro c hc
    obtain ⟨n, hn, rfl⟩ := List.mem_map.1 hc
    exact decide_eq_true (char_spec n (hns n hn)).1
  have hidx : (ns.map char).map (fun c => base32map.idxOf c) = ns := by
    rw [List.map_map]
    exact (List.map_congr_left fun n hn => (char_spec n (hns n hn)).2.1).trans (List.map_id' ns)
  rw [decode, List.takeWhile_append_of_pos hall, hstop, List.append_nil, hidx]

/-- A last chunk, which is filled up. -/
theorem encode_short {l : List UInt8} (h₀ : 0 < l.length) (h₅ : l.length ≤ 5) :
    encode l = (groups l.length fun i => l.getD i 0).map char ++
      List.replicate (8 - (groups l.length fun i => l.getD i 0).length) '=' := by
  cases l with
  | nil => simp at h₀
  | cons x l =>
      have htake : (x :: l).take 5 = x :: l := List.take_of_length_le h₅
      have hdrop : (x :: l).drop 5 = [] := List.drop_eq_nil_of_le h₅
      rw [encode, chunkEncode, htake, hdrop, encode, chunkChars_eq, List.append_nil, List.length_map]

/-- A chunk of five bytes. -/
theorem encode_long (a b c d e : UInt8) (l : List UInt8) :
    encode (a :: b :: c :: d :: e :: l) = (groups 5 fun i => [a, b, c, d, e].getD i 0).map char ++ encode l := by
  rw [encode, chunkEncode, chunkChars_eq]
  simp [groups]

/-- The bytes of a chunk of five, and of what follows. -/
theorem ungroup_long (a b c d e : UInt8) (ns : List ℕ) :
    ungroup ((groups 5 fun i => [a, b, c, d, e].getD i 0) ++ ns) = a :: b :: c :: d :: e :: ungroup ns := by
  have ha := a.toNat_lt
  have hb := b.toNat_lt
  have hc := c.toNat_lt
  have hd := d.toNat_lt
  have he := e.toNat_lt
  change ungroup (a.toNat / 8 :: (a.toNat % 8 * 4 + b.toNat / 64) :: b.toNat / 2 % 32 ::
    (b.toNat % 2 * 16 + c.toNat / 16) :: (c.toNat % 16 * 2 + d.toNat / 128) :: d.toNat / 4 % 32 ::
    (d.toNat % 4 * 8 + e.toNat / 32) :: e.toNat % 32 :: ns) = _
  rw [ungroup, toUInt8_toNat (b := a) (by omega), toUInt8_toNat (b := b) (by omega),
    toUInt8_toNat (b := c) (by omega), toUInt8_toNat (b := d) (by omega), toUInt8_toNat (b := e) (by omega)]

/-- The bytes of a last chunk. -/
theorem ungroup_short {l : List UInt8} (h : l.length ≤ 4) :
    ungroup (groups l.length fun i => l.getD i 0) = l := by
  match l with
  | [] => rfl
  | [a] =>
      have ha := a.toNat_lt
      have hgroups : (groups [a].length fun i => [a].getD i 0) = [a.toNat / 8, a.toNat % 8 * 4] := by
        simp [groups]
      rw [hgroups, ungroup, toUInt8_toNat (b := a) (by omega)]
  | [a, b] =>
      have ha := a.toNat_lt
      have hb := b.toNat_lt
      have hgroups : (groups [a, b].length fun i => [a, b].getD i 0) =
          [a.toNat / 8, a.toNat % 8 * 4 + b.toNat / 64, b.toNat / 2 % 32, b.toNat % 2 * 16] := by
        simp [groups]
      rw [hgroups, ungroup, toUInt8_toNat (b := a) (by omega), toUInt8_toNat (b := b) (by omega)]
  | [a, b, c] =>
      have ha := a.toNat_lt
      have hb := b.toNat_lt
      have hc := c.toNat_lt
      have hgroups : (groups [a, b, c].length fun i => [a, b, c].getD i 0) =
          [a.toNat / 8, a.toNat % 8 * 4 + b.toNat / 64, b.toNat / 2 % 32, b.toNat % 2 * 16 + c.toNat / 16,
            c.toNat % 16 * 2] := by
        simp [groups]
      rw [hgroups, ungroup, toUInt8_toNat (b := a) (by omega), toUInt8_toNat (b := b) (by omega),
        toUInt8_toNat (b := c) (by omega)]
  | [a, b, c, d] =>
      have ha := a.toNat_lt
      have hb := b.toNat_lt
      have hc := c.toNat_lt
      have hd := d.toNat_lt
      have hgroups : (groups [a, b, c, d].length fun i => [a, b, c, d].getD i 0) =
          [a.toNat / 8, a.toNat % 8 * 4 + b.toNat / 64, b.toNat / 2 % 32, b.toNat % 2 * 16 + c.toNat / 16,
            c.toNat % 16 * 2 + d.toNat / 128, d.toNat / 4 % 32, d.toNat % 4 * 8] := by
        simp [groups]
      rw [hgroups, ungroup, toUInt8_toNat (b := a) (by omega), toUInt8_toNat (b := b) (by omega),
        toUInt8_toNat (b := c) (by omega), toUInt8_toNat (b := d) (by omega)]
  | _ :: _ :: _ :: _ :: _ :: _ =>
      simp only [List.length_cons] at h
      omega

/-- The groups of a string, and how they are filled up. -/
theorem encode_eq (l : List UInt8) : ∃ ns k, encode l = ns.map char ++ List.replicate k '=' ∧
    (∀ n ∈ ns, n < 32) ∧ ns.length + k = 8 * ((l.length + 4) / 5) ∧ ungroup ns = l := by
  induction hn : l.length using Nat.strong_induction_on generalizing l with
  | _ n ih =>
      rcases Nat.lt_or_ge 4 l.length with h₅ | h₄
      · match l with
        | a :: b :: c :: d :: e :: l =>
            obtain ⟨ns, k, henc, hns, hlen, hdec⟩ := ih l.length (by simp [← hn]; omega) l rfl
            refine ⟨groups 5 (fun i => [a, b, c, d, e].getD i 0) ++ ns, k, ?_, ?_, ?_, ?_⟩
            · rw [encode_long, henc, List.map_append, List.append_assoc]
            · simpa only [List.mem_append, or_imp, forall_and] using ⟨groups_lt _ _, hns⟩
            · have h₈ : (groups 5 fun i => [a, b, c, d, e].getD i 0).length = 8 := rfl
              rw [List.length_append, h₈]
              simp only [List.length_cons] at hn
              omega
            · rw [ungroup_long, hdec]
      · rcases Nat.eq_zero_or_pos l.length with h₀ | hpos
        · obtain rfl := List.length_eq_zero_iff.1 h₀
          exact ⟨[], 0, by simp [encode], by simp, by simp [← hn], rfl⟩
        · have h₈ := length_groups (h₄.trans (by decide)) fun i => l.getD i 0
          exact ⟨_, _, encode_short hpos (h₄.trans (by decide)), groups_lt _ _, by omega, ungroup_short h₄⟩

/-- **Decoding undoes encoding.** -/
theorem decode_encode (l : List UInt8) : decode (encode l) = l := by
  obtain ⟨ns, k, henc, hns, -, hdec⟩ := encode_eq l
  rw [henc, decode_groups hns, hdec]

/-- **`Base32::encode` is injective.** -/
theorem encode_injective : Function.Injective encode := Function.LeftInverse.injective decode_encode

/-- **The length of the result.** -/
theorem length_encode (l : List UInt8) : (encode l).length = 8 * ((l.length + 4) / 5) := by
  obtain ⟨ns, k, henc, -, hlen, -⟩ := encode_eq l
  rw [henc, List.length_append, List.length_map, List.length_replicate, hlen]

/-- **The characters of the result.** -/
theorem mem_encode {l : List UInt8} {c : Char} (h : c ∈ encode l) : c ∈ base32map ∨ c = '=' := by
  obtain ⟨ns, k, henc, hns, -⟩ := encode_eq l
  rw [henc, List.mem_append] at h
  refine h.imp (fun hc => ?_) List.eq_of_mem_replicate
  obtain ⟨n, hn, rfl⟩ := List.mem_map.1 hc
  exact (char_spec n (hns n hn)).2.2

/-- The result is no text of another length, nor one with other characters. -/
theorem encode_ne {l : List UInt8} {s : List Char} (h : s.length % 8 ≠ 0 ∨ ∃ c ∈ s, c ∉ base32map ∧ c ≠ '=') :
    encode l ≠ s := by
  rintro rfl
  rcases h with h | ⟨c, hc, hmap, hpad⟩
  · rw [length_encode] at h
    omega
  · exact (mem_encode hc).elim hmap hpad

end Base32

/-! ### The names of the marks -/

/-- `ridname`; `operator<<` writes the number in decimal. -/
def ridname (rid : ℕ) : List Char := ['R', 'I', 'D', '-'] ++ Nat.toDigits 10 rid

/-- `markname` -/
def markname : List Char := ['M', 'A', 'R', 'K']

theorem encode_ne_ridname (k : List UInt8) (rid : ℕ) : Base32.encode k ≠ ridname rid :=
  Base32.encode_ne (.inr ⟨'-', by simp [ridname], by decide, by decide⟩)

theorem encode_ne_markname (k : List UInt8) : Base32.encode k ≠ markname := Base32.encode_ne (.inl (by decide))

theorem ridname_injective : Function.Injective ridname := by
  intro m n h
  have hdigits : Nat.toDigits 10 m = Nat.toDigits 10 n := List.append_cancel_left h
  rw [← @Nat.ofDigitChars_ten_toDigits m, hdigits, Nat.ofDigitChars_ten_toDigits]

theorem ridname_ne_markname (rid : ℕ) : ridname rid ≠ markname := by
  intro h
  have hhead := congrArg List.head? h
  simp [ridname, markname] at hhead

/-! ### The names of all entries -/

namespace FSBS

/-- The name of a file under `BLOCKS`: `entryname`, `ridname` or `markname`. -/
def Name.text : Name (List UInt8) → List Char
  | .block k => Base32.encode k
  | .rid n => ridname n
  | .mark => markname

/-- `FSBlockStore::blockpath` -/
def blockpath (blockspath entry : List Char) : List Char := blockspath ++ '/' :: entry

/-- **Different entries have different names.** -/
theorem Name.text_injective : Function.Injective Name.text := by
  intro x y h
  cases x with
  | block k =>
      cases y with
      | block k' => exact congrArg Name.block (Base32.encode_injective h)
      | rid n => exact absurd h (encode_ne_ridname k n)
      | mark => exact absurd h (encode_ne_markname k)
  | rid n =>
      cases y with
      | block k => exact absurd h.symm (encode_ne_ridname k n)
      | rid n' => exact congrArg Name.rid (ridname_injective h)
      | mark => exact absurd h (ridname_ne_markname n)
  | mark =>
      cases y with
      | block k => exact absurd h.symm (encode_ne_markname k)
      | rid n => exact absurd h.symm (ridname_ne_markname n)
      | mark => rfl

theorem blockpath_injective (blockspath : List Char) : Function.Injective (blockpath blockspath) := by
  intro x y h
  exact (List.cons.inj (List.append_cancel_left h)).2

end FSBS

namespace S3BS

/-- `S3BlockStore::blockpath` -/
def blockpath (entry : List Char) : List Char := ['B', 'L', 'O', 'C', 'K', 'S', '/'] ++ entry

/-- The name of an entry: the name of its object, and `MARK`. -/
def Name.text : Name (List UInt8) → List Char
  | .block k => blockpath (Base32.encode k)
  | .rid n => blockpath (ridname n)
  | .mark => markname

theorem blockpath_injective : Function.Injective blockpath := fun _ _ h => List.append_cancel_left h

theorem blockpath_ne_markname (entry : List Char) : blockpath entry ≠ markname := by
  intro h
  have hhead := congrArg List.head? h
  simp [blockpath, markname] at hhead

/-- **Different entries have different names.** -/
theorem Name.text_injective : Function.Injective Name.text := by
  intro x y h
  cases x with
  | block k =>
      cases y with
      | block k' => exact congrArg Name.block (Base32.encode_injective (blockpath_injective h))
      | rid n => exact absurd (blockpath_injective h) (encode_ne_ridname k n)
      | mark => exact absurd h (blockpath_ne_markname _)
  | rid n =>
      cases y with
      | block k => exact absurd (blockpath_injective h).symm (encode_ne_ridname k n)
      | rid n' => exact congrArg Name.rid (ridname_injective (blockpath_injective h))
      | mark => exact absurd h (blockpath_ne_markname _)
  | mark =>
      cases y with
      | block k => exact absurd h.symm (blockpath_ne_markname _)
      | rid n => exact absurd h.symm (blockpath_ne_markname _)
      | mark => rfl

end S3BS

/-- **The names of blocks never collide**, with each other or with those of the marks, in a directory or in
a bucket. -/
theorem block_names_apart :
    Function.Injective Base32.encode ∧
    (∀ k, (Base32.encode k).length = 8 * ((k.length + 4) / 5) ∧
      ∀ c ∈ Base32.encode k, c ∈ Base32.base32map ∨ c = '=') ∧
    (∀ k, Base32.encode k ≠ markname ∧ ∀ rid, Base32.encode k ≠ ridname rid) ∧
    (∀ k (x : FSBS.Name (List UInt8)), x ≠ .block k → x.text ≠ (FSBS.Name.block k).text ∧
      ∀ path, FSBS.blockpath path x.text ≠ FSBS.blockpath path (FSBS.Name.block k).text) ∧
    ∀ k (x : S3BS.Name (List UInt8)), x ≠ .block k → x.text ≠ (S3BS.Name.block k).text := by
  refine ⟨Base32.encode_injective, fun k => ⟨Base32.length_encode k, fun _ hc => Base32.mem_encode hc⟩,
    fun k => ⟨encode_ne_markname k, encode_ne_ridname k⟩, fun k x hx => ?_, fun k x hx => ?_⟩
  · have hne : x.text ≠ (FSBS.Name.block k).text := FSBS.Name.text_injective.ne hx
    exact ⟨hne, fun path => (FSBS.blockpath_injective path).ne hne⟩
  · exact S3BS.Name.text_injective.ne hx

end Utopfs
