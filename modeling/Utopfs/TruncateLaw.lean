/-
**The law of truncation.**

After `FileNode::truncate(n)` the size of the file should be `n`; the bytes below should be as they
were and those above should be zero, also when the file grows again; no block should be left that
begins above `n`; and the inode should count the blocks that are left.

The blocks of a file are named by the handles and references of its slots.  A name leads to a node in
memory (the handle, or the node that the clean cache has for the reference), or else to the stored
block, and this again names the blocks below it.

`FileNode::rb_truncate` ends with `FIXME - Are we missing the DoubleIndBlock (and Triple ...)
traversal?`  The law holds for exactly those files that have neither.

Main definitions:

* `UTFS.allocated` — the number of nodes under a name;
* `UTFS.NoneAbove` — none of them begins at or after an offset;
* `UTFS.Extended` — later truncations and writes that spare a byte;
* `UTFS.TruncateLaw` — the law.

Main results:

* `UTFS.Extended.zero` — a byte that is zero stays zero;
* `UTFS.truncateLaw_iff` — **when the law holds**.
-/

import Utopfs.FileArray
import Utopfs.Truncate

set_option relaxedAutoImplicit false
set_option autoImplicit false

namespace Utopfs

namespace UTFS

open Prog

/-! ### The blocks of a file -/

/-- The handle and the reference in a slot. -/
def World.slotName (w : World) (s : Slot) : Option ℕ × BlockRef := (w.slotObj s, w.slotRef s)

variable (E : Env)

/-- The references in a stored indirect block. -/
def storedRefs (log : List Effect) (r : BlockRef) : Fin 256 → BlockRef :=
  match decode E log r with
  | some b => unpackRefs b
  | none => fun _ => .nil

/-- The names in an indirect block. -/
def World.namesIn (w : World) (x : Option ℕ × BlockRef) (i : Fin 256) : Option ℕ × BlockRef :=
  match w.blkOf x.1 x.2 with
  | some n => w.slotName (.sub n i)
  | none => (none, storedRefs E w.log x.2 i)

/-- The number of data and indirect nodes under a name for blocks of a level. -/
def allocated (w : World) : ℕ → Option ℕ × BlockRef → ℕ
  | 0, x => if x.1.isSome ∨ x.2 ≠ .nil then 1 else 0
  | level + 1, x =>
      if x.1.isSome ∨ x.2 ≠ .nil then 1 + ∑ i, allocated w level (w.namesIn E x i) else 0

/-- No block under a name begins at or after `size`; the block of the name begins at `off`. -/
def NoneAbove (w : World) (size : ℕ) : ℕ → ℕ → Option ℕ × BlockRef → Prop
  | 0, off, x => x.1.isSome ∨ x.2 ≠ .nil → off < size
  | level + 1, off, x => x.1.isSome ∨ x.2 ≠ .nil →
      off < size ∧ ∀ i : Fin 256, NoneAbove w size level (off + i * span level) (w.namesIn E x i)

/-! ### The law -/

/-- Later truncations of the file `f`, and writes to it that spare the byte at `a`. -/
inductive Extended (f a : ℕ) (w : World) : World → Prop
  | refl : Extended f a w w
  | truncate {w₁ w₂ : World} (size : ℕ) :
      Extended f a w w₁ → fileTruncate E f size w₁ = .ok () w₂ → Extended f a w w₂
  | write {w₁ w₂ : World} {r : ℤ} (data : List UInt8) (off : ℕ) :
      Extended f a w w₁ → a < off ∨ off + data.length ≤ a → fileWrite E f data off w₁ = .ok r w₂ →
      Extended f a w w₂

/-- **The law of truncation**, for a file that is truncated to `n` bytes. -/
structure TruncateLaw (f n : ℕ) (w w' : World) : Prop where
  size : (w'.fil f).inode.size = n
  kept : ∀ a, a < min n (w.fil f).inode.size → fileBytes E w' f a = fileBytes E w f a
  zero : ∀ a, n ≤ a → a < maxSize → ∀ w'', Extended E f a w' w'' → fileBytes E w'' f a = 0 ∧
    ∀ buf size off j r u, fileRead E f buf size off w'' = .ok r u → off + j = a → j < size →
      a < (w''.fil f).inode.size → r.2 j = 0
  within : ∀ s : FSlot, NoneAbove E w' n s.level s.base (w'.slotName (.fil f s))
  blocks : (w'.fil f).inode.blocks =
    1 + (fslots.map fun s => allocated E w' s.level (w'.slotName (.fil f s))).sum

variable {E}

section law

variable {f n a : ℕ} {w w' : World}

theorem allocated_eq_zero {level : ℕ} {x : Option ℕ × BlockRef} :
    allocated E w level x = 0 ↔ ¬ (x.1.isSome ∨ x.2 ≠ .nil) := by
  cases level with
  | zero =>
      simp only [allocated]
      split <;> simp_all
  | succ level =>
      simp only [allocated]
      split
      case isTrue h => exact ⟨fun h0 => by omega, fun hn => absurd h hn⟩
      case isFalse h => exact ⟨fun _ => h, fun _ => rfl⟩

theorem sum_fslots (g : FSlot → ℕ) :
    (fslots.map g).sum = (((List.finRange 20).map FSlot.dir).map g).sum + g .sin + g .din + g .tin := by
  rw [fslots, List.map_append, List.sum_append]
  simp only [List.map_cons, List.map_nil, List.sum_cons, List.sum_nil]
  ring

/-- The nodes of the direct slots. -/
theorem allocated_dirs (w : World) (f : ℕ) :
    (((List.finRange 20).map FSlot.dir).map fun s => allocated E w s.level (w.slotName (.fil f s))).sum =
      (Finset.univ.filter fun i : Fin 20 => w.Occupied (.fil f (.dir i))).card := by
  rw [Finset.card_filter, Fin.sum_univ_def, List.map_map]
  rfl

/-- The nodes of a block of level 1 whose node is in memory. -/
theorem allocated_one {x : Option ℕ × BlockRef} {m size base k : ℕ} (hx : x.1.isSome ∨ x.2 ≠ .nil)
    (hm : w.blkOf x.1 x.2 = some m) (hk : Holds w m base size k) : allocated E w 1 x = 1 + k := by
  have hnames : ∀ i, w.namesIn E x i = w.slotName (.sub m i) := fun i => by
    simp only [World.namesIn, hm]
  rw [allocated, if_pos hx, hk.count, Finset.card_filter]
  simp only [hnames]
  rfl

/-- The blocks that `rb_truncate` counts. -/
theorem FilCounted.allocated_eq {size total : ℕ} (h : FilCounted w f size total) :
    total = 1 + (((List.finRange 20).map FSlot.dir).map
        fun s => allocated E w s.level (w.slotName (.fil f s))).sum +
      allocated E w 1 (w.slotName (.fil f .sin)) := by
  obtain ⟨k, nb, htotal, hk, hsin, hind⟩ := h
  rw [htotal, allocated_dirs, ← hk]
  congr 1
  by_cases hnb : nb = 0
  · have hnot : ¬ w.Occupied (.fil f .sin) := fun hocc => hsin.1 hocc hnb
    rw [hnb, allocated_eq_zero (x := w.slotName (.fil f .sin)) |>.2 hnot]
  · obtain ⟨m, j, hm, hj, hholds⟩ := hind hnb
    rw [hj, allocated_one (x := w.slotName (.fil f .sin)) (hsin.2 hnb) hm hholds]

theorem Truncated.nfil {size : ℕ} (h : Truncated E f size w w') : w'.nfil = w.nfil :=
  congrArg (fun x => x.2.2.1) h.members

/-- **A byte that is zero stays zero** when the file is truncated or written elsewhere. -/
theorem Extended.zero (h : Extended E f a w w') (hinv : BInv E ∅ w) (hf : f < w.nfil)
    (ha : a < maxSize) (h₀ : fileBytes E w f a = 0) :
    BInv E ∅ w' ∧ f < w'.nfil ∧ fileBytes E w' f a = 0 := by
  induction h with
  | refl => exact ⟨hinv, hf, h₀⟩
  | truncate size _ hrun ih =>
      obtain ⟨hinv₁, hf₁, hz₁⟩ := ih
      have ht := wp_ok (wp_fileTruncate hinv₁ hf₁) hrun
      refine ⟨ht.inv, by rw [ht.nfil]; exact hf₁, ?_⟩
      rcases Nat.lt_or_ge a size with hlt | hge
      · rw [ht.bytes a hlt, hz₁]
      rcases Nat.lt_or_ge a FSlot.sin.top with hnear | hfar
      · exact ht.zeros a hge hnear
      · rw [ht.farBytes a hfar, hz₁]
  | write data off _ hoff hrun ih =>
      obtain ⟨hinv₁, hf₁, hz₁⟩ := ih
      have hpost := wp_ok (wp_fileWrite hinv₁ hf₁ data off) hrun
      have hw := hpost.2
      refine ⟨hw.inv, by rw [outer_nfil hw.outer]; exact hf₁, ?_⟩
      rw [hw.bytes a ha, wrote, if_neg (by omega), hz₁]

/-- The nodes of the slots that `rb_truncate` does not visit are not counted. -/
theorem Truncated.uncounted (h : Truncated E f n w w')
    (hblocks : (w'.fil f).inode.blocks =
      1 + (fslots.map fun s => allocated E w' s.level (w'.slotName (.fil f s))).sum) :
    ¬ w.Occupied (.fil f .din) ∧ ¬ w.Occupied (.fil f .tin) := by
  have hcount := h.counted.allocated_eq (E := E)
  rw [hcount, sum_fslots] at hblocks
  have hsame : ∀ s, 2 ≤ s.level → (w'.Occupied (.fil f s) ↔ w.Occupied (.fil f s)) := fun s hs => by
    simp only [World.Occupied, World.slotObj, World.slotRef, (h.far s hs).1, (h.far s hs).2]
  have hnone : ∀ s, 2 ≤ s.level → allocated E w' s.level (w'.slotName (.fil f s)) = 0 →
      ¬ w.Occupied (.fil f s) := by
    intro s hs hzero hocc
    exact allocated_eq_zero.1 hzero ((hsame s hs).2 hocc)
  have hsin : FSlot.sin.level = 1 := rfl
  rw [hsin] at hblocks
  exact ⟨hnone .din (by decide) (by omega), hnone .tin (by decide) (by omega)⟩

/-- A name that leads nowhere has no blocks. -/
theorem noneAbove_of_not {size level off : ℕ} {x : Option ℕ × BlockRef}
    (h : ¬ (x.1.isSome ∨ x.2 ≠ .nil)) : NoneAbove E w size level off x := by
  cases level with
  | zero => exact fun hx => absurd hx h
  | succ level => exact fun hx => absurd hx h

/-- No block is left above the new size in a file without double and triple indirect blocks. -/
theorem Truncated.within (h : Truncated E f n w w') (hdin : ¬ w'.Occupied (.fil f .din))
    (htin : ¬ w'.Occupied (.fil f .tin)) (s : FSlot) :
    NoneAbove E w' n s.level s.base (w'.slotName (.fil f s)) := by
  have hbelow : ∀ s : FSlot, s.level ≤ 1 → w'.Occupied (.fil f s) → s.base < n := by
    intro s hl hocc
    by_contra hle
    exact h.gone s hl (Nat.not_lt.1 hle) hocc
  cases s with
  | dir i => exact fun hocc => hbelow (.dir i) (Nat.zero_le _) hocc
  | sin =>
      intro hocc
      refine ⟨hbelow .sin (le_refl _) hocc, fun i => ?_⟩
      obtain ⟨k, nb, -, -, hsin, hind⟩ := h.counted
      obtain ⟨m, j, hm, -, hholds⟩ := hind (hsin.1 hocc)
      have hname : w'.namesIn E (w'.slotName (.fil f .sin)) i = w'.slotName (.sub m i) := by
        simp only [World.namesIn]
        rw [show w'.blkOf (w'.slotName (.fil f .sin)).1 (w'.slotName (.fil f .sin)).2 = some m from hm]
      rw [hname]
      intro hi
      by_contra hle
      exact hholds.within i (Nat.not_lt.1 hle) hi
  | din => exact noneAbove_of_not hdin
  | tin => exact noneAbove_of_not htin

/-- The bytes above the new size are zero in a file without double and triple indirect blocks. -/
theorem Truncated.zero_above (h : Truncated E f n w w') (hdin : ¬ w'.Occupied (.fil f .din))
    (htin : ¬ w'.Occupied (.fil f .tin)) {a : ℕ} (hle : n ≤ a) (ha : a < maxSize) :
    fileBytes E w' f a = 0 := by
  have htop := FSlot.top_sin
  rcases Nat.lt_or_ge a FSlot.sin.top with hnear | hfar
  · exact h.zeros a hle hnear
  · obtain ⟨s, o, rfl, ho⟩ := exists_fslot (by omega) ha
    have hhole : ¬ w'.Occupied (.fil f s) := by
      cases s with
      | dir i =>
          have := FSlot.base_dir i
          have ho' : o < 8192 := ho
          omega
      | sin =>
          rw [FSlot.top_eq] at hfar
          omega
      | din => exact hdin
      | tin => exact htin
    obtain ⟨hobj, href⟩ := not_occupied.1 hhole
    rw [fileBytes_slot w' f ho, slotBytes_hole h.inv hobj href]

/-- **The law holds for exactly the files that have neither a double nor a triple indirect block.** -/
theorem truncateLaw_iff (h : BInv E ∅ w) (hf : f < w.nfil) (n : ℕ) :
    (∃ w', fileTruncate E f n w = .ok () w' ∧ TruncateLaw E f n w w') ↔
      ¬ w.Occupied (.fil f .din) ∧ ¬ w.Occupied (.fil f .tin) := by
  have hwp : wp (fileTruncate E f n) (fun _ w' => Truncated E f n w w') (fun _ _ => False) w :=
    wp_fileTruncate h hf
  obtain ⟨⟨⟩, w', hrun, ht⟩ := exists_ok hwp
  constructor
  · rintro ⟨w'', hrun', hlaw⟩
    rw [hrun] at hrun'
    injection hrun' with _ hw
    subst hw
    exact ht.uncounted hlaw.blocks
  · rintro ⟨hdin, htin⟩
    have hsame : ∀ s, 2 ≤ s.level → (w'.Occupied (.fil f s) ↔ w.Occupied (.fil f s)) := fun s hs => by
      simp only [World.Occupied, World.slotObj, World.slotRef, (ht.far s hs).1, (ht.far s hs).2]
    have hdin' : ¬ w'.Occupied (.fil f .din) := fun hocc => hdin ((hsame .din (by decide)).1 hocc)
    have htin' : ¬ w'.Occupied (.fil f .tin) := fun hocc => htin ((hsame .tin (by decide)).1 hocc)
    refine ⟨w', hrun, ?_, ?_, ?_, ht.within hdin' htin', ?_⟩
    · rw [ht.own]
    · exact fun a ha => ht.bytes a (by omega)
    · intro a hle ha w'' hext
      obtain ⟨hinv, hlt, hzero⟩ := hext.zero ht.inv (by rw [ht.nfil]; exact hf) ha
        (ht.zero_above hdin' htin' hle ha)
      refine ⟨hzero, ?_⟩
      rintro buf size off j r u hread rfl hj hsize
      have hpost := wp_ok (wp_fileRead hinv hlt buf size off) hread
      rw [hpost.2.2.2 j, if_pos (by omega), hzero]
    · have hcount := ht.counted.allocated_eq (E := E)
      have h₁ : allocated E w' FSlot.din.level (w'.slotName (.fil f .din)) = 0 :=
        allocated_eq_zero.2 hdin'
      have h₂ : allocated E w' FSlot.tin.level (w'.slotName (.fil f .tin)) = 0 :=
        allocated_eq_zero.2 htin'
      have hsin : FSlot.sin.level = 1 := rfl
      rw [hcount, sum_fslots, h₁, h₂, hsin]
      omega

end law

/-! ### Two files -/

/-- A context with one empty file. -/
def sampleFile : World := (World.context [] [] id).allocFil (.fresh 0o644 [] [] 0)

theorem sampleFile_inv : BInv .sample ∅ sampleFile :=
  (Refines.context List.nodup_nil (by simp) [] id).inv.allocFil (fun _ => rfl)
    fun _ hr => absurd rfl hr

/-- Two bytes across the end of the inline data, of which one is cut off. -/
theorem truncateLaw_sample :
    ∃ w₁ w', fileWrite .sample 0 [7, 8] 4095 sampleFile = .ok 2 w₁ ∧
      fileTruncate .sample 0 4096 w₁ = .ok () w' ∧ TruncateLaw .sample 0 4096 w₁ w' := by
  have hf : 0 < sampleFile.nfil := by decide
  obtain ⟨r, w₁, hrun, hq⟩ := exists_of_passes (m := fileWrite .sample 0 [7, 8] 4095)
    (q := fun r w => decide (r = 2 ∧ ¬ w.Occupied (.fil 0 .din) ∧ ¬ w.Occupied (.fil 0 .tin)))
    (s := sampleFile) (by decide +kernel)
  obtain ⟨rfl, hdin, htin⟩ := of_decide_eq_true hq
  have hpost := wp_ok (wp_fileWrite sampleFile_inv hf [7, 8] 4095) hrun
  have hf₁ : 0 < w₁.nfil := by
    rw [outer_nfil hpost.2.outer]
    exact hf
  obtain ⟨w', htrunc, hlaw⟩ := (truncateLaw_iff hpost.2.inv hf₁ 4096).2 ⟨hdin, htin⟩
  exact ⟨w₁, w', hrun, htrunc, hlaw⟩

/-- A byte under the double indirect block is still there after a truncation to nothing. -/
theorem not_truncateLaw_double :
    ∃ w₁ w', fileWrite .sample 0 [7] 2265088 sampleFile = .ok 1 w₁ ∧
      fileTruncate .sample 0 0 w₁ = .ok () w' ∧ fileBytes .sample w' 0 2265088 = 7 ∧
      ¬ TruncateLaw .sample 0 0 w₁ w' := by
  have hf : 0 < sampleFile.nfil := by decide
  obtain ⟨r, w₁, hrun, hq⟩ := exists_of_passes (m := fileWrite .sample 0 [7] 2265088)
    (q := fun r w => decide (r = 1 ∧ w.Occupied (.fil 0 .din))) (s := sampleFile) (by decide +kernel)
  obtain ⟨rfl, hdin⟩ := of_decide_eq_true hq
  have hpost := wp_ok (wp_fileWrite sampleFile_inv hf [7] 2265088) hrun
  have hf₁ : 0 < w₁.nfil := by
    rw [outer_nfil hpost.2.outer]
    exact hf
  have hwp : wp (fileTruncate .sample 0 0) (fun _ w' => Truncated .sample 0 0 w₁ w') (fun _ _ => False) w₁ :=
    wp_fileTruncate hpost.2.inv hf₁
  obtain ⟨⟨⟩, w', htrunc, ht⟩ := exists_ok hwp
  refine ⟨w₁, w', hrun, htrunc, ?_, fun hlaw => (ht.uncounted hlaw.blocks).1 hdin⟩
  rw [ht.farBytes 2265088 (by rw [FSlot.top_sin]), hpost.2.bytes 2265088 (by rw [maxSize_eq]; decide)]
  rfl

end UTFS

end Utopfs
