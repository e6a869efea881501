/-
**Reading holes.**

A file need not have a block for every byte.  Where it has none, reading goes on in the zero singletons
of the context: one for each kind of block, each leading to the one of the level below.  `fs_mkfs` makes
all four; `fs_mount` makes three, and forgets the one for triple indirect blocks.  Reading a range that
comes to the triple indirect block of a file that has none dereferences null then.

Main definitions:

* `UTFS.HolesRead` — a read has found zeros in the holes and has changed nothing;
* `UTFS.ReadsHoles` — the read returns and has done so.

Main results:

* `UTFS.wp_fileRead_null` — the reads that dereference null;
* `UTFS.readsHoles_iff` — **when a read is safe**.
-/

import Utopfs.BlockNames
import Utopfs.FsHistory
import Utopfs.Messages

set_option relaxedAutoImplicit false
set_option autoImplicit false

namespace Utopfs

namespace UTFS

open Prog

variable (E : Env)

/-- A read has put zeros where the file has no blocks, and has changed neither the files nor the blocks
in memory.  The zero singletons are not in the clean cache. -/
structure HolesRead (f size off : ℕ) (w : World) (r : ℤ × (ℕ → UInt8)) (w' : World) : Prop where
  zeros : ∀ j < size, off + j < (w.fil f).inode.size → FileHole E w f (off + j) → r.2 j = 0
  fil : ∀ g, w'.fil g = w.fil g
  blk : ∀ n < w.nblk, w'.blk n = w.blk n
  zobj : w'.zobj = w.zobj
  uncached : ∀ ref n, w'.cache.nodemap ref = some (.blk n) → (w'.blk n).zero = false

/-- `FileNode::read` returns, and all is as it should be. -/
def ReadsHoles (f : ℕ) (buf : ℕ → UInt8) (size off : ℕ) (w : World) : Prop :=
  ∃ r w', fileRead E f buf size off w = .ok r w' ∧ HolesRead E f size off w r w'

variable {E} {w : World} {f size off : ℕ}

/-! ### Reads that dereference null -/

/-- There is no triple indirect block, and no zero singleton for it. -/
theorem wp_traverseSlot_null {V : Type} {t : Traversal V} (ht : t.modifyX = false)
    (hhole : ¬ w.Occupied (.fil f .tin)) (hz : w.zobj 3 = none) (visit : ℕ → ℕ → V → M (Bool × V))
    (base : ℕ) (v : V) :
    wp (traverseSlot E t visit 3 (.fil f .tin) base v) (fun _ _ => False)
      (fun e _ => e = .nullHandle) w := by
  obtain ⟨hobj, href⟩ := not_occupied.1 hhole
  have hfind : findBlk E t 3 (.fil f .tin) w = .error .nullHandle w := by
    simp [findBlk, bind_apply, get_apply, hobj, href, ht, hz, throw_apply]
  rw [traverseSlot, wp_bind, wp, hfind]

/-- A read that comes to the triple indirect block. -/
theorem wp_fileRead_null (h : BInv E ∅ w) (hf : f < w.nfil) (hhole : ¬ w.Occupied (.fil f .tin))
    (hz : w.zobj 3 = none) (hbase : FSlot.tin.base < off + size) (hoff : off < maxSize)
    (hend : off + size ≤ maxSize) (buf : ℕ → UInt8) :
    wp (fileRead E f buf size off) (fun _ _ => False) (fun e _ => e = .nullHandle) w := by
  have hm := maxSize_eq
  have htin : FSlot.tin.base = 539136000 := rfl
  have hrng : (readTraversal f size off).rngend = off + size := rfl
  have hlaws := readBTF_laws f size off (w.fil f).inode.size
  have hfalse := readTraversal_unchanged f size off (w.fil f).inode.size
  have hread : wp (rbTraverseFile E (readTraversal f size off) f ⟨buf, 0⟩) (fun _ _ => False)
      (fun e _ => e = .nullHandle) w := by
    rw [rbTraverseFile]
    refine wp_seq (wp_traverseInl_read (E := E) hlaws hfalse _) ?_ (fun _ _ hF => hF)
    rintro v₁ w₁ ⟨rfl, -⟩
    -- The traversal does not get past the triple indirect reference.
    refine wp_seq (wp_traverseRefs (c := fileBytes E w₁ f)
      (J := fun b w' => BInv E ∅ w' ∧ Grew w₁ w' ∧ b < maxSize) hlaws ?_ ?_ ?_ v₁ ⟨h, .refl w₁, by omega⟩)
      (fun v₂ w₂ hJ => absurd hJ.1.2.2 (Nat.lt_irrefl _)) (fun _ _ hF => hF)
    · rintro b b' w₂ ⟨h₂, hg₂, hb⟩ - hbound hout
      refine ⟨h₂, hg₂, ?_⟩
      have hoff' : (readTraversal f size off).rngoff = off := rfl
      rcases hout with hout | hout
      · omega
      · have htop := FSlot.top_tin
        rcases hbound .tin with hle | hle <;> omega
    · rintro s v₂ w₂ ⟨h₂, hg₂, hb⟩ hlt hgt
      by_cases hs : s = .tin
      · subst hs
        have hhole₂ : ¬ w₂.Occupied (.fil f .tin) := by
          simpa only [World.Occupied, World.slotObj, World.slotRef, hg₂.fil] using hhole
        have hz₂ : w₂.zobj 3 = none := by rw [outer_zobj hg₂.outer]; exact hz
        exact wp_mono (wp_traverseSlot_null rfl hhole₂ hz₂ _ _ _) (fun _ _ hF => hF.elim) fun _ _ hF => hF
      · refine wp_mono (wp_traverseSlot_fil (t := readTraversal f size off) (f := f) rfl rfl
          (by rw [hg₂.fil]; exact hlaws)
          (by rw [hg₂.fil]; exact hfalse) h₂ (hg₂.live (s := .fil f s) hf) hlt v₂) ?_ ?_
        · rintro v₃ w₃ ⟨h₃, hg₃, hv₃⟩
          refine ⟨⟨h₃, hg₂.trans hg₃, ?_⟩, hv₃.trans (hlaws.sem_congr _ _ _ _ _ ?_)⟩
          · have htop := FSlot.top_tin
            have hle := FSlot.top_eq .tin
            rcases FSlot.top_le_base hs with hle' | hle' <;> omega
          · intro a _ _
            rw [hg₂.fileBytes h hf]
        · exact fun e w₃ hF => hF.1
    · rintro w₂ - ⟨-, -, hb⟩
      omega
  rw [fileRead, wp_tryCatch]
  refine wp_seq hread (fun _ _ hF => hF.elim) ?_
  rintro e w₁ rfl
  rfl

/-! ### Reads that are safe -/

/-- The zero singletons of a context. -/
theorem Entry.zeros_iff (e : Entry) : 3 < e.zeros ↔ e = .mkfs := by
  cases e <;> simp [Entry.zeros]

/-- **When a read is safe.**  The context was made by `fs_mkfs`, or the range stops before the triple
indirect block or begins after it, or the file has such a block. -/
theorem readsHoles_iff {e : Entry} (h : Context E e w) (hf : f < w.nfil) (buf : ℕ → UInt8)
    (hend : off + size ≤ maxSize) :
    ReadsHoles E f buf size off w ↔
      e = .mkfs ∨ off + size ≤ FSlot.tin.base ∨ off = maxSize ∨ w.Occupied (.fil f .tin) := by
  have hok := h.fsOk
  constructor
  · rintro ⟨r, w', hrun, -⟩
    by_contra hcon
    obtain ⟨hmkfs, hbase, hoff, hhole⟩ := not_or.1 hcon |>.imp_right fun hcon => by
      simpa only [not_or] using hcon
    have hz : w.zobj 3 = none := by
      by_contra hz
      exact hmkfs ((Entry.zeros_iff e).1 ((hok.zero 3).1 hz))
    exact wp_ok (wp_fileRead_null hok.blk hf hhole hz (by omega) (by omega) hend buf) hrun
  · intro hsafe
    have hread := wp_fileRead_stopped hok.blk hf buf size off
    obtain ⟨r, w', hrun, hinv, hg, -, hbuf⟩ : ∃ r w', fileRead E f buf size off w = .ok r w' ∧
        BInv E ∅ w' ∧ Grew w w' ∧ _ ∧ _ := by
      refine exists_ok (wp_mono hread (fun _ _ hQ => hQ) ?_)
      rintro ex w₁ ⟨-, -, ⟨-, s, l, hoff, hbase, hl, hz⟩ | ⟨-, hmax⟩⟩
      · -- The zero singleton that is missing is the one of triple indirect blocks.
        have hl3 : 3 ≤ l := by
          by_contra hlt
          refine (hok.zero l).2 ?_ hz
          cases e <;> simp only [Entry.zeros] <;> omega
        have hs : s = .tin ∧ l = 3 := by
          have hle := hl.le
          cases s <;> simp only [FSlot.level] at hle <;> first | omega | exact ⟨rfl, by omega⟩
        obtain ⟨rfl, rfl⟩ := hs
        have hhole : ¬ w.Occupied (.fil f .tin) := by
          rcases hl with hl | ⟨-, hobj, href⟩
          · simp [FSlot.level] at hl
          · exact not_occupied.2 ⟨hobj, href⟩
        have htop := FSlot.top_tin
        rcases hsafe with rfl | hle | rfl | hocc
        · exact (hok.zero 3).2 (by simp [Entry.zeros]) hz
        · omega
        · omega
        · exact hhole hocc
      · omega
    refine ⟨r, w', hrun, ?_, fun g => by rw [hg.fil], hg.blk, outer_zobj hg.outer,
      fun ref n hn => (hinv.key ref n hn).zero⟩
    intro j hj hsize hhole
    rw [hbuf j, if_pos (by omega)]
    exact hhole.zero hok.blk hf

/-! ### A context that was mounted -/

/-- A file system is made with a file that has one byte behind holes, written to the store and mounted, and
the file is found. -/
def holeRun : M Unit := do
  fsMkfs .sample [] []
  FsOp.run .sample (.mknod (Str.ofText "/f") 0o644 [] [])
  FsOp.run .sample (.write (Str.ofText "/f") [7] 100000)
  FsOp.run .sample .sync
  modify fun w => w.restarted [] [] id
  fsMount .sample
  FsOp.run .sample (.access (Str.ofText "/f"))

theorem context_of_holeRun (h : holeRun (.boot Env.sampleRand [] id) = .ok () w) :
    Context .sample .mount w := by
  obtain ⟨⟨⟩, w₁, h₁, h₀⟩ := ok_of_bind h
  obtain ⟨⟨⟩, w₂, h₂, h₀⟩ := ok_of_bind h₀
  obtain ⟨⟨⟩, w₃, h₃, h₀⟩ := ok_of_bind h₀
  obtain ⟨⟨⟩, w₄, h₄, h₀⟩ := ok_of_bind h₀
  obtain ⟨⟨⟩, w₅, h₅, h₀⟩ := ok_of_bind h₀
  obtain ⟨⟨⟩, w₆, h₆, h₇⟩ := ok_of_bind h₀
  obtain rfl : w₄.restarted [] [] id = w₅ := by
    injection h₅
  have hmade : Context .sample .mkfs w₁ :=
    .mkfs Env.sampleRand [] id [] [] Env.sampleRand_nodup Env.sampleRand_ne h₁
  have hsynced : Context .sample .mkfs w₄ := .op .sync (.op _ (.op _ hmade (.inl h₂)) (.inl h₃)) (.inl h₄)
  have hmounted : Context .sample .mount w₆ :=
    .mount [] [] id hsynced (by simp) (by simp) (by simp) h₆
  exact .op _ hmounted (.inl h₇)

/-- The file that was found is clean; it has no first block and no triple indirect block. -/
theorem exists_holeRun : ∃ w, Context .sample .mount w ∧ w.nfil = 4 ∧ (w.fil 3).isdirty = false ∧
    (w.fil 3).inode.size = 100001 ∧ ¬ w.Occupied (.fil 3 (.dir 0)) ∧ ¬ w.Occupied (.fil 3 .tin) := by
  obtain ⟨⟨⟩, w, hrun, hw⟩ := exists_of_passes (m := holeRun)
    (q := fun _ w => decide (w.nfil = 4 ∧ (w.fil 3).isdirty = false ∧ (w.fil 3).inode.size = 100001 ∧
      ¬ w.Occupied (.fil 3 (.dir 0)) ∧ ¬ w.Occupied (.fil 3 .tin)))
    (s := .boot Env.sampleRand [] id) (by decide +kernel)
  exact ⟨w, context_of_holeRun hrun, of_decide_eq_true hw⟩

/-- **A read that dereferences null**: one byte, at the first offset of the triple
indirect block, in a context that was mounted. -/
theorem not_readsHoles : ∃ w f, Context .sample .mount w ∧ f < w.nfil ∧
    FSlot.tin.base + 1 ≤ maxSize ∧ (∃ w', fileRead .sample f (fun _ => 0) 1 FSlot.tin.base w = .error .nullHandle w') ∧
    ¬ ReadsHoles .sample f (fun _ => 0) 1 FSlot.tin.base w := by
  obtain ⟨w, h, hnfil, -, -, -, hhole⟩ := exists_holeRun
  have hm := maxSize_eq
  have htin : FSlot.tin.base = 539136000 := rfl
  have hf : 3 < w.nfil := by omega
  have hz : w.zobj 3 = none := by
    by_contra hz
    exact absurd ((h.fsOk.zero 3).1 hz) (by decide)
  have hnull : wp (fileRead .sample 3 (fun _ => 0) 1 FSlot.tin.base) (fun _ _ => False)
      (fun e _ => e = .nullHandle) w :=
    wp_fileRead_null h.fsOk.blk hf hhole hz (by omega) (by omega) (by omega) _
  refine ⟨w, 3, h, hf, by omega, ?_, ?_⟩
  · rw [wp] at hnull
    cases hrun : fileRead .sample 3 (fun _ => 0) 1 FSlot.tin.base w with
    | ok r w' => simp [hrun] at hnull
    | error e w' =>
        obtain rfl : e = .nullHandle := by simpa only [hrun] using hnull
        exact ⟨w', rfl⟩
  · rintro ⟨r, w', hrun, -⟩
    exact wp_ok hnull hrun

/-- The same file is read safely below the triple indirect block: there is no block for its bytes 5000 to
5099, and zeros replace what was in the buffer. -/
theorem readsHoles_below : ∃ w f, Context .sample .mount w ∧ f < w.nfil ∧
    (∀ j < 100, 5000 + j < (w.fil f).inode.size ∧ FileHole .sample w f (5000 + j)) ∧
    ReadsHoles .sample f (fun _ => 1) 100 5000 w := by
  obtain ⟨w, h, hnfil, -, hsize, hhole, -⟩ := exists_holeRun
  have hm := maxSize_eq
  have htin : FSlot.tin.base = 539136000 := rfl
  refine ⟨w, 3, h, by omega, fun j hj => ⟨by omega, .dir 0, ?_, ?_, hhole⟩, ?_⟩
  · change 4096 ≤ 5000 + j
    omega
  · change 5000 + j < 4096 + 8192
    omega
  · exact (readsHoles_iff h (by omega) _ (by omega)).2 (.inr (.inl (by omega)))

end UTFS

end Utopfs
