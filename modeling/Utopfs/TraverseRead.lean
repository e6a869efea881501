/-
**Traversals of the block tree that only read it.**

Without `RB_MODIFY_X` a traversal makes no holes: where there is neither a handle nor a reference it
reads the zero singleton of the level.  It adds nodes to the clean cache and changes nothing else.

Main results:

* `UTFS.wp_findBlk_read` — the node for a slot, possibly a zero singleton;
* `UTFS.wp_rbTraverse_read` — a node of any level, zero singletons included.
-/

import Utopfs.Traverse

set_option relaxedAutoImplicit false
set_option autoImplicit false

namespace Utopfs

namespace UTFS

open Prog

variable {E : Env} {V : Type}

/-- A node that may be read: one of the level, a zero singleton or not. -/
structure Readable (w : World) (level n : ℕ) : Prop where
  lt : n < w.nblk
  levelEq : (w.blk n).level = level

/-- A slot that may be read: one that counts, or one of a zero singleton. -/
def SlotReadable (w : World) (level : ℕ) (s : Slot) : Prop :=
  (w.Live s ∧ w.slotLevel s = level) ∨
    ∃ z, w.slotObj s = some z ∧ z < w.nblk ∧ (w.blk z).zero = true ∧ (w.blk z).level = level

/-- How a traversal that only reads can fail: the zero singleton of one of the levels in `P` is not
set. -/
def ZeroMissing (E : Env) (w : World) (P : ℕ → Prop) (e : Exn) (w' : World) : Prop :=
  e = .nullHandle ∧ BInv E ∅ w' ∧ Grew w w' ∧ ∃ l, P l ∧ w.zobj l = none

/-- The levels whose zero singletons a traversal may need below a slot for nodes of a level: those
below it, and its own if the slot is a hole. -/
def World.HoleLevel (w : World) (level : ℕ) (s : Slot) (l : ℕ) : Prop :=
  l < level ∨ (l = level ∧ w.slotObj s = none ∧ w.slotRef s = .nil)

theorem World.HoleLevel.le {w : World} {level l : ℕ} {s : Slot} (h : w.HoleLevel level s l) :
    l ≤ level := h.elim Nat.le_of_lt fun h => h.1.le

section read

variable {w : World} {level : ℕ} {s : Slot}

theorem Grew.blkBytes_all {w' : World} (hg : Grew w w') (h : BInv E ∅ w) (h' : BInv E ∅ w') {n : ℕ}
    (hn : n < w.nblk) (o : ℕ) :
    UTFS.blkBytes E w' (w.blk n).level n o = UTFS.blkBytes E w (w.blk n).level n o := by
  cases hz : (w.blk n).zero with
  | false => exact hg.blkBytes h hn hz o
  | true =>
      rw [blkBytes_zero h _ n hn hz rfl o]
      refine blkBytes_zero h' _ n (hn.trans_le hg.nblk) ?_ ?_ o
      · rw [hg.blk n hn]; exact hz
      · rw [hg.blk n hn]

theorem ZeroMissing.mono {w₁ w' : World} {e : Exn} {P P' : ℕ → Prop} (h : ZeroMissing E w₁ P e w')
    (hg : Grew w w₁) (hP : ∀ l, P l → P' l) : ZeroMissing E w P' e w' := by
  obtain ⟨he, hinv, hg', l, hl, hz⟩ := h
  refine ⟨he, hinv, hg.trans hg', l, hP l hl, ?_⟩
  rw [← outer_zobj hg.outer]
  exact hz

/-- **The node for a slot of a traversal that only reads.** -/
theorem wp_findBlk_read {t : Traversal V} (ht : t.modifyX = false) (h : BInv E ∅ w)
    (hs : SlotReadable w level s) :
    wp (findBlk E t level s)
      (fun n w' => BInv E ∅ w' ∧ Grew w w' ∧ Readable w' level n ∧
        ∀ o < span level, blkBytes E w' level n o = slotBytes E w level s o)
      (ZeroMissing E w fun l => l = level ∧ w.slotObj s = none ∧ w.slotRef s = .nil) w := by
  simp only [findBlk, wp_bind, wp_get]
  cases hn : w.slotObj s with
  | some n =>
      have hr : Readable w level n := by
        rcases hs with ⟨hl, hlev⟩ | ⟨z, hz, hlt, -, hlev⟩
        · have ho := h.obj s n hl hn
          exact ⟨ho.lt, ho.level.trans hlev⟩
        · rw [hn] at hz
          obtain rfl : n = z := Option.some.inj hz
          exact ⟨hlt, hlev⟩
      simp only [castBlk, wp_bind, wp_get, hr.levelEq, if_true, wp_pure]
      refine ⟨h, .refl w, hr, ?_⟩
      intro o _
      simp only [slotBytes, hn]
  | none =>
      obtain ⟨hl, hlev⟩ : w.Live s ∧ w.slotLevel s = level := by
        rcases hs with hl | ⟨z, hz, -⟩
        · exact hl
        · rw [hn] at hz
          simp at hz
      by_cases hr : w.slotRef s = .nil
      · simp only [hr, ne_eq, not_true_eq_false, if_false, ht, Bool.false_eq_true]
        cases hz : w.zobj level with
        | none => exact ⟨rfl, h, .refl w, level, ⟨rfl, trivial, trivial⟩, hz⟩
        | some z =>
            obtain ⟨hlt, hzz, hzl⟩ := h.zobj level z hz
            refine ⟨h, .refl w, ⟨hlt, hzl⟩, ?_⟩
            intro o _
            simp only [slotBytes, hn, hr]
            rw [blkBytes_zero h level z hlt hzz hzl o, storeBytes_nil h.disk.nilFree]
      · simp only [hr, ne_eq, not_false_eq_true, if_true]
        have hst : Stored w.log (w.slotRef s) (.blk level) := by
          rw [← hlev]
          exact h.refOk s hl hr
        refine wp_mono (wp_faultBlk h t.nocache hst (by simp)) ?_ (fun _ _ hF => hF)
        intro n w' hf
        refine ⟨hf.inv, hf.grew, ⟨hf.lt, hf.levelEq⟩, ?_⟩
        intro o ho
        simp only [slotBytes, hn]
        exact hf.bytes o ho

variable {t : Traversal V} {f fsz : ℕ} {sem : (ℕ → UInt8) → ℕ → ℕ → V → V}

/-- One slot of a traversal that only reads. -/
theorem wp_traverseSlot_read {visit : ℕ → ℕ → V → M (Bool × V)} {off : ℕ} {wr : ℕ → UInt8 → UInt8}
    (ht : t.modifyX = false) (hlaws : VisitLaws t fsz wr sem) (h : BInv E ∅ w)
    (hs : SlotReadable w level s) (v : V)
    (hvisit : ∀ n w₁, BInv E ∅ w₁ → Readable w₁ level n → Grew w w₁ →
      wp (visit n off v)
        (fun r w' => BInv E ∅ w' ∧ Grew w₁ w' ∧
          r.2 = sem (fun a => blkBytes E w₁ level n (a - off)) off (off + span level) v ∧
          (level = 0 → r.1 = false))
        (ZeroMissing E w₁ (· < level)) w₁) :
    wp (traverseSlot E t visit level s off v)
      (fun v' w' => BInv E ∅ w' ∧ Grew w w' ∧
        v' = sem (fun a => slotBytes E w level s (a - off)) off (off + span level) v)
      (ZeroMissing E w (w.HoleLevel level s)) w := by
  rw [traverseSlot]
  refine wp_seq (wp_findBlk_read ht h hs) ?_ (fun _ _ hF => hF.mono (.refl w) fun _ => .inr)
  rintro n w₁ ⟨hinv₁, hg₁, hr, hbytes⟩
  refine wp_seq (hvisit n w₁ hinv₁ hr hg₁) ?_ (fun _ _ hF => hF.mono hg₁ fun _ => .inl)
  rintro ⟨changed, v'⟩ w₂ ⟨hinv₂, hg₂, hv, hc⟩
  have hpost : BInv E ∅ w₂ ∧ Grew w w₂ ∧
      v' = sem (fun a => slotBytes E w level s (a - off)) off (off + span level) v := by
    refine ⟨hinv₂, hg₁.trans hg₂, ?_⟩
    refine (show v' = _ from hv).trans (hlaws.sem_congr _ _ _ _ _ ?_)
    intro a h₁ h₂
    exact hbytes (a - off) (by omega)
  cases changed with
  | false => exact hpost
  | true =>
      simp only [if_true, ht, Bool.false_eq_true, if_false]
      cases level with
      | zero => exact absurd (hc rfl) (by simp)
      | succ level => exact hpost

/-- **A node of any level.** -/
theorem wp_rbTraverse_read (ht : t.modifyX = false) (hfn : t.fn = f)
    (hlaws : VisitLaws t fsz (fun _ b => b) sem)
    (hfalse : ∀ v sz (data : Fin sz → UInt8) off, (t.btVisit v sz data off fsz).1 = false) :
    ∀ (level : ℕ) (w : World) (n base : ℕ) (v : V), (w.fil f).inode.size = fsz → BInv E ∅ w →
      Readable w level n → t.rngoff < base + span level →
      wp (rbTraverse E t level n base v)
        (fun r w' => BInv E ∅ w' ∧ Grew w w' ∧
          r.2 = sem (fun a => blkBytes E w level n (a - base)) base (base + span level) v ∧
          (level = 0 → r.1 = false))
        (ZeroMissing E w (· < level)) w := by
  intro level
  induction level with
  | zero =>
      intro w n base v hsize h hr _
      have hdata : (t.btVisit v 8192 (w.blk n).data base fsz).2.2 = (w.blk n).data :=
        funext (hlaws.data v 8192 (w.blk n).data base)
      have hstate : (t.btVisit v 8192 (w.blk n).data base fsz).2.1 =
          sem (fun a => blkBytes E w 0 n (a - base)) base (base + span 0) v := by
        refine hlaws.state v 8192 _ base _ ?_
        intro j
        have hj : base + j.1 - base = j.1 := by omega
        simp only [blkBytes, byteAt, hj, j.2, dif_pos]
      rw [rbTraverse, wp, visitData_run, hfn, hsize]
      simp only [hdata, hstate]
      have hw : w.setBlk n { w.blk n with data := (w.blk n).data } = w := by simp [World.setBlk]
      rw [hw]
      exact ⟨h, .refl w, trivial, fun _ => hfalse _ _ _ _⟩
  | succ level ih =>
      intro w n base v hsize h hr hrng
      generalize hc : (fun a => blkBytes E w (level + 1) n (a - base)) = c
      have hslots : ∀ w₁, BInv E ∅ w₁ → Grew w w₁ → ∀ i, SlotReadable w₁ level (.sub n i) := by
        intro w₁ h₁ hg i
        have hlt := hr.lt.trans_le hg.nblk
        have hlev : (w₁.blk n).level = level + 1 := by rw [hg.blk n hr.lt]; exact hr.levelEq
        cases hz : (w₁.blk n).zero with
        | false => exact .inl ⟨⟨hlt, hz, by omega⟩, by simp [World.slotLevel, hlev]⟩
        | true =>
            obtain ⟨z, hzo, hzlt, hzz, hzl⟩ := (h₁.zero n hlt hz).obj level hlev i
            exact .inr ⟨z, hzo, hzlt, hzz, hzl⟩
      rw [rbTraverse]
      simp only
      split
      case isTrue hend =>
        refine ⟨h, .refl w, ?_, by simp⟩
        exact (hlaws.sem_out c _ _ v (.inr (by omega))).symm
      case isFalse hend =>
        refine wp_seq (wp_slotLoop hlaws c (J := fun _ w' => BInv E ∅ w' ∧ Grew w w') hrng
          (fun _ _ _ hJ _ _ _ => hJ) ?_ v ⟨h, .refl w⟩) ?_ (fun _ _ hF => hF)
        · rintro i v₁ w₁ hi ⟨h₁, hg₁⟩ hrng₁
          have hfin : Fin.ofNat 256 i = ⟨i, hi⟩ := Fin.ext (Nat.mod_eq_of_lt hi)
          simp only [hfin]
          refine wp_mono (wp_traverseSlot_read ht hlaws h₁ (hslots w₁ h₁ hg₁ ⟨i, hi⟩) v₁ ?_) ?_
            (fun _ _ hF => hF.mono hg₁ fun _ hl => Nat.lt_succ_of_le hl.le)
          · intro m w₂ h₂ hr₂ hg₂
            refine ih w₂ m _ v₁ ?_ h₂ hr₂ hrng₁
            rw [(hg₁.trans hg₂).fil]
            exact hsize
          · rintro v₂ w₂ ⟨h₂, hg₂, hv₂⟩
            refine ⟨⟨h₂, hg₁.trans hg₂⟩, hv₂.trans (hlaws.sem_congr _ _ _ _ _ ?_)⟩
            intro a ha₁ ha₂
            have ho : a - (base + i * span level) < span level := by omega
            have ha : a - base = i * span level + (a - (base + i * span level)) := by omega
            have hall := hg₁.blkBytes_all h h₁ hr.lt (a - base)
            rw [hr.levelEq, ha] at hall
            rw [← blkBytes_sub w₁ level n ⟨i, hi⟩ ho, ← hc]
            simp only
            rw [hall, ha]
        · rintro v₁ w₁ ⟨⟨h₁, hg₁⟩, hv₁⟩
          exact ⟨h₁, hg₁, hv₁, by simp⟩

end read

end UTFS

end Utopfs
