/-
**The names of blocks.**

A block is named by the handle and the reference in its slot.  The node of a name is the one the handle
leads to, or the one in the clean cache; a block that is in neither is in the store.  So an indirect
block names 256 others wherever it is, and a file can be described without saying which of its blocks
are in memory.

Main definitions:

* `UTFS.NameOk` — what the names in a file have in common;
* `UTFS.nameBytes` — the bytes under a name;
* `UTFS.Hole`, `UTFS.FileHole` — the bytes that no block holds.

Main results:

* `UTFS.NameOk.namesIn` — the names in an indirect block are good if its own is;
* `UTFS.nameBytes_succ` — the bytes under a name are those under the names in its block;
* `UTFS.FileHole.zero` — holes are zero.
-/

import Utopfs.TruncateLaw

set_option relaxedAutoImplicit false
set_option autoImplicit false

namespace Utopfs

namespace UTFS

variable (E : Env)

/-- A name that leads to a node of the level, and to a block of the level in the store. -/
structure NameOk (w : World) (level : ℕ) (x : Option ℕ × BlockRef) : Prop where
  node : ∀ n, x.1 = some n → n < w.nblk ∧ (w.blk n).zero = false ∧ (w.blk n).level = level
  ref : x.2 ≠ .nil → Stored w.log x.2 (.blk level)

/-- The bytes under a name for blocks of a level. -/
def nameBytes (w : World) (level : ℕ) (x : Option ℕ × BlockRef) (o : ℕ) : UInt8 :=
  match x.1 with
  | some n => blkBytes E w level n o
  | none => storeBytes E w.log level x.2 o

/-- There is no data block for the offset `o` under a name. -/
def Hole (w : World) : ℕ → Option ℕ × BlockRef → ℕ → Prop
  | 0, x, _ => ¬ (x.1.isSome ∨ x.2 ≠ .nil)
  | level + 1, x, o => ¬ (x.1.isSome ∨ x.2 ≠ .nil) ∨
      Hole w level (w.namesIn E x (Fin.ofNat 256 (o / span level))) (o % span level)

/-- There is no data block for the byte at `a` of a file. -/
def FileHole (w : World) (f a : ℕ) : Prop :=
  ∃ s : FSlot, s.base ≤ a ∧ a < s.top ∧ Hole E w s.level (w.slotName (.fil f s)) (a - s.base)

variable {E} {w : World} {level : ℕ} {x : Option ℕ × BlockRef}

theorem slotBytes_eq (w : World) (level : ℕ) (s : Slot) (o : ℕ) :
    slotBytes E w level s o = nameBytes E w level (w.slotName s) o := rfl

theorem nameOk_slot (h : BInv E ∅ w) {s : Slot} (hs : w.Live s) : NameOk w (w.slotLevel s) (w.slotName s) where
  node n hn := by
    have hobj := h.obj s n hs hn
    exact ⟨hobj.lt, hobj.zero, hobj.level⟩
  ref hr := h.refOk s hs hr

/-- The node of a name, and the block it was read from. -/
theorem NameOk.blkOf (h : BInv E ∅ w) (hx : NameOk w level x) {n : ℕ} (hn : w.blkOf x.1 x.2 = some n)
    (hsome : x.1.isSome ∨ x.2 ≠ .nil) :
    n < w.nblk ∧ (w.blk n).zero = false ∧ (w.blk n).level = level ∧
      ∀ o < span level, nameBytes E w level x o = blkBytes E w level n o := by
  obtain ⟨c, r⟩ := x
  cases c with
  | some m =>
      obtain rfl : m = n := by simpa only [World.blkOf, Option.some.injEq] using hn
      obtain ⟨hlt, hz, hl⟩ := hx.node m rfl
      exact ⟨hlt, hz, hl, fun _ _ => rfl⟩
  | none =>
      simp only [World.blkOf] at hn
      split at hn
      case h_1 m hm =>
        obtain rfl := Option.some.inj hn
        have hr : r ≠ .nil := by simpa using hsome
        have hkey := h.key r m hm
        have hl : (w.blk m).level = level := by
          have hkind := hkey.stored.kind_eq (hx.ref hr)
          injection hkind
        refine ⟨hkey.lt, hkey.zero, hl, fun o ho => ?_⟩
        have hbytes := (h.clean m hkey.lt hkey.zero (by simp) (hkey.clean (by simp))).bytes o
        rw [hl, hkey.ref] at hbytes
        exact (hbytes ho).symm
      case h_2 => simp at hn

theorem NameOk.namesIn (h : BInv E ∅ w) (hx : NameOk w (level + 1) x) (hsome : x.1.isSome ∨ x.2 ≠ .nil)
    (i : Fin 256) : NameOk w level (w.namesIn E x i) := by
  cases hn : w.blkOf x.1 x.2 with
  | some n =>
      obtain ⟨hlt, hz, hl, -⟩ := hx.blkOf h hn hsome
      have hlive : w.Live (.sub n i) := ⟨hlt, hz, by omega⟩
      have hok := nameOk_slot h hlive
      have hlevel : w.slotLevel (.sub n i) = level := by
        simp only [World.slotLevel, hl]
        omega
      rw [hlevel] at hok
      simpa only [World.namesIn, hn] using hok
  | none =>
      simp only [World.namesIn, hn]
      refine ⟨fun n hn => by simp at hn, fun hr => ?_⟩
      have hnone : x.1 = none := by
        cases hc : x.1 with
        | none => rfl
        | some m => simp [World.blkOf, hc] at hn
      obtain ⟨b, hb⟩ := hx.ref (by simpa [hnone] using hsome)
      have hdec : decode E w.log x.2 = some (E.decrypt x.2.iv b) := by simp [decode, hb]
      simp only [storedRefs, hdec] at hr ⊢
      exact h.disk.subRefs x.2 b level hb i hr

/-- **The bytes under a name are those under the names in its block.** -/
theorem nameBytes_succ (h : BInv E ∅ w) (hx : NameOk w (level + 1) x) (hsome : x.1.isSome ∨ x.2 ≠ .nil)
    (i : Fin 256) {o : ℕ} (ho : o < span level) :
    nameBytes E w (level + 1) x (i * span level + o) = nameBytes E w level (w.namesIn E x i) o := by
  have hin : i * span level + o < span (level + 1) := by
    have hi : (i : ℕ) * span level + o < 256 * span level := by
      have hmul : ((i : ℕ) + 1) * span level ≤ 256 * span level := Nat.mul_le_mul_right _ i.2
      rw [Nat.add_mul, Nat.one_mul] at hmul
      omega
    simpa [span, Nat.pow_succ, Nat.mul_comm, Nat.mul_left_comm] using hi
  cases hn : w.blkOf x.1 x.2 with
  | some n =>
      obtain ⟨-, -, -, hbytes⟩ := hx.blkOf h hn hsome
      rw [hbytes _ hin, blkBytes_sub w level n i ho]
      simp only [World.namesIn, hn]
      rfl
  | none =>
      have hnone : x.1 = none := by
        cases hc : x.1 with
        | none => rfl
        | some m => simp [World.blkOf, hc] at hn
      obtain ⟨b, hb⟩ := hx.ref (by simpa [hnone] using hsome)
      have hdec : decode E w.log x.2 = some (E.decrypt x.2.iv b) := by simp [decode, hb]
      have hnames : w.namesIn E x i = (none, unpackRefs (E.decrypt x.2.iv b) i) := by
        simp only [World.namesIn, hn, storedRefs, hdec]
      rw [hnames]
      simp only [nameBytes, hnone]
      exact storeBytes_sub hdec level i ho

/-- Nothing is under a name that leads nowhere. -/
theorem nameBytes_none (h : BInv E ∅ w) (hnone : ¬ (x.1.isSome ∨ x.2 ≠ .nil)) (o : ℕ) :
    nameBytes E w level x o = 0 := by
  obtain ⟨c, r⟩ := x
  obtain ⟨hc, rfl⟩ : c = none ∧ r = .nil := by simpa using hnone
  subst hc
  exact storeBytes_nil h.disk.nilFree level o

theorem Hole.zero (h : BInv E ∅ w) : ∀ {level : ℕ} {x : Option ℕ × BlockRef} {o : ℕ}, NameOk w level x →
    o < span level → Hole E w level x o → nameBytes E w level x o = 0 := by
  intro level
  induction level with
  | zero => exact fun _ _ hhole => nameBytes_none h hhole _
  | succ level ih =>
      intro x o hx ho hhole
      by_cases hsome : x.1.isSome ∨ x.2 ≠ .nil
      · obtain ⟨i, o', ho', rfl⟩ := exists_slot_offset ho
        have hrest := hhole.resolve_left (not_not_intro hsome)
        rw [add_div_span _ ho', add_mod_span _ ho'] at hrest
        have hfin : Fin.ofNat 256 (i : ℕ) = i := Fin.ext (Nat.mod_eq_of_lt i.2)
        rw [hfin] at hrest
        rw [nameBytes_succ h hx hsome i ho']
        exact ih (hx.namesIn h hsome i) ho' hrest
      · exact nameBytes_none h hsome o

/-- **Holes are zero.** -/
theorem FileHole.zero (h : BInv E ∅ w) {f a : ℕ} (hf : f < w.nfil) (hhole : FileHole E w f a) :
    fileBytes E w f a = 0 := by
  obtain ⟨s, hbase, htop, hs⟩ := hhole
  have ho : a - s.base < span s.level := by
    rw [FSlot.top_eq] at htop
    omega
  have ha : s.base + (a - s.base) = a := by omega
  rw [← ha, fileBytes_slot w f ho, slotBytes_eq]
  exact Hole.zero h (nameOk_slot h (s := .fil f s) hf) ho hs

end UTFS

end Utopfs
