/-
**Truncating a file.**

`rb_truncate` counts the blocks that remain, zeroes the end of the block in which the file now ends
and removes the blocks after it.  An indirect block below which nothing was counted is removed as
well; there are then only holes under it.  The double and the triple indirect block are not visited.

Main definitions:

* `UTFS.SlotTruncated`, `UTFS.NodeTruncated`, `UTFS.Truncated` — what the truncation does to a slot, a
  node and a file;
* `UTFS.FilCounted` — the blocks that are counted.

Main results:

* `UTFS.wp_rbTruncate` — a node of any level is truncated;
* `UTFS.wp_fileTruncate` — **a file is truncated**, without touching other files.
-/

import Utopfs.FileFlush

set_option relaxedAutoImplicit false
set_option autoImplicit false

namespace Utopfs

namespace UTFS

open Prog

variable {E : Env}

/-- The loop rule for sums.  The invariant speaks of the part of the list still to be done and of the
sum so far. -/
theorem wp_sumM {α : Type} {m : α → M ℕ} {I : List α → ℕ → World → Prop} {F : Exn → World → Prop}
    (hstep : ∀ a l k w, I (a :: l) k w → wp (m a) (fun n w' => I l (k + n) w') F w) :
    ∀ (l : List α) (k : ℕ) (w : World), I l k w →
      wp (sumM m l) (fun n w' => I [] (k + n) w') F w := by
  intro l
  induction l with
  | nil => exact fun k w h => h
  | cons a l ih =>
      intro k w h
      rw [sumM]
      refine wp_seq (hstep a l k w h) ?_ (fun _ _ hF => hF)
      intro n w₁ h₁
      refine wp_seq (ih (k + n) w₁ h₁) ?_ (fun _ _ hF => hF)
      intro m w₂ h₂
      rw [wp_pure, ← Nat.add_assoc]
      exact h₂

/-! ### One slot -/

/-- A slot holds a block. -/
def World.Occupied (w : World) (s : Slot) : Prop := (w.slotObj s).isSome ∨ w.slotRef s ≠ .nil

instance (w : World) : DecidablePred w.Occupied := fun s =>
  inferInstanceAs (Decidable ((w.slotObj s).isSome ∨ w.slotRef s ≠ .nil))

theorem not_occupied {w : World} {s : Slot} :
    ¬ w.Occupied s ↔ w.slotObj s = none ∧ w.slotRef s = .nil := by
  simp [World.Occupied]

/-- The node that a block of a handle and a reference has in memory, in the clean cache if there is no
handle. -/
def World.blkOf (w : World) (o : Option ℕ) (r : BlockRef) : Option ℕ :=
  match o with
  | some n => some n
  | none =>
      match w.cache.nodemap r with
      | some (.blk n) => some n
      | _ => none

/-- The node `n` of level 1 holds `k` data blocks, none of which begins at or after `size`. -/
structure Holds (w : World) (n base size k : ℕ) : Prop where
  count : k = (Finset.univ.filter fun i : Fin 256 => w.Occupied (.sub n i)).card
  within : ∀ i : Fin 256, size ≤ base + i * 8192 → ¬ w.Occupied (.sub n i)

variable (E) in
/-- What the truncation does to a slot at the offset `off`, where `nb` blocks were counted. -/
structure SlotTruncated (f : ℕ) (X : Set ℕ) (w : World) (level : ℕ) (s : Slot) (off size nb : ℕ)
    (w' : World) : Prop where
  inv : BInv E X w'
  frame : Frame E f X X {s} w w'
  keep : ∀ o < span level, off + o < size → slotBytes E w' level s o = slotBytes E w level s o
  holes : nb = 0 → ∀ o < span level, off + o < size → slotBytes E w level s o = 0
  quiet : w'.OwnerDirty s ∨ (w'.slotRef s = w.slotRef s ∧
    ∀ o < span level, slotBytes E w' level s o = slotBytes E w level s o)
  zeros : ∀ o < span level, size ≤ off + o → slotBytes E w' level s o = 0
  counted : w'.Occupied s ↔ nb ≠ 0
  gone : size ≤ off → nb = 0
  data : level = 0 → nb ≤ 1 ∧ (w'.OwnerDirty s ∨ w' = w)
  ind : level = 1 → nb ≠ 0 → ∃ n k, w'.blkOf (w'.slotObj s) (w'.slotRef s) = some n ∧ nb = 1 + k ∧
    Holds w' n off size k

section slot

variable {f : ℕ} {X : Set ℕ} {w w' : World} {s : Slot} {n level off size : ℕ}

/-- A slot with neither a handle nor a reference is a hole. -/
theorem slotBytes_hole (h : BInv E X w) (hobj : w.slotObj s = none) (href : w.slotRef s = .nil)
    (o : ℕ) : slotBytes E w level s o = 0 := by
  simp only [slotBytes, hobj, href]
  exact storeBytes_nil h.disk.nilFree _ _

/-- The block of a reference is in the clean cache when it has been found. -/
theorem faultBlk_cached (level : ℕ) (r : BlockRef) (w : World) :
    wp (faultBlk E false level r) (fun n w' => w'.cache.nodemap r = some (.blk n)) (fun _ _ => True)
      w := by
  simp only [faultBlk, cacheLookup, wp_bind, wp_get]
  cases hr : w.cache.nodemap r with
  | none =>
      simp only [wp_pure, wp_bind]
      have hload : wp (loadBlk E level r)
          (fun n w' => w'.cache = w.cache ∧ (w'.blk n).ref = r) (fun _ _ => True) w := by
        simp only [loadBlk, readBlock, bsBlockGet, validate, allocBlk, wp_bind, wp_get]
        split
        case h_2 => trivial
        case h_1 b =>
          simp only [wp_pure]
          split
          case isTrue => trivial
          case isFalse =>
            simp only [wp_bind, wp_pure, wp_get, wp_set, World.setBlk, Function.update_self]
            exact ⟨trivial, rfl⟩
      refine wp_mono hload ?_ (fun _ _ h => h)
      rintro n w' ⟨hcache, href⟩
      have hmiss : w'.cache.nodemap (w'.refOf (.blk n)) = none := by
        rw [hcache]
        exact (congrArg _ href).trans hr
      simp only [Bool.not_false, if_true, cacheInsert, mruPushFront, wp_bind, wp_get, hmiss, wp_set,
        wp_modify, wp_pure]
      simp [World.refOf, href]
  | some o =>
      have htouch : wp (cacheTouch o) (fun _ w' => w'.cache.nodemap = w.cache.nodemap)
          (fun _ _ => True) w := by
        simp only [cacheTouch, mruErase, mruPushFront, wp_bind, wp_get]
        split
        case h_2 => trivial
        case h_1 p _ =>
          split
          case isTrue => rfl
          case isFalse => trivial
      simp only [wp_bind]
      refine wp_mono htouch ?_ (fun _ _ h => h)
      intro _ w' hmap
      change wp (castBlk level o) _ _ w'
      cases o with
      | fil g => trivial
      | blk n =>
          simp only [castBlk, wp_bind, wp_get]
          split
          case isTrue => rw [wp_pure, hmap, hr]
          case isFalse => trivial

/-- The object for a slot, if there is one. -/
theorem wp_findExisting (h : SlotIn E f X w level s) {F : Exn → World → Prop} :
    wp (findExisting E level s)
      (fun r w' => (∃ n, r = some n ∧ Found E f X w level s n w' ∧
          w'.blkOf (w'.slotObj s) (w'.slotRef s) = some n) ∨
        (r = none ∧ w' = w ∧ w.slotObj s = none ∧ w.slotRef s = .nil)) F w := by
  simp only [findExisting, wp_bind, wp_get]
  cases hn : w.slotObj s with
  | some n =>
      have hfound := h.found_held hn
      simp only [map_eq_pure_bind, castBlk, wp_bind, wp_get, hfound.levelEq, if_true, wp_pure]
      exact .inl ⟨n, rfl, hfound, by rw [hn]; rfl⟩
  | none =>
      by_cases hr : w.slotRef s = .nil
      · simp only [hr, ne_eq, not_true_eq_false, if_false, wp_pure]
        exact .inr ⟨trivial, trivial, trivial, trivial⟩
      · simp only [hr, ne_eq, not_false_eq_true, if_true, map_eq_pure_bind, wp_bind]
        have hX : ∀ x ∈ X, (w.blk x).level ≠ level := fun x hx hl => by
          have := h.above x hx
          omega
        refine wp_mono (wp_and (wp_faultBlk h.inv false (h.stored hr) hX (F := F))
          (faultBlk_cached level (w.slotRef s) w)) ?_ (fun _ _ hF => hF.1)
        rintro n w' ⟨hfault, hcached⟩
        have hfound := h.found_faulted hn hfault
        refine .inl ⟨n, rfl, hfound, ?_⟩
        rw [hfound.ref]
        rcases hfound.held with hobj | hobj
        · rw [hobj]
          rfl
        · simp only [World.blkOf, hobj, hcached]

/-- **The block of a slot is removed.** -/
theorem wp_clearSlot (h : BInv E X w) (hlive : w.Live s) (hown : s.OwnerIn X) (hfile : s.OfFile f)
    {F : Exn → World → Prop} :
    wp (clearSlot s)
      (fun _ w' => BInv E X w' ∧ Frame E f X X {s} w w' ∧ w'.OwnerDirty s ∧ w'.slotObj s = none ∧
        w'.slotRef s = .nil) F w := by
  have hblk : ∀ o, w.cache.nodemap (w.slotRef s) = some o → o.IsBlk := by
    intro o ho
    cases o with
    | blk m => exact ⟨m, rfl⟩
    | fil g =>
        have hfil := h.keyFil _ g ho
        have hne : w.slotRef s ≠ .nil := by
          intro hnil
          obtain ⟨b, hb⟩ := hfil
          rw [hnil, h.disk.nilFree] at hb
          simp at hb
        exact absurd (hfil.kind_eq (h.refOk s hlive hne)) (by simp)
  -- The cache forgets the reference; then the slot is cleared.
  have key : ∀ c, BInv E X (w.setCache c) → SameFil w.cache c →
      wp (do setSlotRef s .nil; setSlotObj s none; setOwnerDirty s)
        (fun _ w' => BInv E X w' ∧ Frame E f X X {s} w w' ∧ w'.OwnerDirty s ∧ w'.slotObj s = none ∧
          w'.slotRef s = .nil) F (w.setCache c) := by
    intro c hc hsame
    have h₁ : BInv E X ((w.setCache c).setSlotRef s .nil) :=
      hc.setSlotRef hown _ (fun hne => absurd rfl hne)
    have h₂ : BInv E X (((w.setCache c).setSlotRef s .nil).setSlotObj s none) :=
      h₁.setSlotObj hown none (by simp) (by simp)
    have hf₀ : Frame E f X X {s} w (w.setCache c) := (Grew.setCache hsame).frame h h.lt_of_mem
    have hf₁ := frame_setSlotRef hc hown hfile .nil
    have hf₂ := frame_setSlotObj h₁ hown hfile none
    have hlive₀ : (w.setCache c).Live s := hlive
    simp only [setSlotRef, setSlotObj, wp_bind, wp_modify]
    refine wp_mono (wp_setOwnerDirty h₂ (by simpa using hlive₀) hown hfile (F := F)) ?_
      (fun _ _ hF => hF)
    rintro - w' ⟨hinv, hf₃, hod, hobj, href, -, -⟩
    refine ⟨hinv, ((hf₀.trans hf₁).trans hf₂).trans (hf₃.mono (fun _ h => h) (fun _ h => h) (by simp)),
      hod, ?_, ?_⟩
    · rw [hobj]
      exact slotObj_setSlotObj_self _ _ _
    · rw [href, slotRef_setSlotObj]
      exact slotRef_setSlotRef_self _ _ _
  simp only [clearSlot, wp_bind, wp_get]
  refine wp_cacheRemove (h.rep.placed hblk) ?_ ?_
  · intro _
    have := key w.cache (by simpa [World.setCache] using h) (.refl _)
    simpa [World.setCache] using this
  · intro o ho
    obtain ⟨m, rfl⟩ := hblk o ho
    have := key _ (h.removed ho) (h.rep.sameFil_removed ho)
    simpa using this

/-- A slot without bytes below the new size is removed. -/
theorem SlotTruncated.of_cleared (hframe : Frame E f X X {s} w w') (hinv : BInv E X w')
    (hown : w'.OwnerDirty s) (hobj : w'.slotObj s = none) (href : w'.slotRef s = .nil)
    (hholes : ∀ o < span level, off + o < size → slotBytes E w level s o = 0) :
    SlotTruncated E f X w level s off size 0 w' where
  inv := hinv
  frame := hframe
  keep o ho hlt := by rw [slotBytes_hole hinv hobj href, hholes o ho hlt]
  holes _ := hholes
  quiet := .inl hown
  zeros o _ _ := slotBytes_hole hinv hobj href o
  counted := ⟨fun h => absurd h (not_occupied.2 ⟨hobj, href⟩), fun h => absurd rfl h⟩
  gone _ := rfl
  data _ := ⟨Nat.zero_le _, .inl hown⟩
  ind _ h := absurd rfl h

/-- Nothing is done to a hole. -/
theorem SlotTruncated.hole (hin : SlotIn E f X w level s) (hobj : w.slotObj s = none)
    (href : w.slotRef s = .nil) : SlotTruncated E f X w level s off size 0 w where
  inv := hin.inv
  frame := .refl hin.inv hin.inv.lt_of_mem
  keep _ _ _ := rfl
  holes _ o _ _ := slotBytes_hole hin.inv hobj href o
  quiet := .inr ⟨rfl, fun _ _ => rfl⟩
  zeros o _ _ := slotBytes_hole hin.inv hobj href o
  counted := ⟨fun h => absurd h (not_occupied.2 ⟨hobj, href⟩), fun h => absurd rfl h⟩
  gone _ := rfl
  data _ := ⟨Nat.zero_le _, .inr rfl⟩
  ind _ h := absurd rfl h

/-- Nothing is done to a data block below the end of the file. -/
theorem SlotTruncated.below (hin : SlotIn E f X w 0 s) (hocc : w.Occupied s)
    (hend : off + 8192 ≤ size) : SlotTruncated E f X w 0 s off size 1 w where
  inv := hin.inv
  frame := .refl hin.inv hin.inv.lt_of_mem
  keep _ _ _ := rfl
  holes h := absurd h (by decide)
  quiet := .inr ⟨rfl, fun _ _ => rfl⟩
  zeros o ho hle := by
    have ho' : o < 8192 := ho
    omega
  counted := ⟨fun _ => by decide, fun _ => hocc⟩
  gone hle := by omega
  data _ := ⟨le_refl _, .inr rfl⟩
  ind h := absurd h (by decide)

/-- **A slot for a data block is truncated.** -/
theorem wp_truncateDataSlot (hin : SlotIn E f X w 0 s) (off size : ℕ) :
    wp (truncateDataSlot E s off size)
      (fun nb w' => SlotTruncated E f X w 0 s off size nb w') (fun _ _ => False) w := by
  have hspan : span 0 = 8192 := rfl
  simp only [truncateDataSlot, wp_bind, wp_get]
  rcases Nat.lt_or_ge size (off + 8192) with hend | hend
  · rw [if_neg (by omega)]
    rcases Nat.lt_or_ge off size with hoff | hoff
    · -- The file ends in this block.
      rw [if_pos hoff, wp_bind]
      refine wp_mono (wp_findExisting hin) ?_ (fun _ _ hF => hF)
      rintro r w₁ (⟨n, rfl, hf, -⟩ | ⟨rfl, rfl, hobj, href⟩)
      · have hnode := hf.nodeIn hin
        have hhand : BInv E (insert n X) w₁ := hnode.inv.insertHand hnode.lt hnode.zero hnode.held
        generalize hdata : (fun j : Fin 8192 => if size - off ≤ j.1 then 0 else (w₁.blk n).data j) = data
        obtain ⟨h₂, hf₂⟩ := frame_setBlkDirty (S := ∅) (f := f) hhand hnode.notIn
          (d := { w₁.blk n with data := data }) ⟨_, _, rfl⟩
        simp only [wp_bind, wp_modify, hdata]
        refine wp_setBlkDirty (h₂.hand n (.inl rfl)).2 ?_
        obtain ⟨h₃, hf₃⟩ := frame_setBlkDirty (S := ∅) (f := f) h₂ hnode.notIn
          (d := { (w₁.setBlk n { w₁.blk n with data := data }).blk n with isdirty := true })
          ⟨_, _, rfl⟩
        refine wp_seq (wp_keepFound hin hf h₃ (hf₂.trans hf₃) (by rw [setBlk_self])) ?_
          (fun _ _ hF => hF)
        rintro - w' ⟨hinv, hframe, href, hown, ⟨hobj', -⟩, hbytes⟩
        refine ⟨hinv, hframe, ?_, fun h => absurd h (by decide), .inl hown, ?_, ?_, fun hle => by omega,
          fun _ => ⟨le_refl _, .inl hown⟩, fun h => absurd h (by decide)⟩
        · intro o ho hlt
          have ho' : o < 8192 := ho
          have hnot : ¬ size - off ≤ o := by omega
          rw [hbytes o, ← hf.node o ho]
          simp only [blkBytes, setBlk_self, byteAt, ho', dif_pos, ← hdata, hnot, if_false]
        · intro o ho hle
          have ho' : o < 8192 := ho
          have hpast : size - off ≤ o := by omega
          rw [hbytes o]
          simp only [blkBytes, setBlk_self, byteAt, ho', dif_pos, ← hdata, hpast, if_true]
        · exact ⟨fun _ => by decide, fun _ => .inl (by rw [hobj']; rfl)⟩
      · exact .hole hin hobj href
    · -- The block is after the end of the file.
      rw [if_neg (by omega), wp_bind]
      refine wp_mono (wp_clearSlot hin.inv hin.live hin.owner hin.ofFile) ?_ (fun _ _ hF => hF)
      rintro - w' ⟨hinv, hframe, hown, hobj, href⟩
      exact .of_cleared hframe hinv hown hobj href fun o _ hlt => by omega
  · rw [if_pos hend, wp_pure]
    split
    case isTrue hc => exact .below hin hc hend
    case isFalse hc =>
      obtain ⟨hobj, href⟩ := not_occupied.1 hc
      exact .hole hin hobj href

end slot

/-! ### A node of any level -/

variable (E) in
/-- What the truncation does to an indirect node at the offset `base`, where `nb` blocks were counted,
itself included; the node may now be dirty in the cache. -/
structure NodeTruncated (f : ℕ) (X : Set ℕ) (w : World) (level n base size nb : ℕ) (w' : World) :
    Prop where
  hand : BInv E (insert n X) w'
  frame : Frame E f X (insert n X) ∅ w w'
  keep : ∀ o < span level, base + o < size → blkBytes E w' level n o = blkBytes E w level n o
  holes : nb ≤ 1 → ∀ o < span level, base + o < size → blkBytes E w level n o = 0
  quiet : (w'.blk n).isdirty = false →
    BInv E X w' ∧ ∀ o < span level, blkBytes E w' level n o = blkBytes E w level n o
  zeros : ∀ o < span level, size ≤ base + o → blkBytes E w' level n o = 0
  data : level = 1 → Holds w' n base size (nb - 1) ∧ ((w'.blk n).isdirty = true ∨ w' = w)

section node

variable {f : ℕ} {X : Set ℕ} {w w' : World} {s : Slot} {n level base off size : ℕ}

/-- A slot whose node is in memory holds a block. -/
theorem occupied_of_blkOf (h : BInv E X w) (hn : w.blkOf (w.slotObj s) (w.slotRef s) = some n) :
    w.Occupied s := by
  cases hobj : w.slotObj s with
  | some m => exact .inl (by rw [hobj]; rfl)
  | none =>
      refine .inr fun hnil => ?_
      simp only [hobj, hnil, World.blkOf] at hn
      split at hn
      case h_1 m hmap =>
          obtain ⟨b, hb⟩ := (h.key .nil m hmap).stored
          rw [h.disk.nilFree] at hb
          simp at hb
      case h_2 => simp at hn

/-- What a node holds is in its own fields. -/
theorem Holds.congr {base k : ℕ} (h : Holds w n base size k) (hn : w'.blk n = w.blk n) :
    Holds w' n base size k := by
  have hslot : ∀ i, w'.Occupied (.sub n i) ↔ w.Occupied (.sub n i) := fun i => by
    simp only [World.Occupied, World.slotObj, World.slotRef, hn]
  constructor
  · rw [h.count]
    simp only [hslot]
  · intro i hi
    rw [hslot]
    exact h.within i hi

/-- **A slot for an indirect block is truncated**, given the truncation of the node. -/
theorem wp_truncateIndSlot {truncate : ℕ → M ℕ} (hin : SlotIn E f X w level s)
    (hlevel : 0 < level) (hoff : off < size) (hsome : w.Occupied s)
    (htrunc : ∀ n w₁, NodeIn E X w₁ level n →
      wp (truncate n) (fun nb w' => NodeTruncated E f X w₁ level n off size nb w')
        (fun _ _ => False) w₁) :
    wp (truncateIndSlot E truncate level s)
      (fun nb w' => SlotTruncated E f X w level s off size nb w') (fun _ _ => False) w := by
  rw [truncateIndSlot]
  refine wp_seq (wp_findExisting hin) ?_ (fun _ _ hF => hF)
  rintro r w₁ (⟨n, rfl, hf, hnode₁⟩ | ⟨rfl, rfl, hobj, href⟩)
  · have hnode := hf.nodeIn hin
    have hlive₁ : w₁.Live s := hf.frame.live hin.live
    simp only
    refine wp_seq (htrunc n w₁ hnode) ?_ (fun _ _ hF => hF)
    intro nb w₂ ht
    -- What is left is to remove the node when nothing was counted below it.
    have hholes : nb ≤ 1 → ∀ o < span level, off + o < size → slotBytes E w level s o = 0 := by
      intro hnb o ho hlt
      rw [← hf.node o ho]
      exact ht.holes hnb o ho hlt
    have finish : ∀ w₃, BInv E X w₃ → Frame E f X X {s} w w₃ → w₃.Live s →
        (∀ o < span level, off + o < size → slotBytes E w₃ level s o = slotBytes E w level s o) →
        (w₃.OwnerDirty s ∨ (w₃.slotRef s = w.slotRef s ∧
          ∀ o < span level, slotBytes E w₃ level s o = slotBytes E w level s o)) →
        (∀ o < span level, size ≤ off + o → slotBytes E w₃ level s o = 0) →
        w₃.Occupied s →
        (level = 1 → w₃.blkOf (w₃.slotObj s) (w₃.slotRef s) = some n ∧ Holds w₃ n off size (nb - 1)) →
        wp (if 1 < nb then pure nb else do clearSlot s; pure 0)
          (fun nb w' => SlotTruncated E f X w level s off size nb w') (fun _ _ => False) w₃ := by
      intro w₃ h₃ hf₃ hlive₃ hkeep hquiet hzeros hocc hind
      rcases Nat.lt_or_ge 1 nb with hnb | hnb
      · rw [if_pos hnb, wp_pure]
        refine ⟨h₃, hf₃, hkeep, fun h0 => by omega, hquiet, hzeros, ⟨fun _ => by omega, fun _ => hocc⟩,
          fun hle => by omega, fun h0 => by omega, fun h1 _ => ?_⟩
        exact ⟨n, nb - 1, (hind h1).1, by omega, (hind h1).2⟩
      · rw [if_neg (by omega), wp_bind]
        refine wp_mono (wp_clearSlot h₃ hlive₃ hin.owner hin.ofFile) ?_ (fun _ _ hF => hF)
        rintro - w' ⟨hinv, hframe, hown, hobj, href⟩
        exact .of_cleared (hf₃.trans hframe) hinv hown hobj href (hholes hnb)
    simp only [wp_bind, wp_get]
    cases hd : (w₂.blk n).isdirty with
    | true =>
        simp only [if_true, wp_bind]
        refine wp_mono (wp_keepFound hin hf ht.hand ht.frame hd) ?_ (fun _ _ hF => hF)
        rintro - w₃ ⟨h₃, hf₃, href, hown, ⟨hobj, hsame⟩, hbytes⟩
        refine finish w₃ h₃ hf₃ (hf₃.live hin.live) ?_ (.inl hown) ?_ (.inl (by rw [hobj]; rfl)) ?_
        · intro o ho hlt
          rw [hbytes o, ht.keep o ho hlt, hf.node o ho]
        · intro o ho hle
          rw [hbytes o, ht.zeros o ho hle]
        · intro h1
          exact ⟨by rw [hobj]; rfl, (ht.data h1).1.congr hsame⟩
    | false =>
        simp only [Bool.false_eq_true, if_false]
        obtain ⟨h₂, hsame⟩ := ht.quiet hd
        have hslot := ht.frame.slots s hlive₁ hin.owner (Set.notMem_empty _)
        have hocc₁ : w₁.Occupied s := occupied_of_blkOf hf.inv hnode₁
        have hbytes : ∀ o < span level, slotBytes E w₂ level s o = slotBytes E w level s o := by
          intro o hlt
          rcases hf.held with hn | hn
          · rw [← hf.node o hlt, ← hsame o hlt]
            simp only [slotBytes, hslot.1, hn]
          · rw [← hf.slot o hlt]
            simp only [slotBytes, hslot.1, hslot.2, hn, outer_log ht.frame.outer]
        refine finish w₂ h₂ (hf.frame.trans (ht.frame.below hf.only)) (ht.frame.live hlive₁)
          (fun o ho _ => hbytes o ho) (.inr ⟨hslot.2.trans hf.ref, hbytes⟩) ?_ ?_ ?_
        · intro o ho hle
          rw [hbytes o ho, ← hf.node o ho, ← hsame o ho, ht.zeros o ho hle]
        · simpa only [World.Occupied, hslot.1, hslot.2] using hocc₁
        · intro h1
          -- A node of level 1 that is clean has not been touched.
          obtain ⟨hholds, hdirty | rfl⟩ := ht.data h1
          · rw [hd] at hdirty
            simp at hdirty
          · exact ⟨hnode₁, hholds⟩
  · exact absurd hsome (not_occupied.2 ⟨hobj, href⟩)

variable (E) in
/-- The slots of the node `n` that are not in the list have been truncated, and `k` blocks counted. -/
structure SubTruncated (f : ℕ) (X : Set ℕ) (w : World) (level n base size : ℕ) (l : List (Fin 256))
    (k : ℕ) (w' : World) : Prop where
  hand : BInv E (insert n X) w'
  frame : Frame E f X (insert n X) ∅ w w'
  todo : ∀ i ∈ l, ∀ o < span level, slotBytes E w' level (.sub n i) o = slotBytes E w level (.sub n i) o
  keep : ∀ (i : Fin 256) (o : ℕ), o < span level → base + i * span level + o < size →
    slotBytes E w' level (.sub n i) o = slotBytes E w level (.sub n i) o
  holes : k = 0 → ∀ i, i ∉ l → ∀ o < span level, base + i * span level + o < size →
    slotBytes E w level (.sub n i) o = 0
  quiet : (w'.blk n).isdirty = false → (w.blk n).isdirty = false ∧
    ∀ i, w'.slotRef (.sub n i) = w.slotRef (.sub n i) ∧
      ∀ o < span level, slotBytes E w' level (.sub n i) o = slotBytes E w level (.sub n i) o
  zeros : ∀ i, i ∉ l → ∀ o < span level, size ≤ base + i * span level + o →
    slotBytes E w' level (.sub n i) o = 0
  gone : ∀ i, i ∉ l → size ≤ base + i * span level → ¬ w'.Occupied (.sub n i)
  data : level = 0 →
    k = (Finset.univ.filter fun i : Fin 256 => i ∉ l ∧ w'.Occupied (.sub n i)).card ∧
      ((w'.blk n).isdirty = true ∨ w' = w)

/-- One more slot has been counted. -/
theorem card_occupied_step {k nb : ℕ} (slot : Fin k → Slot) {l : List (Fin k)} {i : Fin k}
    {w₁ w₂ : World} (hi : i ∉ l)
    (hocc : ∀ j, j ≠ i → (w₂.Occupied (slot j) ↔ w₁.Occupied (slot j))) (hnb : nb ≤ 1)
    (hcount : w₂.Occupied (slot i) ↔ nb ≠ 0) :
    (Finset.univ.filter fun j => j ∉ i :: l ∧ w₁.Occupied (slot j)).card + nb =
      (Finset.univ.filter fun j => j ∉ l ∧ w₂.Occupied (slot j)).card := by
  have hout : i ∉ Finset.univ.filter fun j => j ∉ i :: l ∧ w₁.Occupied (slot j) := by simp
  by_cases ho : w₂.Occupied (slot i)
  · have hone : nb = 1 := by
      have := hcount.1 ho
      omega
    rw [hone, ← Finset.card_insert_of_notMem hout]
    congr 1
    ext j
    by_cases hji : j = i
    · subst hji
      simp [hi, ho]
    · simp [hji, hocc j hji]
  · have hzero : nb = 0 := by
      by_contra hne
      exact ho (hcount.2 hne)
    rw [hzero, Nat.add_zero]
    congr 1
    ext j
    by_cases hji : j = i
    · subst hji
      simp [ho]
    · simp [hji, hocc j hji]

theorem SubTruncated.start (hin : NodeIn E X w (level + 1) n) :
    SubTruncated E f X w level n base size (List.finRange 256) 0 w where
  hand := hin.inv.insertHand hin.lt hin.zero hin.held
  frame := .refl hin.inv hin.inv.lt_of_mem
  todo _ _ _ _ := rfl
  keep _ _ _ _ := rfl
  holes _ i hi := absurd (List.mem_finRange i) hi
  quiet hd := ⟨hd, fun _ => ⟨rfl, fun _ _ => rfl⟩⟩
  zeros i hi := absurd (List.mem_finRange i) hi
  gone i hi := absurd (List.mem_finRange i) hi
  data _ := ⟨by simp, .inr rfl⟩

/-- The slot to be truncated next. -/
theorem SubTruncated.slotIn {l : List (Fin 256)} {k : ℕ}
    (h : SubTruncated E f X w level n base size l k w') (hin : NodeIn E X w (level + 1) n)
    (i : Fin 256) : SlotIn E f (insert n X) w' level (.sub n i) where
  inv := h.hand
  live := h.frame.live (hin.live i)
  owner := .inl rfl
  ofFile := trivial
  levelEq := by
    rw [h.frame.slotLevel (hin.live i)]
    simp [World.slotLevel, hin.levelEq]
  above := by
    rintro x (rfl | hx)
    · rw [h.frame.level x hin.lt, hin.levelEq]
      omega
    · rw [h.frame.level x (hin.inv.lt_of_mem x hx)]
      have := hin.above x hx
      omega

/-- One more slot has been truncated. -/
theorem SubTruncated.step {l : List (Fin 256)} {k nb : ℕ} {i : Fin 256} {w₁ w₂ : World}
    (h : SubTruncated E f X w level n base size (i :: l) k w₁) (hnd : (i :: l).Nodup)
    (hin : NodeIn E X w (level + 1) n)
    (ht : SlotTruncated E f (insert n X) w₁ level (.sub n i) (base + i * span level) size nb w₂) :
    SubTruncated E f X w level n base size l (k + nb) w₂ := by
  have hslot := h.slotIn hin
  have hframe : Frame E f X (insert n X) ∅ w₁ w₂ := by
    refine ht.frame.mono (Set.subset_insert _ _) (fun _ h => h) ?_
    rintro s hs rfl
    exact absurd hs hin.notIn
  have hfree : ∀ j c, w₁.slotObj (.sub n j) = some c → c ∉ insert n X := by
    intro j c hc hmem
    have hl := (h.hand.obj _ c (hslot j).live hc).level
    rw [(hslot j).levelEq] at hl
    have := (hslot j).above c hmem
    omega
  have hne : ∀ j : Fin 256, j ≠ i → Slot.sub n j ∉ ({.sub n i} : Set Slot) := by
    intro j hj hmem
    exact hj (by simpa using hmem)
  have hocc : ∀ j : Fin 256, j ≠ i → (w₂.Occupied (.sub n j) ↔ w₁.Occupied (.sub n j)) := by
    intro j hj
    have hsame := ht.frame.slots (.sub n j) (hslot j).live (hslot j).owner (hne j hj)
    simp only [World.Occupied, hsame.1, hsame.2]
  have hother : ∀ j : Fin 256, j ≠ i →
      w₂.slotRef (.sub n j) = w₁.slotRef (.sub n j) ∧
        ∀ o, slotBytes E w₂ level (.sub n j) o = slotBytes E w₁ level (.sub n j) o := by
    intro j hj
    have hne := hne j hj
    refine ⟨(ht.frame.slots (.sub n j) (hslot j).live (hslot j).owner hne).2, fun o => ?_⟩
    have := ht.frame.bytes (.sub n j) (hslot j).live (hslot j).owner hne (hfree j) o
    rwa [(hslot j).levelEq] at this
  have hi : ∀ o < span level, slotBytes E w₁ level (.sub n i) o = slotBytes E w level (.sub n i) o :=
    h.todo i List.mem_cons_self
  refine ⟨ht.inv, h.frame.trans hframe, ?_, ?_, ?_, ?_, ?_, ?_, ?_⟩
  · intro j hj o ho
    have hji : j ≠ i := by
      rintro rfl
      exact (List.nodup_cons.1 hnd).1 hj
    rw [(hother j hji).2 o, h.todo j (List.mem_cons_of_mem _ hj) o ho]
  · intro j o ho hlt
    by_cases hji : j = i
    · subst hji
      rw [ht.keep o ho hlt, hi o ho]
    · rw [(hother j hji).2 o, h.keep j o ho hlt]
  · intro hk j hj o ho hlt
    by_cases hji : j = i
    · subst hji
      rw [← hi o ho]
      exact ht.holes (by omega) o ho hlt
    · exact h.holes (by omega) j (by simp [hji, hj]) o ho hlt
  · intro hd
    have hd₁ : (w₁.blk n).isdirty = false := by
      cases hc : (w₁.blk n).isdirty with
      | false => rfl
      | true =>
          rw [ht.frame.dirty n (.inl rfl) hc] at hd
          simp at hd
    obtain ⟨hd₀, hq⟩ := h.quiet hd₁
    obtain ⟨href, hsame⟩ : w₂.slotRef (.sub n i) = w₁.slotRef (.sub n i) ∧
        ∀ o < span level, slotBytes E w₂ level (.sub n i) o = slotBytes E w₁ level (.sub n i) o := by
      rcases ht.quiet with hown | hquiet
      · have : (w₂.blk n).isdirty = true := hown
        rw [hd] at this
        simp at this
      · exact hquiet
    refine ⟨hd₀, fun j => ?_⟩
    by_cases hji : j = i
    · subst hji
      exact ⟨href.trans (hq j).1, fun o ho => (hsame o ho).trans ((hq j).2 o ho)⟩
    · exact ⟨(hother j hji).1.trans (hq j).1, fun o ho => ((hother j hji).2 o).trans ((hq j).2 o ho)⟩
  · intro j hj o ho hle
    by_cases hji : j = i
    · subst hji
      exact ht.zeros o ho hle
    · rw [(hother j hji).2 o]
      exact h.zeros j (by simp [hji, hj]) o ho hle
  · intro j hj hle
    by_cases hji : j = i
    · subst hji
      exact fun ho => ht.counted.1 ho (ht.gone hle)
    · rw [hocc j hji]
      exact h.gone j (by simp [hji, hj]) hle
  · intro hl
    obtain ⟨hk, hstill⟩ := h.data hl
    obtain ⟨hnb, hstill'⟩ := ht.data hl
    refine ⟨?_, ?_⟩
    · rw [hk]
      exact card_occupied_step (.sub n) (List.nodup_cons.1 hnd).1 hocc hnb ht.counted
    · rcases hstill' with hown | rfl
      · exact .inl hown
      · exact hstill

/-- All slots have been truncated. -/
theorem SubTruncated.nodeTruncated {k : ℕ} (h : SubTruncated E f X w level n base size [] k w')
    (hin : NodeIn E X w (level + 1) n) :
    NodeTruncated E f X w (level + 1) n base size (1 + k) w' := by
  have hsub : ∀ (u : World) (i : Fin 256) (o : ℕ), o < span level →
      blkBytes E u (level + 1) n (i * span level + o) = slotBytes E u level (.sub n i) o :=
    fun u i o ho => blkBytes_sub u level n i ho
  refine ⟨h.hand, h.frame, ?_, ?_, ?_, ?_, ?_⟩
  · intro o ho hlt
    obtain ⟨i, o', ho', rfl⟩ := exists_slot_offset ho
    rw [hsub w' i o' ho', hsub w i o' ho', h.keep i o' ho' (by rw [Nat.add_assoc]; exact hlt)]
  · intro hk o ho hlt
    obtain ⟨i, o', ho', rfl⟩ := exists_slot_offset ho
    rw [hsub w i o' ho']
    exact h.holes (by omega) i (List.not_mem_nil) o' ho' (by rw [Nat.add_assoc]; exact hlt)
  · intro hd
    obtain ⟨hd₀, hq⟩ := h.quiet hd
    have hbytes : ∀ o < span (level + 1),
        blkBytes E w' (level + 1) n o = blkBytes E w (level + 1) n o := by
      intro o ho
      obtain ⟨i, o', ho', rfl⟩ := exists_slot_offset ho
      rw [hsub w' i o' ho', hsub w i o' ho', (hq i).2 o' ho']
    exact ⟨hin.dropQuiet h.hand h.frame hd hd₀ (fun i => (hq i).1) hbytes, hbytes⟩
  · intro o ho hle
    obtain ⟨i, o', ho', rfl⟩ := exists_slot_offset ho
    rw [hsub w' i o' ho']
    exact h.zeros i List.not_mem_nil o' ho' (by rw [Nat.add_assoc]; exact hle)
  · intro hl
    obtain rfl : level = 0 := by omega
    obtain ⟨hk, hstill⟩ := h.data rfl
    refine ⟨⟨?_, fun i hle => h.gone i List.not_mem_nil hle⟩, hstill⟩
    rw [Nat.add_sub_cancel_left, hk]
    simp

/-- **An indirect node of any level is truncated.** -/
theorem wp_rbTruncate :
    ∀ (level : ℕ) (X : Set ℕ) (w : World) (n base size : ℕ), NodeIn E X w (level + 1) n →
      wp (rbTruncate E level n base size)
        (fun nb w' => NodeTruncated E f X w (level + 1) n base size nb w') (fun _ _ => False) w := by
  intro level
  -- The loop, given what is done to one slot.
  have loop : ∀ (level : ℕ) (X : Set ℕ) (w : World) (n base size : ℕ) (body : Fin 256 → M ℕ),
      NodeIn E X w (level + 1) n →
      (∀ (i : Fin 256) (w₁ : World), SlotIn E f (insert n X) w₁ level (.sub n i) →
        wp (body i) (fun nb w' => SlotTruncated E f (insert n X) w₁ level (.sub n i)
          (base + i * span level) size nb w') (fun _ _ => False) w₁) →
      wp (do let k ← sumM body (List.finRange 256); return 1 + k)
        (fun nb w' => NodeTruncated E f X w (level + 1) n base size nb w') (fun _ _ => False) w := by
    intro level X w n base size body hin hbody
    refine wp_seq (wp_sumM (I := fun l k w' => l.Nodup ∧ SubTruncated E f X w level n base size l k w') ?_
      (List.finRange 256) 0 w ⟨List.nodup_finRange 256, .start hin⟩) ?_ (fun _ _ hF => hF)
    · rintro i l k w₁ ⟨hnd, h₁⟩
      refine wp_mono (hbody i w₁ (h₁.slotIn hin i)) ?_ (fun _ _ hF => hF)
      intro nb w₂ ht
      exact ⟨(List.nodup_cons.1 hnd).2, h₁.step hnd hin ht⟩
    · rintro k w₁ ⟨-, h₁⟩
      rw [Nat.zero_add] at h₁
      exact h₁.nodeTruncated hin
  induction level with
  | zero =>
      intro X w n base size hin
      rw [rbTruncate]
      exact loop 0 X w n base size _ hin fun i w₁ hslot => wp_truncateDataSlot hslot _ _
  | succ level ih =>
      intro X w n base size hin
      rw [rbTruncate]
      refine loop (level + 1) X w n base size _ hin ?_
      intro i w₁ hslot
      simp only [wp_bind, wp_get]
      rcases Nat.lt_or_ge (base + i * span (level + 1)) size with hlt | hge
      · rw [if_pos hlt]
        by_cases hsome : (w₁.slotObj (.sub n i)).isSome ∨ w₁.slotRef (.sub n i) ≠ .nil
        · rw [if_pos hsome]
          exact wp_truncateIndSlot hslot (Nat.succ_pos level) hlt hsome
            fun c w₂ hin₂ => ih _ w₂ c _ size hin₂
        · rw [if_neg hsome, wp_pure]
          obtain ⟨hobj, href⟩ := not_occupied.1 hsome
          exact .hole hslot hobj href
      · rw [if_neg (by omega), wp_bind]
        refine wp_mono (wp_clearSlot hslot.inv hslot.live hslot.owner hslot.ofFile) ?_ (fun _ _ hF => hF)
        rintro - w' ⟨hinv, hframe, hown, hobj, href⟩
        exact .of_cleared hframe hinv hown hobj href fun o _ hlt => by omega

end node

/-! ### A file -/

/-- What only the operations of the file system change. -/
def World.members (w : World) :=
  (w.clock, w.zobj, w.nfil, w.rdh, w.sdh, w.version, w.control, w.rbr, w.hn)

/-- The blocks of the file `f` that `rb_truncate` counts are `total`, and those under the single
indirect block begin below `size`. -/
def FilCounted (w : World) (f size total : ℕ) : Prop :=
  ∃ k nb, total = 1 + k + nb ∧
    k = (Finset.univ.filter fun i : Fin 20 => w.Occupied (.fil f (.dir i))).card ∧
    (w.Occupied (.fil f .sin) ↔ nb ≠ 0) ∧
    (nb ≠ 0 → ∃ n j, w.blkOf (w.slotObj (.fil f .sin)) (w.slotRef (.fil f .sin)) = some n ∧
      nb = 1 + j ∧ Holds w n FSlot.sin.base size j)

/-- **What the truncation of a file does.** -/
structure Truncated (E : Env) (f size : ℕ) (w w' : World) : Prop where
  inv : BInv E ∅ w'
  members : w'.members = w.members
  log : w'.log = w.log
  rand : w'.rand = w.rand
  full : w'.full = w.full
  cacheFil : SameFil w.cache w'.cache
  other : ∀ g, g ≠ f → w'.fil g = w.fil g
  own : w'.fil f = { w.fil f with
    isdirty := true, inl := (w'.fil f).inl, refs := (w'.fil f).refs, objs := (w'.fil f).objs,
    inode := { (w.fil f).inode with
      blocks := (w'.fil f).inode.blocks, size := size, mtime := (w'.fil f).inode.mtime } }
  otherBytes : ∀ g, g ≠ f → g < w.nfil → ∀ a, fileBytes E w' g a = fileBytes E w g a
  bytes : ∀ a, a < size → fileBytes E w' f a = fileBytes E w f a
  zeros : ∀ a, size ≤ a → a < FSlot.sin.top → fileBytes E w' f a = 0
  farBytes : ∀ a, FSlot.sin.top ≤ a → fileBytes E w' f a = fileBytes E w f a
  far : ∀ s, 2 ≤ s.level → (w'.fil f).objs s = (w.fil f).objs s ∧ (w'.fil f).refs s = (w.fil f).refs s
  gone : ∀ s, s.level ≤ 1 → size ≤ s.base → ¬ w'.Occupied (.fil f s)
  counted : FilCounted w' f size (w'.fil f).inode.blocks

section file

variable {f size : ℕ} {w w' : World} {D : Set FSlot}

variable (E) in
/-- The slots of a file that are in `D` have been truncated. -/
structure FilTruncated (f size : ℕ) (D : Set FSlot) (w w' : World) : Prop where
  inv : BInv E ∅ w'
  frame : Frame E f ∅ ∅ (filSlots f) w w'
  keep : ∀ (s : FSlot) (o : ℕ), o < span s.level → s.base + o < size →
    slotBytes E w' s.level (.fil f s) o = slotBytes E w s.level (.fil f s) o
  zeros : ∀ s ∈ D, ∀ o < span s.level, size ≤ s.base + o → slotBytes E w' s.level (.fil f s) o = 0
  gone : ∀ s ∈ D, size ≤ s.base → ¬ w'.Occupied (.fil f s)
  rest : ∀ s, s ∉ D → (w'.slotObj (.fil f s) = w.slotObj (.fil f s) ∧
      w'.slotRef (.fil f s) = w.slotRef (.fil f s)) ∧
    ∀ o, slotBytes E w' s.level (.fil f s) o = slotBytes E w s.level (.fil f s) o

theorem FilTruncated.refl (h : BInv E ∅ w) : FilTruncated E f size ∅ w w :=
  ⟨h, .refl h (by simp), fun _ _ _ _ => rfl, fun _ hs => absurd hs (Set.notMem_empty _),
    fun _ hs => absurd hs (Set.notMem_empty _), fun _ _ => ⟨⟨rfl, rfl⟩, fun _ => rfl⟩⟩

theorem FilTruncated.slotIn (h : FilTruncated E f size D w w') (hf : f < w.nfil) (s : FSlot) :
    SlotIn E f ∅ w' s.level (.fil f s) where
  inv := h.inv
  live := by
    have := outer_nfil h.frame.outer
    simp only [World.Live, this]
    exact hf
  owner := trivial
  ofFile := rfl
  levelEq := rfl
  above x hx := absurd hx (Set.notMem_empty x)

/-- The other slots of a file when one has been truncated. -/
theorem SlotTruncated.others {s s' : FSlot} {off nb : ℕ} {w₁ w₂ : World}
    (ht : SlotTruncated E f ∅ w₁ s.level (.fil f s) off size nb w₂) (hs : s' ≠ s)
    (hin : SlotIn E f ∅ w₁ s'.level (.fil f s')) :
    (w₂.slotObj (.fil f s') = w₁.slotObj (.fil f s') ∧
      w₂.slotRef (.fil f s') = w₁.slotRef (.fil f s')) ∧
    ∀ o, slotBytes E w₂ s'.level (.fil f s') o = slotBytes E w₁ s'.level (.fil f s') o := by
  have hne : Slot.fil f s' ∉ ({.fil f s} : Set Slot) := by
    intro hmem
    exact hs (by simpa using hmem)
  exact ⟨ht.frame.slots (.fil f s') hin.live trivial hne,
    ht.frame.bytes (.fil f s') hin.live trivial hne (by simp)⟩

/-- One more slot has been truncated.  When the size is within the inline data, the offset does not
matter. -/
theorem FilTruncated.step {s : FSlot} {off nb : ℕ} {w₁ w₂ : World} (h : FilTruncated E f size D w w₁)
    (hf : f < w.nfil) (hoff : off = s.base ∨ (size < 4096 ∧ 4096 ≤ off))
    (ht : SlotTruncated E f ∅ w₁ s.level (.fil f s) off size nb w₂) :
    FilTruncated E f size (insert s D) w w₂ := by
  have hb := s.base_ge
  refine ⟨ht.inv, h.frame.trans (ht.frame.mono (fun _ h => h) (fun _ h => h) ?_), ?_, ?_, ?_, ?_⟩
  · intro s' _ hs'
    exact ⟨s, by simpa using hs'⟩
  · intro s' o ho hlt
    by_cases hs : s' = s
    · subst hs
      rcases hoff with rfl | hsmall
      · rw [ht.keep o ho hlt, h.keep s' o ho hlt]
      · omega
    · rw [(ht.others hs (h.slotIn hf s')).2, h.keep s' o ho hlt]
  · intro s' hs' o ho hle
    by_cases hs : s' = s
    · subst hs
      exact ht.zeros o ho (by omega)
    · rw [(ht.others hs (h.slotIn hf s')).2]
      exact h.zeros s' (hs'.resolve_left hs) o ho hle
  · intro s' hs' hle
    by_cases hs : s' = s
    · subst hs
      exact fun hocc => ht.counted.1 hocc (ht.gone (by omega))
    · have hsame := (ht.others hs (h.slotIn hf s')).1
      simpa only [World.Occupied, hsame.1, hsame.2] using h.gone s' (hs'.resolve_left hs) hle
  · intro s' hs'
    obtain ⟨hs, hD⟩ := not_or.1 hs'
    obtain ⟨⟨h₁, h₂⟩, h₃⟩ := ht.others hs (h.slotIn hf s')
    obtain ⟨⟨h₁', h₂'⟩, h₃'⟩ := h.rest s' hD
    exact ⟨⟨h₁.trans h₁', h₂.trans h₂'⟩, fun o => (h₃ o).trans (h₃' o)⟩

/-- The slots of the inode that `rb_truncate` visits. -/
def nearSlots : Set FSlot := {s | s.level ≤ 1}

/-- The bytes of a file that has been truncated after its inline data were cut. -/
theorem FilTruncated.fileBytes {w₁ : World} (h : FilTruncated E f size D w₁ w') (a : ℕ) :
    (a < 4096 → UTFS.fileBytes E w' f a = byteAt (w₁.fil f).inl a) ∧
    (∀ s o, a = FSlot.base s + o → o < span s.level →
      UTFS.fileBytes E w' f a = slotBytes E w' s.level (.fil f s) o) := by
  have hinl' : (w'.fil f).inl = (w₁.fil f).inl := by rw [h.frame.own]
  refine ⟨fun hlt => ?_, ?_⟩
  · rw [fileBytes_inl w' f hlt, hinl']
  · rintro s o rfl ho
    exact fileBytes_slot w' f ho

/-- The place of a byte that is not in the inline data. -/
theorem exists_fslot {a : ℕ} (h₁ : 4096 ≤ a) (h₂ : a < maxSize) :
    ∃ (s : FSlot) (o : ℕ), a = s.base + o ∧ o < span s.level := by
  obtain ⟨s, hb, ht⟩ := FSlot.exists_at h₁ h₂
  obtain ⟨o, rfl⟩ := Nat.exists_eq_add_of_le hb
  refine ⟨s, o, rfl, ?_⟩
  rw [s.top_eq] at ht
  omega

section bytes

variable {w₁ : World} (h : FilTruncated E f size D w₁ w') (hblk : w₁.blk = w.blk)
  (hlog : w₁.log = w.log) (hrefs : (w₁.fil f).refs = (w.fil f).refs)
  (hobjs : (w₁.fil f).objs = (w.fil f).objs)

include hblk hlog hrefs hobjs in
/-- Cutting the inline data does not change the bytes of the slots. -/
theorem slotBytes_of_cut (s : FSlot) (o : ℕ) :
    slotBytes E w₁ s.level (.fil f s) o = slotBytes E w s.level (.fil f s) o := by
  refine slotBytes_congr hblk hlog ?_ ?_ _ o
  · simp only [World.slotObj, hobjs]
  · simp only [World.slotRef, hrefs]

include h hblk hlog hrefs hobjs in
/-- The bytes below the new size. -/
theorem FilTruncated.bytes
    (hinl : ∀ a, a < 4096 → a < size → byteAt (w₁.fil f).inl a = byteAt (w.fil f).inl a) (a : ℕ)
    (ha : a < size) : UTFS.fileBytes E w' f a = UTFS.fileBytes E w f a := by
  rcases Nat.lt_or_ge a 4096 with hlt | hge
  · rw [(h.fileBytes a).1 hlt, fileBytes_inl w f hlt]
    exact hinl a hlt ha
  rcases Nat.lt_or_ge a maxSize with hmax | hmax
  · obtain ⟨s, o, rfl, ho⟩ := exists_fslot hge hmax
    rw [(h.fileBytes _).2 s o rfl ho, fileBytes_slot w f ho, h.keep s o ho ha]
    exact slotBytes_of_cut hblk hlog hrefs hobjs s o
  · rw [fileBytes_beyond w' f hmax, fileBytes_beyond w f hmax]

include h hblk hlog hrefs hobjs in
/-- The bytes that `rb_truncate` does not reach. -/
theorem FilTruncated.farBytes (hD : D = nearSlots) (a : ℕ) (ha : FSlot.sin.top ≤ a) :
    UTFS.fileBytes E w' f a = UTFS.fileBytes E w f a := by
  have htop := FSlot.top_sin
  rcases Nat.lt_or_ge a maxSize with hmax | hmax
  · obtain ⟨s, o, rfl, ho⟩ := exists_fslot (by omega) hmax
    have hs : s ∉ D := by
      rw [hD]
      cases s with
      | dir i =>
          have := FSlot.base_dir i
          have ho' : o < 8192 := ho
          omega
      | sin =>
          rw [FSlot.top_eq] at ha
          omega
      | din => simp [nearSlots, FSlot.level]
      | tin => simp [nearSlots, FSlot.level]
    rw [(h.fileBytes _).2 s o rfl ho, fileBytes_slot w f ho, (h.rest s hs).2]
    exact slotBytes_of_cut hblk hlog hrefs hobjs s o
  · rw [fileBytes_beyond w' f hmax, fileBytes_beyond w f hmax]

include h in
/-- The bytes above the new size that `rb_truncate` reaches. -/
theorem FilTruncated.zeroBytes (hD : D = nearSlots)
    (hinl : ∀ a, a < 4096 → size ≤ a → byteAt (w₁.fil f).inl a = 0) (a : ℕ) (hle : size ≤ a)
    (ha : a < FSlot.sin.top) : UTFS.fileBytes E w' f a = 0 := by
  have htop := FSlot.top_sin
  have hmax := maxSize_eq
  rcases Nat.lt_or_ge a 4096 with hlt | hge
  · rw [(h.fileBytes a).1 hlt]
    exact hinl a hlt hle
  · obtain ⟨s, o, rfl, ho⟩ := exists_fslot hge (by omega)
    have hs : s ∈ D := by
      rw [hD]
      cases s with
      | dir i => exact Nat.zero_le _
      | sin => exact Nat.le_refl 1
      | din =>
          have : FSlot.din.base = 2265088 := rfl
          omega
      | tin =>
          have : FSlot.tin.base = 539136000 := rfl
          omega
    rw [(h.fileBytes _).2 s o rfl ho]
    exact h.zeros s hs o ho hle

end bytes

/-- The direct slots that are not in a list. -/
def dirsNotIn (l : List (Fin 20)) : Set FSlot := {s | ∃ i, i ∉ l ∧ s = .dir i}

theorem dirsNotIn_all : dirsNotIn (List.finRange 20) = ∅ := by
  ext s
  simp [dirsNotIn]

theorem insert_dirsNotIn {i : Fin 20} {l : List (Fin 20)} (hi : i ∉ l) :
    insert (.dir i) (dirsNotIn (i :: l)) = dirsNotIn l := by
  ext s
  constructor
  · rintro (rfl | ⟨j, hj, rfl⟩)
    · exact ⟨i, hi, rfl⟩
    · exact ⟨j, fun h => hj (List.mem_cons_of_mem _ h), rfl⟩
  · rintro ⟨j, hj, rfl⟩
    by_cases hji : j = i
    · exact .inl (by rw [hji])
    · exact .inr ⟨j, by simp [hji, hj], rfl⟩

theorem insert_sin_dirsNotIn : insert .sin (dirsNotIn []) = nearSlots := by
  ext s
  cases s <;> simp [dirsNotIn, nearSlots, FSlot.level]

/-- The direct slots. -/
theorem wp_truncateDirs (h : BInv E ∅ w) (hf : f < w.nfil) (size off : ℕ)
    (hoff : off = 4096 ∨ (size < 4096 ∧ 4096 ≤ off)) :
    wp (sumM (fun i : Fin 20 => truncateDataSlot E (.fil f (.dir i)) (off + i * 8192) size)
        (List.finRange 20))
      (fun k w' => FilTruncated E f size (dirsNotIn []) w w' ∧
        k = (Finset.univ.filter fun i : Fin 20 => w'.Occupied (.fil f (.dir i))).card)
      (fun _ _ => False) w := by
  have hsum := wp_sumM (m := fun i : Fin 20 =>
      truncateDataSlot E (.fil f (.dir i)) (off + i * 8192) size)
    (I := fun l k w' => l.Nodup ∧ FilTruncated E f size (dirsNotIn l) w w' ∧
      k = (Finset.univ.filter fun i : Fin 20 => i ∉ l ∧ w'.Occupied (.fil f (.dir i))).card)
    (F := fun _ _ => False) ?_ (List.finRange 20) 0 w
    ⟨List.nodup_finRange 20, by rw [dirsNotIn_all]; exact .refl h, by simp⟩
  · refine wp_mono hsum ?_ (fun _ _ hF => hF)
    rintro k w' ⟨-, h₁, hk⟩
    refine ⟨h₁, ?_⟩
    rw [Nat.zero_add] at hk
    simpa using hk
  · rintro i l k w₁ ⟨hnd, h₁, hk⟩
    refine wp_mono (wp_truncateDataSlot (h₁.slotIn hf (.dir i)) _ _) ?_ (fun _ _ hF => hF)
    intro nb w₂ ht
    have hi := (List.nodup_cons.1 hnd).1
    have hoff' : off + i * 8192 = (FSlot.dir i).base ∨ (size < 4096 ∧ 4096 ≤ off + i * 8192) := by
      rcases hoff with rfl | hsmall
      · exact .inl (FSlot.base_dir i).symm
      · exact .inr ⟨hsmall.1, by omega⟩
    refine ⟨(List.nodup_cons.1 hnd).2, ?_, ?_⟩
    · rw [← insert_dirsNotIn hi]
      exact h₁.step (s := .dir i) hf hoff' ht
    · rw [hk]
      refine card_occupied_step (fun i => .fil f (.dir i)) hi ?_ (ht.data rfl).1 ht.counted
      intro j hj
      have hne : FSlot.dir j ≠ .dir i := by simpa using hj
      have hsame := (SlotTruncated.others (s := .dir i) ht hne (h₁.slotIn hf (.dir j))).1
      simp only [World.Occupied, hsame.1, hsame.2]

/-- The slots of the file. -/
theorem wp_truncateSlots (h : BInv E ∅ w) (hf : f < w.nfil) (size off : ℕ)
    (hoff : off = 4096 ∨ (size < 4096 ∧ 4096 ≤ off)) :
    wp (do
        let k ← sumM
          (fun i : Fin 20 => truncateDataSlot E (.fil f (.dir i)) (off + i * 8192) size)
          (List.finRange 20)
        let off := off + 20 * 8192
        let s := Slot.fil f .sin
        let w ← get
        let nb ←
          if (w.slotObj s).isSome ∨ w.slotRef s ≠ .nil then
            if off < size then truncateIndSlot E (fun c => rbTruncate E 0 c off size) 1 s
            else do
              clearSlot s
              pure 0
          else pure 0
        return 1 + k + nb)
      (fun total w' => FilTruncated E f size nearSlots w w' ∧ FilCounted w' f size total)
      (fun _ _ => False) w := by
  refine wp_seq (wp_truncateDirs h hf size off hoff) ?_ (fun _ _ hF => hF)
  rintro k w₁ ⟨h₁, hk⟩
  have hslot := h₁.slotIn hf .sin
  have hoff' : off + 20 * 8192 = FSlot.sin.base ∨ (size < 4096 ∧ 4096 ≤ off + 20 * 8192) := by
    rcases hoff with rfl | hsmall
    · exact .inl rfl
    · exact .inr ⟨hsmall.1, by omega⟩
  -- Whatever is done to the single indirect block, it is truncated.
  have finish : ∀ nb w₂, SlotTruncated E f ∅ w₁ 1 (.fil f .sin) (off + 20 * 8192) size nb w₂ →
      FilTruncated E f size nearSlots w w₂ ∧ FilCounted w₂ f size (1 + k + nb) := by
    intro nb w₂ ht
    refine ⟨?_, k, nb, rfl, ?_, ht.counted, ?_⟩
    · rw [← insert_sin_dirsNotIn]
      exact h₁.step (s := .sin) hf hoff' ht
    · have hsame : ∀ i : Fin 20, w₂.Occupied (.fil f (.dir i)) ↔ w₁.Occupied (.fil f (.dir i)) := by
        intro i
        have hne : FSlot.dir i ≠ .sin := by simp
        have hsame := (SlotTruncated.others (s := .sin) ht hne (h₁.slotIn hf (.dir i))).1
        simp only [World.Occupied, hsame.1, hsame.2]
      rw [hk]
      simp only [hsame]
    · intro hnb
      rcases hoff' with hbase | hsmall
      · rw [← hbase]
        exact ht.ind rfl hnb
      · exact absurd (ht.gone (by omega)) hnb
  simp only [wp_bind, wp_get]
  by_cases hsome : w₁.Occupied (.fil f .sin)
  · rw [if_pos (show (w₁.slotObj (.fil f .sin)).isSome ∨ w₁.slotRef (.fil f .sin) ≠ .nil from hsome)]
    rcases Nat.lt_or_ge (off + 20 * 8192) size with hlt | hge
    · rw [if_pos hlt]
      refine wp_seq (wp_truncateIndSlot hslot (by decide) hlt hsome
        fun c w₂ hin₂ => wp_rbTruncate 0 ∅ w₂ c _ size hin₂) ?_ (fun _ _ hF => hF)
      intro nb w₂ ht
      exact finish nb w₂ ht
    · rw [if_neg (by omega), wp_bind]
      refine wp_mono (wp_clearSlot hslot.inv hslot.live hslot.owner hslot.ofFile) ?_ (fun _ _ hF => hF)
      rintro - w₂ ⟨hinv, hframe, hown, hobj, href⟩
      exact finish 0 w₂ (.of_cleared hframe hinv hown hobj href fun o _ hlt => by omega)
  · rw [if_neg (show ¬ ((w₁.slotObj (.fil f .sin)).isSome ∨ w₁.slotRef (.fil f .sin) ≠ .nil) from hsome)]
    obtain ⟨hobj, href⟩ := not_occupied.1 hsome
    exact finish 0 w₁ (.hole hslot hobj href)

theorem wp_rbTruncateFile (h : BInv E ∅ w) (hf : f < w.nfil) :
    wp (rbTruncateFile E f size)
      (fun total w' => ∃ w₁ inl isdirty,
        w₁ = w.setFil f { w.fil f with inl := inl, isdirty := isdirty } ∧
        (∀ a, a < 4096 → byteAt inl a = if size ≤ a then 0 else byteAt (w.fil f).inl a) ∧
        FilTruncated E f size nearSlots w₁ w' ∧ FilCounted w' f size total) (fun _ _ => False) w := by
  rw [rbTruncateFile]
  rcases Nat.lt_or_ge size 4096 with hsmall | hbig
  · generalize hinl : (fun j : Fin 4096 => if size ≤ j.1 then 0 else (w.fil f).inl j) = inl
    have hset : ∀ x y, (w.setFil f x).setFil f y = w.setFil f y := by
      intro x y
      simp [World.setFil]
    simp only [if_pos hsmall, setFilDirty, wp_bind, wp_modify, hinl, setFil_self, hset]
    have h₁ : BInv E ∅ (w.setFil f { w.fil f with inl := inl, isdirty := true }) :=
      h.sameShape (.setFil w rfl rfl) (fun _ => .inl rfl) (fun _ _ _ => rfl)
    have hslots := wp_truncateSlots h₁ (f := f) hf size 8192 (.inr ⟨hsmall, by decide⟩)
    simp only [wp_bind] at hslots ⊢
    refine wp_mono hslots ?_ (fun _ _ hF => hF)
    intro k w₂ hk
    refine wp_mono hk ?_ (fun _ _ hF => hF)
    intro nb w₃ h₃
    refine ⟨_, inl, true, rfl, ?_, h₃⟩
    intro a ha
    simp only [byteAt, ha, dif_pos, ← hinl]
  · have hslots := wp_truncateSlots h (f := f) hf size 4096 (.inl rfl)
    simp only [if_neg (Nat.not_lt.2 hbig), pure_bind, wp_bind] at hslots ⊢
    refine wp_mono hslots ?_ (fun _ _ hF => hF)
    intro k w₂ hk
    refine wp_mono hk ?_ (fun _ _ hF => hF)
    intro nb w₃ h₃
    refine ⟨w, (w.fil f).inl, (w.fil f).isdirty, by simp [World.setFil], fun a ha => ?_, h₃⟩
    rw [if_neg (by omega)]

/-- The count depends on the slots, the nodes and the cache. -/
theorem FilCounted.congr {total : ℕ} (h : FilCounted w f size total) (hblk : w'.blk = w.blk)
    (hcache : w'.cache = w.cache) (hobjs : (w'.fil f).objs = (w.fil f).objs)
    (hrefs : (w'.fil f).refs = (w.fil f).refs) : FilCounted w' f size total := by
  have hocc : ∀ s, w'.Occupied (.fil f s) ↔ w.Occupied (.fil f s) := fun s => by
    simp only [World.Occupied, World.slotObj, World.slotRef, hobjs, hrefs]
  obtain ⟨k, nb, htotal, hk, hsin, hind⟩ := h
  refine ⟨k, nb, htotal, ?_, (hocc .sin).trans hsin, fun hnb => ?_⟩
  · rw [hk]
    simp only [hocc]
  · obtain ⟨n, j, hn, hj, hholds⟩ := hind hnb
    refine ⟨n, j, ?_, hj, hholds.congr (congrFun hblk n)⟩
    simpa only [World.blkOf, World.slotObj, World.slotRef, hobjs, hrefs, hcache] using hn

/-- **`FileNode::truncate`.** -/
theorem wp_fileTruncate (h : BInv E ∅ w) (hf : f < w.nfil) :
    wp (fileTruncate E f size) (fun _ w' => Truncated E f size w w') (fun _ _ => False) w := by
  rw [fileTruncate]
  refine wp_seq (wp_rbTruncateFile h hf) ?_ (fun _ _ hF => hF)
  rintro nb w₂ ⟨w₁, inl, isdirty, hw₁, hinl, ht, hcount⟩
  have hfil₁ : w₁.fil f = { w.fil f with inl := inl, isdirty := isdirty } := by
    rw [hw₁, setFil_self]
  have hother₁ : ∀ g, g ≠ f → w₁.fil g = w.fil g := fun g hg => by rw [hw₁, setFil_of_ne w _ hg]
  have hblk₁ : w₁.blk = w.blk := by rw [hw₁]; rfl
  have hout : w₂.outer = w.outer := ht.frame.outer.trans (by rw [hw₁]; rfl)
  have hlog₁ : w₁.log = w.log := by rw [hw₁]; rfl
  have hcache : SameFil w.cache w₂.cache := by
    have : w₁.cache = w.cache := by rw [hw₁]; rfl
    rw [← this]
    exact ht.frame.cacheFil
  have hrefs₁ : (w₁.fil f).refs = (w.fil f).refs := by rw [hfil₁]
  have hobjs₁ : (w₁.fil f).objs = (w.fil f).objs := by rw [hfil₁]
  have hinl₁ : (w₁.fil f).inl = inl := by rw [hfil₁]
  have hbytes := ht.bytes hblk₁ hlog₁ hrefs₁ hobjs₁ fun a ha hlt => by
    rw [hinl₁, hinl a ha, if_neg (by omega)]
  have hfar := ht.farBytes hblk₁ hlog₁ hrefs₁ hobjs₁ rfl
  have hzeros := ht.zeroBytes rfl fun a ha hle => by rw [hinl₁, hinl a ha, if_pos hle]
  have hotherBytes : ∀ g, g ≠ f → g < w.nfil → ∀ a, fileBytes E w₂ g a = fileBytes E w g a := by
    intro g hg hlt a
    refine fileBytes_congr (by rw [ht.frame.other g hg, hother₁ g hg]) ?_ a
    intro s o _
    have hlt₁ : g < w₁.nfil := by rw [hw₁]; exact hlt
    have := ht.frame.bytes (.fil g s) hlt₁ trivial (by rintro ⟨a, ha⟩; injection ha with hgf; exact hg hgf)
      (by simp) o
    refine this.trans (slotBytes_congr hblk₁ hlog₁ ?_ ?_ _ o)
    · simp only [World.slotObj, hother₁ g hg]
    · simp only [World.slotRef, hother₁ g hg]
  -- The metadata are set, and the clock is read in between.
  have hset : ∀ x y, (w₂.setFil f x).setFil f y = w₂.setFil f y := by
    intro x y
    simp [World.setFil]
  have hown := ht.frame.own
  simp only [modifyINode, setFilDirty, now, wp_bind, wp_get, wp_set, wp_modify, wp_pure]
  generalize hx : ({ w₂.fil f with
    isdirty := true
    inode := { (w₂.fil f).inode with
      blocks := nb, size := size, mtime := w₂.clock w₂.ticks } } : FileNode) = x
  have hlog₂ := outer_log hout
  have hrand₂ := outer_rand hout
  have hfinal : ∀ w', w' = { w₂.setFil f x with ticks := w₂.ticks + 1 } → Truncated E f size w w' := by
    rintro w' rfl
    have hself : ({ w₂.setFil f x with ticks := w₂.ticks + 1 } : World).fil f = x := setFil_self _ _ _
    have hsh := SameShape.setFil w₂ (f := f) (x := x) (by rw [← hx]) (by rw [← hx])
    have hs : SameShape w₂ { w₂.setFil f x with ticks := w₂.ticks + 1 } := ⟨hsh.level, hsh.zero,
      hsh.blkref, hsh.blkobj, hsh.refs, hsh.objs, rfl, rfl, rfl, rfl, List.Sublist.refl _, rfl⟩
    have hfb : ∀ g a, fileBytes E { w₂.setFil f x with ticks := w₂.ticks + 1 } g a = fileBytes E w₂ g a := by
      intro g a
      rw [← fileBytes_setFil (E := E) w₂ f (x := x) (by rw [← hx]) (by rw [← hx]) (by rw [← hx]) g a]
      exact @fileBytes_of_fil E (w₂.setFil f x) { w₂.setFil f x with ticks := w₂.ticks + 1 } g rfl rfl
        rfl a
    have hobjs : (({ w₂.setFil f x with ticks := w₂.ticks + 1 } : World).fil f).objs = (w₂.fil f).objs := by
      rw [hself, ← hx]
    have hrefs : (({ w₂.setFil f x with ticks := w₂.ticks + 1 } : World).fil f).refs = (w₂.fil f).refs := by
      rw [hself, ← hx]
    refine ⟨ht.inv.sameShape hs (fun _ => .inl rfl) (fun _ _ _ => rfl), ?_, hlog₂,
      hrand₂, congrArg (fun o => o.2.2.1) hout, hcache, ?_, ?_, ?_, ?_, ?_, ?_, ?_, ?_, ?_⟩
    · exact congrArg (fun o => (o.2.2.2.1, o.2.2.2.2.2)) hout
    · intro g hg
      change (w₂.setFil f x).fil g = w.fil g
      rw [setFil_of_ne _ _ hg, ht.frame.other g hg, hother₁ g hg]
    · rw [hself, ← hx, hown, hfil₁]
    · intro g hg hlt a
      rw [hfb, hotherBytes g hg hlt]
    · intro a ha
      rw [hfb]
      exact hbytes a ha
    · intro a hle ha
      rw [hfb]
      exact hzeros a hle ha
    · intro a ha
      rw [hfb]
      exact hfar a ha
    · intro s hl
      have hs : s ∉ nearSlots := fun hnear => by
        have : s.level ≤ 1 := hnear
        omega
      rw [hobjs, hrefs, ← hobjs₁, ← hrefs₁]
      exact (ht.rest s hs).1
    · intro s hl hle
      have hgone := ht.gone s hl hle
      simp only [World.Occupied, World.slotObj, World.slotRef] at hgone ⊢
      rwa [hobjs, hrefs]
    · have hnb : (({ w₂.setFil f x with ticks := w₂.ticks + 1 } : World).fil f).inode.blocks = nb := by
        rw [hself, ← hx]
      rw [hnb]
      exact hcount.congr rfl rfl hobjs hrefs
  refine hfinal _ ?_
  subst hx
  simp [World.setFil]

end file

end UTFS

end Utopfs
