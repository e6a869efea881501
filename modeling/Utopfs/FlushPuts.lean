/-
**What a flush tells the block store.**

The flush of the blocks of a file puts no inode, and names no root; the flush of the file puts its inode
last, under the reference that the node then has.  The digest in a reference is that of the block, and the
rest of it are random bytes that have not been used, so a reference is either the one that the node had
or a new one.

Main definitions:

* `UTFS.BlkPuts` — nothing has been put but blocks;
* `UTFS.FilePuts` — nothing has been put but blocks and the inode of one file.

Main results:

* `UTFS.keeps_bnFlushBlk` — flushing blocks;
* `UTFS.wp_bnFlushFile_puts` — flushing a file.
-/

import Utopfs.DirInv

set_option relaxedAutoImplicit false
set_option autoImplicit false

namespace Utopfs

namespace UTFS

open Prog

variable {E : Env}

/-! ### Blocks -/

/-- Since `w`, nothing has been put but blocks, and space was found if there is always some. -/
structure BlkPuts (w w' : World) : Prop where
  heads : heads w'.log = heads w.log
  inode : ∀ r, Stored w'.log r .inode → Stored w.log r .inode
  full : true ∉ w.full → true ∉ w'.full

theorem BlkPuts.refl (w : World) : BlkPuts w w := ⟨rfl, fun _ h => h, fun h => h⟩

theorem BlkPuts.trans {w w' w'' : World} (h : BlkPuts w w') (h' : BlkPuts w' w'') : BlkPuts w w'' :=
  ⟨h'.heads.trans h.heads, fun r hr => h.inode r (h'.inode r hr), fun hf => h'.full (h.full hf)⟩

theorem BlkPuts.congr {w w' w'' : World} (h : BlkPuts w w') (hlog : w''.log = w'.log)
    (hfull : w''.full = w'.full) : BlkPuts w w'' :=
  ⟨by rw [hlog]; exact h.heads, by rw [hlog]; exact h.inode, by rw [hfull]; exact h.full⟩

/-- There is no space only if some put finds none. -/
def FullExn (w : World) (e : Exn) : Prop := ∀ s, e = .noSpaceError s → true ∈ w.full

theorem FullExn.of_ne {w : World} {e : Exn} (h : ∀ s, e ≠ .noSpaceError s) : FullExn w e :=
  fun s he => absurd he (h s)

section blocks

variable {w₀ : World}

theorem keeps_modify {g : World → World} (hlog : ∀ w, (g w).log = w.log)
    (hfull : ∀ w, (g w).full = w.full) : Keeps (BlkPuts w₀) (FullExn w₀) (modify g) :=
  .modify fun w h => h.congr (hlog w) (hfull w)

theorem keeps_throw {α : Type} {e : Exn} (h : ∀ s, e ≠ .noSpaceError s) :
    Keeps (BlkPuts w₀) (FullExn w₀) (throw e : M α) := .throw (.of_ne h)

theorem keeps_cacheInsert (o : Obj) : Keeps (BlkPuts w₀) (FullExn w₀) (cacheInsert o) :=
  keepsCache_cacheInsert (fun _ _ h => h.congr rfl rfl) (fun _ => .of_ne (by simp)) o

theorem keeps_setSlotRef (s : Slot) (r : BlockRef) : Keeps (BlkPuts w₀) (FullExn w₀) (setSlotRef s r) :=
  keeps_modify (fun w => by cases s <;> rfl) (fun w => by cases s <;> rfl)

theorem keeps_setSlotObj (s : Slot) (o : Option ℕ) : Keeps (BlkPuts w₀) (FullExn w₀) (setSlotObj s o) :=
  keeps_modify (fun w => by cases s <;> rfl) (fun w => by cases s <;> rfl)

theorem keeps_setBlkDirty (n : ℕ) (b : Bool) : Keeps (BlkPuts w₀) (FullExn w₀) (setBlkDirty n b) := by
  intro w h
  simp only [setBlkDirty, wp_bind, wp_get]
  split
  · exact ⟨.of_ne (by simp), h⟩
  · exact h.congr rfl rfl

theorem keeps_randomFill : Keeps (BlkPuts w₀) (FullExn w₀) randomFill := by
  intro w h
  simp only [randomFill, wp_bind, wp_get]
  cases w.rand with
  | nil => exact ⟨.of_ne (by simp), h⟩
  | cons iv rand => exact h.congr rfl rfl

/-- The store after a put. -/
theorem stored_put {log : List Effect} {r r' : BlockRef} {b : Block} {k k' : Kind} (hk : k' ≠ k)
    (h : Stored (.put r b k' :: log) r' k) : Stored log r' k := by
  obtain ⟨x, hx⟩ := h
  rw [getBlock] at hx
  split at hx
  · injection hx with hx
    injection hx with _ hx
    exact absurd hx hk
  · exact ⟨x, hx⟩

theorem keeps_bsBlockPut (r : BlockRef) (b : Block) (level : ℕ) :
    Keeps (BlkPuts w₀) (FullExn w₀) (bsBlockPut r b (.blk level)) := by
  intro w h
  simp only [bsBlockPut, wp_bind, wp_get]
  have hput : BlkPuts w₀ { w with full := w.full.tail, log := .put r b (.blk level) :: w.log } := by
    refine ⟨h.heads, fun r' hr' => h.inode r' (stored_put (by simp) hr'), fun hf hm => ?_⟩
    exact h.full hf (List.mem_of_mem_tail hm)
  cases hfull : w.full with
  | nil =>
      rw [hfull] at hput
      exact hput
  | cons x l =>
      cases x with
      | false =>
          rw [hfull] at hput
          exact hput
      | true =>
          have hmem : true ∈ w₀.full := by
            by_contra hf
            exact h.full hf (by rw [hfull]; exact List.mem_cons_self)
          refine ⟨fun _ _ => hmem, ⟨h.heads, h.inode, fun hf => absurd hmem hf⟩⟩

theorem keeps_persistBlk (n : ℕ) : Keeps (BlkPuts w₀) (FullExn w₀) (persistBlk E n) := by
  refine .bind .get fun w => ?_
  have hnext : Keeps (BlkPuts w₀) (FullExn w₀) (persistBlock E
      (if (w.blk n).level = 0 then (w.blk n).data else packRefs (w.blk n).blkref) (.blk (w.blk n).level)
      (fun r => modify fun w => w.setBlk n { w.blk n with ref := r }) (setBlkDirty n false)) := by
    refine .bind keeps_randomFill fun iv => .bind (keeps_modify (fun _ => rfl) fun _ => rfl) fun _ => ?_
    exact .bind (keeps_bsBlockPut _ _ _) fun _ => .bind (keeps_setBlkDirty _ _) fun _ => .pure _
  refine .ite ?_ hnext
  exact .bind (keeps_throw (by simp)) fun _ => hnext

theorem keeps_flushSlot {flush : ℕ → M BlockRef} (hflush : ∀ c, Keeps (BlkPuts w₀) (FullExn w₀) (flush c))
    (s : Slot) : Keeps (BlkPuts w₀) (FullExn w₀) (flushSlot flush s) := by
  refine .bind .get fun w => ?_
  cases w.slotObj s with
  | none => exact .pure _
  | some c =>
      refine .bind (hflush c) fun r => .bind (keeps_setSlotRef s r) fun _ => ?_
      exact .bind (keeps_cacheInsert _) fun _ => keeps_setSlotObj s none

/-- **Flushing blocks puts only blocks.** -/
theorem keeps_bnFlushBlk (level : ℕ) : ∀ n, Keeps (BlkPuts w₀) (FullExn w₀) (bnFlushBlk E level n) := by
  induction level with
  | zero => exact fun n => keeps_persistBlk n
  | succ level ih =>
      intro n
      refine .bind .get fun w => .ite (.pure _) ?_
      exact .bind (.forM (fun i => keeps_flushSlot ih _) _) fun _ => keeps_persistBlk n

end blocks

/-! ### Files -/

/-- Since `w`, nothing has been put but blocks and the inode of the file `f`, under the reference it now
has; that is the one it had, or is made from unused random bytes. -/
structure FilePuts (f : ℕ) (w w' : World) : Prop where
  heads : heads w'.log = heads w.log
  full : true ∉ w.full → true ∉ w'.full
  inode : ∀ r, Stored w'.log r .inode →
    Stored w.log r .inode ∨ (r = (w'.fil f).ref ∧ (w'.fil f).isdirty = false)
  ref : (w'.fil f).ref = (w.fil f).ref ∨ (w'.fil f).ref.iv ∈ w.rand
  iv : (w.fil f).ref.iv ∉ w.rand → (w'.fil f).ref.iv ∉ w'.rand

section files

variable {f : ℕ} {w w' : World}

theorem BlkPuts.filePuts (h : BlkPuts w w') (href : (w'.fil f).ref = (w.fil f).ref)
    (hrand : ∀ iv, iv ∈ w'.rand → iv ∈ w.rand) : FilePuts f w w' where
  heads := h.heads
  full := h.full
  inode r hr := .inl (h.inode r hr)
  ref := .inl href
  iv hn hm := hn (by rw [← href]; exact hrand _ hm)

theorem FilePuts.refl (w : World) : FilePuts f w w := (BlkPuts.refl w).filePuts rfl fun _ h => h

theorem FilePuts.after {w₁ : World} (h : BlkPuts w w₁) (h' : FilePuts f w₁ w')
    (href : (w₁.fil f).ref = (w.fil f).ref) (hrand : ∀ iv, iv ∈ w₁.rand → iv ∈ w.rand) : FilePuts f w w' where
  heads := h'.heads.trans h.heads
  full hf := h'.full (h.full hf)
  inode r hr := (h'.inode r hr).imp_left (h.inode r)
  ref := h'.ref.imp (fun h => h.trans href) (hrand _)
  iv hn := h'.iv fun hm => hn (by rw [← href]; exact hrand _ hm)

/-- The inode is put last. -/
theorem wp_persistFile_puts (h : DiskOk E w.log w.rand) :
    wp (persistFile E f) (fun _ w' => FilePuts f w w') (fun e w' => FullExn w e ∧ FilePuts f w w') w := by
  rw [wp, persistFile_run]
  by_cases hlen : 3328 < (E.serializeINode (w.fil f).inode).length
  · rw [if_pos hlen]
    exact ⟨.of_ne (by simp), .refl w⟩
  rw [if_neg hlen]
  cases hrand : w.rand with
  | nil => exact ⟨.of_ne (by simp), .refl w⟩
  | cons iv rand =>
      have hnd : iv ∉ rand := by
        have := h.randNodup
        rw [hrand] at this
        exact (List.nodup_cons.1 this).1
      -- The node has its new reference, whether the put succeeds or not.
      have hnew : ∀ (r : BlockRef) (w' : World), r.iv = iv → (w'.fil f).ref = r → w'.rand = rand →
          heads w'.log = heads w.log → (true ∉ w.full → true ∉ w'.full) →
          (∀ r', Stored w'.log r' .inode → Stored w.log r' .inode ∨
            (r' = r ∧ (w'.fil f).isdirty = false)) → FilePuts f w w' := by
        intro r w' hiv href hr hh hf hi
        refine ⟨hh, hf, by rw [href]; exact hi, .inr ?_, fun _ => ?_⟩
        · rw [href, hiv, hrand]
          exact List.mem_cons_self
        · rw [href, hiv, hr]
          exact hnd
      have hok : FilePuts f w (((w.rereferencedFil f rand w.full.tail
          (BlockRef.make (E.digest (E.encrypt iv ((w.fil f).contents E))) iv)).put
            (BlockRef.make (E.digest (E.encrypt iv ((w.fil f).contents E))) iv)
            (E.encrypt iv ((w.fil f).contents E)) .inode).cleanFil f) := by
        generalize hr : BlockRef.make (E.digest (E.encrypt iv ((w.fil f).contents E))) iv = r
        have hself : ∀ w' : World, (w'.cleanFil f).fil f = { w'.fil f with isdirty := false } :=
          fun w' => setFil_self w' f _
        refine hnew r _ ?_ ?_ rfl rfl ?_ ?_
        · rw [← hr, BlockRef.iv_make]
        · rw [hself]
          exact congrArg FileNode.ref (setFil_self w f _)
        · exact fun hf hm => hf (List.mem_of_mem_tail hm)
        · rintro r' ⟨b, hb⟩
          change getBlock r' (.put r _ .inode :: w.log) = _ at hb
          by_cases hrr : r' = r
          · exact .inr ⟨hrr, by rw [hself]⟩
          · rw [getBlock_put_of_ne hrr] at hb
            exact .inl ⟨b, hb⟩
      cases hfull : w.full with
      | nil =>
          rw [hfull] at hok
          exact hok
      | cons b full =>
          cases b with
          | false =>
              rw [hfull] at hok
              exact hok
          | true =>
              have hmem : true ∈ w.full := by rw [hfull]; exact List.mem_cons_self
              have hiv := BlockRef.iv_make (E.digest (E.encrypt iv ((w.fil f).contents E))) iv
              refine ⟨fun _ _ => hmem, hnew _ _ hiv ?_ rfl rfl ?_ ?_⟩
              · exact congrArg FileNode.ref (setFil_self w f _)
              · exact fun hf => absurd hmem hf
              · exact fun r' hr' => .inl hr'

/-- **Flushing a file puts blocks and its inode.** -/
theorem wp_bnFlushFile_puts (h : BInv E ∅ w) (hf : f < w.nfil) :
    wp (bnFlushFile E f) (fun _ w' => FilePuts f w w') (fun e w' => FullExn w e ∧ FilePuts f w w') w := by
  simp only [bnFlushFile, wp_bind, wp_get]
  cases (w.fil f).isdirty with
  | false => exact .refl w
  | true =>
      simp only [Bool.not_true, Bool.false_eq_true, if_false, wp_bind]
      have hslot : ∀ s : FSlot,
          Keeps (BlkPuts w) (FullExn w) (flushSlot (bnFlushBlk E s.level) (.fil f s)) :=
        fun s => keeps_flushSlot (keeps_bnFlushBlk s.level) _
      have hkeeps := Keeps.forM hslot fslots w (.refl w)
      have href : ∀ {w₁ : World}, Flushed E 3 (filSlots f) w w₁ → (w₁.fil f).ref = (w.fil f).ref := by
        intro w₁ hfl
        rw [hfl.fil f]
      refine wp_mono (wp_and (wp_flushSlots h hf) hkeeps) ?_ ?_
      · rintro - w₁ ⟨⟨h₁, hf₁, -⟩, hp₁⟩
        have hrand : ∀ iv, iv ∈ w₁.rand → iv ∈ w.rand := fun iv hiv => hf₁.rand.subset hiv
        refine wp_mono (wp_persistFile_puts h₁.disk) ?_ ?_
        · exact fun _ w₂ h₂ => .after hp₁ h₂ (href hf₁) hrand
        · rintro e w₂ ⟨he, h₂⟩
          refine ⟨fun s hs => ?_, .after hp₁ h₂ (href hf₁) hrand⟩
          by_contra hn
          exact hp₁.full hn (he s hs)
      · rintro e w₁ ⟨⟨-, h₁, hf₁⟩, he, hp₁⟩
        exact ⟨he, hp₁.filePuts (href hf₁) fun iv hiv => hf₁.rand.subset hiv⟩

end files

end UTFS

end Utopfs
