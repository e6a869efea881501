/-
**Traversals of the block tree that change it.**

`rb_traverse` with `RB_MODIFY_X` applies a functor to every data block of a range.  The functor is
described by what it does to a byte at an offset of the file and by what it does to its own state over
a range of offsets; the result of the traversal is then described in the same way, whatever mixture of
dirty nodes, cached nodes, stored blocks and holes it goes through.

Main definitions:

* `UTFS.VisitLaws` — a functor changes bytes by `wr` and its state by `sem`;
* `UTFS.NodeOut`, `UTFS.Wrote` — what the traversal does to a node, and to a slot.

Main results:

* `UTFS.wp_traverseSlot` — one slot, given the visit of the node;
* `UTFS.wp_rbTraverse` — a node of any level.
-/

import Utopfs.BlockFind

set_option relaxedAutoImplicit false
set_option autoImplicit false

namespace Utopfs

namespace UTFS

open Prog

variable {E : Env} {V : Type}

/-! ### Functors -/

/-- No offset of `[lo, hi)` is in the range of the traversal. -/
def Traversal.Misses (t : Traversal V) (lo hi : ℕ) : Prop :=
  ∀ a, lo ≤ a → a < hi → a < t.rngoff ∨ t.rngend ≤ a

theorem Traversal.Misses.append {t : Traversal V} {lo mid hi : ℕ} (h : t.Misses lo mid)
    (h' : t.Misses mid hi) : t.Misses lo hi := by
  intro a h₁ h₂
  rcases Nat.lt_or_ge a mid with h₃ | h₃
  · exact h a h₁ h₃
  · exact h' a h₃ h₂

theorem Traversal.misses_of_out {t : Traversal V} {lo hi : ℕ} (h : hi ≤ t.rngoff ∨ t.rngend ≤ lo) :
    t.Misses lo hi := by
  intro a h₁ h₂
  omega

/-- The functor of a traversal of a file of the size `fsz`: over the block at `[off, off + sz)` it
replaces the byte `b` at the offset `a` by `wr a b` and its state `v` by `sem c off (off + sz) v`, where
`c` are the bytes of the file.  It does nothing out of the range of the traversal, and the effects on
adjacent blocks compose.  A functor for changing blocks reports every block in the range as
changed. -/
structure VisitLaws (t : Traversal V) (fsz : ℕ) (wr : ℕ → UInt8 → UInt8)
    (sem : (ℕ → UInt8) → ℕ → ℕ → V → V) : Prop where
  state : ∀ v sz (data : Fin sz → UInt8) off (c : ℕ → UInt8), (∀ j : Fin sz, c (off + j) = data j) →
    (t.btVisit v sz data off fsz).2.1 = sem c off (off + sz) v
  data : ∀ v sz (data : Fin sz → UInt8) off j,
    (t.btVisit v sz data off fsz).2.2 j = wr (off + j) (data j)
  quiet : ∀ v sz (data : Fin sz → UInt8) off,
    (t.btVisit v sz data off fsz).1 = false → (t.btVisit v sz data off fsz).2.2 = data
  loud : t.modifyX = true → ∀ v sz (data : Fin sz → UInt8) off,
    (t.btVisit v sz data off fsz).1 = false → t.Misses off (off + sz)
  wr_out : ∀ a b, a < t.rngoff ∨ t.rngend ≤ a → wr a b = b
  sem_nil : ∀ c a v, sem c a a v = v
  sem_out : ∀ c lo hi v, hi ≤ t.rngoff ∨ t.rngend ≤ lo → sem c lo hi v = v
  sem_append : ∀ c lo mid hi v, lo ≤ mid → mid ≤ hi →
    sem c mid hi (sem c lo mid v) = sem c lo hi v
  sem_congr : ∀ c c' lo hi v, (∀ a, lo ≤ a → a < hi → c a = c' a) → sem c lo hi v = sem c' lo hi v

/-! ### Loops -/

/-- The rule for the loops over slots: the invariant is carried from one index to the next until the
last one or until one lies beyond the range. -/
theorem wp_traverseLoop {beyond : ℕ → Bool} {body : ℕ → V → M V} {N : ℕ}
    {I : ℕ → V → World → Prop} {F : Exn → World → Prop}
    (hstep : ∀ i v w, i < N → beyond i = false → I i v w →
      wp (body i v) (fun v' w' => I (i + 1) v' w') F w) :
    ∀ (count ndx : ℕ) (v : V) (w : World), ndx + count = N → I ndx v w →
      wp (traverseLoop beyond body count ndx v)
        (fun v' w' => ∃ k, ndx ≤ k ∧ k ≤ N ∧ (k = N ∨ beyond k = true) ∧ I k v' w') F w := by
  intro count
  induction count with
  | zero =>
      intro ndx v w hN hI
      exact ⟨ndx, Nat.le_refl _, by omega, .inl (by omega), hI⟩
  | succ count ih =>
      intro ndx v w hN hI
      rw [traverseLoop]
      cases hb : beyond ndx with
      | true => exact ⟨ndx, Nat.le_refl _, by omega, .inr hb, hI⟩
      | false =>
          refine wp_seq (hstep ndx v w (by omega) hb hI) ?_ (fun _ _ hF => hF)
          intro v' w' hI'
          refine wp_mono (ih (ndx + 1) v' w' (by omega) hI') ?_ (fun _ _ hF => hF)
          rintro v'' w'' ⟨k, hk, hkN, hend, hI''⟩
          exact ⟨k, by omega, hkN, hend, hI''⟩

/-- The loop over the slots of an indirect node at `base`, from the first slot that reaches into the
range on.  The invariant `J` may pass over slots that lie out of the range. -/
theorem wp_slotLoop {t : Traversal V} {fsz : ℕ} {wr : ℕ → UInt8 → UInt8}
    {sem : (ℕ → UInt8) → ℕ → ℕ → V → V} (hlaws : VisitLaws t fsz wr sem) {base level : ℕ}
    (c : ℕ → UInt8) {body : ℕ → V → M V} {J : ℕ → World → Prop} {F : Exn → World → Prop}
    (hrng : t.rngoff < base + span (level + 1))
    (hskip : ∀ k k' w, J k w → k ≤ k' → k' ≤ 256 →
      base + k' * span level ≤ t.rngoff ∨ t.rngend ≤ base + k * span level → J k' w)
    (hstep : ∀ i v w, i < 256 → J i w → t.rngoff < base + i * span level + span level →
      wp (body i v) (fun v' w' => J (i + 1) w' ∧
        v' = sem c (base + i * span level) (base + i * span level + span level) v) F w)
    (v : V) {w : World} (hJ : J 0 w) :
    wp (traverseLoop (fun i => decide (t.rngend ≤ base + i * span level)) body
        (256 - (max t.rngoff base - base) / span level) ((max t.rngoff base - base) / span level) v)
      (fun v' w' => J 256 w' ∧ v' = sem c base (base + span (level + 1)) v) F w := by
  have hspan : span (level + 1) = 256 * span level := rfl
  have hpos := span_pos level
  have hle := Nat.div_mul_le_self (max t.rngoff base - base) (span level)
  have hlt := Nat.lt_div_mul_add (a := max t.rngoff base - base) hpos
  generalize (max t.rngoff base - base) / span level = ndx at hle hlt ⊢
  have hndx : ndx < 256 := by
    refine Nat.lt_of_mul_lt_mul_right (a := span level) ?_
    omega
  -- The slots before the first index lie before the range.
  have hstart : J ndx w ∧ v = sem c base (base + ndx * span level) v := by
    rcases Nat.eq_zero_or_pos ndx with rfl | hpos'
    · refine ⟨hJ, ?_⟩
      rw [Nat.zero_mul, Nat.add_zero, hlaws.sem_nil]
    · have hmul : 0 < ndx * span level := Nat.mul_pos hpos' hpos
      have hout : base + ndx * span level ≤ t.rngoff := by omega
      exact ⟨hskip 0 ndx w hJ (Nat.zero_le _) hndx.le (.inl hout),
        (hlaws.sem_out c _ _ v (.inl hout)).symm⟩
  refine wp_mono (wp_traverseLoop (N := 256)
    (I := fun k v' w' => ndx ≤ k ∧ J k w' ∧ v' = sem c base (base + k * span level) v) (F := F) ?_
      (256 - ndx) ndx v w (by omega) ⟨Nat.le_refl _, hstart⟩) ?_ (fun _ _ hF => hF)
  · rintro i v₁ w₁ hi - ⟨hge, hJ₁, hv₁⟩
    have hmul : ndx * span level ≤ i * span level := Nat.mul_le_mul_right _ hge
    refine wp_mono (hstep i v₁ w₁ hi hJ₁ (by omega)) ?_ (fun _ _ hF => hF)
    rintro v₂ w₂ ⟨hJ₂, hv₂⟩
    refine ⟨Nat.le_succ_of_le hge, hJ₂, ?_⟩
    rw [hv₂, hv₁, hlaws.sem_append c _ _ _ _ (by omega) (by omega), Nat.add_mul, Nat.one_mul,
      Nat.add_assoc]
  · rintro v₁ w₁ ⟨k, -, hk, hend', -, hJ₁, hv₁⟩
    -- The slots after the last index lie after the range.
    have hbeyond : k = 256 ∨ t.rngend ≤ base + k * span level := by
      rcases hend' with rfl | hb
      · exact .inl rfl
      · exact .inr (by simpa using hb)
    have hmul : k * span level ≤ 256 * span level := Nat.mul_le_mul_right _ hk
    rcases hbeyond with rfl | hout
    · exact ⟨hJ₁, hv₁⟩
    · refine ⟨hskip k 256 w₁ hJ₁ hk (Nat.le_refl _) (.inr hout), ?_⟩
      have happ := hlaws.sem_append c base (base + k * span level) (base + span (level + 1)) v
        (by omega) (by omega)
      rw [hlaws.sem_out c _ _ _ (.inr hout)] at happ
      exact hv₁.trans happ

/-! ### One slot -/

/-- A node in hand for a traversal. -/
structure NodeIn (E : Env) (X : Set ℕ) (w : World) (level n : ℕ) : Prop where
  inv : BInv E X w
  lt : n < w.nblk
  zero : (w.blk n).zero = false
  levelEq : (w.blk n).level = level
  notIn : n ∉ X
  above : ∀ x ∈ X, level < (w.blk x).level
  held : ∀ s, w.Live s → w.slotObj s = some n → s.OwnerIn X

/-- What the visit of a node at the offset `base` does; the node may now be dirty in the cache. -/
structure NodeOut (E : Env) (f : ℕ) (X : Set ℕ) (t : Traversal V) (wr : ℕ → UInt8 → UInt8) (w : World)
    (level n base : ℕ) (changed : Bool) (w' : World) : Prop where
  hand : BInv E (insert n X) w'
  frame : Frame E f X (insert n X) ∅ w w'
  bytes : ∀ o < span level, blkBytes E w' level n o = wr (base + o) (blkBytes E w level n o)
  quiet : changed = false →
    BInv E X w' ∧ t.Misses base (base + span level) ∧
      ∀ o < span level, blkBytes E w' level n o = blkBytes E w level n o
  dirty : 0 < level → changed = (w'.blk n).isdirty

/-- What the traversal does to a slot at the offset `off`. -/
structure Wrote (E : Env) (f : ℕ) (X : Set ℕ) (t : Traversal V) (wr : ℕ → UInt8 → UInt8) (w : World)
    (level : ℕ) (s : Slot) (off : ℕ) (w' : World) : Prop where
  inv : BInv E X w'
  frame : Frame E f X X {s} w w'
  ref : w'.slotRef s = w.slotRef s
  bytes : ∀ o < span level, slotBytes E w' level s o = wr (off + o) (slotBytes E w level s o)
  quiet : w'.OwnerDirty s ∨ (t.Misses off (off + span level) ∧
    ∀ o < span level, slotBytes E w' level s o = slotBytes E w level s o)

section slot

variable {f : ℕ} {X : Set ℕ} {w w' : World} {s : Slot} {n level : ℕ}

theorem Frame.live_of_live {Y : Set ℕ} {S : Set Slot} (h : Frame E f X Y S w w')
    (hX : ∀ x ∈ X, x < w.nblk) (hs : w'.Live s) (hown : s.OwnerIn X) : w.Live s := by
  cases s with
  | fil g a =>
      have := outer_nfil h.outer
      simpa only [World.Live, this] using hs
  | sub p i =>
      have hp := hX p hown
      obtain ⟨-, hz, hl⟩ := hs
      exact ⟨hp, by rw [← h.zero p hp]; exact hz, by rw [← h.level p hp]; exact hl⟩

/-- A node in hand does not hold itself, so what holds it is seen from the other nodes in hand. -/
theorem BInv.ownerIn_of_holds (h : BInv E (insert n X) w) (hs : w.Live s)
    (hn : w.slotObj s = some n) : s.OwnerIn X := by
  cases s with
  | fil g a => trivial
  | sub q i =>
      rcases h.upClosed n (.inl rfl) q i hs hn with rfl | hq
      · have := h.slotLevel_sub hs hn
        omega
      · exact hq

theorem Frame.only {Y : Set ℕ} (hf : Frame E f X Y ∅ w w') (hX : ∀ x ∈ X, x < w.nblk)
    (h : BInv E (insert n X) w') (honly : ∀ s', w.Live s' → w.slotObj s' = some n → s' = s) :
    ∀ s', w'.Live s' → w'.slotObj s' = some n → s' = s := by
  intro s' hs' hn
  have hown := h.ownerIn_of_holds hs' hn
  have hlive := hf.live_of_live hX hs' hown
  refine honly s' hlive ?_
  rw [← (hf.slots s' hlive hown (Set.notMem_empty _)).1]
  exact hn

theorem Found.nodeIn (h : Found E f X w level s n w') (hin : SlotIn E f X w level s) :
    NodeIn E X w' level n where
  inv := h.inv
  lt := h.lt
  zero := h.zero
  levelEq := h.levelEq
  notIn hmem := by
    have hlt := hin.inv.lt_of_mem n hmem
    have := hin.above n hmem
    rw [← h.frame.level n hlt, h.levelEq] at this
    exact Nat.lt_irrefl _ this
  above x hx := by
    rw [h.frame.level x (hin.inv.lt_of_mem x hx)]
    exact hin.above x hx
  held s' hs' hn := by
    rw [h.only s' hs' hn]
    exact hin.owner

/-- Marking the data block in hand dirty. -/
theorem frame_setBlkDirty {d : BlkNode} {S : Set Slot} (h : BInv E (insert n X) w) (hn : n ∉ X)
    (hd : ∃ data isdirty, d = { w.blk n with data := data, isdirty := isdirty }) :
    BInv E (insert n X) (w.setBlk n d) ∧ Frame E f X (insert n X) S w (w.setBlk n d) := by
  obtain ⟨data, isdirty, rfl⟩ := hd
  have hs : SameShape w (w.setBlk n { w.blk n with data := data, isdirty := isdirty }) :=
    .setBlk w rfl rfl rfl rfl
  have hoff : ∀ m, m ∉ insert n X →
      (w.setBlk n { w.blk n with data := data, isdirty := isdirty }).blk m = w.blk m :=
    fun m hm => setBlk_of_ne w _ fun hmn => hm (.inl hmn)
  have href : ∀ m, ((w.setBlk n { w.blk n with data := data, isdirty := isdirty }).blk m).ref =
      (w.blk m).ref := by
    intro m
    by_cases hm : m = n
    · subst hm; rw [setBlk_self]
    · rw [setBlk_of_ne w _ hm]
  refine ⟨h.sameShape hs (fun m => .inl (href m)) (fun m _ => hoff m), ?_⟩
  refine hs.frame h (fun _ h => h) rfl (fun m _ => hoff m) href (fun _ _ => rfl) rfl ?_ (fun hd => hd)
  intro x hx hd
  have hxn : x ≠ n := fun hxn => hn (hxn ▸ hx)
  rw [setBlk_of_ne w _ hxn]
  exact hd

variable {t : Traversal V} {wr : ℕ → UInt8 → UInt8} {sem : (ℕ → UInt8) → ℕ → ℕ → V → V} {off : ℕ}

/-- A visit that changed nothing leaves the slot as it was. -/
theorem Wrote.of_quiet {w₁ : World} (hin : SlotIn E f X w level s) (hf : Found E f X w level s n w₁)
    (ho : NodeOut E f X t wr w₁ level n off false w') : Wrote E f X t wr w level s off w' := by
  obtain ⟨hinv, hmiss, hsame⟩ := ho.quiet rfl
  have hlive : w₁.Live s := hf.frame.live hin.live
  have hslot := ho.frame.slots s hlive hin.owner (Set.notMem_empty _)
  have hbytes : ∀ o < span level, slotBytes E w' level s o = slotBytes E w level s o := by
    intro o hlt
    rcases hf.held with hn | hn
    · rw [← hf.node o hlt, ← hsame o hlt]
      simp only [slotBytes, hslot.1, hn]
    · rw [← hf.slot o hlt]
      simp only [slotBytes, hslot.1, hslot.2, hn, outer_log ho.frame.outer]
  refine ⟨hinv, hf.frame.trans (ho.frame.below hf.only), hslot.2.trans hf.ref, ?_, .inr ⟨hmiss, hbytes⟩⟩
  intro o hlt
  have := ho.bytes o hlt
  rw [hsame o hlt, hf.node o hlt] at this
  rw [hbytes o hlt]
  exact this

/-- A changed node that was found for a slot is kept there. -/
theorem wp_keepFound {w₁ w₂ : World} (hin : SlotIn E f X w level s) (hf : Found E f X w level s n w₁)
    (h : BInv E (insert n X) w₂) (hframe : Frame E f X (insert n X) ∅ w₁ w₂)
    (hd : (w₂.blk n).isdirty = true) {F : Exn → World → Prop} :
    wp (keepDirty s n)
      (fun _ w' => BInv E X w' ∧ Frame E f X X {s} w w' ∧ w'.slotRef s = w.slotRef s ∧
        w'.OwnerDirty s ∧ (w'.slotObj s = some n ∧ w'.blk n = w₂.blk n) ∧
        ∀ o, slotBytes E w' level s o = blkBytes E w₂ level n o) F w₂ := by
  have hnode := hf.nodeIn hin
  have hlive₁ : w₁.Live s := hf.frame.live hin.live
  have hl : (w₂.blk n).level = level := (hframe.level n hf.lt).trans hf.levelEq
  refine wp_mono (wp_keepDirty h (hframe.live hlive₁) hin.owner hin.ofFile hnode.notIn ?_ ?_ hd
    (hframe.only hnode.inv.lt_of_mem h hf.only)) ?_ (fun _ _ hF => hF)
  · rw [hl, hframe.slotLevel hlive₁, hf.frame.slotLevel hin.live, hin.levelEq]
  · intro x hx
    rw [hl, hframe.level x (hnode.inv.lt_of_mem x hx)]
    exact hnode.above x hx
  · intro _ w' hk
    refine ⟨hk.inv, (hf.frame.trans (hframe.below hf.only)).trans hk.frame, ?_, hk.owner, ⟨hk.obj, hk.node⟩, ?_⟩
    · rw [hk.ref, (hframe.slots s hlive₁ hin.owner (Set.notMem_empty _)).2, hf.ref]
    · intro o
      have := hk.bytes o
      rw [hl] at this
      rw [← this]
      simp only [slotBytes, hk.obj]

/-- **One slot of a traversal**, given the visit of the node that is found for it. -/
theorem wp_traverseSlot {visit : ℕ → ℕ → V → M (Bool × V)} (ht : t.modifyX = true) (hfn : t.fn = f)
    (hlaws : VisitLaws t (w.fil f).inode.size wr sem) (hin : SlotIn E f X w level s) (v : V)
    (hvisit : ∀ n w₁, NodeIn E X w₁ level n → (w₁.fil f).inode.size = (w.fil f).inode.size →
      wp (visit n off v)
        (fun r w' => NodeOut E f X t wr w₁ level n off r.1 w' ∧
          r.2 = sem (fun a => blkBytes E w₁ level n (a - off)) off (off + span level) v)
        (fun _ _ => False) w₁) :
    wp (traverseSlot E t visit level s off v)
      (fun v' w' => Wrote E f X t wr w level s off w' ∧
        v' = sem (fun a => slotBytes E w level s (a - off)) off (off + span level) v)
      (fun _ _ => False) w := by
  rw [traverseSlot]
  refine wp_seq (wp_findBlk_modify ht hfn hin) ?_ (fun _ _ hF => hF)
  intro n w₁ hfound
  have hnode := hfound.nodeIn hin
  refine wp_seq (hvisit n w₁ hnode (hfound.frame.size f)) ?_ (fun _ _ hF => hF)
  rintro ⟨changed, v'⟩ w₂ ⟨hout, hv⟩
  have hv' : v' = sem (fun a => slotBytes E w level s (a - off)) off (off + span level) v := by
    refine (show v' = _ from hv).trans (hlaws.sem_congr _ _ _ _ _ ?_)
    intro a h₁ h₂
    exact hfound.node (a - off) (by omega)
  cases changed with
  | false => exact ⟨.of_quiet hin hfound hout, hv'⟩
  | true =>
      -- In both cases a dirty node in hand is left to be kept in the slot.
      have keep : ∀ w₃, BInv E (insert n X) w₃ → Frame E f X (insert n X) ∅ w₁ w₃ →
          (w₃.blk n).isdirty = true →
          (∀ o < span level, blkBytes E w₃ level n o = wr (off + o) (blkBytes E w₁ level n o)) →
          wp (keepDirty s n) (fun _ w' => Wrote E f X t wr w level s off w') (fun _ _ => False) w₃ := by
        intro w₃ hinv hframe hd hbytes
        refine wp_mono (wp_keepFound hin hfound hinv hframe hd) ?_ (fun _ _ hF => hF)
        rintro _ w' ⟨hinv', hframe', href, hown, -, hslot⟩
        refine ⟨hinv', hframe', href, ?_, .inl hown⟩
        intro o ho
        rw [hslot o, hbytes o ho, hfound.node o ho]
      simp only [if_true, ht]
      split
      case isTrue hl =>
        subst hl
        obtain ⟨hn₂, hz₂⟩ := hout.hand.hand n (.inl rfl)
        rw [wp_bind]
        refine wp_setBlkDirty hz₂ ?_
        obtain ⟨hinv₃, hframe₃⟩ := frame_setBlkDirty (S := ∅) (f := f) hout.hand hnode.notIn
          (d := { w₂.blk n with isdirty := true }) ⟨_, _, rfl⟩
        rw [wp_bind]
        refine wp_mono (keep _ hinv₃ (hout.frame.trans hframe₃) (by rw [setBlk_self]) ?_) ?_
          (fun _ _ hF => hF)
        · intro o ho
          rw [← hout.bytes o ho]
          simp only [blkBytes, setBlk_self]
        · intro _ w' hw
          exact ⟨hw, hv'⟩
      case isFalse hl =>
        have hd : (w₂.blk n).isdirty = true := (hout.dirty (Nat.pos_of_ne_zero hl)).symm
        rw [wp_bind]
        refine wp_mono (keep w₂ hout.hand hout.frame hd hout.bytes) ?_ (fun _ _ hF => hF)
        intro _ w' hw
        exact ⟨hw, hv'⟩

end slot

/-! ### A node of any level -/

section node

variable {f : ℕ} {X : Set ℕ} {t : Traversal V} {wr : ℕ → UInt8 → UInt8}
  {sem : (ℕ → UInt8) → ℕ → ℕ → V → V}

theorem visitData_run (w : World) (n off : ℕ) (v : V) :
    visitData t n off v w =
      (let r := t.btVisit v 8192 (w.blk n).data off (w.fil t.fn).inode.size
      .ok (r.1, r.2.1) (w.setBlk n { w.blk n with data := r.2.2 })) := rfl

/-- The visit of a data block. -/
theorem wp_visitData {w : World} {n off : ℕ} (ht : t.modifyX = true) (hfn : t.fn = f)
    (hlaws : VisitLaws t (w.fil f).inode.size wr sem) (hin : NodeIn E X w 0 n) (v : V) :
    wp (visitData t n off v)
      (fun r w' => NodeOut E f X t wr w 0 n off r.1 w' ∧
        r.2 = sem (fun a => blkBytes E w 0 n (a - off)) off (off + span 0) v)
      (fun _ _ => False) w := by
  have hhand : BInv E (insert n X) w := hin.inv.insertHand hin.lt hin.zero hin.held
  have hdata := hlaws.data v 8192 (w.blk n).data off
  have hquiet := hlaws.quiet v 8192 (w.blk n).data off
  have hloud := hlaws.loud ht v 8192 (w.blk n).data off
  have hstate : (t.btVisit v 8192 (w.blk n).data off (w.fil f).inode.size).2.1 =
      sem (fun a => blkBytes E w 0 n (a - off)) off (off + span 0) v := by
    refine hlaws.state v 8192 _ off _ ?_
    intro j
    have hj : off + j.1 - off = j.1 := by omega
    simp only [blkBytes, byteAt, hj, j.2, dif_pos]
  subst hfn
  rw [wp, visitData_run]
  generalize t.btVisit v 8192 (w.blk n).data off (w.fil t.fn).inode.size = r at hdata hquiet hloud hstate ⊢
  obtain ⟨changed, v', data⟩ := r
  simp only at hdata hquiet hloud hstate
  obtain ⟨hinv, hframe⟩ := frame_setBlkDirty (S := ∅) (f := t.fn) hhand hin.notIn
    (d := { w.blk n with data := data }) ⟨_, _, rfl⟩
  refine ⟨⟨hinv, hframe, ?_, ?_, fun h => absurd h (Nat.lt_irrefl 0)⟩, hstate⟩
  · intro o ho
    have ho' : o < 8192 := ho
    simp only [blkBytes, setBlk_self, byteAt, ho', dif_pos, hdata]
  · intro hc
    have hw : w.setBlk n { w.blk n with data := data } = w := by
      rw [hquiet hc]
      simp [World.setBlk]
    rw [hw]
    exact ⟨hin.inv, hloud hc, fun _ _ => rfl⟩

/-- The loop over the slots of the node `n`: the first `k` of them have been visited. -/
structure Visited (E : Env) (f : ℕ) (X : Set ℕ) (t : Traversal V) (wr : ℕ → UInt8 → UInt8)
    (w : World) (level n base k : ℕ) (w' : World) : Prop where
  hand : BInv E (insert n X) w'
  frame : Frame E f X (insert n X) ∅ w w'
  refs : ∀ i, w'.slotRef (.sub n i) = w.slotRef (.sub n i)
  done : ∀ i : Fin 256, i.1 < k → ∀ o < span level,
    slotBytes E w' level (.sub n i) o =
      wr (base + i * span level + o) (slotBytes E w level (.sub n i) o)
  todo : ∀ i : Fin 256, k ≤ i.1 → ∀ o < span level,
    slotBytes E w' level (.sub n i) o = slotBytes E w level (.sub n i) o
  quiet : (w'.blk n).isdirty = false →
    (w.blk n).isdirty = false ∧ t.Misses base (base + k * span level) ∧
      ∀ i, ∀ o < span level, slotBytes E w' level (.sub n i) o = slotBytes E w level (.sub n i) o

variable {w : World} {level n base : ℕ}

theorem NodeIn.live (hin : NodeIn E X w (level + 1) n) (i : Fin 256) : w.Live (.sub n i) :=
  ⟨hin.lt, hin.zero, by rw [hin.levelEq]; omega⟩

/-- The slot to be visited next. -/
theorem Visited.slotIn {k : ℕ} {w' : World} (h : Visited E f X t wr w level n base k w')
    (hin : NodeIn E X w (level + 1) n) (i : Fin 256) :
    SlotIn E f (insert n X) w' level (.sub n i) where
  inv := h.hand
  live := h.frame.live (hin.live i)
  owner := .inl rfl
  ofFile := trivial
  levelEq := by
    rw [h.frame.slotLevel (hin.live i)]
    simp [World.slotLevel, hin.levelEq]
  above := by
    rintro x (rfl | hx)
    · rw [h.frame.level x hin.lt, hin.levelEq]
      omega
    · rw [h.frame.level x (hin.inv.lt_of_mem x hx)]
      have := hin.above x hx
      omega

/-- One more slot has been visited. -/
theorem Visited.step {w₁ w₂ : World} {i : Fin 256} (h : Visited E f X t wr w level n base i.1 w₁)
    (hin : NodeIn E X w (level + 1) n)
    (hw : Wrote E f (insert n X) t wr w₁ level (.sub n i) (base + i * span level) w₂) :
    Visited E f X t wr w level n base (i.1 + 1) w₂ := by
  have hslot := h.slotIn hin
  have hframe : Frame E f X (insert n X) ∅ w₁ w₂ := by
    refine hw.frame.mono (Set.subset_insert _ _) (fun _ h => h) ?_
    rintro s hs rfl
    exact absurd hs hin.notIn
  -- The slots of the node hold nodes of a lower level, which are not in hand.
  have hfree : ∀ j c, w₁.slotObj (.sub n j) = some c → c ∉ insert n X := by
    intro j c hc hmem
    have hl := (h.hand.obj _ c (hslot j).live hc).level
    rw [(hslot j).levelEq] at hl
    have := (hslot j).above c hmem
    omega
  have hother : ∀ j : Fin 256, j ≠ i → ∀ o,
      slotBytes E w₂ level (.sub n j) o = slotBytes E w₁ level (.sub n j) o := by
    intro j hj o
    have hne : Slot.sub n j ∉ ({.sub n i} : Set Slot) := by
      intro hmem
      exact hj (by simpa using hmem)
    have := hw.frame.bytes (.sub n j) (hslot j).live (hslot j).owner hne (hfree j) o
    rwa [(hslot j).levelEq] at this
  refine ⟨hw.inv, h.frame.trans hframe, ?_, ?_, ?_, ?_⟩
  · intro j
    by_cases hj : j = i
    · subst hj
      rw [hw.ref, h.refs]
    · have hne : Slot.sub n j ∉ ({.sub n i} : Set Slot) := by
        intro hmem
        exact hj (by simpa using hmem)
      rw [(hw.frame.slots (.sub n j) (hslot j).live (hslot j).owner hne).2, h.refs]
  · intro j hj o ho
    by_cases hji : j = i
    · subst hji
      rw [hw.bytes o ho, h.todo j (Nat.le_refl _) o ho]
    · have hlt : j.1 < i.1 := by
        have : j.1 ≠ i.1 := fun he => hji (Fin.ext he)
        omega
      rw [hother j hji o, h.done j hlt o ho]
  · intro j hj o ho
    have hji : j ≠ i := by
      rintro rfl
      omega
    rw [hother j hji o, h.todo j (by omega) o ho]
  · intro hd
    have hd₁ : (w₁.blk n).isdirty = false := by
      cases hc : (w₁.blk n).isdirty with
      | false => rfl
      | true =>
          rw [hw.frame.dirty n (.inl rfl) hc] at hd
          simp at hd
    obtain ⟨hd₀, hmiss, hq⟩ := h.quiet hd₁
    obtain ⟨hmiss', hsame⟩ : t.Misses (base + i * span level) (base + i * span level + span level) ∧
        ∀ o < span level,
          slotBytes E w₂ level (.sub n i) o = slotBytes E w₁ level (.sub n i) o := by
      rcases hw.quiet with hown | hquiet
      · have : (w₂.blk n).isdirty = true := hown
        rw [hd] at this
        simp at this
      · exact hquiet
    refine ⟨hd₀, ?_, ?_⟩
    · have := hmiss.append hmiss'
      rwa [Nat.add_assoc, ← Nat.succ_mul] at this
    · intro j o ho
      by_cases hji : j = i
      · subst hji
        rw [hsame o ho, hq j o ho]
      · rw [hother j hji o, hq j o ho]

/-- Before the first slot. -/
theorem Visited.start (hin : NodeIn E X w (level + 1) n) : Visited E f X t wr w level n base 0 w where
  hand := hin.inv.insertHand hin.lt hin.zero hin.held
  frame := .refl hin.inv hin.inv.lt_of_mem
  refs _ := rfl
  done _ h := absurd h (Nat.not_lt_zero _)
  todo _ _ _ _ := rfl
  quiet hd := ⟨hd, fun a h₁ h₂ => by omega, fun _ _ _ => rfl⟩

/-- Slots out of the range count as visited. -/
theorem Visited.skip {fsz k k' : ℕ} {w' : World} (hlaws : VisitLaws t fsz wr sem)
    (h : Visited E f X t wr w level n base k w') (hk : k ≤ k')
    (hout : base + k' * span level ≤ t.rngoff ∨ t.rngend ≤ base + k * span level) :
    Visited E f X t wr w level n base k' w' where
  hand := h.hand
  frame := h.frame
  refs := h.refs
  done i hi o ho := by
    rcases Nat.lt_or_ge i.1 k with hik | hik
    · exact h.done i hik o ho
    · rw [h.todo i hik o ho, hlaws.wr_out]
      have h₁ : k * span level ≤ i.1 * span level := Nat.mul_le_mul_right _ hik
      have h₂ : (i.1 + 1) * span level ≤ k' * span level := Nat.mul_le_mul_right _ hi
      rw [Nat.add_mul, Nat.one_mul] at h₂
      omega
  todo i hi := h.todo i (by omega)
  quiet hd := by
    obtain ⟨hd₀, hmiss, hq⟩ := h.quiet hd
    have hle : k * span level ≤ k' * span level := Nat.mul_le_mul_right _ hk
    exact ⟨hd₀, hmiss.append (Traversal.misses_of_out hout), hq⟩

/-- A node that was clean and has stayed so, with its references and its bytes, can be let go of: it is
not held by a slot, and still agrees with its stored block. -/
theorem NodeIn.dropQuiet {w' : World} (hin : NodeIn E X w (level + 1) n)
    (hhand : BInv E (insert n X) w') (hframe : Frame E f X (insert n X) ∅ w w')
    (hd : (w'.blk n).isdirty = false) (hd₀ : (w.blk n).isdirty = false)
    (hrefs : ∀ i, w'.slotRef (.sub n i) = w.slotRef (.sub n i))
    (hbytes : ∀ o < span (level + 1), blkBytes E w' (level + 1) n o = blkBytes E w (level + 1) n o) :
    BInv E X w' := by
  have hlevel : (w'.blk n).level = level + 1 := (hframe.level n hin.lt).trans hin.levelEq
  have hco := hin.inv.clean n hin.lt hin.zero hin.notIn hd₀
  have hlog : w'.log = w.log := outer_log hframe.outer
  have href : (w'.blk n).ref = (w.blk n).ref := hframe.ref n hin.lt
  refine hhand.dropHand ?_ (fun _ _ => hd) (fun _ => ?_) ?_
  · intro s hs hn
    have hown := hhand.ownerIn_of_holds hs hn
    have hlive := hframe.live_of_live hin.inv.lt_of_mem hs hown
    rw [(hframe.slots s hlive hown (Set.notMem_empty _)).1] at hn
    have := (hin.inv.obj s n hlive hn).dirty hin.notIn
    rw [hd₀] at this
    simp at this
  · refine ⟨?_, ?_, ?_, ?_⟩
    · rw [hlog, href, hlevel, ← hin.levelEq]
      exact hco.stored
    · intro h0
      omega
    · intro _
      have hblkref : (w'.blk n).blkref = (w.blk n).blkref := funext hrefs
      rw [hlog, href, hblkref]
      exact hco.blkref (by rw [hin.levelEq]; omega)
    · rw [hlevel, hlog, href]
      intro o ho
      rw [hbytes o ho, ← hin.levelEq]
      exact hco.bytes o (by rw [hin.levelEq]; exact ho)
  · intro p hp i hl hpi
    have h₁ := hhand.slotLevel_sub hl hpi
    have h₂ := hin.above p hp
    rw [hframe.level p (hin.inv.lt_of_mem p hp)] at h₁
    omega

/-- All slots have been visited. -/
theorem Visited.nodeOut {w' : World} (h : Visited E f X t wr w level n base 256 w')
    (hin : NodeIn E X w (level + 1) n) :
    NodeOut E f X t wr w (level + 1) n base (w'.blk n).isdirty w' := by
  have hsub : ∀ (u : World) (i : Fin 256) (o : ℕ), o < span level →
      blkBytes E u (level + 1) n (i * span level + o) = slotBytes E u level (.sub n i) o :=
    fun u i o ho => blkBytes_sub u level n i ho
  have hlevel : (w'.blk n).level = level + 1 := (h.frame.level n hin.lt).trans hin.levelEq
  refine ⟨h.hand, h.frame, ?_, ?_, fun _ => rfl⟩
  · intro o ho
    obtain ⟨i, o', ho', rfl⟩ := exists_slot_offset ho
    rw [hsub w' i o' ho', hsub w i o' ho', h.done i i.2 o' ho', Nat.add_assoc]
  · intro hd
    obtain ⟨hd₀, hmiss, hq⟩ := h.quiet hd
    have hbytes : ∀ o < span (level + 1),
        blkBytes E w' (level + 1) n o = blkBytes E w (level + 1) n o := by
      intro o ho
      obtain ⟨i, o', ho', rfl⟩ := exists_slot_offset ho
      rw [hsub w' i o' ho', hsub w i o' ho', hq i o' ho']
    exact ⟨hin.dropQuiet h.hand h.frame hd hd₀ h.refs hbytes, hmiss, hbytes⟩

/-- **A node of any level.** -/
theorem wp_rbTraverse (ht : t.modifyX = true) (hfn : t.fn = f) :
    ∀ (level : ℕ) (X : Set ℕ) (w : World) (n base : ℕ) (v : V),
      VisitLaws t (w.fil f).inode.size wr sem → NodeIn E X w level n →
      t.rngoff < base + span level →
      wp (rbTraverse E t level n base v)
        (fun r w' => NodeOut E f X t wr w level n base r.1 w' ∧
          r.2 = sem (fun a => blkBytes E w level n (a - base)) base (base + span level) v)
        (fun _ _ => False) w := by
  intro level
  induction level with
  | zero =>
      intro X w n base v hlaws hin _
      exact wp_visitData ht hfn hlaws hin v
  | succ level ih =>
      intro X w n base v hlaws hin hrng
      generalize hc : (fun a => blkBytes E w (level + 1) n (a - base)) = c
      rw [rbTraverse]
      simp only
      split
      case isTrue hend =>
        refine ⟨Visited.nodeOut (.skip hlaws (.start hin) (Nat.zero_le _) (.inr (by omega))) hin, ?_⟩
        exact (hlaws.sem_out c _ _ v (.inr (by omega))).symm
      case isFalse hend =>
        refine wp_seq (wp_slotLoop hlaws c (J := Visited E f X t wr w level n base) hrng ?_ ?_ v
          (.start hin)) ?_ (fun _ _ hF => hF)
        · intro k k' w' hvis hk _ hout
          exact hvis.skip hlaws hk hout
        · intro i v₁ w₁ hi hvis hrng₁
          have hfin : Fin.ofNat 256 i = ⟨i, hi⟩ := Fin.ext (Nat.mod_eq_of_lt hi)
          have hsize := hvis.frame.size f
          have hslot := hvis.slotIn hin ⟨i, hi⟩
          simp only [hfin]
          refine wp_mono (wp_traverseSlot ht hfn (by rw [hsize]; exact hlaws) hslot v₁ ?_) ?_
            (fun _ _ hF => hF)
          · intro m w₂ hin₂ hsize₂
            exact ih _ w₂ m _ v₁ (by rw [hsize₂, hsize]; exact hlaws) hin₂ hrng₁
          · rintro v₂ w₂ ⟨hw, hv₂⟩
            refine ⟨hvis.step hin hw, hv₂.trans (hlaws.sem_congr _ _ _ _ _ ?_)⟩
            intro a h₁ h₂
            have ho : a - (base + i * span level) < span level := by omega
            have ha : a - base = i * span level + (a - (base + i * span level)) := by omega
            rw [hvis.todo ⟨i, hi⟩ (Nat.le_refl _) _ ho, ← hc]
            simp only
            rw [ha]
            exact (blkBytes_sub w level n ⟨i, hi⟩ ho).symm
        · rintro v₁ w₁ ⟨hvis, hv₁⟩
          exact ⟨hvis.nodeOut hin, hv₁⟩

end node

end UTFS

end Utopfs
