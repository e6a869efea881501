/-
**Elementary changes to the block nodes.**

The invariant of `Utopfs/BlockTree.lean` under the elementary changes that the methods of the nodes
are made of: a new node, a change of the data or the dirty flag of a node in hand, a handle put into a
slot, a handle replaced by the reference of its node, and a block put into the store.

Main results:

* `UTFS.BInv.alloc` — a new node that no slot holds;
* `UTFS.BInv.sameShape` — a change that leaves references and handles alone;
* `UTFS.BInv.insertHand`, `UTFS.BInv.dropHand` — a node is taken in hand, and let go of;
* `UTFS.BInv.setSlotObj`, `UTFS.BInv.setSlotRef` — a slot of a node in hand is changed;
* `UTFS.BInv.put` — a block is put under a new reference;
* `UTFS.blkBytes_sim` — the bytes are the same when the bytes of every slot are.
-/

import Utopfs.BlockTree

set_option relaxedAutoImplicit false
set_option autoImplicit false

namespace Utopfs

namespace UTFS

variable {E : Env}

/-! ### Slots -/

section slots

variable (w : World) (s : Slot) (o : Option ℕ) (r : BlockRef)

@[simp] theorem setSlotObj_nblk : (w.setSlotObj s o).nblk = w.nblk := by cases s <;> rfl
@[simp] theorem setSlotObj_nfil : (w.setSlotObj s o).nfil = w.nfil := by cases s <;> rfl
@[simp] theorem setSlotObj_cache : (w.setSlotObj s o).cache = w.cache := by cases s <;> rfl
@[simp] theorem setSlotObj_log : (w.setSlotObj s o).log = w.log := by cases s <;> rfl
@[simp] theorem setSlotObj_rand : (w.setSlotObj s o).rand = w.rand := by cases s <;> rfl
@[simp] theorem setSlotObj_zobj : (w.setSlotObj s o).zobj = w.zobj := by cases s <;> rfl
@[simp] theorem setSlotRef_nblk : (w.setSlotRef s r).nblk = w.nblk := by cases s <;> rfl
@[simp] theorem setSlotRef_nfil : (w.setSlotRef s r).nfil = w.nfil := by cases s <;> rfl
@[simp] theorem setSlotRef_cache : (w.setSlotRef s r).cache = w.cache := by cases s <;> rfl
@[simp] theorem setSlotRef_log : (w.setSlotRef s r).log = w.log := by cases s <;> rfl
@[simp] theorem setSlotRef_rand : (w.setSlotRef s r).rand = w.rand := by cases s <;> rfl
@[simp] theorem setSlotRef_zobj : (w.setSlotRef s r).zobj = w.zobj := by cases s <;> rfl

/-- Setting the handle of a slot changes nothing but the handles of its owner. -/
theorem setSlotObj_blk (m : ℕ) :
    ∃ f, (w.setSlotObj s o).blk m = { w.blk m with blkobj := f } ∧
      ((∀ i, s ≠ .sub m i) → f = (w.blk m).blkobj) := by
  cases s with
  | fil f a => exact ⟨_, rfl, fun _ => rfl⟩
  | sub p i =>
      by_cases hm : m = p
      · subst hm
        refine ⟨Function.update (w.blk m).blkobj i o, ?_, fun h => absurd rfl (h i)⟩
        simp [World.setSlotObj, World.setBlk]
      · exact ⟨(w.blk m).blkobj, by simp [World.setSlotObj, World.setBlk, hm], fun _ => rfl⟩

/-- Setting the reference of a slot changes nothing but the references of its owner. -/
theorem setSlotRef_blk (m : ℕ) :
    ∃ f, (w.setSlotRef s r).blk m = { w.blk m with blkref := f } ∧
      ((∀ i, s ≠ .sub m i) → f = (w.blk m).blkref) := by
  cases s with
  | fil f a => exact ⟨_, rfl, fun _ => rfl⟩
  | sub p i =>
      by_cases hm : m = p
      · subst hm
        refine ⟨Function.update (w.blk m).blkref i r, ?_, fun h => absurd rfl (h i)⟩
        simp [World.setSlotRef, World.setBlk]
      · exact ⟨(w.blk m).blkref, by simp [World.setSlotRef, World.setBlk, hm], fun _ => rfl⟩

@[simp] theorem setSlotObj_level (m : ℕ) : ((w.setSlotObj s o).blk m).level = (w.blk m).level := by
  obtain ⟨f, hf, -⟩ := setSlotObj_blk w s o m
  rw [hf]
@[simp] theorem setSlotObj_zero (m : ℕ) : ((w.setSlotObj s o).blk m).zero = (w.blk m).zero := by
  obtain ⟨f, hf, -⟩ := setSlotObj_blk w s o m
  rw [hf]
@[simp] theorem setSlotObj_ref (m : ℕ) : ((w.setSlotObj s o).blk m).ref = (w.blk m).ref := by
  obtain ⟨f, hf, -⟩ := setSlotObj_blk w s o m
  rw [hf]
@[simp] theorem setSlotObj_isdirty (m : ℕ) :
    ((w.setSlotObj s o).blk m).isdirty = (w.blk m).isdirty := by
  obtain ⟨f, hf, -⟩ := setSlotObj_blk w s o m
  rw [hf]
@[simp] theorem setSlotObj_data (m : ℕ) : ((w.setSlotObj s o).blk m).data = (w.blk m).data := by
  obtain ⟨f, hf, -⟩ := setSlotObj_blk w s o m
  rw [hf]
@[simp] theorem setSlotObj_blkref (m : ℕ) :
    ((w.setSlotObj s o).blk m).blkref = (w.blk m).blkref := by
  obtain ⟨f, hf, -⟩ := setSlotObj_blk w s o m
  rw [hf]
@[simp] theorem setSlotRef_level (m : ℕ) : ((w.setSlotRef s r).blk m).level = (w.blk m).level := by
  obtain ⟨f, hf, -⟩ := setSlotRef_blk w s r m
  rw [hf]
@[simp] theorem setSlotRef_zero (m : ℕ) : ((w.setSlotRef s r).blk m).zero = (w.blk m).zero := by
  obtain ⟨f, hf, -⟩ := setSlotRef_blk w s r m
  rw [hf]
@[simp] theorem setSlotRef_ref (m : ℕ) : ((w.setSlotRef s r).blk m).ref = (w.blk m).ref := by
  obtain ⟨f, hf, -⟩ := setSlotRef_blk w s r m
  rw [hf]
@[simp] theorem setSlotRef_isdirty (m : ℕ) :
    ((w.setSlotRef s r).blk m).isdirty = (w.blk m).isdirty := by
  obtain ⟨f, hf, -⟩ := setSlotRef_blk w s r m
  rw [hf]
@[simp] theorem setSlotRef_data (m : ℕ) : ((w.setSlotRef s r).blk m).data = (w.blk m).data := by
  obtain ⟨f, hf, -⟩ := setSlotRef_blk w s r m
  rw [hf]
@[simp] theorem setSlotRef_blkobj (m : ℕ) :
    ((w.setSlotRef s r).blk m).blkobj = (w.blk m).blkobj := by
  obtain ⟨f, hf, -⟩ := setSlotRef_blk w s r m
  rw [hf]

@[simp] theorem live_setSlotObj (s' : Slot) : (w.setSlotObj s o).Live s' ↔ w.Live s' := by
  cases s' <;> simp [World.Live]
@[simp] theorem live_setSlotRef (s' : Slot) : (w.setSlotRef s r).Live s' ↔ w.Live s' := by
  cases s' <;> simp [World.Live]
@[simp] theorem slotLevel_setSlotObj (s' : Slot) :
    (w.setSlotObj s o).slotLevel s' = w.slotLevel s' := by
  cases s' <;> simp [World.slotLevel]
@[simp] theorem slotLevel_setSlotRef (s' : Slot) :
    (w.setSlotRef s r).slotLevel s' = w.slotLevel s' := by
  cases s' <;> simp [World.slotLevel]

@[simp] theorem slotObj_setSlotObj_self : (w.setSlotObj s o).slotObj s = o := by
  cases s <;> simp [World.slotObj, World.setSlotObj, World.setFil, World.setBlk]

@[simp] theorem slotRef_setSlotRef_self : (w.setSlotRef s r).slotRef s = r := by
  cases s <;> simp [World.slotRef, World.setSlotRef, World.setFil, World.setBlk]

@[simp] theorem slotRef_setSlotObj (s' : Slot) : (w.setSlotObj s o).slotRef s' = w.slotRef s' := by
  cases s' with
  | sub n i => simp [World.slotRef]
  | fil f a =>
      cases s with
      | sub n i => rfl
      | fil g b =>
          by_cases hf : f = g
          · subst hf
            simp [World.slotRef, World.setSlotObj, World.setFil]
          · simp [World.slotRef, World.setSlotObj, World.setFil, hf]

@[simp] theorem slotObj_setSlotRef (s' : Slot) : (w.setSlotRef s r).slotObj s' = w.slotObj s' := by
  cases s' with
  | sub n i => simp [World.slotObj]
  | fil f a =>
      cases s with
      | sub n i => rfl
      | fil g b =>
          by_cases hf : f = g
          · subst hf
            simp [World.slotObj, World.setSlotRef, World.setFil]
          · simp [World.slotObj, World.setSlotRef, World.setFil, hf]

variable {s} in
theorem slotObj_setSlotObj_of_ne {s' : Slot} (h : s' ≠ s) :
    (w.setSlotObj s o).slotObj s' = w.slotObj s' := by
  cases s' with
  | sub n i =>
      cases s with
      | fil g b => rfl
      | sub m j =>
          by_cases hn : n = m
          · subst hn
            have hij : i ≠ j := fun hij => h (by rw [hij])
            simp [World.slotObj, World.setSlotObj, World.setBlk, hij]
          · simp [World.slotObj, World.setSlotObj, World.setBlk, hn]
  | fil f a =>
      cases s with
      | sub n i => rfl
      | fil g b =>
          by_cases hf : f = g
          · subst hf
            have hab : a ≠ b := fun hab => h (by rw [hab])
            simp [World.slotObj, World.setSlotObj, World.setFil, hab]
          · simp [World.slotObj, World.setSlotObj, World.setFil, hf]

variable {s} in
theorem slotRef_setSlotRef_of_ne {s' : Slot} (h : s' ≠ s) :
    (w.setSlotRef s r).slotRef s' = w.slotRef s' := by
  cases s' with
  | sub n i =>
      cases s with
      | fil g b => rfl
      | sub m j =>
          by_cases hn : n = m
          · subst hn
            have hij : i ≠ j := fun hij => h (by rw [hij])
            simp [World.slotRef, World.setSlotRef, World.setBlk, hij]
          · simp [World.slotRef, World.setSlotRef, World.setBlk, hn]
  | fil f a =>
      cases s with
      | sub n i => rfl
      | fil g b =>
          by_cases hf : f = g
          · subst hf
            have hab : a ≠ b := fun hab => h (by rw [hab])
            simp [World.slotRef, World.setSlotRef, World.setFil, hab]
          · simp [World.slotRef, World.setSlotRef, World.setFil, hf]

end slots

/-- The node that has the slot is in `X`. -/
def Slot.OwnerIn (X : Set ℕ) : Slot → Prop
  | .fil _ _ => True
  | .sub p _ => p ∈ X

/-! ### The bytes of the slots -/

/-- **The bytes are the same when the bytes of every slot are.** -/
theorem blkBytes_sim {X : Set ℕ} {w w' : World} (h : BInv E X w)
    (hdata : ∀ m, m < w.nblk → (w.blk m).zero = false → (w.blk m).level = 0 →
      (w'.blk m).data = (w.blk m).data)
    (hslot : ∀ m, m < w.nblk → (w.blk m).zero = false → ∀ level, (w.blk m).level = level + 1 → ∀ i,
      (∃ c, (w.blk m).blkobj i = some c ∧ (w'.blk m).blkobj i = some c) ∨
        ∀ o, o < span level → slotBytes E w' level (.sub m i) o = slotBytes E w level (.sub m i) o) :
    ∀ (level m : ℕ), m < w.nblk → (w.blk m).zero = false → (w.blk m).level = level →
      ∀ o, blkBytes E w' level m o = blkBytes E w level m o := by
  intro level
  induction level with
  | zero =>
      intro m hm hz hl o
      simp only [blkBytes, hdata m hm hz hl]
  | succ level ih =>
      intro m hm hz hl o
      by_cases hi : o / span level < 256
      case neg => simp only [blkBytes, hi, dif_neg, not_false_eq_true]
      case pos =>
        have ho : o = (o / span level) * span level + o % span level := by
          rw [Nat.mul_comm]
          exact (Nat.div_add_mod o (span level)).symm
        have hmod : o % span level < span level := Nat.mod_lt _ (span_pos level)
        rw [ho]
        have e₁ := blkBytes_sub (E := E) w level m ⟨o / span level, hi⟩ hmod
        have e₂ := blkBytes_sub (E := E) w' level m ⟨o / span level, hi⟩ hmod
        refine (e₂.trans ?_).trans e₁.symm
        rcases hslot m hm hz level hl ⟨o / span level, hi⟩ with ⟨c, hc, hc'⟩ | hsame
        · have hlive : w.Live (.sub m ⟨o / span level, hi⟩) := ⟨hm, hz, by omega⟩
          have hobj := h.obj _ c hlive hc
          have hlc := h.slotLevel_sub hlive hc
          simp only [slotBytes, World.slotObj, hc, hc']
          exact ih c hobj.lt hobj.zero (by omega) _
        · exact hsame _ hmod

/-! ### A new node -/

/-- The heap with one more block node. -/
def World.alloc (w : World) (b : BlkNode) : World :=
  { w.setBlk w.nblk b with nblk := w.nblk + 1 }

theorem alloc_blk_of_lt (w : World) (b : BlkNode) {m : ℕ} (hm : m < w.nblk) :
    (w.alloc b).blk m = w.blk m := by
  simp [World.alloc, World.setBlk, Nat.ne_of_lt hm]

@[simp] theorem alloc_blk_self (w : World) (b : BlkNode) : (w.alloc b).blk w.nblk = b := by
  simp [World.alloc, World.setBlk]

/-- A slot of the larger heap is a slot of the old one or belongs to the new node. -/
theorem live_alloc {w : World} {b : BlkNode} {s : Slot} (h : (w.alloc b).Live s) :
    w.Live s ∨ ∃ i, s = .sub w.nblk i := by
  cases s with
  | fil f a => exact .inl h
  | sub n i =>
      obtain ⟨hlt, hz, hl⟩ := h
      rcases Nat.lt_succ_iff_lt_or_eq.1 hlt with hn | rfl
      · rw [alloc_blk_of_lt w b hn] at hz hl
        exact .inl ⟨hn, hz, hl⟩
      · exact .inr ⟨i, rfl⟩

/-- The old slots are what they were. -/
theorem live_alloc_of_live {w : World} {b : BlkNode} {s : Slot} (h : w.Live s) :
    (w.alloc b).Live s ∧ (w.alloc b).slotObj s = w.slotObj s ∧
      (w.alloc b).slotRef s = w.slotRef s ∧ (w.alloc b).slotLevel s = w.slotLevel s := by
  cases s with
  | fil f a => exact ⟨h, rfl, rfl, rfl⟩
  | sub n i =>
      obtain ⟨hlt, hz, hl⟩ := h
      have hb := alloc_blk_of_lt w b hlt
      refine ⟨⟨Nat.lt_succ_of_lt hlt, ?_, ?_⟩, ?_, ?_, ?_⟩
      · rw [hb]; exact hz
      · rw [hb]; exact hl
      · simp only [World.slotObj, hb]
      · simp only [World.slotRef, hb]
      · simp only [World.slotLevel, hb]

theorem blkBytes_alloc {X : Set ℕ} {w : World} (h : BInv E X w) (b : BlkNode) {m : ℕ}
    (hm : m < w.nblk) (hz : (w.blk m).zero = false) (o : ℕ) :
    blkBytes E (w.alloc b) (w.blk m).level m o = blkBytes E w (w.blk m).level m o := by
  refine @blkBytes_frame E X w (w.alloc b) h rfl ∅ (by simp) ?_ _ m hm hz rfl (by simp) o
  intro k hk _
  exact alloc_blk_of_lt w b hk

/-- A node, other than a zero singleton, that may enter the heap. -/
structure NewBlk (E : Env) (w : World) (b : BlkNode) : Prop where
  obj : ∀ i, b.blkobj i = none
  iv : b.ref.iv ∉ w.rand
  kind : ∀ x, getBlock b.ref w.log = some x → x.2 = .blk b.level
  ref : 0 < b.level → ∀ i, b.blkref i ≠ .nil → Stored w.log (b.blkref i) (.blk (b.level - 1))
  clean : b.isdirty = false → Coherent E (w.alloc b) w.nblk

/-- **A new node that no slot holds.** -/
theorem BInv.alloc {X : Set ℕ} {w : World} (h : BInv E X w) {b : BlkNode}
    (hnew : b.zero = false → NewBlk E w b) (hzero : b.zero = true → ZeroOk (w.alloc b) w.nblk) :
    BInv E X (w.alloc b) := by
  have hX : ∀ p ∈ X, p < w.nblk := fun p hp => (h.hand p hp).1
  have hold : ∀ m, m < w.nblk → (w.alloc b).blk m = w.blk m := fun m hm => alloc_blk_of_lt w b hm
  have hself : ((w.alloc b).blk w.nblk).zero = b.zero := by rw [alloc_blk_self]
  -- A slot that holds something is an old one.
  have hsub : ∀ s n, (w.alloc b).Live s → (w.alloc b).slotObj s = some n →
      w.Live s ∧ w.slotObj s = some n := by
    intro s n hs hn
    rcases live_alloc hs with hs' | ⟨i, rfl⟩
    · exact ⟨hs', by rwa [(live_alloc_of_live hs').2.1] at hn⟩
    · simp [World.slotObj, (hnew (hself ▸ hs.2.1)).obj] at hn
  refine ⟨h.disk, h.rep, ?_, ?_, ?_, ?_, h.keyFil, ?_, ?_, ?_, ?_, ?_, ?_, ?_⟩
  · intro s n hs hn
    obtain ⟨hs', hn'⟩ := hsub s n hs hn
    have ho := h.obj s n hs' hn'
    refine ⟨Nat.lt_succ_of_lt ho.lt, ?_, ?_, ?_, ho.uncached⟩
    · rw [hold n ho.lt]; exact ho.zero
    · rw [hold n ho.lt, (live_alloc_of_live hs').2.2.2]; exact ho.level
    · rw [hold n ho.lt]; exact ho.dirty
  · intro s s' n hs hs' hn hn'
    obtain ⟨h₁, h₁'⟩ := hsub s n hs hn
    obtain ⟨h₂, h₂'⟩ := hsub s' n hs' hn'
    exact h.objUniq s s' n h₁ h₂ h₁' h₂'
  · intro s hs hr
    rcases live_alloc hs with hs' | ⟨i, rfl⟩
    · rw [(live_alloc_of_live hs').2.2.1] at hr ⊢
      rw [(live_alloc_of_live hs').2.2.2]
      exact h.refOk s hs' hr
    · have hl := hs.2.2
      simp only [World.slotRef, World.slotLevel, alloc_blk_self] at hr hl ⊢
      exact (hnew (hself ▸ hs.2.1)).ref hl i hr
  · intro r n hr
    have hk := h.key r n hr
    refine ⟨Nat.lt_succ_of_lt hk.lt, ?_, ?_, ?_, ?_⟩
    · rw [hold n hk.lt]; exact hk.zero
    · rw [hold n hk.lt]; exact hk.ref
    · rw [hold n hk.lt]; exact hk.clean
    · rw [hold n hk.lt]; exact hk.stored
  · intro n hn hnz
    rcases Nat.lt_succ_iff_lt_or_eq.1 hn with hn | rfl
    · rw [hold n hn] at hnz ⊢; exact h.nodeIv n hn hnz
    · rw [alloc_blk_self]; exact (hnew (hself ▸ hnz)).iv
  · intro n hn hnz
    rcases Nat.lt_succ_iff_lt_or_eq.1 hn with hn | rfl
    · rw [hold n hn] at hnz ⊢; exact h.nodeKind n hn hnz
    · rw [alloc_blk_self]; exact (hnew (hself ▸ hnz)).kind
  · intro n hn hnz hnX hd
    rcases Nat.lt_succ_iff_lt_or_eq.1 hn with hn | rfl
    · rw [hold n hn] at hnz hd
      exact (h.clean n hn hnz hnX hd).congr (hold n hn) rfl (blkBytes_alloc h b hn hnz)
    · exact (hnew (hself ▸ hnz)).clean (by rwa [alloc_blk_self] at hd)
  · intro n hn hnz
    rcases Nat.lt_succ_iff_lt_or_eq.1 hn with hn | rfl
    · rw [hold n hn] at hnz
      refine ⟨?_, ?_⟩
      · rw [hold n hn]; exact (h.zero n hn hnz).data
      · rw [hold n hn]
        intro level hl i
        obtain ⟨z, hzo, hzlt, hzz, hzl⟩ := (h.zero n hn hnz).obj level hl i
        exact ⟨z, hzo, Nat.lt_succ_of_lt hzlt, by rw [hold z hzlt]; exact hzz,
          by rw [hold z hzlt]; exact hzl⟩
    · exact hzero (hself ▸ hnz)
  · intro level z hzo
    obtain ⟨hzlt, hzz, hzl⟩ := h.zobj level z hzo
    exact ⟨Nat.lt_succ_of_lt hzlt, by rw [hold z hzlt]; exact hzz, by rw [hold z hzlt]; exact hzl⟩
  · intro p hp
    exact ⟨Nat.lt_succ_of_lt (hX p hp), by rw [hold p (hX p hp)]; exact (h.hand p hp).2⟩
  · intro p hp q i hq hqi
    obtain ⟨hs', hn'⟩ := hsub (.sub q i) p hq hqi
    exact h.upClosed p hp q i hs' hn'

/-- The heap with a new zero singleton of a level. -/
def World.zeroed (w : World) (level : ℕ) : World :=
  { w.alloc (.zeroNode level (if level = 0 then none else w.zobj (level - 1))) with
    zobj := Function.update w.zobj level (some w.nblk) }

theorem newZeroNode_run (w : World) (level : ℕ) : newZeroNode level w = .ok () (w.zeroed level) := rfl

/-- **A new zero singleton.**  The one of the level below is there. -/
theorem BInv.zeroed {X : Set ℕ} {w : World} (h : BInv E X w) {level : ℕ}
    (hbelow : ∀ l, level = l + 1 → ∃ z, w.zobj l = some z) : BInv E X (w.zeroed level) := by
  generalize hb : BlkNode.zeroNode level (if level = 0 then none else w.zobj (level - 1)) = b
  have hw : w.zeroed level =
      { w.alloc b with zobj := Function.update w.zobj level (some w.nblk) } := by rw [← hb]; rfl
  have halloc : BInv E X (w.alloc b) := by
    subst hb
    refine h.alloc (fun hz => absurd hz (by simp [BlkNode.zeroNode])) (fun _ => ⟨?_, ?_⟩)
    · rw [alloc_blk_self]
      exact fun _ => rfl
    · rw [alloc_blk_self]
      intro l hl i
      obtain rfl : level = l + 1 := hl
      obtain ⟨z, hz⟩ := hbelow l rfl
      obtain ⟨hlt, hzz, hzl⟩ := h.zobj l z hz
      refine ⟨z, hz, Nat.lt_succ_of_lt hlt, ?_, ?_⟩
      · rw [alloc_blk_of_lt w _ hlt]; exact hzz
      · rw [alloc_blk_of_lt w _ hlt]; exact hzl
  rw [hw]
  refine ⟨halloc.disk, halloc.rep, fun s n hs hn => ?_, halloc.objUniq, fun s hs hr => ?_, ?_,
    halloc.keyFil, halloc.nodeIv, halloc.nodeKind, ?_, ?_, ?_, halloc.hand,
    fun p hp q i hl hq => halloc.upClosed p hp q i hl hq⟩
  · have ho := halloc.obj s n hs hn
    refine ⟨ho.lt, ho.zero, ho.level.trans ?_, ho.dirty, ho.uncached⟩
    cases s <;> rfl
  · have := halloc.refOk s hs hr
    cases s <;> exact this
  · intro r n hr
    have hk := halloc.key r n hr
    exact ⟨hk.lt, hk.zero, hk.ref, hk.clean, hk.stored⟩
  · intro n hn hz hX hd
    exact (halloc.clean n hn hz hX hd).congr rfl rfl
      (fun o => @blkBytes_congr E (w.alloc b) { w.alloc b with
        zobj := Function.update w.zobj level (some w.nblk) } rfl rfl _ n o)
  · intro n hn hz
    exact ⟨(halloc.zero n hn hz).data, (halloc.zero n hn hz).obj⟩
  · intro l z hz
    by_cases hl : l = level
    · subst hl
      obtain rfl : w.nblk = z := by simpa using hz
      refine ⟨Nat.lt_succ_self _, ?_, ?_⟩
      · change ((w.alloc b).blk w.nblk).zero = true
        rw [alloc_blk_self, ← hb]
        rfl
      · change ((w.alloc b).blk w.nblk).level = l
        rw [alloc_blk_self, ← hb]
        rfl
    · simp only [Function.update_of_ne hl] at hz
      exact halloc.zobj l z hz

/-- **The start of the program** on what is stored. -/
theorem BInv.started {log : List Effect} {rand : List IV} (hd : DiskOk E log rand) (full : List Bool)
    (clock : ℕ → ℕ) : BInv E ∅ { World.boot rand full clock with log := log } := by
  have hlive : ∀ s, ¬ World.Live { World.boot rand full clock with log := log } s := by
    intro s hs
    cases s with
    | fil f a => exact Nat.not_lt_zero _ hs
    | sub n i => exact Nat.not_lt_zero _ hs.1
  have hcache : ∀ r o, (World.boot rand full clock).cache.nodemap r ≠ some o := by
    intro r o hr
    simp [World.boot] at hr
  refine ⟨hd, ⟨?_, ?_, ?_, ?_, ?_, ?_⟩, ?_, ?_, ?_, ?_, ?_, ?_, ?_, ?_, ?_, ?_, ?_, ?_⟩
  · simp [World.boot]
  · simp [World.boot]
  · simp [World.boot]
  · simp [World.boot]
  · exact fun r o _ h => absurd h (hcache r o)
  · simp [World.boot]
  · exact fun s n hs => absurd hs (hlive s)
  · exact fun s s' n hs => absurd hs (hlive s)
  · exact fun s hs => absurd hs (hlive s)
  · exact fun r n h => absurd h (hcache r _)
  · exact fun r f h => absurd h (hcache r _)
  · exact fun n hn => absurd hn (Nat.not_lt_zero n)
  · exact fun n hn => absurd hn (Nat.not_lt_zero n)
  · exact fun n hn => absurd hn (Nat.not_lt_zero n)
  · exact fun n hn => absurd hn (Nat.not_lt_zero n)
  · simp [World.boot]
  · exact fun p hp => absurd hp (Set.notMem_empty p)
  · exact fun p hp => absurd hp (Set.notMem_empty p)

/-- **The start of the program** where nothing is stored. -/
theorem BInv.boot {rand : List IV} (hnodup : rand.Nodup) (hne : ∀ iv ∈ rand, iv ≠ fun _ => 0)
    (full : List Bool) (clock : ℕ → ℕ) : BInv E ∅ (World.boot rand full clock) := by
  have hget : ∀ r, getBlock r [] = none := fun _ => rfl
  have hd : DiskOk E [] rand := by
    refine ⟨hget _, ?_, ?_, ?_, ?_, hnodup, hne⟩
    · intro r b k h; simp [hget] at h
    · intro r b level h; simp [hget] at h
    · intro r b h; simp [hget] at h
    · intro r x h; simp [hget] at h
  exact BInv.started hd full clock

/-! ### Changing nodes in hand -/

/-- The two worlds have the same references and handles in their slots; they may differ in data,
dirty flags, the references of nodes and the other fields of file nodes, and random bytes may have
been used. -/
structure SameShape (w w' : World) : Prop where
  level : ∀ m, (w'.blk m).level = (w.blk m).level
  zero : ∀ m, (w'.blk m).zero = (w.blk m).zero
  blkref : ∀ m, (w'.blk m).blkref = (w.blk m).blkref
  blkobj : ∀ m, (w'.blk m).blkobj = (w.blk m).blkobj
  refs : ∀ f, (w'.fil f).refs = (w.fil f).refs
  objs : ∀ f, (w'.fil f).objs = (w.fil f).objs
  nblk : w'.nblk = w.nblk
  nfil : w'.nfil = w.nfil
  cache : w'.cache = w.cache
  log : w'.log = w.log
  rand : w'.rand.Sublist w.rand
  zobj : w'.zobj = w.zobj

theorem SameShape.live {w w' : World} (h : SameShape w w') (s : Slot) : w'.Live s ↔ w.Live s := by
  cases s with
  | fil f a => simp only [World.Live, h.nfil]
  | sub n i => simp only [World.Live, h.nblk, h.zero, h.level]

theorem SameShape.slotObj {w w' : World} (h : SameShape w w') (s : Slot) :
    w'.slotObj s = w.slotObj s := by
  cases s with
  | fil f a => simp only [World.slotObj, h.objs]
  | sub n i => simp only [World.slotObj, h.blkobj]

theorem SameShape.slotRef {w w' : World} (h : SameShape w w') (s : Slot) :
    w'.slotRef s = w.slotRef s := by
  cases s with
  | fil f a => simp only [World.slotRef, h.refs]
  | sub n i => simp only [World.slotRef, h.blkref]

theorem SameShape.slotLevel {w w' : World} (h : SameShape w w') (s : Slot) :
    w'.slotLevel s = w.slotLevel s := by
  cases s with
  | fil f a => rfl
  | sub n i => simp only [World.slotLevel, h.level]

@[simp] theorem setBlk_self (w : World) (n : ℕ) (b : BlkNode) : (w.setBlk n b).blk n = b := by
  simp [World.setBlk]

theorem setBlk_of_ne (w : World) {n m : ℕ} (b : BlkNode) (h : m ≠ n) :
    (w.setBlk n b).blk m = w.blk m := by
  simp [World.setBlk, h]

@[simp] theorem setFil_self (w : World) (f : ℕ) (x : FileNode) : (w.setFil f x).fil f = x := by
  simp [World.setFil]

theorem setFil_setFil (w : World) (f : ℕ) (x y : FileNode) : (w.setFil f x).setFil f y = w.setFil f y := by
  simp [World.setFil]

theorem setFil_of_ne (w : World) {f g : ℕ} (x : FileNode) (h : g ≠ f) :
    (w.setFil f x).fil g = w.fil g := by
  simp [World.setFil, h]

theorem SameShape.setBlk (w : World) {n : ℕ} {b : BlkNode} (hl : b.level = (w.blk n).level)
    (hz : b.zero = (w.blk n).zero) (hr : b.blkref = (w.blk n).blkref)
    (ho : b.blkobj = (w.blk n).blkobj) : SameShape w (w.setBlk n b) := by
  -- A field that the new record shares is the same for every node.
  have hsame : ∀ {α : Type} (p : BlkNode → α), p b = p (w.blk n) →
      ∀ m, p ((w.setBlk n b).blk m) = p (w.blk m) := by
    intro α p hp m
    by_cases hm : m = n
    · subst hm
      rw [setBlk_self, hp]
    · rw [setBlk_of_ne w b hm]
  exact ⟨hsame BlkNode.level hl, hsame BlkNode.zero hz, hsame BlkNode.blkref hr,
    hsame BlkNode.blkobj ho, fun _ => rfl, fun _ => rfl, rfl, rfl, rfl, rfl, List.Sublist.refl _, rfl⟩

theorem SameShape.setFil (w : World) {f : ℕ} {x : FileNode} (hr : x.refs = (w.fil f).refs)
    (ho : x.objs = (w.fil f).objs) : SameShape w (w.setFil f x) := by
  have hsame : ∀ {α : Type} (p : FileNode → α), p x = p (w.fil f) →
      ∀ g, p ((w.setFil f x).fil g) = p (w.fil g) := by
    intro α p hp g
    by_cases hg : g = f
    · subst hg
      rw [setFil_self, hp]
    · rw [setFil_of_ne w x hg]
  exact ⟨fun _ => rfl, fun _ => rfl, fun _ => rfl, fun _ => rfl, hsame FileNode.refs hr,
    hsame FileNode.objs ho, rfl, rfl, rfl, rfl, List.Sublist.refl _, rfl⟩

/-- Random bytes are used. -/
theorem DiskOk.sublist {log : List Effect} {rand rand' : List IV} (h : DiskOk E log rand)
    (hr : rand'.Sublist rand) : DiskOk E log rand' where
  nilFree := h.nilFree
  digest := h.digest
  subRefs := h.subRefs
  fileRefs := h.fileRefs
  fresh r x hx hmem := h.fresh r x hx (hr.subset hmem)
  randNodup := h.randNodup.sublist hr
  randNe iv hiv := h.randNe iv (hr.subset hiv)

/-- A node may take a reference: it is not in the clean cache, the reference is not one to come, and
a block stored under it is of the level of the node. -/
structure RefFree (w : World) (rand : List IV) (m : ℕ) (r : BlockRef) : Prop where
  uncached : ∀ r', w.cache.nodemap r' ≠ some (.blk m)
  iv : r.iv ∉ rand
  kind : ∀ x, getBlock r w.log = some x → x.2 = .blk (w.blk m).level

/-- **A change that leaves the slots alone**, and all nodes that are not in hand. -/
theorem BInv.sameShape {X : Set ℕ} {w w' : World} (h : BInv E X w) (hs : SameShape w w')
    (href : ∀ m, (w'.blk m).ref = (w.blk m).ref ∨ RefFree w w'.rand m (w'.blk m).ref)
    (hoff : ∀ m, m < w.nblk → m ∉ X → w'.blk m = w.blk m) : BInv E X w' := by
  have hbytes : ∀ m, m < w.nblk → (w.blk m).zero = false → m ∉ X → ∀ o,
      blkBytes E w' (w.blk m).level m o = blkBytes E w (w.blk m).level m o :=
    fun m hm hz hX => blkBytes_frame h hs.log X h.upClosed hoff _ m hm hz rfl hX
  refine ⟨?_, ?_, ?_, ?_, ?_, ?_, ?_, ?_, ?_, ?_, ?_, ?_, ?_, ?_⟩
  · rw [hs.log]; exact h.disk.sublist hs.rand
  · rw [hs.cache]; exact h.rep
  · intro s n hl hn
    rw [hs.live] at hl
    rw [hs.slotObj] at hn
    have ho := h.obj s n hl hn
    refine ⟨by rw [hs.nblk]; exact ho.lt, by rw [hs.zero]; exact ho.zero,
      by rw [hs.level, hs.slotLevel]; exact ho.level, ?_, by rw [hs.cache]; exact ho.uncached⟩
    intro hX
    rw [hoff n ho.lt hX]
    exact ho.dirty hX
  · intro s s' n hl hl' hn hn'
    rw [hs.live] at hl hl'
    rw [hs.slotObj] at hn hn'
    exact h.objUniq s s' n hl hl' hn hn'
  · intro s hl hr
    rw [hs.live] at hl
    rw [hs.slotRef] at hr
    rw [hs.log, hs.slotRef, hs.slotLevel]
    exact h.refOk s hl hr
  · intro r n hr
    rw [hs.cache] at hr
    have hk := h.key r n hr
    refine ⟨by rw [hs.nblk]; exact hk.lt, by rw [hs.zero]; exact hk.zero, ?_, ?_,
      by rw [hs.log, hs.level]; exact hk.stored⟩
    · rcases href n with heq | hfree
      · rw [heq]; exact hk.ref
      · exact absurd hr (hfree.uncached r)
    · intro hX
      rw [hoff n hk.lt hX]
      exact hk.clean hX
  · rw [hs.cache, hs.log]; exact h.keyFil
  · intro n hn hz
    rw [hs.nblk] at hn
    rw [hs.zero] at hz
    rcases href n with heq | hfree
    · rw [heq]
      exact fun hmem => h.nodeIv n hn hz (hs.rand.subset hmem)
    · exact hfree.iv
  · intro n hn hz
    rw [hs.nblk] at hn
    rw [hs.zero] at hz
    rw [hs.log, hs.level]
    rcases href n with heq | hfree
    · rw [heq]
      exact h.nodeKind n hn hz
    · exact hfree.kind
  · intro n hn hz hX hd
    rw [hs.nblk] at hn
    rw [hs.zero] at hz
    rw [hoff n hn hX] at hd
    exact (h.clean n hn hz hX hd).congr (hoff n hn hX) hs.log (hbytes n hn hz hX)
  · intro n hn hz
    rw [hs.nblk] at hn
    rw [hs.zero] at hz
    have hX : n ∉ X := fun hX => by rw [(h.hand n hX).2] at hz; simp at hz
    refine ⟨?_, ?_⟩
    · rw [hoff n hn hX]; exact (h.zero n hn hz).data
    · rw [hoff n hn hX]
      intro level hl i
      obtain ⟨z, hzo, hzlt, hzz, hzl⟩ := (h.zero n hn hz).obj level hl i
      exact ⟨z, hzo, by rw [hs.nblk]; exact hzlt, by rw [hs.zero]; exact hzz,
        by rw [hs.level]; exact hzl⟩
  · intro level z hz
    rw [hs.zobj] at hz
    rw [hs.nblk, hs.zero, hs.level]
    exact h.zobj level z hz
  · intro p hp
    rw [hs.nblk, hs.zero]
    exact h.hand p hp
  · intro p hp q i hl hqi
    rw [hs.live] at hl
    rw [hs.blkobj] at hqi
    exact h.upClosed p hp q i hl hqi

/-! ### Taking nodes in hand -/

/-- A node may be taken in hand when the nodes that hold it are. -/
theorem BInv.insertHand {X : Set ℕ} {w : World} (h : BInv E X w) {n : ℕ} (hn : n < w.nblk)
    (hz : (w.blk n).zero = false) (hheld : ∀ s, w.Live s → w.slotObj s = some n → s.OwnerIn X) :
    BInv E (insert n X) w where
  disk := h.disk
  rep := h.rep
  obj s m hs hm :=
    let ho := h.obj s m hs hm
    ⟨ho.lt, ho.zero, ho.level, fun hX => ho.dirty fun hX' => hX (.inr hX'), ho.uncached⟩
  objUniq := h.objUniq
  refOk := h.refOk
  key r m hr :=
    let hk := h.key r m hr
    ⟨hk.lt, hk.zero, hk.ref, fun hX => hk.clean fun hX' => hX (.inr hX'), hk.stored⟩
  keyFil := h.keyFil
  nodeIv := h.nodeIv
  nodeKind := h.nodeKind
  clean m hm hmz hX hd := h.clean m hm hmz (fun hX' => hX (.inr hX')) hd
  zero := h.zero
  zobj := h.zobj
  hand := by
    rintro p (rfl | hp)
    · exact ⟨hn, hz⟩
    · exact h.hand p hp
  upClosed := by
    rintro p (rfl | hp) q i hl hqi
    · exact .inr (hheld (.sub q i) hl hqi)
    · exact .inr (h.upClosed p hp q i hl hqi)

/-- A node is let go of when it is dirty in its slot, clean in the cache, and coherent if clean. -/
theorem BInv.dropHand {X : Set ℕ} {w : World} {n : ℕ} (h : BInv E (insert n X) w)
    (hobj : ∀ s, w.Live s → w.slotObj s = some n → (w.blk n).isdirty = true)
    (hkey : ∀ r, w.cache.nodemap r = some (.blk n) → (w.blk n).isdirty = false)
    (hclean : (w.blk n).isdirty = false → Coherent E w n)
    (hup : ∀ p ∈ X, ∀ i, w.Live (.sub n i) → (w.blk n).blkobj i ≠ some p) : BInv E X w where
  disk := h.disk
  rep := h.rep
  obj s m hs hm := by
    have ho := h.obj s m hs hm
    refine ⟨ho.lt, ho.zero, ho.level, fun hX => ?_, ho.uncached⟩
    by_cases hmn : m = n
    · subst hmn
      exact hobj s hs hm
    · exact ho.dirty (fun hX' => hX'.elim hmn hX)
  objUniq := h.objUniq
  refOk := h.refOk
  key r m hr := by
    have hk := h.key r m hr
    refine ⟨hk.lt, hk.zero, hk.ref, fun hX => ?_, hk.stored⟩
    by_cases hmn : m = n
    · subst hmn
      exact hkey r hr
    · exact hk.clean (fun hX' => hX'.elim hmn hX)
  keyFil := h.keyFil
  nodeIv := h.nodeIv
  nodeKind := h.nodeKind
  clean m hm hmz hX hd := by
    by_cases hmn : m = n
    · subst hmn
      exact hclean hd
    · exact h.clean m hm hmz (fun hX' => hX'.elim hmn hX) hd
  zero := h.zero
  zobj := h.zobj
  hand p hp := h.hand p (.inr hp)
  upClosed p hp q i hl hqi := by
    rcases h.upClosed p (.inr hp) q i hl hqi with rfl | hq
    · exact absurd hqi (hup p hp i hl)
    · exact hq

/-! ### Changing slots of nodes in hand -/

section slotChange

variable {X : Set ℕ} {w : World} {s : Slot}

theorem setSlotObj_blk_of_not_mem (hown : s.OwnerIn X) (o : Option ℕ) {m : ℕ} (hm : m ∉ X) :
    (w.setSlotObj s o).blk m = w.blk m := by
  cases s with
  | fil f a => rfl
  | sub p i =>
      have hmp : m ≠ p := fun hmp => hm (hmp ▸ hown)
      simp [World.setSlotObj, World.setBlk, hmp]

theorem setSlotRef_blk_of_not_mem (hown : s.OwnerIn X) (r : BlockRef) {m : ℕ} (hm : m ∉ X) :
    (w.setSlotRef s r).blk m = w.blk m := by
  cases s with
  | fil f a => rfl
  | sub p i =>
      have hmp : m ≠ p := fun hmp => hm (hmp ▸ hown)
      simp [World.setSlotRef, World.setBlk, hmp]

theorem blkBytes_setSlotObj (h : BInv E X w) (hown : s.OwnerIn X) (o : Option ℕ) {m : ℕ}
    (hm : m < w.nblk) (hz : (w.blk m).zero = false) (hX : m ∉ X) (a : ℕ) :
    blkBytes E (w.setSlotObj s o) (w.blk m).level m a = blkBytes E w (w.blk m).level m a :=
  blkBytes_frame h (setSlotObj_log w s o) X h.upClosed
    (fun _ _ hk => setSlotObj_blk_of_not_mem hown o hk) _ m hm hz rfl hX a

theorem blkBytes_setSlotRef (h : BInv E X w) (hown : s.OwnerIn X) (r : BlockRef) {m : ℕ}
    (hm : m < w.nblk) (hz : (w.blk m).zero = false) (hX : m ∉ X) (a : ℕ) :
    blkBytes E (w.setSlotRef s r) (w.blk m).level m a = blkBytes E w (w.blk m).level m a :=
  blkBytes_frame h (setSlotRef_log w s r) X h.upClosed
    (fun _ _ hk => setSlotRef_blk_of_not_mem hown r hk) _ m hm hz rfl hX a

/-- The zero singletons are not in hand. -/
theorem BInv.zero_not_mem (h : BInv E X w) {n : ℕ} (hz : (w.blk n).zero = true) : n ∉ X := by
  intro hX
  rw [(h.hand n hX).2] at hz
  exact Bool.false_ne_true hz

/-- **A handle is put into a slot of a node in hand, or taken out of it.** -/
theorem BInv.setSlotObj (h : BInv E X w) (hown : s.OwnerIn X) (o : Option ℕ)
    (hobj : ∀ n, o = some n → ObjOk X w s n)
    (huniq : ∀ n, o = some n → ∀ s', w.Live s' → w.slotObj s' = some n → s' = s) :
    BInv E X (w.setSlotObj s o) := by
  have hblk : ∀ m, m ∉ X → (w.setSlotObj s o).blk m = w.blk m :=
    fun m hm => setSlotObj_blk_of_not_mem hown o hm
  have hold : ∀ s' n, (w.setSlotObj s o).slotObj s' = some n →
      (s' = s ∧ o = some n) ∨ (s' ≠ s ∧ w.slotObj s' = some n) := by
    intro s' n hn
    by_cases hs : s' = s
    · subst hs
      exact .inl ⟨rfl, by simpa using hn⟩
    · exact .inr ⟨hs, by rwa [slotObj_setSlotObj_of_ne w o hs] at hn⟩
  refine ⟨?_, ?_, ?_, ?_, ?_, ?_, ?_, ?_, ?_, ?_, ?_, ?_, ?_, ?_⟩
  · simpa using h.disk
  · simpa using h.rep
  · intro s' n hs' hn
    rw [live_setSlotObj] at hs'
    have ho : ObjOk X w s' n := by
      rcases hold s' n hn with ⟨rfl, ho⟩ | ⟨-, ho⟩
      · exact hobj n ho
      · exact h.obj s' n hs' ho
    exact ⟨by simpa using ho.lt, by simpa using ho.zero, by simpa using ho.level,
      by simpa using ho.dirty, by simpa using ho.uncached⟩
  · intro s₁ s₂ n h₁ h₂ hn₁ hn₂
    rw [live_setSlotObj] at h₁ h₂
    rcases hold s₁ n hn₁ with ⟨rfl, ho₁⟩ | ⟨-, ho₁⟩
    · rcases hold s₂ n hn₂ with ⟨rfl, -⟩ | ⟨-, ho₂⟩
      · rfl
      · exact (huniq n ho₁ s₂ h₂ ho₂).symm
    · rcases hold s₂ n hn₂ with ⟨rfl, ho₂⟩ | ⟨-, ho₂⟩
      · exact huniq n ho₂ s₁ h₁ ho₁
      · exact h.objUniq s₁ s₂ n h₁ h₂ ho₁ ho₂
  · intro s' hs' hr
    rw [live_setSlotObj] at hs'
    simpa using h.refOk s' hs' (by simpa using hr)
  · intro r n hr
    have hk := h.key r n (by simpa using hr)
    exact ⟨by simpa using hk.lt, by simpa using hk.zero, by simpa using hk.ref,
      by simpa using hk.clean, by simpa using hk.stored⟩
  · simpa using h.keyFil
  · simpa using h.nodeIv
  · simpa using h.nodeKind
  · intro m hm hz hX hd
    simp only [setSlotObj_nblk, setSlotObj_zero, setSlotObj_isdirty] at hm hz hd
    exact (h.clean m hm hz hX hd).congr (hblk m hX) (setSlotObj_log w s o)
      (blkBytes_setSlotObj h hown o hm hz hX)
  · intro m hm hz
    simp only [setSlotObj_nblk, setSlotObj_zero] at hm hz
    refine ⟨?_, ?_⟩
    · rw [hblk m (h.zero_not_mem hz)]
      exact (h.zero m hm hz).data
    · rw [hblk m (h.zero_not_mem hz)]
      simpa using (h.zero m hm hz).obj
  · simpa using h.zobj
  · simpa using h.hand
  · intro p hp q i hl hqi
    rw [live_setSlotObj] at hl
    rcases hold (.sub q i) p hqi with ⟨rfl, -⟩ | ⟨-, hqi⟩
    · exact hown
    · exact h.upClosed p hp q i hl hqi

/-- **The reference in a slot of a node in hand is changed.** -/
theorem BInv.setSlotRef (h : BInv E X w) (hown : s.OwnerIn X) (r : BlockRef)
    (hr : r ≠ .nil → Stored w.log r (.blk (w.slotLevel s))) : BInv E X (w.setSlotRef s r) := by
  have hblk : ∀ m, m ∉ X → (w.setSlotRef s r).blk m = w.blk m :=
    fun m hm => setSlotRef_blk_of_not_mem hown r hm
  refine ⟨?_, ?_, ?_, ?_, ?_, ?_, ?_, ?_, ?_, ?_, ?_, ?_, ?_, ?_⟩
  · simpa using h.disk
  · simpa using h.rep
  · intro s' n hs' hn
    have ho := h.obj s' n (by simpa using hs') (by simpa using hn)
    exact ⟨by simpa using ho.lt, by simpa using ho.zero, by simpa using ho.level,
      by simpa using ho.dirty, by simpa using ho.uncached⟩
  · simpa using h.objUniq
  · intro s' hs' hr'
    rw [live_setSlotRef] at hs'
    by_cases hss : s' = s
    · subst hss
      simpa using hr (by simpa using hr')
    · rw [slotRef_setSlotRef_of_ne w r hss] at hr' ⊢
      simpa using h.refOk s' hs' hr'
  · intro r' n hr'
    have hk := h.key r' n (by simpa using hr')
    exact ⟨by simpa using hk.lt, by simpa using hk.zero, by simpa using hk.ref,
      by simpa using hk.clean, by simpa using hk.stored⟩
  · simpa using h.keyFil
  · simpa using h.nodeIv
  · simpa using h.nodeKind
  · intro m hm hz hX hd
    simp only [setSlotRef_nblk, setSlotRef_zero, setSlotRef_isdirty] at hm hz hd
    exact (h.clean m hm hz hX hd).congr (hblk m hX) (setSlotRef_log w s r)
      (blkBytes_setSlotRef h hown r hm hz hX)
  · intro m hm hz
    simp only [setSlotRef_nblk, setSlotRef_zero] at hm hz
    refine ⟨?_, ?_⟩
    · rw [hblk m (h.zero_not_mem hz)]
      exact (h.zero m hm hz).data
    · rw [hblk m (h.zero_not_mem hz)]
      simpa using (h.zero m hm hz).obj
  · simpa using h.zobj
  · simpa using h.hand
  · intro p hp q i hl hqi
    exact h.upClosed p hp q i (by simpa using hl) (by simpa using hqi)

end slotChange

/-! ### A block is put -/

/-- The bytes stay the same when the store grows. -/
theorem blkBytes_logLe {X : Set ℕ} {w w' : World} (h : BInv E X w) (hblk : w'.blk = w.blk)
    (hle : LogLe w.log w'.log) (hnil : getBlock .nil w'.log = none) {m : ℕ} (hm : m < w.nblk)
    (hz : (w.blk m).zero = false) (o : ℕ) :
    blkBytes E w' (w.blk m).level m o = blkBytes E w (w.blk m).level m o := by
  refine blkBytes_sim h ?_ ?_ _ m hm hz rfl o
  · intro k _ _ _
    rw [hblk]
  · intro k hk hkz level hl i
    cases hc : (w.blk k).blkobj i with
    | some c => exact .inl ⟨c, rfl, by rw [hblk]; exact hc⟩
    | none =>
        refine .inr fun a _ => ?_
        have hlive : w.Live (.sub k i) := ⟨hk, hkz, by omega⟩
        have hstored : (w.blk k).blkref i ≠ .nil → Stored w.log ((w.blk k).blkref i) (.blk level) := by
          intro hr
          have := h.refOk (.sub k i) hlive hr
          simpa [World.slotRef, World.slotLevel, hl] using this
        simp only [slotBytes, World.slotObj, World.slotRef, hblk, hc]
        exact storeBytes_mono h.disk hle hnil level _ hstored a

theorem Coherent.logLe {X : Set ℕ} {w w' : World} (h : BInv E X w) (hblk : w'.blk = w.blk)
    (hle : LogLe w.log w'.log) (hnil : getBlock .nil w'.log = none) {m : ℕ} (hm : m < w.nblk)
    (hz : (w.blk m).zero = false) (hc : Coherent E w m) : Coherent E w' m := by
  refine ⟨?_, ?_, ?_, ?_⟩
  · rw [hblk]; exact hle.stored hc.stored
  · rw [hblk, hle.decode E hc.stored]; exact hc.data
  · rw [hblk, hle.decode E hc.stored]; exact hc.blkref
  · rw [hblk]
    intro o ho
    rw [blkBytes_logLe h hblk hle hnil hm hz o, hc.bytes o ho]
    exact (storeBytes_mono h.disk hle hnil _ _ (fun _ => hc.stored) o).symm

/-- A block under a new reference. -/
structure PutOk (E : Env) (log : List Effect) (rand : List IV) (r : BlockRef) (b : Block)
    (k : Kind) : Prop where
  new : getBlock r log = none
  ne : r ≠ .nil
  digest : E.digest b = r.dig
  iv : r.iv ∉ rand
  subRefs : ∀ level, k = .blk (level + 1) → ∀ i, unpackRefs (E.decrypt r.iv b) i ≠ .nil →
    Stored log (unpackRefs (E.decrypt r.iv b) i) (.blk level)
  fileRefs : k = .inode → ∀ s, unpackRef (E.decrypt r.iv b) s ≠ .nil →
    Stored log (unpackRef (E.decrypt r.iv b) s) (.blk s.level)

theorem getBlock_put_self (r : BlockRef) (b : Block) (k : Kind) (log : List Effect) :
    getBlock r (.put r b k :: log) = some (b, k) := by
  simp [getBlock]

theorem getBlock_put_of_ne {r r' : BlockRef} (hr : r' ≠ r) (b : Block) (k : Kind)
    (log : List Effect) : getBlock r' (.put r b k :: log) = getBlock r' log := by
  simp [getBlock, Ne.symm hr]

theorem PutOk.logLe {log : List Effect} {rand : List IV} {r : BlockRef} {b : Block} {k : Kind}
    (h : PutOk E log rand r b k) : LogLe log (.put r b k :: log) := by
  intro r' x hx
  have hne : r' ≠ r := by
    rintro rfl
    rw [h.new] at hx
    simp at hx
  rw [getBlock_put_of_ne hne]
  exact hx

theorem DiskOk.put {log : List Effect} {rand : List IV} {r : BlockRef} {b : Block} {k : Kind}
    (hd : DiskOk E log rand) (h : PutOk E log rand r b k) : DiskOk E (.put r b k :: log) rand := by
  -- A block of the larger store is the new one or an old one.
  have hcases : ∀ r' x, getBlock r' (.put r b k :: log) = some x →
      (r' = r ∧ x = (b, k)) ∨ getBlock r' log = some x := by
    intro r' x hx
    by_cases hr : r' = r
    · subst hr
      rw [getBlock_put_self] at hx
      exact .inl ⟨rfl, (Option.some.inj hx).symm⟩
    · rw [getBlock_put_of_ne hr] at hx
      exact .inr hx
  refine ⟨?_, ?_, ?_, ?_, ?_, hd.randNodup, hd.randNe⟩
  · rw [getBlock_put_of_ne h.ne.symm]
    exact hd.nilFree
  · intro r' b' k' hx
    rcases hcases r' _ hx with ⟨rfl, hbk⟩ | hx
    · obtain ⟨rfl, rfl⟩ := Prod.mk.inj hbk
      exact h.digest
    · exact hd.digest r' b' k' hx
  · intro r' b' level hx i hi
    rcases hcases r' _ hx with ⟨rfl, hbk⟩ | hx
    · obtain ⟨rfl, hk⟩ := Prod.mk.inj hbk
      exact h.logLe.stored (h.subRefs level hk.symm i hi)
    · exact h.logLe.stored (hd.subRefs r' b' level hx i hi)
  · intro r' b' hx s hs
    rcases hcases r' _ hx with ⟨rfl, hbk⟩ | hx
    · obtain ⟨rfl, hk⟩ := Prod.mk.inj hbk
      exact h.logLe.stored (h.fileRefs hk.symm s hs)
    · exact h.logLe.stored (hd.fileRefs r' b' hx s hs)
  · intro r' x hx
    rcases hcases r' _ hx with ⟨rfl, -⟩ | hx
    · exact h.iv
    · exact hd.fresh r' x hx

/-- **A block is put under a new reference.** -/
theorem BInv.put {X : Set ℕ} {w : World} (h : BInv E X w) {r : BlockRef} {b : Block} {k : Kind}
    (hp : PutOk E w.log w.rand r b k)
    (hkind : ∀ n, n < w.nblk → (w.blk n).zero = false → (w.blk n).ref = r →
      k = .blk (w.blk n).level) : BInv E X { w with log := .put r b k :: w.log } := by
  have hle := hp.logLe
  have hdisk := h.disk.put hp
  refine ⟨hdisk, h.rep, ?_, h.objUniq, ?_, ?_, ?_, h.nodeIv, ?_, ?_, ?_, h.zobj, h.hand, h.upClosed⟩
  · intro s n hs hn
    have ho := h.obj s n hs hn
    exact ⟨ho.lt, ho.zero, ho.level, ho.dirty, ho.uncached⟩
  · intro s hs hr
    exact hle.stored (h.refOk s hs hr)
  · intro r' n hr
    have hk := h.key r' n hr
    exact ⟨hk.lt, hk.zero, hk.ref, hk.clean, hle.stored hk.stored⟩
  · intro r' f hr
    exact hle.stored (h.keyFil r' f hr)
  · intro n hn hz x hx
    by_cases hr : (w.blk n).ref = r
    · rw [hr, getBlock_put_self] at hx
      rw [← Option.some.inj hx]
      exact hkind n hn hz hr
    · rw [getBlock_put_of_ne hr] at hx
      exact h.nodeKind n hn hz x hx
  · intro n hn hz hX hd
    exact @Coherent.logLe E X w { w with log := .put r b k :: w.log } h rfl hle hdisk.nilFree n hn hz
      (h.clean n hn hz hX hd)
  · intro n hn hz
    exact ⟨(h.zero n hn hz).data, (h.zero n hn hz).obj⟩

end UTFS

end Utopfs
