/-
**Writes of no bytes.**

`FileNode::write` of no bytes traverses an empty range.  Before it visits a block the traversal asks whether
the range intersects the block, and finds that an empty range does when its offset lies strictly inside.  So
it goes down to the data block around the offset and creates the blocks that are missing on the way.  The
functor then reports that it has changed nothing; but an indirect block returns its dirty flag, which may
have been set by an earlier write, and so the blocks above it are kept as changed and the size of the file
is set.

Main definitions:

* `UTFS.NoOp` — nothing about the file has changed;
* `UTFS.FilePaved` — no block is missing on the way to an offset;
* `UTFS.FileStirred` — the file is dirty, or an indirect block on the way is;
* `UTFS.Passed`, `UTFS.PassedSlot` — what a traversal of an empty range does where no block is missing.

Main results:

* `UTFS.wp_traverseSlot_paved`, `UTFS.wp_traverseSlot_unpaved` — one slot, where no block is missing and
  where one is;
* `UTFS.emptyWrite_iff` — **when a write of no bytes changes nothing**.
-/

import Utopfs.BlockNames
import Utopfs.FailedWrite

set_option relaxedAutoImplicit false
set_option autoImplicit false

namespace Utopfs

namespace UTFS

open Prog

/-! ### What an empty write must leave alone -/

variable (E : Env)

/-- **Nothing about the file `f` has changed.**  The nodes that are allocated are those in the slots: every
slot holds a block if and only if it did, and the nodes that are new in memory have been read from the store,
with the slots that they have there. -/
structure NoOp (f : ℕ) (w w' : World) : Prop where
  size : (w'.fil f).inode.size = (w.fil f).inode.size
  bytes : ∀ a, fileBytes E w' f a = fileBytes E w f a
  blocks : (w'.fil f).inode.blocks = (w.fil f).inode.blocks
  nodes : ∀ s, w.Live s → (w'.Occupied s ↔ w.Occupied s)
  read : ∀ n, w.nblk ≤ n → n < w'.nblk → ∃ b, decode E w.log (w'.blk n).ref = some b ∧
    ∀ i, w'.Occupied (.sub n i) ↔ unpackRefs b i ≠ .nil

/-- There is a block under a name, and below it around the offset `o`, down to the level at which the offset
lies between two blocks. -/
def Paved (w : World) : ℕ → Option ℕ × BlockRef → ℕ → Prop
  | 0, x, _ => x.1.isSome ∨ x.2 ≠ .nil
  | level + 1, x, o => (x.1.isSome ∨ x.2 ≠ .nil) ∧
      (o % span level = 0 ∨
        Paved w level (w.namesIn E x (Fin.ofNat 256 (o / span level))) (o % span level))

/-- An indirect block around the offset `o` under a name has a handle: it has been changed since it was
stored. -/
def Stirred (w : World) : ℕ → Option ℕ × BlockRef → ℕ → Prop
  | 0, _, _ => False
  | level + 1, x, o => x.1.isSome ∨ (o % span level ≠ 0 ∧
      Stirred w level (w.namesIn E x (Fin.ofNat 256 (o / span level))) (o % span level))

theorem paved_succ {w : World} {level o : ℕ} {x : Option ℕ × BlockRef} :
    Paved E w (level + 1) x o ↔ (x.1.isSome ∨ x.2 ≠ .nil) ∧ (o % span level = 0 ∨
      Paved E w level (w.namesIn E x (Fin.ofNat 256 (o / span level))) (o % span level)) := .rfl

theorem stirred_succ {w : World} {level o : ℕ} {x : Option ℕ × BlockRef} :
    Stirred E w (level + 1) x o ↔ x.1.isSome ∨ (o % span level ≠ 0 ∧
      Stirred E w level (w.namesIn E x (Fin.ofNat 256 (o / span level))) (o % span level)) := .rfl

/-- No block is missing on the way to the offset `off` of a file.  There is no way to go in the inline data
and between two of the blocks that the inode refers to. -/
def FilePaved (w : World) (f off : ℕ) : Prop :=
  ∀ s : FSlot, s.base < off → off < s.top →
    Paved E w s.level (w.slotName (.fil f s)) (off - s.base)

/-- The file is dirty, or an indirect block on the way to the offset `off` is. -/
def FileStirred (w : World) (f off : ℕ) : Prop :=
  (w.fil f).isdirty = true ∨ ∃ s : FSlot, s.base < off ∧ off < s.top ∧
    Stirred E w s.level (w.slotName (.fil f s)) (off - s.base)

variable {E}

/-! ### Names in memory and in the store -/

section names

variable {w w' : World} {level : ℕ} {x : Option ℕ × BlockRef}

theorem Paved.occupied {o : ℕ} (h : Paved E w level x o) : x.1.isSome ∨ x.2 ≠ .nil := by
  cases level with
  | zero => exact h
  | succ level => exact h.1

/-- Reading blocks does not change the names in a block. -/
theorem Loaded.namesIn_ok (hl : Loaded E w w') (h : BInv E ∅ w) (hx : NameOk w level x) (i : Fin 256) :
    w'.namesIn E x i = w.namesIn E x i :=
  hl.namesIn_of_lt (fun _ hn => blkOf_lt (fun n hn => (hx.node n hn).1) (fun r n hr => (h.key r n hr).lt) hn) i

/-- Reading blocks does not make others appear or disappear. -/
theorem Loaded.paved (hl : Loaded E w w') (h : BInv E ∅ w) : ∀ {level : ℕ} {x : Option ℕ × BlockRef} {o : ℕ},
    NameOk w level x → (Paved E w' level x o ↔ Paved E w level x o) := by
  intro level
  induction level with
  | zero => exact fun _ => .rfl
  | succ level ih =>
      intro x o hx
      simp only [paved_succ, hl.namesIn_ok h hx]
      exact and_congr_right fun hsome => or_congr_right (ih (hx.namesIn h hsome _))

/-- Reading blocks does not make them dirty. -/
theorem Loaded.stirred (hl : Loaded E w w') (h : BInv E ∅ w) :
    ∀ {level : ℕ} {x : Option ℕ × BlockRef} {o : ℕ}, NameOk w level x → Paved E w level x o →
      (Stirred E w' level x o ↔ Stirred E w level x o) := by
  intro level
  induction level with
  | zero => exact fun _ _ => .rfl
  | succ level ih =>
      intro x o hx hp
      simp only [stirred_succ, hl.namesIn_ok h hx]
      refine or_congr_right (and_congr_right fun hne => ?_)
      exact ih (hx.namesIn h hp.1 _) (hp.2.resolve_left hne)

end names

/-! ### What a traversal of an empty range does -/

/-- The node that has the slot is in the heap. -/
def World.HasOwner (w : World) : Slot → Prop
  | .fil _ _ => True
  | .sub n _ => n < w.nblk

variable (E) in
/-- Nodes have been read, and some are now held by handles in the slots that had their references. -/
structure Passed (w w' : World) : Prop where
  log : w'.log = w.log
  nblk : w.nblk ≤ w'.nblk
  ref : ∀ m, m < w.nblk → (w'.blk m).ref = (w.blk m).ref
  level : ∀ m, m < w.nblk → (w'.blk m).level = (w.blk m).level
  blocks : ∀ g, (w'.fil g).inode.blocks = (w.fil g).inode.blocks
  nodes : ∀ s, w.HasOwner s → (w'.Occupied s ↔ w.Occupied s)
  read : ∀ n, w.nblk ≤ n → n < w'.nblk → ∃ b, decode E w.log (w'.blk n).ref = some b ∧
    ∀ i, w'.Occupied (.sub n i) ↔ unpackRefs b i ≠ .nil

variable (E) in
/-- The traversal of a slot with a block of the level: the owner of the slot is dirty afterwards if it was,
or if the condition is met, and no node above the owner has become dirty. -/
structure PassedSlot (level : ℕ) (s : Slot) (cond : Prop) (w w' : World) : Prop where
  passed : Passed E w w'
  owner : w'.OwnerDirty s ↔ w.OwnerDirty s ∨ cond
  above : ∀ m, m < w.nblk → level + 1 < (w.blk m).level → (w'.blk m).isdirty = (w.blk m).isdirty
  files : ∀ g, (∀ a, s ≠ .fil g a) → (w'.fil g).isdirty = (w.fil g).isdirty

section passed

variable {w w₁ w' : World} {s : Slot} {level n : ℕ}

theorem Passed.trans (h : Passed E w w₁) (h' : Passed E w₁ w') : Passed E w w' where
  log := h'.log.trans h.log
  nblk := h.nblk.trans h'.nblk
  ref m hm := (h'.ref m (hm.trans_le h.nblk)).trans (h.ref m hm)
  level m hm := (h'.level m (hm.trans_le h.nblk)).trans (h.level m hm)
  blocks g := (h'.blocks g).trans (h.blocks g)
  nodes s hs := by
    refine (h'.nodes s ?_).trans (h.nodes s hs)
    cases s with
    | fil g a => trivial
    | sub n i => exact Nat.lt_of_lt_of_le hs h.nblk
  read n hge hlt := by
    rcases Nat.lt_or_ge n w₁.nblk with hn | hn
    · obtain ⟨b, hb, hocc⟩ := h.read n hge hn
      exact ⟨b, by rw [h'.ref n hn]; exact hb, fun i => (h'.nodes (.sub n i) hn).trans (hocc i)⟩
    · obtain ⟨b, hb, hocc⟩ := h'.read n hn hlt
      exact ⟨b, by rw [← h.log]; exact hb, hocc⟩

/-- Fetching a node reads at most one. -/
theorem Fetched.passed {x : Option ℕ × BlockRef} (h : Fetched E w x n w₁) : Passed E w w₁ where
  log := h.loaded.log
  nblk := h.loaded.nblk
  ref m hm := by rw [h.loaded.blk m hm]
  level m hm := by rw [h.loaded.blk m hm]
  blocks g := by rw [h.loaded.fil]
  nodes s hs := by
    cases s with
    | fil g a => simp only [World.Occupied, World.slotObj, World.slotRef, h.loaded.fil]
    | sub m i => simp only [World.Occupied, World.slotObj, World.slotRef, h.loaded.blk m hs]
  read m hge hlt := by
    obtain ⟨level, r, b, hb, hm⟩ := h.new m hge hlt
    refine ⟨b, by rw [hm]; exact hb, fun i => ?_⟩
    simp [World.Occupied, World.slotObj, World.slotRef, hm, BlkNode.stored]

/-- A change of dirty flags, sizes and the clean cache. -/
theorem Passed.of_sameShape (h : SameShape w w') (href : ∀ m, (w'.blk m).ref = (w.blk m).ref)
    (hblocks : ∀ g, (w'.fil g).inode.blocks = (w.fil g).inode.blocks) : Passed E w w' where
  log := h.log
  nblk := h.nblk.ge
  ref m _ := href m
  level m _ := h.level m
  blocks := hblocks
  nodes s _ := by simp only [World.Occupied, h.slotObj, h.slotRef]
  read n hge hlt := absurd (h.nblk ▸ hlt) (Nat.not_lt.2 hge)

theorem setSlotObj_inode (w : World) (s : Slot) (o : Option ℕ) (g : ℕ) :
    ((w.setSlotObj s o).fil g).inode = (w.fil g).inode := by
  cases s with
  | sub p i => rfl
  | fil f a =>
      by_cases hg : g = f
      · subst hg
        simp [World.setSlotObj]
      · simp [World.setSlotObj, setFil_of_ne _ _ hg]

/-- A handle is put into a slot that holds a block. -/
theorem Passed.setSlotObj (hocc : w.Occupied s) (n : ℕ) : Passed E w (w.setSlotObj s (some n)) where
  log := setSlotObj_log w s _
  nblk := (setSlotObj_nblk w s _).ge
  ref m _ := setSlotObj_ref w s _ m
  level m _ := setSlotObj_level w s _ m
  blocks g := by rw [setSlotObj_inode]
  nodes s' _ := by
    by_cases hs : s' = s
    · subst hs
      simp only [World.Occupied, slotObj_setSlotObj_self, Option.isSome_some, true_or, true_iff]
      exact hocc
    · simp only [World.Occupied, slotObj_setSlotObj_of_ne w _ hs, slotRef_setSlotObj]
  read n hge hlt := absurd (setSlotObj_nblk w s _ ▸ hlt) (Nat.not_lt.2 hge)

theorem Passed.setCache (w : World) (c : BlockNodeCache) : Passed E w (w.setCache c) where
  log := rfl
  nblk := Nat.le_refl _
  ref _ _ := rfl
  level _ _ := rfl
  blocks _ := rfl
  nodes _ _ := .rfl
  read _ hge hlt := absurd hlt (Nat.not_lt.2 hge)

/-- A changed block is kept in its slot. -/
theorem wp_keepDirty_passed (hocc : w.Occupied s) (hlevel : ∀ p i, s = .sub p i → (w.blk p).level = level + 1)
    (n : ℕ) : wp (keepDirty s n) (fun _ w' => PassedSlot E level s True w w') (fun _ _ => True) w := by
  simp only [keepDirty, wp_bind, wp_get]
  refine wp_mono (keepsCache_cacheRemove (I := fun w' => ∃ c, w' = w.setCache c) (F := fun _ => True) ?_
    (fun _ => trivial) _ w ⟨w.cache, rfl⟩) ?_ (fun _ _ _ => trivial)
  · rintro - c ⟨-, rfl⟩
    exact ⟨c, rfl⟩
  rintro - w₁ ⟨c, rfl⟩
  have hkept : Passed E w ((w.setCache c).setSlotObj s (some n)) :=
    (Passed.setCache w c).trans (.setSlotObj (w := w.setCache c) hocc n)
  simp only [UTFS.setSlotObj, wp_bind, wp_modify]
  cases s with
  | fil g a =>
      simp only [setOwnerDirty, setFilDirty, wp_modify]
      refine ⟨hkept.trans (.of_sameShape (.setFil _ rfl rfl) (fun _ => rfl) fun k => ?_), ?_, fun _ _ _ => rfl, ?_⟩
      · by_cases hk : k = g
        · subst hk
          simp
        · rw [setFil_of_ne _ _ hk]
      · simp [World.OwnerDirty]
      · intro k hk
        have hne : k ≠ g := fun he => hk a (by rw [he])
        rw [setFil_of_ne _ _ hne]
        exact congrArg FileNode.isdirty (setFil_of_ne (w.setCache c) _ hne)
  | sub p i =>
      simp only [setOwnerDirty, setBlkDirty, wp_bind, wp_get]
      split
      case isTrue => trivial
      case isFalse =>
        refine ⟨hkept.trans (.of_sameShape (.setBlk _ rfl rfl rfl rfl) (fun m => ?_) fun _ => rfl), ?_, ?_,
          fun _ _ => rfl⟩
        · by_cases hm : m = p
          · subst hm
            rw [setBlk_self]
          · rw [setBlk_of_ne _ _ hm]
        · simp [World.OwnerDirty]
        · intro m _ hl
          have hne : m ≠ p := by
            rintro rfl
            have := hlevel m i rfl
            omega
          rw [setBlk_of_ne _ _ hne, setSlotObj_isdirty]
          rfl

end passed

/-! ### The way of an empty range -/

/-- The traversal of a write of no bytes. -/
abbrev emptyTraversal (f off : ℕ) : Traversal ℕ := writeTraversal f [] off

section way

variable {f off : ℕ}

theorem writeBTF_nil (off retval sz : ℕ) (data : Fin sz → UInt8) (blkoff fsz : ℕ) :
    writeBTF [] off retval sz data blkoff fsz = (false, retval, data) := by
  simp only [writeBTF, List.length_nil]
  rw [if_pos (by omega)]

theorem visitData_nil (n base v : ℕ) (w : World) :
    visitData (emptyTraversal f off) n base v w = .ok (false, v) w := by
  have hset : w.setBlk n (w.blk n) = w := by simp [World.setBlk]
  rw [visitData_run]
  simp only [writeTraversal, writeBTF_nil, hset]

/-- A loop ends at an index beyond the range. -/
theorem traverseLoop_beyond {V : Type} (beyond : ℕ → Bool) {body : ℕ → V → M V} {ndx : ℕ}
    (h : beyond ndx = true) (count : ℕ) (v : V) : traverseLoop beyond body count ndx v = pure v := by
  cases count with
  | zero => rfl
  | succ count => simp only [traverseLoop, h, if_true]

/-- An indirect block visits the block that the offset lies inside of, if there is one. -/
theorem rbTraverse_nil {level base : ℕ} (hbase : base < off) (htop : off < base + span (level + 1))
    (n v : ℕ) :
    rbTraverse E (emptyTraversal f off) (level + 1) n base v =
      (if (off - base) % span level = 0 then pure v
        else
          traverseSlot E (emptyTraversal f off) (rbTraverse E (emptyTraversal f off) level) level
            (.sub n (Fin.ofNat 256 ((off - base) / span level)))
            (base + (off - base) / span level * span level) v) >>= fun v => do
      let w ← get
      return ((w.blk n).isdirty, v) := by
  have hsucc : span (level + 1) = 256 * span level := rfl
  have hpos := span_pos level
  have hoff : (emptyTraversal f off).rngoff = off := rfl
  have hend : (emptyTraversal f off).rngend = off := rfl
  obtain ⟨ndx, hndx⟩ : ∃ ndx, ndx = (off - base) / span level := ⟨_, rfl⟩
  have hlt : ndx < 256 := by
    rw [hndx, Nat.div_lt_iff_lt_mul hpos]
    omega
  have hdiv := Nat.div_add_mod (off - base) (span level)
  have hmod := Nat.mod_lt (off - base) hpos
  rw [← hndx, Nat.mul_comm] at hdiv
  have hmax : max off base - base = off - base := by omega
  have hcount : 256 - ndx = (255 - ndx) + 1 := by omega
  rw [rbTraverse, hend, hoff, if_neg (by omega)]
  simp only [hmax, ← hndx, hcount]
  rw [traverseLoop]
  by_cases hin : (off - base) % span level = 0
  · rw [if_pos (by simp only [decide_eq_true_eq]; omega), if_pos hin]
  · rw [if_neg (by simp only [decide_eq_true_eq]; omega), if_neg hin]
    -- The next block begins beyond the offset.
    have hnext : decide (off ≤ base + (ndx + 1) * span level) = true := by
      rw [decide_eq_true_eq, Nat.add_mul]
      omega
    simp only [traverseLoop_beyond (fun i => decide (off ≤ base + i * span level)) hnext, bind_pure]

/-- The way goes on inside the block that it visits. -/
theorem inside_child {level base : ℕ} (hbase : base < off) (hin : (off - base) % span level ≠ 0) :
    base + (off - base) / span level * span level < off ∧
      off < base + (off - base) / span level * span level + span level ∧
      off - (base + (off - base) / span level * span level) = (off - base) % span level := by
  have hdiv := Nat.div_add_mod (off - base) (span level)
  have hmod := Nat.mod_lt (off - base) (span_pos level)
  rw [Nat.mul_comm] at hdiv
  omega

end way

/-! ### Where no block is missing -/

/-- The node that has been found for a slot that holds a block. -/
structure Entered (E : Env) (w : World) (level : ℕ) (s : Slot) (n : ℕ) (w' : World) : Prop where
  fetched : Fetched E w (w.slotName s) n w'
  inv : BInv E ∅ w'
  lt : n < w'.nblk
  zero : (w'.blk n).zero = false
  levelEq : (w'.blk n).level = level
  dirty : (w'.blk n).isdirty = true ↔ (w.slotName s).1.isSome

section paved

variable {f off : ℕ} {w w₁ w' : World} {s : Slot} {level n : ℕ} {cond cond' : Prop}

/-- A node with a handle is dirty, and the others are clean. -/
theorem Fetched.dirty (h : BInv E ∅ w) (hlive : w.Live s) (hf : Fetched E w (w.slotName s) n w')
    (hlt : n < w'.nblk) : (w'.blk n).isdirty = true ↔ (w.slotName s).1.isSome := by
  cases hobj : (w.slotName s).1 with
  | some m =>
      have hn : some m = some n := by
        rcases hf.node with hn | ⟨hnone, -⟩
        · simpa only [World.blkOf, hobj] using hn
        · rw [hobj] at hnone
          simp at hnone
      obtain rfl := Option.some.inj hn
      have ho := h.obj s m hlive hobj
      rw [hf.loaded.blk m ho.lt, ho.dirty (Set.notMem_empty _)]
      simp
  | none =>
      have hclean : (w'.blk n).isdirty = false := by
        rcases hf.node with hn | ⟨-, hge⟩
        · simp only [World.blkOf, hobj] at hn
          split at hn
          case h_1 m hm =>
            obtain rfl := Option.some.inj hn
            have hk := h.key _ m hm
            rw [hf.loaded.blk m hk.lt]
            exact hk.clean (Set.notMem_empty _)
          case h_2 => simp at hn
        · obtain ⟨l, r, b, -, hm⟩ := hf.new n hge hlt
          rw [hm]
          rfl
      simp [hclean]

/-- The node for a slot that holds a block. -/
theorem wp_findBlk_entered {V : Type} {t : Traversal V} (h : BInv E ∅ w) (hlive : w.Live s)
    (hlevel : w.slotLevel s = level) (hocc : w.Occupied s) :
    wp (findBlk E t level s) (fun n w' => Entered E w level s n w') (fun _ _ => True) w := by
  have hinv : wp (findBlk E t level s)
      (fun n w' => BInv E ∅ w' ∧ n < w'.nblk ∧ (w'.blk n).zero = false ∧ (w'.blk n).level = level)
      (fun _ _ => True) w := by
    simp only [findBlk, wp_bind, wp_get]
    cases hobj : w.slotObj s with
    | some n =>
        have ho := h.obj s n hlive hobj
        have hl : (w.blk n).level = level := ho.level.trans hlevel
        simp only [castBlk, wp_bind, wp_get, hl, if_true, wp_pure]
        exact ⟨h, ho.lt, ho.zero, trivial⟩
    | none =>
        have hr : w.slotRef s ≠ .nil := by simpa [World.Occupied, hobj] using hocc
        have hst : Stored w.log (w.slotRef s) (.blk level) := hlevel ▸ h.refOk s hlive hr
        simp only [hr, ne_eq, not_false_eq_true, if_true]
        refine wp_mono (wp_faultBlk h t.nocache hst (by simp) (F := fun _ _ => True)) ?_ (fun _ _ hF => hF)
        exact fun n w' hf => ⟨hf.inv, hf.lt, hf.zero, hf.levelEq⟩
  refine wp_mono (wp_and (wp_findBlk_fetched level hocc) hinv) ?_ (fun _ _ _ => trivial)
  rintro n w' ⟨hf, hinv', hlt, hz, hl⟩
  exact ⟨hf, hinv', hlt, hz, hl, hf.dirty h hlive hlt⟩

/-- The slots of the node that has been found. -/
theorem Entered.live (h : Entered E w (level + 1) s n w₁) (i : Fin 256) : w₁.Live (.sub n i) :=
  ⟨h.lt, h.zero, by rw [h.levelEq]; omega⟩

theorem Entered.slotLevel (h : Entered E w (level + 1) s n w₁) (i : Fin 256) :
    w₁.slotLevel (.sub n i) = level := by
  simp [World.slotLevel, h.levelEq]

theorem PassedSlot.of_eq (hw : Passed E w w') (hblk : ∀ m, m < w.nblk → w'.blk m = w.blk m)
    (hfil : w'.fil = w.fil) (hlive : w.HasOwner s) (hcond : ¬ cond) : PassedSlot E level s cond w w' where
  passed := hw
  owner := by
    cases s with
    | fil g a => simp only [World.OwnerDirty, hfil, hcond, or_false]
    | sub p i => simp only [World.OwnerDirty, hblk p hlive, hcond, or_false]
  above m hm _ := by rw [hblk m hm]
  files g _ := by rw [hfil]

theorem World.Live.hasOwner (h : w.Live s) : w.HasOwner s := by
  cases s with
  | fil g a => trivial
  | sub p i => exact h.1

theorem PassedSlot.trans (h : PassedSlot E level s cond w w₁) (h' : PassedSlot E level s cond' w₁ w') :
    PassedSlot E level s (cond ∨ cond') w w' where
  passed := h.passed.trans h'.passed
  owner := by rw [h'.owner, h.owner, or_assoc]
  above m hm hl :=
    (h'.above m (hm.trans_le h.passed.nblk) (by rw [h.passed.level m hm]; exact hl)).trans (h.above m hm hl)
  files g hg := (h'.files g hg).trans (h.files g hg)

theorem PassedSlot.congr (h : PassedSlot E level s cond w w') (hc : cond ↔ cond') :
    PassedSlot E level s cond' w w' := by
  rwa [← propext hc]

/-- What happens in a slot of the node that has been found is not seen from the owner of its slot. -/
theorem Entered.passedSlot {i : Fin 256} (h : Entered E w (level + 1) s n w₁) (hlive : w.Live s)
    (hlevel : w.slotLevel s = level + 1) (h' : PassedSlot E level (.sub n i) cond w₁ w') :
    PassedSlot E (level + 1) s False w w' where
  passed := h.fetched.passed.trans h'.passed
  owner := by
    cases s with
    | fil g a => simp only [World.OwnerDirty, h'.files g (by simp), h.fetched.loaded.fil, or_false]
    | sub p j =>
        have hp := h.fetched.loaded.blk p hlive.1
        have hl : (w.blk p).level = level + 2 := by
          have hpos := hlive.2.2
          simp only [World.slotLevel] at hlevel
          omega
        have habove := h'.above p (hlive.1.trans_le h.fetched.loaded.nblk) (by rw [hp, hl]; omega)
        simp only [World.OwnerDirty, habove, hp, or_false]
  above m hm hl := by
    have hm' := h.fetched.loaded.blk m hm
    rw [h'.above m (hm.trans_le h.fetched.loaded.nblk) (by rw [hm']; omega), hm']
  files g _ := by rw [h'.files g (by simp), h.fetched.loaded.fil]

/-- **One slot, where no block is missing**: its owner becomes dirty if an indirect block on the way is. -/
theorem wp_traverseSlot_paved : ∀ (level : ℕ) (w : World) (s : Slot) (base v : ℕ), BInv E ∅ w → w.Live s →
    w.slotLevel s = level → base < off → off < base + span level →
    Paved E w level (w.slotName s) (off - base) →
    wp (traverseSlot E (emptyTraversal f off) (rbTraverse E (emptyTraversal f off) level) level s base v)
      (fun _ w' => PassedSlot E level s (Stirred E w level (w.slotName s) (off - base)) w w')
      (fun _ _ => True) w := by
  intro level
  induction level with
  | zero =>
      intro w s base v h hlive hlevel _ _ hp
      rw [traverseSlot]
      refine wp_seq (wp_findBlk_entered h hlive hlevel hp.occupied) ?_ (fun _ _ hF => hF)
      intro n w₁ he
      have hvisit : wp (rbTraverse E (emptyTraversal f off) 0 n base v)
          (fun r w' => r = (false, v) ∧ w' = w₁) (fun _ _ => True) w₁ := by
        rw [rbTraverse, wp, visitData_nil]
        exact ⟨rfl, rfl⟩
      refine wp_seq hvisit ?_ (fun _ _ hF => hF)
      rintro r w₂ ⟨rfl, rfl⟩
      exact .of_eq he.fetched.passed he.fetched.loaded.blk he.fetched.loaded.fil hlive.hasOwner not_false
  | succ level ih =>
      intro w s base v h hlive hlevel hbase htop hp
      have hname := nameOk_slot h hlive
      rw [hlevel] at hname
      rw [traverseSlot]
      refine wp_seq (wp_findBlk_entered h hlive hlevel hp.occupied) ?_ (fun _ _ hF => hF)
      intro n w₁ he
      obtain ⟨i, hi⟩ : ∃ i, i = Fin.ofNat 256 ((off - base) / span level) := ⟨_, rfl⟩
      have hsub := he.fetched.names i
      -- The slot of the node on the way, if the way goes on.
      have hway : wp (if (off - base) % span level = 0 then pure v
            else
              traverseSlot E (emptyTraversal f off) (rbTraverse E (emptyTraversal f off) level) level
                (.sub n i) (base + (off - base) / span level * span level) v)
          (fun _ w' => PassedSlot E level (.sub n i) ((off - base) % span level ≠ 0 ∧
            Stirred E w level (w.namesIn E (w.slotName s) i) ((off - base) % span level)) w₁ w')
          (fun _ _ => True) w₁ := by
        by_cases hin : (off - base) % span level = 0
        · rw [if_pos hin]
          exact .of_eq (.setCache w₁ w₁.cache) (fun _ _ => rfl) rfl he.lt
            fun hc => hc.1 hin
        · obtain ⟨hb, ht, ho⟩ := inside_child hbase hin
          have hok := hname.namesIn h hp.occupied i
          have hpav : Paved E w level (w.namesIn E (w.slotName s) i) ((off - base) % span level) := by
            rw [hi]
            exact hp.2.resolve_left hin
          rw [if_neg hin]
          refine wp_mono (ih w₁ (.sub n i) _ v he.inv (he.live i) (he.slotLevel i) hb ht ?_) ?_ (fun _ _ hF => hF)
          · rw [ho, hsub]
            exact (he.fetched.loaded.paved h hok).2 hpav
          · intro _ w₂ h₂
            rw [ho, hsub] at h₂
            refine h₂.congr ?_
            rw [he.fetched.loaded.stirred h hok hpav]
            exact (and_iff_right hin).symm
      rw [rbTraverse_nil hbase htop, ← hi]
      rw [bind_assoc]
      refine wp_seq hway ?_ (fun _ _ hF => hF)
      intro v₁ w₂ h₂
      have hbelow := he.passedSlot hlive hlevel h₂
      -- The node is dirty if it was, or has become so on the way.
      have hdirty : (w₂.blk n).isdirty = true ↔ Stirred E w (level + 1) (w.slotName s) (off - base) := by
        rw [stirred_succ, ← hi]
        exact h₂.owner.trans (or_congr_left he.dirty)
      simp only [wp_bind, wp_get, wp_pure]
      cases hd : (w₂.blk n).isdirty with
      | false =>
          simp only [Bool.false_eq_true, if_false, wp_pure]
          refine hbelow.congr ?_
          rw [← hdirty, hd]
          simp
      | true =>
          have hst := hdirty.1 hd
          have hocc : w₂.Occupied s := (hbelow.passed.nodes s hlive.hasOwner).2 hp.occupied
          have hmod : (emptyTraversal f off).modifyX = true := rfl
          simp only [hmod, if_true, Nat.add_one_ne_zero, if_false, wp_bind]
          have howner : ∀ p j, s = .sub p j → (w₂.blk p).level = level + 1 + 1 := by
            rintro p j rfl
            have hpos := hlive.2.2
            rw [hbelow.passed.level p hlive.1]
            simp only [World.slotLevel] at hlevel
            omega
          refine wp_mono (wp_keepDirty_passed (E := E) hocc howner n) ?_ (fun _ _ hF => hF)
          intro _ w₃ h₃
          refine (hbelow.trans h₃).congr ?_
          simp [hst]

end paved

/-! ### Where a block is missing -/

/-- At least `k` blocks are counted in the file `f`. -/
def Counted (f k : ℕ) (w : World) : Prop := k ≤ (w.fil f).inode.blocks

/-- Programs that do not lower the count of blocks of the file `f`. -/
abbrev KeepsCount {α : Type} (f k : ℕ) (m : M α) : Prop := Keeps (Counted f k) (fun _ => True) m

section counted

variable {V : Type} {t : Traversal V} {f k : ℕ}

theorem Counted.congr {w w' : World} (h : Counted f k w)
    (hw : (w'.fil f).inode.blocks = (w.fil f).inode.blocks) : Counted f k w' := by
  simp only [Counted, hw]
  exact h

theorem counted_setSlotObj (s : Slot) (o : Option ℕ) : KeepsCount f k (setSlotObj s o) :=
  .modify fun w h => h.congr (by rw [setSlotObj_inode])

theorem counted_setBlkDirty (n : ℕ) (b : Bool) : KeepsCount f k (setBlkDirty n b) := by
  intro w h
  simp only [setBlkDirty, wp_bind, wp_get]
  split
  case isTrue => exact ⟨trivial, h⟩
  case isFalse => exact h

theorem counted_setOwnerDirty (s : Slot) : KeepsCount f k (setOwnerDirty s) := by
  cases s with
  | sub p i => exact counted_setBlkDirty p true
  | fil g a =>
      refine .modify fun w h => h.congr ?_
      by_cases hg : f = g
      · subst hg
        simp
      · rw [setFil_of_ne _ _ hg]

theorem counted_keepDirty (s : Slot) (n : ℕ) : KeepsCount f k (keepDirty s n) := by
  refine .bind .get fun w => .bind ?_ fun _ => .bind (counted_setSlotObj s _) fun _ => counted_setOwnerDirty s
  exact keepsCache_cacheRemove (fun _ _ h => h) (fun _ => trivial) _

theorem counted_allocBlk (b : BlkNode) : KeepsCount f k (allocBlk b) := fun _ h => h

theorem counted_castBlk (level : ℕ) (o : Obj) : KeepsCount f k (castBlk level o) := by
  cases o with
  | fil g => exact .throw trivial
  | blk n => exact .bind .get fun w => .ite (.pure _) (.throw trivial)

theorem counted_loadBlk (level : ℕ) (r : BlockRef) : KeepsCount f k (loadBlk E level r) := by
  refine .bind (.bind (.bind .get fun w => ?_) fun b => .bind (.ite (.throw trivial) (.pure _)) fun _ => .pure _)
    fun b => counted_allocBlk _
  cases getBlock r w.log with
  | none => exact .throw trivial
  | some x => exact .pure _

theorem counted_faultBlk (nocache : Bool) (level : ℕ) (r : BlockRef) :
    KeepsCount f k (faultBlk E nocache level r) := by
  refine .bind (keepsCache_cacheLookup (fun _ _ h => h) (fun _ => trivial) r) fun o => ?_
  cases o with
  | some o => exact counted_castBlk level o
  | none =>
      refine .bind (counted_loadBlk level r) fun n => ?_
      have hins : KeepsCount f k (cacheInsert (.blk n)) :=
        keepsCache_cacheInsert (fun _ _ h => h) (fun _ => trivial) _
      cases nocache with
      | true => exact .pure _
      | false => exact .bind hins fun _ => .pure _

/-- A block is created: it is counted in the file of the traversal. -/
theorem counted_create (level : ℕ) (s : Slot) : KeepsCount f k (do
    let n ← allocBlk (.fresh level)
    setSlotObj s (some n)
    modifyINode t.fn fun i => { i with blocks := i.blocks + 1 }
    return n) := by
  refine .bind (counted_allocBlk _) fun n => .bind (counted_setSlotObj s _) fun _ => .bind ?_ fun _ => .pure _
  refine .modify fun w h => ?_
  by_cases hf : f = t.fn
  · subst hf
    simp only [Counted, setFil_self]
    exact Nat.le_succ_of_le h
  · exact h.congr (by rw [setFil_of_ne _ _ hf])

theorem counted_findBlk (level : ℕ) (s : Slot) : KeepsCount f k (findBlk E t level s) := by
  refine .bind .get fun w => ?_
  cases w.slotObj s with
  | some n => exact counted_castBlk level _
  | none =>
      refine .ite (counted_faultBlk _ _ _) (.ite (counted_create level s) ?_)
      cases w.zobj level with
      | some z => exact .pure _
      | none => exact .throw trivial

/-- What `traverseSlot` does after the visit. -/
theorem counted_settle (level : ℕ) (s : Slot) (n : ℕ) (changed : Bool) (v : V) : KeepsCount f k (do
    if changed then
      if t.modifyX then
        if level = 0 then setBlkDirty n true
        keepDirty s n
      else
        match level, s with
        | 0, .sub _ _ => throw (.internalError "dirtied w/o RB_MODIFY")
        | _, _ => pure ()
    return v) := by
  have hkeep := counted_keepDirty (k := k) (f := f) s n
  refine .ite (.ite (.ite ?_ ?_) ?_) (.pure _)
  · exact .bind (counted_setBlkDirty n true) fun _ => .bind hkeep fun _ => .pure _
  · exact .bind hkeep fun _ => .pure _
  · cases level with
    | succ level => exact .pure _
    | zero =>
        cases s with
        | fil g a => exact .pure _
        | sub p i => exact .bind (.throw trivial) fun _ => .pure _

theorem counted_traverseSlot {visit : ℕ → ℕ → V → M (Bool × V)}
    (hvisit : ∀ n off v, KeepsCount f k (visit n off v)) (level : ℕ) (s : Slot) (off : ℕ) (v : V) :
    KeepsCount f k (traverseSlot E t visit level s off v) :=
  .bind (counted_findBlk level s) fun n => .bind (hvisit n off v) fun _ => counted_settle level s n _ _

theorem counted_traverseLoop {beyond : ℕ → Bool} {body : ℕ → V → M V}
    (hbody : ∀ i v, KeepsCount f k (body i v)) :
    ∀ (count ndx : ℕ) (v : V), KeepsCount f k (traverseLoop beyond body count ndx v) := by
  intro count
  induction count with
  | zero => exact fun _ v => .pure v
  | succ count ih => exact fun ndx v => .ite (.pure v) (.bind (hbody ndx v) fun v' => ih (ndx + 1) v')

theorem counted_rbTraverse :
    ∀ (level n base : ℕ) (v : V), KeepsCount f k (rbTraverse E t level n base v) := by
  intro level
  induction level with
  | zero => exact fun _ _ _ _ h => h
  | succ level ih =>
      intro n base v
      have hslot : ∀ i v, KeepsCount f k (traverseSlot E t (rbTraverse E t level) level
          (.sub n (Fin.ofNat 256 i)) (base + i * span level) v) :=
        fun i v => counted_traverseSlot ih level _ _ v
      refine .ite (.bind (.pure v) fun v' => ?_) (.bind (counted_traverseLoop hslot _ _ v) fun v' => ?_)
      · exact .bind .get fun w => .pure _
      · exact .bind .get fun w => .pure _

end counted

section unpaved

variable {f off : ℕ} {w : World} {s : Slot} {level : ℕ}

/-- A slot that holds no block is given one. -/
theorem wp_findBlk_counted (hocc : ¬ w.Occupied s) :
    wp (findBlk E (emptyTraversal f off) level s)
      (fun _ w' => Counted f ((w.fil f).inode.blocks + 1) w') (fun _ _ => True) w := by
  obtain ⟨hobj, href⟩ := not_occupied.1 hocc
  have hmod : (emptyTraversal f off).modifyX = true := rfl
  have hfn : (emptyTraversal f off).fn = f := rfl
  simp only [findBlk, wp_bind, wp_get, hobj, href, ne_eq, not_true_eq_false, if_false, hmod, if_true,
    allocBlk, setSlotObj, modifyINode, wp_set, wp_modify, wp_pure, hfn, Counted, setFil_self,
    setSlotObj_inode]
  exact Nat.le_refl _

/-- After the node of the slot has been found, and after it has been visited, the count does not fall. -/
theorem wp_traverseSlot_counted {k off v : ℕ} {t : Traversal ℕ} {visit : ℕ → ℕ → ℕ → M (Bool × ℕ)}
    (h : wp (findBlk E t level s) (fun n => wp (visit n off v) (fun _ => Counted f k) fun _ _ => True)
      (fun _ _ => True) w) :
    wp (traverseSlot E t visit level s off v) (fun _ => Counted f k) (fun _ _ => True) w := by
  refine wp_seq h (fun n w₁ h₁ => wp_seq h₁ (fun r w₂ h₂ => ?_) fun _ _ _ => trivial) fun _ _ _ => trivial
  exact wp_mono (counted_settle (t := t) level s n r.1 r.2 w₂ h₂) (fun _ _ h => h) fun _ _ _ => trivial

/-- **One slot, where a block is missing**: the block is created, and counted. -/
theorem wp_traverseSlot_unpaved : ∀ (level : ℕ) (w : World) (s : Slot) (base v : ℕ), BInv E ∅ w →
    w.Live s → w.slotLevel s = level → base < off → off < base + span level →
    ¬ Paved E w level (w.slotName s) (off - base) →
    wp (traverseSlot E (emptyTraversal f off) (rbTraverse E (emptyTraversal f off) level) level s base v)
      (fun _ w' => Counted f ((w.fil f).inode.blocks + 1) w') (fun _ _ => True) w := by
  intro level
  induction level with
  | zero =>
      intro w s base v _ _ _ _ _ hp
      refine wp_traverseSlot_counted (wp_mono (wp_findBlk_counted hp) (fun n w₁ h₁ => ?_) fun _ _ hF => hF)
      exact wp_mono (counted_rbTraverse 0 n base v w₁ h₁) (fun _ _ h => h) fun _ _ _ => trivial
  | succ level ih =>
      intro w s base v h hlive hlevel hbase htop hp
      by_cases hocc : w.Occupied s
      case neg =>
        refine wp_traverseSlot_counted (wp_mono (wp_findBlk_counted hocc) (fun n w₁ h₁ => ?_) fun _ _ hF => hF)
        exact wp_mono (counted_rbTraverse (level + 1) n base v w₁ h₁) (fun _ _ h => h) fun _ _ _ => trivial
      case pos =>
        -- The missing block is further down.
        have hname := nameOk_slot h hlive
        rw [hlevel] at hname
        have hin : (off - base) % span level ≠ 0 := fun h0 => hp ⟨hocc, .inl h0⟩
        have hrest := fun hpav => hp ⟨hocc, .inr hpav⟩
        obtain ⟨hb, ht, ho⟩ := inside_child hbase hin
        refine wp_traverseSlot_counted (wp_mono (wp_findBlk_entered h hlive hlevel hocc) ?_ fun _ _ hF => hF)
        intro n w₁ he
        obtain ⟨i, hi⟩ : ∃ i, i = Fin.ofNat 256 ((off - base) / span level) := ⟨_, rfl⟩
        rw [← hi] at hrest
        rw [rbTraverse_nil hbase htop, if_neg hin, ← hi]
        refine wp_seq (ih w₁ (.sub n i) _ v he.inv (he.live i) (he.slotLevel i) hb ht ?_) ?_ (fun _ _ hF => hF)
        · rw [ho, he.fetched.names i]
          exact fun hpav => hrest ((he.fetched.loaded.paved h (hname.namesIn h hocc i)).1 hpav)
        · intro v₁ w₂ h₂
          rw [he.fetched.loaded.fil] at h₂
          exact h₂

end unpaved

/-! ### The reference fields -/

section fields

variable {f off : ℕ}

/-- An offset lies strictly inside one reference field at most. -/
theorem FSlot.eq_of_inside {s s' : FSlot} (hb : s.base < off) (ht : off < s.top) (hb' : s'.base < off)
    (ht' : off < s'.top) : s' = s := by
  have hs := FSlot.at_eq hb.le ht
  rw [FSlot.at_eq hb'.le ht'] at hs
  exact Option.some.inj hs

variable (E) in
/-- What is done on the way: the reference field that the offset lies inside of is visited, if there is
one. -/
structure Way (f off v : ℕ) (m : M ℕ) : Prop where
  inside : ∀ s : FSlot, s.base < off → off < s.top →
    m = traverseSlot E (emptyTraversal f off) (rbTraverse E (emptyTraversal f off) s.level) s.level
      (.fil f s) s.base v
  between : Boundary off → m = pure v

theorem Way.traverseDir {v : ℕ} {m : M ℕ} (h : Way E f off v m) (hlow : 4096 ≤ off) (hhigh : off ≤ 167936) :
    traverseDir E (emptyTraversal f off) f v = m := by
  -- From the slot `k` on, when there are `count` left.
  have key : ∀ count k, k + count = 20 → 4096 + k * 8192 ≤ off →
      traverseLoop (fun i => decide (off ≤ 4096 + i * 8192))
        (fun i v =>
          if off < 4096 + i * 8192 + 8192 then
            traverseSlot E (emptyTraversal f off) (rbTraverse E (emptyTraversal f off) 0) 0
              (.fil f (.dir (Fin.ofNat 20 i))) (4096 + i * 8192) v
          else return v) count k v = m := by
    intro count
    induction count with
    | zero =>
        intro k hk hle
        obtain rfl : 4096 + k * 8192 = off := by omega
        exact (h.between (.dir (by omega))).symm
    | succ count ih =>
        intro k hk hle
        have hk20 : k < 20 := by omega
        rcases Nat.lt_or_ge (4096 + k * 8192) off with hlt | hge
        · have hi : Fin.ofNat 20 k = ⟨k, hk20⟩ := Fin.ext (Nat.mod_eq_of_lt hk20)
          rw [traverseLoop, if_neg (by simp only [decide_eq_true_eq]; omega)]
          by_cases htop : off < 4096 + k * 8192 + 8192
          · have hnext : decide (off ≤ 4096 + (k + 1) * 8192) = true := by
              rw [decide_eq_true_eq]
              omega
            simp only [if_pos htop, hi, traverseLoop_beyond (fun i => decide (off ≤ 4096 + i * 8192)) hnext,
              bind_pure]
            have htop' : off < (FSlot.dir ⟨k, hk20⟩).top := by
              rw [FSlot.top_dir]
              exact htop
            exact (h.inside (.dir ⟨k, hk20⟩) hlt htop').symm
          · have hle' : 4096 + (k + 1) * 8192 ≤ off := by
              rw [Nat.add_mul, ← Nat.add_assoc]
              exact Nat.not_lt.1 htop
            simp only [if_neg htop, pure_bind]
            exact ih (k + 1) (by omega) hle'
        · obtain rfl : 4096 + k * 8192 = off := by omega
          rw [traverseLoop_beyond (fun i => decide (4096 + k * 8192 ≤ 4096 + i * 8192)) (by simp)]
          exact (h.between (.dir hk20.le)).symm
  exact key 20 0 rfl hlow

theorem Way.traverseInd {v : ℕ} {m : M ℕ} (h : Way E f off v m) (hmax : off ≤ maxSize) :
    ∀ (l : List FSlot) (b : ℕ), Consecutive b l → b < off → traverseInd E (emptyTraversal f off) f l v = m := by
  have hoff : (emptyTraversal f off).rngoff = off := rfl
  have hend : (emptyTraversal f off).rngend = off := rfl
  intro l
  induction l with
  | nil =>
      rintro b rfl hlt
      omega
  | cons s l ih =>
      rintro b ⟨rfl, hl⟩ hlt
      rw [UTFS.traverseInd, hoff, hend]
      rcases Nat.lt_trichotomy off s.top with htop | rfl | htop
      · simp only [if_pos htop, if_pos htop.le, bind_pure]
        exact (h.inside s hlt htop).symm
      · simp only [Nat.lt_irrefl, if_false, pure_bind, Nat.le_refl, if_true]
        exact (h.between (.top s)).symm
      · simp only [if_neg (Nat.not_lt.2 htop.le), if_neg (Nat.not_le.2 htop), pure_bind]
        exact ih s.top hl htop

theorem Way.traverseRefs {v : ℕ} {m : M ℕ} (h : Way E f off v m) (hmax : off ≤ maxSize) :
    traverseRefs E (emptyTraversal f off) f v = m := by
  have hoff : (emptyTraversal f off).rngoff = off := rfl
  have hend : (emptyTraversal f off).rngend = off := rfl
  have hcons : Consecutive 167936 [.sin, .din, .tin] :=
    ⟨rfl, FSlot.top_sin.symm, FSlot.top_din.symm, FSlot.top_tin⟩
  rw [UTFS.traverseRefs, hoff, hend]
  rcases Nat.lt_or_ge 4096 off with hlow | hlow
  · rw [if_neg (by omega)]
    rcases Nat.lt_trichotomy off 167936 with hlt | rfl | hgt
    · simp only [if_neg (Nat.not_le.2 hlt), if_pos hlt.le, h.traverseDir hlow.le hlt.le, bind_pure]
    · simp only [Nat.le_refl, if_true, pure_bind]
      exact (h.between (.dir (k := 20) (Nat.le_refl _))).symm
    · simp only [if_pos hgt.le, if_neg (Nat.not_le.2 hgt), pure_bind]
      exact h.traverseInd hmax _ _ hcons hgt
  · rw [if_pos hlow]
    exact (h.between fun s => .inr (hlow.trans s.base_ge)).symm

theorem way_inside {s : FSlot} (hb : s.base < off) (ht : off < s.top) (v : ℕ) :
    Way E f off v (traverseSlot E (emptyTraversal f off) (rbTraverse E (emptyTraversal f off) s.level) s.level
      (.fil f s) s.base v) where
  inside s' hb' ht' := by rw [FSlot.eq_of_inside hb ht hb' ht']
  between h := by
    have hs := h s
    omega

theorem way_between (h : ∀ s : FSlot, ¬ (s.base < off ∧ off < s.top)) (v : ℕ) : Way E f off v (pure v) where
  inside s hb ht := absurd ⟨hb, ht⟩ (h s)
  between _ := rfl

theorem traverseInl_nil (v : ℕ) (w : World) : traverseInl (emptyTraversal f off) f v w = .ok v w := by
  rw [traverseInl_run]
  split
  · simp only [writeTraversal, writeBTF_nil, Bool.false_eq_true, if_false]
    simp [World.setFil]
  · rfl

/-- The traversal of a file with an empty range. -/
theorem wp_rbTraverseFile_nil {v : ℕ} {m : M ℕ} {w : World} {Q : Bool × ℕ → World → Prop}
    {F : Exn → World → Prop} (hway : Way E f off v m) (hmax : off ≤ maxSize)
    (hm : wp m (fun v' w' => Q ((w'.fil f).isdirty, v') w') F w) :
    wp (rbTraverseFile E (emptyTraversal f off) f v) Q F w := by
  have hinl : wp (traverseInl (emptyTraversal f off) f v) (fun v' w' => v' = v ∧ w' = w) F w := by
    rw [wp, traverseInl_nil]
    exact ⟨rfl, rfl⟩
  rw [rbTraverseFile]
  refine wp_seq hinl ?_ (fun _ _ hF => hF)
  rintro v₁ w₁ ⟨rfl, rfl⟩
  rw [hway.traverseRefs hmax]
  exact wp_seq hm (fun _ _ hQ => hQ) fun _ _ hF => hF

end fields

/-! ### A write of no bytes -/

section write

variable {f off : ℕ} {w : World}

/-- A file, where no block is missing. -/
theorem wp_rbTraverseFile_paved (h : BInv E ∅ w) (hf : f < w.nfil) (hmax : off ≤ maxSize)
    (hp : FilePaved E w f off) :
    wp (rbTraverseFile E (emptyTraversal f off) f 0)
      (fun _ w' => Passed E w w' ∧ ((w'.fil f).isdirty = true ↔ FileStirred E w f off))
      (fun _ _ => True) w := by
  by_cases hway : ∃ s : FSlot, s.base < off ∧ off < s.top
  case neg =>
    have hnone : ∀ s : FSlot, ¬ (s.base < off ∧ off < s.top) := fun s hs => hway ⟨s, hs⟩
    refine wp_rbTraverseFile_nil (way_between hnone 0) hmax ⟨.setCache w w.cache, ?_⟩
    refine (or_iff_left ?_).symm
    rintro ⟨s, hb, ht, -⟩
    exact hnone s ⟨hb, ht⟩
  case pos =>
    obtain ⟨s, hb, ht⟩ := hway
    have hslot := wp_traverseSlot_paved (f := f) s.level w (.fil f s) s.base 0 h hf rfl hb ht (hp s hb ht)
    refine wp_rbTraverseFile_nil (way_inside hb ht 0) hmax (wp_mono hslot ?_ fun _ _ hF => hF)
    intro _ w' hw'
    refine ⟨hw'.passed, hw'.owner.trans (or_congr_right ⟨fun hst => ⟨s, hb, ht, hst⟩, ?_⟩)⟩
    rintro ⟨s', hb', ht', hst⟩
    rwa [FSlot.eq_of_inside hb ht hb' ht'] at hst

/-- A file, where a block is missing. -/
theorem wp_rbTraverseFile_unpaved (h : BInv E ∅ w) (hf : f < w.nfil) (hmax : off ≤ maxSize)
    (hp : ¬ FilePaved E w f off) :
    wp (rbTraverseFile E (emptyTraversal f off) f 0)
      (fun _ w' => Counted f ((w.fil f).inode.blocks + 1) w') (fun _ _ => True) w := by
  simp only [FilePaved, not_forall] at hp
  obtain ⟨s, hb, ht, hmiss⟩ := hp
  have hslot := wp_traverseSlot_unpaved (f := f) s.level w (.fil f s) s.base 0 h hf rfl hb ht hmiss
  exact wp_rbTraverseFile_nil (way_inside hb ht 0) hmax hslot

/-- The write after the traversal. -/
theorem wp_fileWrite_nil (h : BInv E ∅ w) (hf : f < w.nfil) (hmax : off ≤ maxSize) {Q : World → Prop}
    (hQ : wp (rbTraverseFile E (emptyTraversal f off) f 0) (fun _ => Q) (fun _ _ => True) w) :
    wp (fileWrite E f [] off)
      (fun r w' => (r = 0 ∧ Written E f [] off w w') ∧
        ∃ w₁, Q w₁ ∧ Passed E w₁ w' ∧ (w'.fil f).isdirty = (w₁.fil f).isdirty)
      (fun _ _ => False) w := by
  have hend : (emptyTraversal f off).rngend = off := rfl
  have hwritten := wp_fileWrite h hf [] off
  have htrav := wp_rbTraverseFile (E := E) (t := emptyTraversal f off) (f := f) rfl rfl
    (writeBTF_laws f [] off (w.fil f).inode.size) h hf 0
  have hsized : wp (fileWrite E f [] off)
      (fun _ w' => ∃ w₁, Q w₁ ∧ Passed E w₁ w' ∧ (w'.fil f).isdirty = (w₁.fil f).isdirty)
      (fun _ _ => True) w := by
    rw [fileWrite, wp_tryCatch]
    refine wp_seq (wp_and htrav hQ) ?_ ?_
    · rintro ⟨changed, v⟩ w₁ ⟨⟨-, hc, -⟩, hq⟩
      obtain rfl : changed = _ := hc
      cases hd : (w₁.fil f).isdirty with
      | false =>
          simp only [Bool.false_eq_true, if_false, wp_pure]
          exact ⟨w₁, hq, .setCache w₁ w₁.cache, rfl⟩
      | true =>
          simp only [if_true, modifyINode, setFilDirty, wp_bind, wp_modify, wp_pure, setFil_self]
          have hset : ∀ x y, (w₁.setFil f x).setFil f y = w₁.setFil f y := fun x y => by simp [World.setFil]
          rw [hset]
          refine ⟨w₁, hq, .of_sameShape (.setFil w₁ rfl rfl) (fun _ => rfl) fun g => ?_, ?_⟩
          · by_cases hg : g = f
            · subst hg
              rw [setFil_self]
            · rw [setFil_of_ne _ _ hg]
          · exact hd.symm
    · rintro e w₁ ⟨⟨hlt, -⟩, -⟩
      omega
  refine wp_mono (wp_and hwritten hsized) ?_ ?_
  · rintro r w' ⟨⟨hr, hw⟩, hsz⟩
    refine ⟨⟨?_, hw⟩, hsz⟩
    rw [hr, List.length_nil]
    omega
  · rintro e w' ⟨⟨hlt, -⟩, -⟩
    rw [List.length_nil] at hlt
    omega

/-- **When a write of no bytes changes nothing**: exactly when no block is missing on the way to its offset
and, if the file or an indirect block on the way is dirty, the offset is within the file. -/
theorem emptyWrite_iff (h : BInv E ∅ w) (hf : f < w.nfil) (hmax : off ≤ maxSize) :
    (∃ w', fileWrite E f [] off w = .ok 0 w' ∧ NoOp E f w w') ↔
      FilePaved E w f off ∧ (FileStirred E w f off → off ≤ (w.fil f).inode.size) := by
  by_cases hp : FilePaved E w f off
  case neg =>
    obtain ⟨r, w', hrun, -, w₁, hcount, hpass, -⟩ :=
      exists_ok (wp_fileWrite_nil h hf hmax (wp_rbTraverseFile_unpaved h hf hmax hp))
    refine ⟨?_, fun hc => absurd hc.1 hp⟩
    rintro ⟨w'', hrun', hno⟩
    rw [hrun] at hrun'
    injection hrun' with _ hw
    subst hw
    have hblocks := hno.blocks
    rw [hpass.blocks f] at hblocks
    simp only [Counted] at hcount
    omega
  case pos =>
    obtain ⟨r, w', hrun, ⟨rfl, hw⟩, w₁, ⟨hpass₁, hdirty₁⟩, hpass', hd⟩ :=
      exists_ok (wp_fileWrite_nil h hf hmax (wp_rbTraverseFile_paved h hf hmax hp))
    have hpass := hpass₁.trans hpass'
    have hdirty : (w'.fil f).isdirty = true ↔ FileStirred E w f off := by rw [hd, hdirty₁]
    -- The size is set to the offset if that is beyond it and the file is dirty in the end.
    have hsize : (w'.fil f).inode.size = (w.fil f).inode.size ↔
        (FileStirred E w f off → off ≤ (w.fil f).inode.size) := by
      rw [hw.size, List.length_nil, Nat.add_zero]
      by_cases hst : FileStirred E w f off
      · rw [if_pos (hdirty.2 hst)]
        simp [hst]
      · rw [if_neg fun hc => hst (hdirty.1 hc)]
        simp [hst]
    constructor
    · rintro ⟨w'', hrun', hno⟩
      rw [hrun] at hrun'
      injection hrun' with _ hw''
      subst hw''
      exact ⟨hp, hsize.1 hno.size⟩
    · rintro ⟨-, hle⟩
      refine ⟨w', hrun, hsize.2 hle, fun a => ?_, hpass.blocks f, ?_, hpass.read⟩
      · rcases Nat.lt_or_ge a maxSize with ha | ha
        · rw [hw.bytes a ha, wrote, List.length_nil, if_neg (by omega)]
        · rw [fileBytes_beyond w' f ha, fileBytes_beyond w f ha]
      · exact fun s hs => hpass.nodes s hs.hasOwner

end write

/-- A byte is written, and then nothing right behind it. -/
theorem emptyWrite_behind :
    ∃ w₁ w', fileWrite .sample 0 [7] 5000 sampleFile = .ok 1 w₁ ∧
      fileWrite .sample 0 [] 5001 w₁ = .ok 0 w' ∧ NoOp .sample 0 w₁ w' := by
  have hf : 0 < sampleFile.nfil := by decide
  obtain ⟨r, w₁, hrun, hq⟩ := exists_of_passes (m := fileWrite .sample 0 [7] 5000)
    (q := fun r w => decide (r = 1 ∧ w.Occupied (.fil 0 (.dir 0)) ∧ 5001 ≤ (w.fil 0).inode.size))
    (s := sampleFile) (by decide +kernel)
  obtain ⟨rfl, hocc, hsize⟩ := of_decide_eq_true hq
  have hw := (wp_ok (wp_fileWrite sampleFile_inv hf [7] 5000) hrun).2
  have hf₁ : 0 < w₁.nfil := by
    rw [outer_nfil hw.outer]
    exact hf
  have hpaved : FilePaved .sample w₁ 0 5001 := by
    intro s hb ht
    obtain rfl : s = .dir 0 := FSlot.eq_of_inside (s := .dir 0) (by decide) (by decide) hb ht
    exact hocc
  obtain ⟨w', hempty, hno⟩ := (emptyWrite_iff hw.inv hf₁ (by decide)).2 ⟨hpaved, fun _ => hsize⟩
  exact ⟨w₁, w', hrun, hempty, hno⟩

/-- Nothing is written to an empty file, which has a block and a size then; and nothing is written behind
the end of a file that has been changed, whose size grows. -/
theorem not_emptyWrite_inside :
    (∃ w', fileWrite .sample 0 [] 5000 sampleFile = .ok 0 w' ∧ (w'.fil 0).inode.size = 5000 ∧
      (w'.fil 0).inode.blocks = (sampleFile.fil 0).inode.blocks + 1 ∧ ¬ NoOp .sample 0 sampleFile w') ∧
    ∃ w₁ w', fileWrite .sample 0 [7] 5000 sampleFile = .ok 1 w₁ ∧ fileWrite .sample 0 [] 6000 w₁ = .ok 0 w' ∧
      (w₁.fil 0).inode.size = 5001 ∧ (w'.fil 0).inode.size = 6000 ∧ ¬ NoOp .sample 0 w₁ w' := by
  constructor
  · obtain ⟨r, w', hrun, hq⟩ := exists_of_passes (m := fileWrite .sample 0 [] 5000)
      (q := fun r w => decide (r = 0 ∧ (w.fil 0).inode.size = 5000 ∧
        (w.fil 0).inode.blocks = (sampleFile.fil 0).inode.blocks + 1)) (s := sampleFile) (by decide +kernel)
    obtain ⟨rfl, hsize, hblocks⟩ := of_decide_eq_true hq
    refine ⟨w', hrun, hsize, hblocks, fun hno => ?_⟩
    have hsame := hno.blocks
    omega
  · obtain ⟨r, w₁, hrun, hq⟩ := exists_of_passes (m := fileWrite .sample 0 [7] 5000)
      (q := fun r w => decide (r = 1 ∧ (w.fil 0).inode.size = 5001 ∧
        passes (fileWrite .sample 0 [] 6000) (fun r w => decide (r = 0 ∧ (w.fil 0).inode.size = 6000)) w))
      (s := sampleFile) (by decide +kernel)
    obtain ⟨rfl, hsize₁, hpass⟩ := of_decide_eq_true hq
    obtain ⟨r, w', hrun', hq'⟩ := exists_of_passes hpass
    obtain ⟨rfl, hsize⟩ := of_decide_eq_true hq'
    refine ⟨w₁, w', hrun, hrun', hsize₁, hsize, fun hno => ?_⟩
    have hsame := hno.size
    omega

end UTFS

end Utopfs
