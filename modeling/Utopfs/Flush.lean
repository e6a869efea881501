/-
**Flushing the block tree of a file.**

`bn_flush` goes through the handles of a node, flushes the nodes below, replaces each handle by the
reference of the stored block and hands the node to the clean cache; then the node itself is written.
It can be interrupted at every put.  Flushing changes no bytes: a slot that held a node now holds the
reference of a stored block with the same bytes.

Main definitions:

* `UTFS.Flushed` — what a flush below the level `L` leaves alone, interrupted or not.

Main results:

* `UTFS.wp_persistBlk` — a node without handles is written and then agrees with its stored block;
* `UTFS.wp_flushSlot` — a slot is flushed;
* `UTFS.wp_bnFlushBlk` — a node of any level is flushed.
-/

import Utopfs.FileReadWrite

set_option relaxedAutoImplicit false
set_option autoImplicit false

namespace Utopfs

namespace UTFS

open Prog

variable {E : Env}

/-! ### Frames -/

/-- What is not a node, the clean cache, the store or what a put depends on. -/
def World.still (w : World) := w.outer.2.2.2

/-- The slots of file nodes. -/
def Slot.IsFil : Slot → Prop
  | .fil _ _ => True
  | .sub _ _ => False

variable (E) in
/-- What a flush of blocks of the level `L` and below leaves alone: the slots for blocks of that level
or higher, but for those of `S`, and the bytes of every node and file. -/
structure Flushed (L : ℕ) (S : Set Slot) (w w' : World) : Prop where
  still : w'.still = w.still
  nblk : w'.nblk = w.nblk
  logLe : LogLe w.log w'.log
  rand : w'.rand.Sublist w.rand
  cacheFil : SameFil w.cache w'.cache
  level : ∀ m, (w'.blk m).level = (w.blk m).level
  zero : ∀ m, (w'.blk m).zero = (w.blk m).zero
  dirty : ∀ m, L < (w.blk m).level → (w'.blk m).isdirty = (w.blk m).isdirty
  fil : ∀ g, w'.fil g = { w.fil g with refs := (w'.fil g).refs, objs := (w'.fil g).objs }
  slots : ∀ s, s ∉ S → s.IsFil ∨ L ≤ w.slotLevel s →
    w'.slotObj s = w.slotObj s ∧ w'.slotRef s = w.slotRef s
  bytes : ∀ m, m < w.nblk → (w.blk m).zero = false → ∀ o,
    blkBytes E w' (w.blk m).level m o = blkBytes E w (w.blk m).level m o
  files : ∀ g s, g < w.nfil → ∀ o < span s.level,
    slotBytes E w' s.level (.fil g s) o = slotBytes E w s.level (.fil g s) o

section flushed

variable {L : ℕ} {S : Set Slot} {w w' : World}

theorem Flushed.nfil (h : Flushed E L S w w') : w'.nfil = w.nfil :=
  congrArg (fun x => x.2.2.2.1) h.still

theorem Flushed.live (h : Flushed E L S w w') (s : Slot) : w'.Live s ↔ w.Live s := by
  cases s with
  | fil f a => simp only [World.Live, h.nfil]
  | sub n i => simp only [World.Live, h.nblk, h.zero, h.level]

theorem Flushed.slotLevel (h : Flushed E L S w w') (s : Slot) : w'.slotLevel s = w.slotLevel s := by
  cases s with
  | fil f a => rfl
  | sub n i => simp only [World.slotLevel, h.level]

theorem Flushed.refl (w : World) : Flushed E L S w w where
  still := rfl
  nblk := rfl
  logLe := .refl _
  rand := List.Sublist.refl _
  cacheFil := .refl _
  level _ := rfl
  zero _ := rfl
  dirty _ _ := rfl
  fil _ := rfl
  slots _ _ _ := ⟨rfl, rfl⟩
  bytes _ _ _ _ := rfl
  files _ _ _ _ _ := rfl

theorem Flushed.trans {w'' : World} (h : Flushed E L S w w') (h' : Flushed E L S w' w'') :
    Flushed E L S w w'' where
  still := h'.still.trans h.still
  nblk := h'.nblk.trans h.nblk
  logLe := h.logLe.trans h'.logLe
  rand := h'.rand.trans h.rand
  cacheFil := h.cacheFil.trans h'.cacheFil
  level m := (h'.level m).trans (h.level m)
  zero m := (h'.zero m).trans (h.zero m)
  dirty m hm := by
    have hm' : L < (w'.blk m).level := by rw [h.level]; exact hm
    exact (h'.dirty m hm').trans (h.dirty m hm)
  fil g := by rw [h'.fil g, h.fil g]
  slots s hS hs := by
    have h₁ := h.slots s hS hs
    have h₂ := h'.slots s hS (by rw [h.slotLevel]; exact hs)
    exact ⟨h₂.1.trans h₁.1, h₂.2.trans h₁.2⟩
  bytes m hm hz o := by
    have h₂ := h'.bytes m (by rw [h.nblk]; exact hm) (by rw [h.zero]; exact hz) o
    rw [h.level] at h₂
    exact h₂.trans (h.bytes m hm hz o)
  files g s hg o ho :=
    (h'.files g s (by rw [h.nfil]; exact hg) o ho).trans (h.files g s hg o ho)

/-- Seen from higher up. -/
theorem Flushed.mono {L' : ℕ} {S' : Set Slot} (h : Flushed E L S w w') (hL : L ≤ L')
    (hS : ∀ s ∈ S, s ∉ S' → ¬ s.IsFil ∧ w.slotLevel s < L') : Flushed E L' S' w w' :=
  { h with
    dirty := fun m hm => h.dirty m (hL.trans_lt hm)
    slots := by
      intro s hs hl
      refine h.slots s ?_ (hl.imp_right fun hl => hL.trans hl)
      intro hmem
      obtain ⟨h₁, h₂⟩ := hS s hmem hs
      rcases hl with hl | hl
      · exact h₁ hl
      · omega }

end flushed

/-! ### Writing a node -/

/-- The bytes do not depend on the references of the nodes, their dirty flags and the file nodes. -/
theorem blkBytes_sameShape {w w' : World} (hs : SameShape w w')
    (hdata : ∀ m, (w'.blk m).data = (w.blk m).data) :
    ∀ (level n o : ℕ), blkBytes E w' level n o = blkBytes E w level n o := by
  intro level
  induction level with
  | zero =>
      intro n o
      simp only [blkBytes, hdata]
  | succ level ih =>
      intro n o
      simp only [blkBytes, hs.blkobj, hs.blkref, hs.log, ih]

/-- Changes to the references of nodes and to the dirty flags up to the level `L`. -/
theorem SameShape.flushed {w w' : World} (hs : SameShape w w') {L : ℕ} {S : Set Slot}
    (hstill : w'.still = w.still) (hfil : w'.fil = w.fil)
    (hdata : ∀ m, (w'.blk m).data = (w.blk m).data)
    (hdirty : ∀ m, L < (w.blk m).level → (w'.blk m).isdirty = (w.blk m).isdirty) :
    Flushed E L S w w' where
  still := hstill
  nblk := hs.nblk
  logLe := by rw [hs.log]; exact .refl _
  rand := hs.rand
  cacheFil := by rw [hs.cache]; exact .refl _
  level := hs.level
  zero := hs.zero
  dirty := hdirty
  fil g := by rw [hfil]
  slots s _ _ := ⟨hs.slotObj s, hs.slotRef s⟩
  bytes m _ _ o := blkBytes_sameShape hs hdata _ m o
  files g a _ o _ := by
    simp only [slotBytes, hs.slotObj, hs.slotRef, hs.log]
    cases w.slotObj (.fil g a) with
    | none => rfl
    | some d => exact blkBytes_sameShape hs hdata _ d o

/-- How a flush can fail. -/
def FlushExn (e : Exn) : Prop :=
  e = .noSpaceError "insufficent space" ∨ e = .internalError "trouble in RAND_pseudo_bytes"

/-- The plain contents that are written for a block node. -/
def BlkNode.contents (b : BlkNode) : Block := if b.level = 0 then b.data else packRefs b.blkref

section persist

variable {X : Set ℕ} {w : World} {c : ℕ}

/-- A block whose reference is made from fresh random bytes. -/
theorem DiskOk.putOk {log : List Effect} {rand : List IV} {iv : IV} (hd : DiskOk E log (iv :: rand))
    {c : Block} {k : Kind}
    (hsub : ∀ level, k = .blk (level + 1) → ∀ i, unpackRefs c i ≠ .nil →
      Stored log (unpackRefs c i) (.blk level))
    (hfile : k = .inode → ∀ s, unpackRef c s ≠ .nil → Stored log (unpackRef c s) (.blk s.level)) :
    PutOk E log rand (.make (E.digest (E.encrypt iv c)) iv) (E.encrypt iv c) k := by
  have hmem : iv ∈ iv :: rand := List.mem_cons_self
  refine ⟨?_, ?_, ?_, ?_, ?_, ?_⟩
  · cases hx : getBlock (.make (E.digest (E.encrypt iv c)) iv) log with
    | none => rfl
    | some x =>
        have := hd.fresh _ x hx
        rw [BlockRef.iv_make] at this
        exact absurd hmem this
  · intro hnil
    have := congrArg BlockRef.iv hnil
    rw [BlockRef.iv_make, BlockRef.iv_nil] at this
    exact hd.randNe iv hmem this
  · rw [BlockRef.dig_make]
  · rw [BlockRef.iv_make]
    exact (List.nodup_cons.1 hd.randNodup).1
  · rw [BlockRef.iv_make, E.decrypt_encrypt]
    exact hsub
  · rw [BlockRef.iv_make, E.decrypt_encrypt]
    exact hfile

theorem putOk_blk (h : BInv E X w) (hc : c < w.nblk) (hz : (w.blk c).zero = false) {iv : IV}
    {rand : List IV} (hrand : w.rand = iv :: rand) :
    PutOk E w.log rand (.make (E.digest (E.encrypt iv (w.blk c).contents)) iv)
      (E.encrypt iv (w.blk c).contents) (.blk (w.blk c).level) := by
  have hd := h.disk
  rw [hrand] at hd
  refine hd.putOk ?_ ?_
  · intro level hk i hi
    have hl : (w.blk c).level = level + 1 := by injection hk
    have hne : ¬ (w.blk c).level = 0 := by omega
    rw [BlkNode.contents, if_neg hne, unpackRefs_packRefs] at hi ⊢
    have := h.refOk (.sub c i) ⟨hc, hz, by omega⟩ hi
    simpa [World.slotLevel, hl, World.slotRef] using this
  · intro hk
    simp at hk

/-- The node that was written agrees with its stored block. -/
theorem coherent_persisted {w' : World} (iv : IV) {b : BlkNode} (hobj : 0 < b.level → ∀ i, b.blkobj i = none)
    (href : b.ref = .make (E.digest (E.encrypt iv b.contents)) iv) (hblk : w'.blk c = b)
    (hget : getBlock b.ref w'.log = some (E.encrypt iv b.contents, .blk b.level)) :
    Coherent E w' c := by
  have hiv : b.ref.iv = iv := by rw [href, BlockRef.iv_make]
  have hdec : decode E w'.log b.ref = some b.contents := by
    rw [decode, hget, Option.map_some, hiv, E.decrypt_encrypt]
  refine coherent_of_decode ?_ ?_ ?_ ?_
  · rw [hblk]
    exact ⟨_, hget⟩
  · rw [hblk, hdec]
    intro hl
    rw [BlkNode.contents, if_pos hl]
  · rw [hblk, hdec]
    intro hl
    rw [BlkNode.contents, if_neg (by omega), Option.map_some, unpackRefs_packRefs]
  · rw [hblk]
    exact hobj

/-- The node has taken its new reference; the block has not been put yet. -/
def World.rereferenced (w : World) (c : ℕ) (rand : List IV) (full : List Bool) (r : BlockRef) : World :=
  { w.setBlk c { w.blk c with ref := r } with rand := rand, full := full }

/-- A block is put. -/
def World.put (w : World) (r : BlockRef) (b : Block) (k : Kind) : World :=
  { w with log := .put r b k :: w.log }

/-- A node is marked clean. -/
def World.cleanBlk (w : World) (c : ℕ) : World := w.setBlk c { w.blk c with isdirty := false }

theorem persistBlk_run (hz : (w.blk c).zero = false) :
    persistBlk E c w =
      match w.rand with
      | [] => .error (.internalError "trouble in RAND_pseudo_bytes") w
      | iv :: rand =>
          let buf := E.encrypt iv (w.blk c).contents
          let r := BlockRef.make (E.digest buf) iv
          match w.full with
          | true :: full =>
              .error (.noSpaceError "insufficent space") (w.rereferenced c rand full r)
          | _ =>
              .ok r (((w.rereferenced c rand w.full.tail r).put r buf (.blk (w.blk c).level)).cleanBlk c) := by
  cases hr : w.rand with
  | nil => simp [persistBlk, persistBlock, randomFill, bind_apply, get_apply, throw_apply, hz, hr]
  | cons iv rand =>
      cases hf : w.full with
      | nil =>
          simp [-bind_pure_comp, persistBlk, persistBlock, randomFill, bsBlockPut, setBlkDirty, hz, hr, hf,
            bind_apply, get_apply, set_apply, modify_apply, pure_apply, World.put, World.rereferenced,
            World.cleanBlk, World.setBlk, BlkNode.contents]
      | cons b full =>
          cases b with
          | true =>
              simp [-bind_pure_comp, persistBlk, persistBlock, randomFill, bsBlockPut, hz, hr, hf,
                bind_apply, get_apply, set_apply, modify_apply, pure_apply, throw_apply, World.rereferenced, World.setBlk,
                BlkNode.contents]
          | false =>
              simp [-bind_pure_comp, persistBlk, persistBlock, randomFill, bsBlockPut, setBlkDirty, hz, hr,
                hf, bind_apply, get_apply, set_apply, modify_apply, pure_apply, World.put, World.rereferenced,
                World.cleanBlk, World.setBlk, BlkNode.contents]

@[simp] theorem rereferenced_self (rand : List IV) (full : List Bool) (r : BlockRef) :
    (w.rereferenced c rand full r).blk c = { w.blk c with ref := r } := setBlk_self _ _ _

theorem rereferenced_of_ne (rand : List IV) (full : List Bool) (r : BlockRef) {m : ℕ} (hm : m ≠ c) :
    (w.rereferenced c rand full r).blk m = w.blk m := setBlk_of_ne w _ hm

/-- The new reference does not disturb anything. -/
theorem BInv.rereferenced (h : BInv E X w) (hX : c ∈ X)
    (hunc : ∀ r, w.cache.nodemap r ≠ some (.blk c)) {rand : List IV}
    (hsub : rand.Sublist w.rand) (full : List Bool) {r : BlockRef} (hiv : r.iv ∉ rand)
    (hnew : getBlock r w.log = none) :
    BInv E X (w.rereferenced c rand full r) ∧
      Flushed E (w.blk c).level ∅ w (w.rereferenced c rand full r) := by
  have hset : SameShape w (w.setBlk c { w.blk c with ref := r }) := .setBlk w rfl rfl rfl rfl
  have hs : SameShape w (w.rereferenced c rand full r) := ⟨hset.level, hset.zero, hset.blkref,
    hset.blkobj, hset.refs, hset.objs, rfl, rfl, rfl, rfl, hsub, rfl⟩
  constructor
  · refine h.sameShape hs ?_ ?_
    · intro m
      by_cases hm : m = c
      · subst hm
        rw [rereferenced_self]
        refine .inr ⟨hunc, hiv, ?_⟩
        intro x hx
        rw [hnew] at hx
        simp at hx
      · rw [rereferenced_of_ne _ _ _ hm]
        exact .inl rfl
    · intro m _ hmX
      exact rereferenced_of_ne _ _ _ fun hmc => hmX (hmc ▸ hX)
  · refine hs.flushed rfl rfl ?_ ?_
    · intro m
      by_cases hm : m = c
      · subst hm; rw [rereferenced_self]
      · rw [rereferenced_of_ne _ _ _ hm]
    · intro m hm
      rw [rereferenced_of_ne]
      rintro rfl
      exact Nat.lt_irrefl _ hm

/-- Files keep their bytes when the store grows. -/
theorem slotBytes_fil_logLe {w' : World} (h : BInv E X w) (hblk : w'.blk = w.blk)
    (hfil : w'.fil = w.fil) (hle : LogLe w.log w'.log) (hnil : getBlock .nil w'.log = none) {g : ℕ}
    (hg : g < w.nfil) (a : FSlot) (o : ℕ) :
    slotBytes E w' a.level (.fil g a) o = slotBytes E w a.level (.fil g a) o := by
  have hobj : w'.slotObj (.fil g a) = w.slotObj (.fil g a) := by simp only [World.slotObj, hfil]
  have href : w'.slotRef (.fil g a) = w.slotRef (.fil g a) := by simp only [World.slotRef, hfil]
  simp only [slotBytes, hobj, href]
  cases hd : w.slotObj (.fil g a) with
  | none => exact storeBytes_mono h.disk hle hnil _ _ (h.refOk (.fil g a) hg) o
  | some d =>
      have hobj := h.obj (.fil g a) d hg hd
      have hl : (w.blk d).level = a.level := hobj.level
      simp only
      rw [← hl]
      exact blkBytes_logLe h hblk hle hnil hobj.lt hobj.zero o

/-- A put changes no bytes. -/
theorem BInv.flushed_put (h : BInv E X w) {r : BlockRef} {b : Block} {k : Kind}
    (hp : PutOk E w.log w.rand r b k)
    (hkind : ∀ n, n < w.nblk → (w.blk n).zero = false → (w.blk n).ref = r →
      k = .blk (w.blk n).level) {L : ℕ} {S : Set Slot} :
    BInv E X (w.put r b k) ∧ Flushed E L S w (w.put r b k) := by
  have hinv : BInv E X (w.put r b k) := h.put hp hkind
  have hnil : getBlock .nil (w.put r b k).log = none := hinv.disk.nilFree
  have hle : LogLe w.log (w.put r b k).log := hp.logLe
  refine ⟨hinv, rfl, rfl, hle, List.Sublist.refl _, .refl _, fun _ => rfl, fun _ => rfl, fun _ _ => rfl,
    fun _ => rfl, ?_, ?_, ?_⟩
  · intro s _ _
    cases s <;> exact ⟨rfl, rfl⟩
  · intro m hm hmz o
    exact @blkBytes_logLe E X w (w.put r b k) h rfl hle hnil m hm hmz o
  · intro g a hg o _
    exact @slotBytes_fil_logLe E X w (w.put r b k) h rfl rfl hle hnil g hg a o

theorem cleanBlk_self : (w.cleanBlk c).blk c = { w.blk c with isdirty := false } := setBlk_self _ _ _

theorem cleanBlk_of_ne {m : ℕ} (hm : m ≠ c) : (w.cleanBlk c).blk m = w.blk m := setBlk_of_ne w _ hm

/-- The mark of a node in hand changes no bytes. -/
theorem BInv.flushed_clean (h : BInv E X w) (hX : c ∈ X) :
    BInv E X (w.cleanBlk c) ∧ Flushed E (w.blk c).level ∅ w (w.cleanBlk c) := by
  have hs : SameShape w (w.cleanBlk c) := .setBlk w rfl rfl rfl rfl
  constructor
  · refine h.sameShape hs ?_ ?_
    · intro m
      by_cases hm : m = c
      · subst hm
        rw [cleanBlk_self]
        exact .inl rfl
      · rw [cleanBlk_of_ne hm]
        exact .inl rfl
    · intro m _ hmX
      exact cleanBlk_of_ne fun hmc => hmX (hmc ▸ hX)
  · refine hs.flushed rfl rfl ?_ ?_
    · intro m
      by_cases hm : m = c
      · subst hm; rw [cleanBlk_self]
      · rw [cleanBlk_of_ne hm]
    · intro m hm
      rw [cleanBlk_of_ne]
      rintro rfl
      exact Nat.lt_irrefl _ hm

/-- The block of a node without handles has been put. -/
theorem BInv.persisted (h : BInv E X w) (hX : c ∈ X) (hunc : ∀ r, w.cache.nodemap r ≠ some (.blk c))
    (hobj : 0 < (w.blk c).level → ∀ i, (w.blk c).blkobj i = none) {iv : IV} {rand : List IV}
    (hrand : w.rand = iv :: rand) (full : List Bool) :
    let buf := E.encrypt iv (w.blk c).contents
    let r := BlockRef.make (E.digest buf) iv
    let w' := ((w.rereferenced c rand full r).put r buf (.blk (w.blk c).level)).cleanBlk c
    BInv E X w' ∧ Flushed E (w.blk c).level ∅ w w' ∧ (w'.blk c).isdirty = false ∧
      Coherent E w' c ∧ r = (w'.blk c).ref := by
  intro buf r w'
  obtain ⟨hc, hz⟩ := h.hand c hX
  have hput : PutOk E w.log rand r buf (.blk (w.blk c).level) := putOk_blk h hc hz hrand
  have hsub : rand.Sublist w.rand := by rw [hrand]; exact List.sublist_cons_self _ _
  obtain ⟨h₁, hf₁⟩ := h.rereferenced hX hunc hsub full hput.iv hput.new
  -- Only the node has the new reference.
  obtain ⟨h₂, hf₂⟩ := h₁.flushed_put (L := (w.blk c).level) (S := ∅) hput (by
    intro n hn hnz hnr
    by_cases hnc : n = c
    · subst hnc
      rw [rereferenced_self]
    · rw [rereferenced_of_ne _ _ _ hnc] at hnz hnr
      have := h.nodeIv n hn hnz
      rw [hnr, BlockRef.iv_make, hrand] at this
      exact absurd List.mem_cons_self this)
  obtain ⟨h₃, hf₃⟩ := h₂.flushed_clean hX
  have hself₂ : ((w.rereferenced c rand full r).put r buf (.blk (w.blk c).level)).blk c =
      { w.blk c with ref := r } := rereferenced_self rand full r
  rw [hself₂] at hf₃
  have hself : w'.blk c = { w.blk c with ref := r, isdirty := false } := by
    rw [cleanBlk_self, hself₂]
  refine ⟨h₃, (hf₁.trans hf₂).trans hf₃, by rw [hself], ?_, by rw [hself]⟩
  refine coherent_persisted iv ?_ ?_ hself ?_
  · exact hobj
  · rfl
  · exact getBlock_put_self _ _ _ _

/-- **A node without handles is written.** -/
theorem wp_persistBlk (h : BInv E X w) (hX : c ∈ X) (hunc : ∀ r, w.cache.nodemap r ≠ some (.blk c))
    (hobj : 0 < (w.blk c).level → ∀ i, (w.blk c).blkobj i = none) :
    wp (persistBlk E c)
      (fun r w' => BInv E X w' ∧ Flushed E (w.blk c).level ∅ w w' ∧ (w'.blk c).isdirty = false ∧
        Coherent E w' c ∧ r = (w'.blk c).ref)
      (fun e w' => FlushExn e ∧ BInv E X w' ∧ Flushed E (w.blk c).level ∅ w w' ∧
        (w'.blk c).isdirty = (w.blk c).isdirty) w := by
  obtain ⟨hc, hz⟩ := h.hand c hX
  rw [wp, persistBlk_run hz]
  cases hrand : w.rand with
  | nil => exact ⟨.inr rfl, h, .refl w, rfl⟩
  | cons iv rand =>
      have hput := putOk_blk h hc hz hrand
      have hsub : rand.Sublist w.rand := by rw [hrand]; exact List.sublist_cons_self _ _
      cases hfull : w.full with
      | nil => exact h.persisted hX hunc hobj hrand []
      | cons b full =>
          cases b with
          | true =>
              obtain ⟨h₁, hf₁⟩ := h.rereferenced hX hunc hsub full hput.iv hput.new
              refine ⟨.inl rfl, h₁, hf₁, ?_⟩
              rw [rereferenced_self]
          | false => exact h.persisted hX hunc hobj hrand full

end persist

/-! ### Releasing a node -/

section release

variable {X : Set ℕ} {w : World} {s : Slot} {d : ℕ}

theorem setSlot_comm (w : World) (s : Slot) (r : BlockRef) (c : BlockNodeCache) (o : Option ℕ) :
    ((w.setSlotRef s r).setCache c).setSlotObj s o =
      ((w.setSlotRef s r).setSlotObj s o).setCache c := by
  cases s <;> rfl

/-- The reference of a node that agrees with its stored block takes the place of the handle. -/
theorem BInv.release (h : BInv E (insert d X) w) (hlive : w.Live s) (hobj : w.slotObj s = some d)
    (hown : s.OwnerIn X) (hX : d ∉ X) (habove : ∀ x ∈ X, (w.blk d).level < (w.blk x).level)
    (hco : Coherent E w d) :
    let w' := (w.setSlotRef s (w.blk d).ref).setSlotObj s none
    BInv E X w' ∧ Flushed E (w.slotLevel s) {s} w w' ∧ w'.blk d = w.blk d ∧
      (∀ s', w'.Live s' → w'.slotObj s' ≠ some d) := by
  intro w'
  have ho := h.obj s d hlive hobj
  have hown' : s.OwnerIn (insert d X) := by
    cases s with
    | fil g a => trivial
    | sub p i => exact .inr hown
  have h₁ : BInv E (insert d X) (w.setSlotRef s (w.blk d).ref) := by
    refine h.setSlotRef hown' _ (fun _ => ?_)
    rw [← ho.level]
    exact hco.stored
  have h₂ : BInv E (insert d X) w' := h₁.setSlotObj hown' none (by simp) (by simp)
  have hblk : ∀ m, m ∉ X → w'.blk m = w.blk m := by
    intro m hm
    rw [setSlotObj_blk_of_not_mem hown _ hm, setSlotRef_blk_of_not_mem hown _ hm]
  have hlog : w'.log = w.log := by simp [w']
  have hself : w'.slotObj s = none := slotObj_setSlotObj_self _ _ _
  have hselfRef : w'.slotRef s = (w.blk d).ref := by simp [w']
  have hother : ∀ s', s' ≠ s → w'.slotObj s' = w.slotObj s' ∧ w'.slotRef s' = w.slotRef s' := by
    intro s' hs
    constructor
    · rw [slotObj_setSlotObj_of_ne _ _ hs, slotObj_setSlotRef]
    · rw [slotRef_setSlotObj, slotRef_setSlotRef_of_ne _ _ hs]
  have hlevel : ∀ m, (w'.blk m).level = (w.blk m).level := by simp [w']
  have hslevel : ∀ s', w'.slotLevel s' = w.slotLevel s' := by simp [w']
  -- The stored block has the bytes of the node.
  have hsame : ∀ o < span (w.slotLevel s),
      slotBytes E w' (w.slotLevel s) s o = slotBytes E w (w.slotLevel s) s o := by
    intro o hlt
    have hb := hco.bytes o (by rw [ho.level]; exact hlt)
    rw [ho.level] at hb
    simp only [slotBytes, hself, hselfRef, hobj, hlog]
    exact hb.symm
  have hbytes : ∀ m, m < w.nblk → (w.blk m).zero = false → ∀ o,
      blkBytes E w' (w.blk m).level m o = blkBytes E w (w.blk m).level m o := by
    intro m hm hz o
    refine blkBytes_sim h (fun k _ _ _ => by simp [w']) ?_ _ m hm hz rfl o
    intro k hk hkz level hl i
    by_cases hs : Slot.sub k i = s
    · subst hs
      right
      have hl' : w.slotLevel (.sub k i) = level := by simp [World.slotLevel, hl]
      rw [hl'] at hsame
      exact hsame
    · obtain ⟨he, hr⟩ := hother _ hs
      cases hc : w.slotObj (.sub k i) with
      | some c => exact .inl ⟨c, hc, he.trans hc⟩
      | none =>
          right
          intro a _
          simp only [slotBytes, he, hr, hc, hlog]
  have hfree : ∀ s', w'.Live s' → w'.slotObj s' ≠ some d := by
    intro s' hs' hd
    by_cases hs : s' = s
    · subst hs
      rw [hself] at hd
      simp at hd
    · rw [(hother s' hs).1] at hd
      exact hs (h.objUniq s' s d (by simpa [w'] using hs') hlive hd hobj)
  refine ⟨?_, ?_, hblk d hX, hfree⟩
  · refine h₂.dropHand (fun s' hs' hd => absurd hd (hfree s' hs')) ?_ (fun _ => ?_) ?_
    · intro r hr
      exact absurd (by simpa [w'] using hr) (ho.uncached r)
    · exact hco.congr (hblk d hX) hlog (hbytes d ho.lt ho.zero)
    · intro p hp i hl hpi
      have e₁ := h₂.slotLevel_sub hl hpi
      rw [hlevel, hlevel] at e₁
      have e₂ := habove p hp
      omega
  · refine ⟨?_, ?_, by rw [hlog]; exact .refl _, ?_, ?_, hlevel, ?_, ?_, ?_, ?_, hbytes, ?_⟩
    · cases s <;> rfl
    · simp [w']
    · simp [w']
    · simp only [w', setSlotObj_cache, setSlotRef_cache]
      exact .refl _
    · simp [w']
    · simp [w']
    · intro g
      cases s with
      | sub p i => rfl
      | fil f a =>
          by_cases hg : g = f
          · subst hg
            simp [w', World.setSlotObj, World.setSlotRef, World.setFil]
          · simp [w', World.setSlotObj, World.setSlotRef, World.setFil, hg]
    · intro s' hs _
      exact hother s' (by simpa using hs)
    · intro g a hg o hlt
      by_cases hs : Slot.fil g a = s
      · subst hs
        exact hsame o hlt
      · obtain ⟨he, hr⟩ := hother _ hs
        simp only [slotBytes, he, hr, hlog]
        cases hc : w.slotObj (.fil g a) with
        | none => rfl
        | some c =>
            have hobj' := h.obj (.fil g a) c hg hc
            have hl : (w.blk c).level = a.level := hobj'.level
            simp only
            rw [← hl]
            exact hbytes c hobj'.lt hobj'.zero o

/-- A change of the cache is no change for a flush. -/
theorem Flushed.setCache {w : World} {c : BlockNodeCache} (hc : SameFil w.cache c) {L : ℕ}
    {S : Set Slot} : Flushed E L S w (w.setCache c) where
  still := rfl
  nblk := rfl
  logLe := .refl _
  rand := List.Sublist.refl _
  cacheFil := hc
  level _ := rfl
  zero _ := rfl
  dirty _ _ := rfl
  fil _ := rfl
  slots s _ _ := by cases s <;> exact ⟨rfl, rfl⟩
  bytes _ _ _ _ := blkBytes_setCache _ _ _ _ _
  files g a _ o _ := @slotBytes_congr E w (w.setCache c) rfl rfl (.fil g a) rfl rfl _ o

/-- **A slot is flushed**, given the flush of the node it holds. -/
theorem wp_flushSlot (flush : ℕ → M BlockRef) (h : BInv E X w) (hlive : w.Live s)
    (hown : s.OwnerIn X) (habove : ∀ x ∈ X, w.slotLevel s < (w.blk x).level)
    (hflush : ∀ d, w.slotObj s = some d →
      wp (flush d)
        (fun r w' => BInv E (insert d X) w' ∧ Flushed E (w.slotLevel s) ∅ w w' ∧
          (w'.blk d).isdirty = false ∧ Coherent E w' d ∧ r = (w'.blk d).ref)
        (fun e w' => FlushExn e ∧ BInv E X w' ∧ Flushed E (w.slotLevel s) ∅ w w') w) :
    wp (flushSlot flush s)
      (fun _ w' => BInv E X w' ∧ Flushed E (w.slotLevel s) {s} w w' ∧ w'.slotObj s = none)
      (fun e w' => FlushExn e ∧ BInv E X w' ∧ Flushed E (w.slotLevel s) {s} w w') w := by
  have hmono : ∀ w', Flushed E (w.slotLevel s) ∅ w w' → Flushed E (w.slotLevel s) {s} w w' :=
    fun w' hf => hf.mono (Nat.le_refl _) (by simp)
  simp only [flushSlot, wp_bind, wp_get]
  cases hobj : w.slotObj s with
  | none => exact ⟨h, .refl w, hobj⟩
  | some d =>
      have ho := h.obj s d hlive hobj
      have hdX : d ∉ X := by
        intro hd
        have := habove d hd
        rw [← ho.level] at this
        exact Nat.lt_irrefl _ this
      simp only [wp_bind]
      refine wp_mono (hflush d hobj) ?_ (fun e w' hF => ⟨hF.1, hF.2.1, hmono w' hF.2.2⟩)
      rintro r w₁ ⟨h₁, hf₁, hclean, hco, rfl⟩
      have hlive₁ := (hf₁.live s).2 hlive
      have hlev₁ := hf₁.slotLevel s
      have hobj₁ : w₁.slotObj s = some d := by
        rw [(hf₁.slots s (Set.notMem_empty _) (.inr (Nat.le_refl _))).1]
        exact hobj
      obtain ⟨h₂, hf₂, hblk₂, hfree₂⟩ := h₁.release hlive₁ hobj₁ hown hdX (by
        intro x hx
        rw [hf₁.level, hf₁.level, ho.level]
        exact habove x hx) hco
      rw [hlev₁] at hf₂
      have hflushed := (hmono _ hf₁).trans hf₂
      generalize hw₂ : (w₁.setSlotRef s (w₁.blk d).ref).setSlotObj s none = w₂ at *
      have hobj₂ : w₂.slotObj s = none := by rw [← hw₂]; exact slotObj_setSlotObj_self _ _ _
      have hcache₂ : (w₁.setSlotRef s (w₁.blk d).ref).cache = w₂.cache := by rw [← hw₂]; simp
      have href₁ : (w₁.setSlotRef s (w₁.blk d).ref).refOf (.blk d) = (w₂.blk d).ref := by
        rw [hblk₂]
        exact setSlotRef_ref _ _ _ _
      have hlt₂ : d < w₂.nblk := by rw [hflushed.nblk]; exact ho.lt
      have hz₂ : (w₂.blk d).zero = false := by rw [hflushed.zero]; exact ho.zero
      have hunc₂ : ∀ r, w₂.cache.nodemap r ≠ some (.blk d) := by
        rw [← hcache₂, setSlotRef_cache]
        exact (h₁.obj s d hlive₁ hobj₁).uncached
      -- The handle goes to the cache before the slot is cleared; the order makes no difference.
      have hset : ∀ c, ((w₁.setSlotRef s (w₁.blk d).ref).setCache c).setSlotObj s none = w₂.setCache c := by
        intro c
        rw [setSlot_comm, hw₂]
      simp only [setSlotRef, setSlotObj, wp_bind, wp_modify]
      refine wp_cacheInsert ?_ ?_ ?_
      · rw [hcache₂, href₁]
        exact h₂.rep.placed fun o ho' => h₂.isBlk_of_ref hlt₂ hz₂ ho'
      · intro hnone
        rw [hcache₂, href₁] at hnone
        rw [wp_modify, hset, hcache₂, href₁]
        refine ⟨h₂.inserted hlt₂ hz₂ (fun _ => by rw [hblk₂]; exact hclean) ?_ hfree₂ hnone hunc₂,
          hflushed.trans (.setCache (sameFil_inserted hnone d)), ?_⟩
        · exact (h₂.clean d hlt₂ hz₂ hdX (by rw [hblk₂]; exact hclean)).stored
        · cases s <;> exact hobj₂
      · intro o ho'
        rw [hcache₂, href₁] at ho'
        obtain ⟨m, rfl⟩ := h₂.isBlk_of_ref hlt₂ hz₂ ho'
        rw [wp_modify, hset, hcache₂]
        refine ⟨h₂.touched ho', hflushed.trans (.setCache (h₂.rep.sameFil_touched m)), ?_⟩
        cases s <;> exact hobj₂

end release

/-! ### A node of any level -/

section flush

/-- A node to be flushed, in the slot that holds it. -/
structure FlushIn (E : Env) (X : Set ℕ) (w : World) (level c : ℕ) (s : Slot) : Prop where
  inv : BInv E X w
  live : w.Live s
  obj : w.slotObj s = some c
  owner : s.OwnerIn X
  levelEq : w.slotLevel s = level
  above : ∀ x ∈ X, level < (w.blk x).level

variable {X : Set ℕ} {w : World} {level c : ℕ} {s : Slot}

theorem FlushIn.objOk (h : FlushIn E X w level c s) : ObjOk X w s c := h.inv.obj s c h.live h.obj

theorem FlushIn.level_blk (h : FlushIn E X w level c s) : (w.blk c).level = level :=
  h.objOk.level.trans h.levelEq

theorem FlushIn.notIn (h : FlushIn E X w level c s) : c ∉ X := by
  intro hc
  have := h.above c hc
  rw [h.level_blk] at this
  exact Nat.lt_irrefl _ this

theorem FlushIn.hand (h : FlushIn E X w level c s) : BInv E (insert c X) w := by
  refine h.inv.insertHand h.objOk.lt h.objOk.zero ?_
  intro s' hs' hc
  rw [h.inv.objUniq s' s c hs' h.live hc h.obj]
  exact h.owner

/-- A node in a slot is not in the clean cache. -/
theorem holds_uncached {w' : World} (h' : BInv E (insert c X) w') (hobj : w'.slotObj s = some c)
    (hlive : w'.Live s) (r : BlockRef) : w'.cache.nodemap r ≠ some (.blk c) :=
  (h'.obj s c hlive hobj).uncached r

/-- An interrupted flush leaves the node dirty in its slot. -/
theorem FlushIn.abandon {w' : World} {L : ℕ} {S : Set Slot} (h : FlushIn E X w level c s)
    (hf : Flushed E L S w w') (h' : BInv E (insert c X) w') (hobj : w'.slotObj s = some c)
    (hd : (w'.blk c).isdirty = true) : BInv E X w' := by
  have hlive := (hf.live s).2 h.live
  refine h'.dropHand (fun _ _ _ => hd) (fun r hr => absurd hr (holds_uncached h' hobj hlive r)) ?_ ?_
  · intro hd'
    rw [hd] at hd'
    simp at hd'
  · intro p hp i hl hpi
    have e₁ := h'.slotLevel_sub hl hpi
    have e₂ := h.above p hp
    rw [hf.level, hf.level, h.level_blk] at e₁
    omega

/-- The slots of the node `c` that are not in the list have been flushed. -/
structure SubFlushed (E : Env) (X : Set ℕ) (w : World) (level c : ℕ) (l : List (Fin 256))
    (w' : World) : Prop where
  inv : BInv E (insert c X) w'
  flushed : Flushed E level {s | ∃ i, s = .sub c i} w w'
  done : ∀ i, i ∉ l → (w'.blk c).blkobj i = none

/-- **A node of any level is flushed.** -/
theorem wp_bnFlushBlk :
    ∀ (level : ℕ) (X : Set ℕ) (w : World) (c : ℕ) (s : Slot), FlushIn E X w level c s →
      wp (bnFlushBlk E level c)
        (fun r w' => BInv E (insert c X) w' ∧ Flushed E level ∅ w w' ∧
          (w'.blk c).isdirty = false ∧ Coherent E w' c ∧ r = (w'.blk c).ref)
        (fun e w' => FlushExn e ∧ BInv E X w' ∧ Flushed E level ∅ w w') w := by
  intro level
  induction level with
  | zero =>
      intro X w c s h
      have hd : (w.blk c).isdirty = true := h.objOk.dirty h.notIn
      have hl := h.level_blk
      rw [bnFlushBlk]
      refine wp_mono (wp_persistBlk h.hand (.inl rfl) h.objOk.uncached (by omega)) ?_ ?_
      · rw [hl]
        exact fun _ _ hQ => hQ
      · rw [hl]
        rintro e w' ⟨he, h', hf, hd'⟩
        refine ⟨he, h.abandon hf h' ?_ (hd'.trans hd), hf⟩
        rw [(hf.slots s (Set.notMem_empty _) (.inr (Nat.zero_le _))).1]
        exact h.obj
  | succ level ih =>
      intro X w c s h
      have hd : (w.blk c).isdirty = true := h.objOk.dirty h.notIn
      have hl := h.level_blk
      -- What the flush of the slots keeps.
      have hkeep : ∀ w', Flushed E level {s | ∃ i, s = .sub c i} w w' →
          Flushed E (level + 1) ∅ w w' ∧ (w'.blk c).isdirty = true ∧ w'.slotObj s = some c := by
        intro w' hf
        have hf' : Flushed E (level + 1) ∅ w w' := by
          refine hf.mono (Nat.le_succ _) ?_
          rintro s' ⟨i, rfl⟩ -
          refine ⟨fun hfil => hfil, ?_⟩
          simp only [World.slotLevel, hl]
          omega
        refine ⟨hf', ?_, ?_⟩
        · rw [hf.dirty c (by omega)]
          exact hd
        · rw [(hf'.slots s (Set.notMem_empty _) (.inr (by rw [h.levelEq]))).1]
          exact h.obj
      rw [bnFlushBlk]
      simp only [wp_bind, wp_get, hd, Bool.not_true, Bool.false_eq_true, if_false]
      have hloop := wp_forM (I := SubFlushed E X w level c)
        (E := fun e w' => FlushExn e ∧ BInv E X w' ∧ Flushed E (level + 1) ∅ w w')
        (f := fun i => flushSlot (bnFlushBlk E level) (.sub c i)) ?_ (List.finRange 256) w
        ⟨h.hand, .refl w, fun i hi => absurd (List.mem_finRange i) hi⟩
      · refine wp_mono hloop ?_ (fun _ _ hF => hF)
        rintro - w₁ ⟨h₁, hf₁, hdone⟩
        obtain ⟨hf₁', hd₁, hobj₁⟩ := hkeep w₁ hf₁
        have hl₁ : (w₁.blk c).level = level + 1 := by rw [hf₁.level]; exact hl
        have hlive₁ := (hf₁.live s).2 h.live
        refine wp_mono (wp_persistBlk h₁ (.inl rfl) (holds_uncached h₁ hobj₁ hlive₁)
          (fun _ i => hdone i (by simp))) ?_ ?_
        · rw [hl₁]
          rintro r w₂ ⟨h₂, hf₂, hrest⟩
          exact ⟨h₂, hf₁'.trans hf₂, hrest⟩
        · rw [hl₁]
          rintro e w₂ ⟨he, h₂, hf₂, hd₂⟩
          refine ⟨he, h.abandon (hf₁'.trans hf₂) h₂ ?_ (hd₂.trans hd₁), hf₁'.trans hf₂⟩
          rw [(hf₂.slots s (Set.notMem_empty _) (.inr ?_)).1]
          · exact hobj₁
          · rw [hf₁.slotLevel, h.levelEq]
      · rintro i l w₁ ⟨h₁, hf₁, hdone⟩
        have hlive₁ : w₁.Live (.sub c i) := by
          rw [hf₁.live]
          exact ⟨h.objOk.lt, h.objOk.zero, by omega⟩
        have hlev₁ : w₁.slotLevel (.sub c i) = level := by
          rw [hf₁.slotLevel]
          simp [World.slotLevel, hl]
        have habove : ∀ x ∈ insert c X, level < (w₁.blk x).level := by
          rintro x (rfl | hx)
          · rw [hf₁.level]
            omega
          · rw [hf₁.level]
            have := h.above x hx
            omega
        have hslot := wp_flushSlot (bnFlushBlk E level) h₁ hlive₁ (.inl rfl)
          (by rw [hlev₁]; exact habove) (by
            intro d hobj
            rw [hlev₁]
            exact ih _ w₁ d _ ⟨h₁, hlive₁, hobj, .inl rfl, hlev₁, habove⟩)
        rw [hlev₁] at hslot
        have hstep : ∀ w₂, Flushed E level {.sub c i} w₁ w₂ →
            Flushed E level {s | ∃ i, s = .sub c i} w w₂ := by
          intro w₂ hf₂
          refine hf₁.trans (hf₂.mono (Nat.le_refl _) ?_)
          intro s' hs' hne
          exact absurd ⟨i, by simpa using hs'⟩ hne
        refine wp_mono hslot ?_ ?_
        · rintro - w₂ ⟨h₂, hf₂, hnone⟩
          refine ⟨h₂, hstep w₂ hf₂, ?_⟩
          intro j hj
          by_cases hji : j = i
          · subst hji
            exact hnone
          · have hs := hf₂.slots (.sub c j) (by simpa using hji)
              (.inr (by simp [World.slotLevel, hf₁.level, hl]))
            have hdone' := hdone j (by simp [hji, hj])
            exact hs.1.trans hdone'
        · rintro e w₂ ⟨he, h₂, hf₂⟩
          have hf := hstep w₂ hf₂
          obtain ⟨hf', hd₂, hobj₂⟩ := hkeep w₂ hf
          exact ⟨he, h.abandon hf h₂ hobj₂ hd₂, hf'⟩

end flush

end UTFS

end Utopfs
