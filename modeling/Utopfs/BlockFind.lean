/-
**Finding the node for a slot, and keeping it when it has changed.**

A traversal finds the node for a slot, does something with it, and if the node changed takes it out of
the clean cache and keeps it in the slot.  Between the two the node is in hand.

Main definitions:

* `UTFS.Grew` — new nodes and a different cache, and nothing else;
* `UTFS.Frame` — what a change below the slots of `S` leaves alone, seen from the nodes in hand.

Main results:

* `UTFS.wp_faultBlk`, `UTFS.wp_findBlk_modify` — the node found has the bytes of the slot;
* `UTFS.wp_keepDirty` — a changed node replaces the contents of its slot.
-/

import Utopfs.BlockSteps

set_option relaxedAutoImplicit false
set_option autoImplicit false

namespace Utopfs

namespace UTFS

open Prog

variable {E : Env}

/-! ### New nodes -/

/-- What is not a node and not the clean cache. -/
def World.outer (w : World) :=
  (w.log, w.rand, w.full, w.clock, w.ticks, w.zobj, w.nfil, w.rdh, w.sdh, w.version, w.control,
    w.rbr, w.hn)

section outer

variable {w w' : World} (h : w'.outer = w.outer)

include h

theorem outer_log : w'.log = w.log := congrArg Prod.fst h
theorem outer_rand : w'.rand = w.rand := congrArg (fun x => x.2.1) h
theorem outer_zobj : w'.zobj = w.zobj := congrArg (fun x => x.2.2.2.2.2.1) h
theorem outer_nfil : w'.nfil = w.nfil := congrArg (fun x => x.2.2.2.2.2.2.1) h

end outer

/-- The second world has new block nodes and another cache. -/
structure Grew (w w' : World) : Prop where
  outer : w'.outer = w.outer
  fil : w'.fil = w.fil
  nblk : w.nblk ≤ w'.nblk
  blk : ∀ m, m < w.nblk → w'.blk m = w.blk m
  cacheFil : SameFil w.cache w'.cache

theorem Grew.refl (w : World) : Grew w w := ⟨rfl, rfl, Nat.le_refl _, fun _ _ => rfl, .refl _⟩

theorem Grew.trans {w₁ w₂ w₃ : World} (h : Grew w₁ w₂) (h' : Grew w₂ w₃) : Grew w₁ w₃ where
  outer := h'.outer.trans h.outer
  fil := h'.fil.trans h.fil
  nblk := h.nblk.trans h'.nblk
  blk m hm := (h'.blk m (hm.trans_le h.nblk)).trans (h.blk m hm)
  cacheFil := h.cacheFil.trans h'.cacheFil

theorem Grew.setCache {w : World} {c : BlockNodeCache} (h : SameFil w.cache c) :
    Grew w (w.setCache c) :=
  ⟨rfl, rfl, Nat.le_refl _, fun _ _ => rfl, h⟩

theorem Grew.alloc (w : World) (b : BlkNode) : Grew w (w.alloc b) :=
  ⟨rfl, rfl, Nat.le_succ _, fun _ hm => alloc_blk_of_lt w b hm, .refl _⟩

theorem Grew.live {w w' : World} (h : Grew w w') {s : Slot} (hs : w.Live s) : w'.Live s := by
  cases s with
  | fil f a =>
      have := outer_nfil h.outer
      simpa only [World.Live, this] using hs
  | sub n i =>
      obtain ⟨hn, hz, hl⟩ := hs
      exact ⟨hn.trans_le h.nblk, by rw [h.blk n hn]; exact hz, by rw [h.blk n hn]; exact hl⟩

theorem Grew.slotObj {w w' : World} (h : Grew w w') {s : Slot} (hs : w.Live s) :
    w'.slotObj s = w.slotObj s := by
  cases s with
  | fil f a => simp only [World.slotObj, h.fil]
  | sub n i => simp only [World.slotObj, h.blk n hs.1]

theorem Grew.slotRef {w w' : World} (h : Grew w w') {s : Slot} (hs : w.Live s) :
    w'.slotRef s = w.slotRef s := by
  cases s with
  | fil f a => simp only [World.slotRef, h.fil]
  | sub n i => simp only [World.slotRef, h.blk n hs.1]

theorem Grew.blkBytes {X : Set ℕ} {w w' : World} (hg : Grew w w') (h : BInv E X w) {m : ℕ}
    (hm : m < w.nblk) (hz : (w.blk m).zero = false) (o : ℕ) :
    blkBytes E w' (w.blk m).level m o = blkBytes E w (w.blk m).level m o :=
  blkBytes_frame h (outer_log hg.outer) ∅ (by simp) (fun k hk _ => hg.blk k hk) _ m hm hz rfl
    (by simp) o

theorem Grew.slotBytes {X : Set ℕ} {w w' : World} (hg : Grew w w') (h : BInv E X w) {s : Slot}
    (hs : w.Live s) (o : ℕ) :
    slotBytes E w' (w.slotLevel s) s o = slotBytes E w (w.slotLevel s) s o := by
  simp only [UTFS.slotBytes, hg.slotObj hs, hg.slotRef hs, outer_log hg.outer]
  cases hc : w.slotObj s with
  | none => rfl
  | some c =>
      have ho := h.obj s c hs hc
      simp only
      rw [← ho.level]
      exact hg.blkBytes h ho.lt ho.zero o

/-! ### Faulting a block in -/

/-- A node without handles whose contents are those of its stored block agrees with it. -/
theorem coherent_of_decode {w : World} {n : ℕ}
    (hst : Stored w.log (w.blk n).ref (.blk (w.blk n).level))
    (hdata : (w.blk n).level = 0 → decode E w.log (w.blk n).ref = some (w.blk n).data)
    (href : 0 < (w.blk n).level →
      (decode E w.log (w.blk n).ref).map unpackRefs = some (w.blk n).blkref)
    (hobj : 0 < (w.blk n).level → ∀ i, (w.blk n).blkobj i = none) : Coherent E w n := by
  refine ⟨hst, hdata, href, ?_⟩
  intro o ho
  cases hl : (w.blk n).level with
  | zero => simp only [blkBytes, storeBytes, hdata hl]
  | succ level =>
      have hpos : 0 < (w.blk n).level := by omega
      rw [hl] at ho
      obtain ⟨i, o', ho', rfl⟩ := exists_slot_offset ho
      obtain ⟨b, hb, hbr⟩ := Option.map_eq_some_iff.1 (href hpos)
      rw [blkBytes_sub w level n i ho', storeBytes_sub hb level i ho', hbr]
      simp only [slotBytes, World.slotObj, World.slotRef, hobj hpos i]

/-- What is known about the node that was found for a slot of a level. -/
structure Faulted (E : Env) (X : Set ℕ) (w : World) (level : ℕ) (r : BlockRef) (n : ℕ)
    (w' : World) : Prop where
  inv : BInv E X w'
  grew : Grew w w'
  lt : n < w'.nblk
  zero : (w'.blk n).zero = false
  levelEq : (w'.blk n).level = level
  free : ∀ s, w'.Live s → w'.slotObj s ≠ some n
  coherent : Coherent E w' n
  bytes : ∀ o < span level, blkBytes E w' level n o = storeBytes E w.log level r o

/-- Reading a block that is stored. -/
theorem wp_loadBlk {X : Set ℕ} {w : World} (h : BInv E X w) {level : ℕ} {r : BlockRef}
    (hr : Stored w.log r (.blk level)) {F : Exn → World → Prop} :
    wp (loadBlk E level r)
      (fun n w' => Faulted E X w level r n w' ∧ (w'.blk n).ref = r ∧
        (w'.blk n).isdirty = false ∧ w'.cache = w.cache ∧
        ∀ r', w'.cache.nodemap r' ≠ some (.blk n)) F w := by
  obtain ⟨b, hb⟩ := hr
  have hdig : E.digest b = r.dig := h.disk.digest r b _ hb
  simp only [loadBlk, readBlock, bsBlockGet, validate, allocBlk, wp_bind, wp_get, hb, wp_pure, hdig,
    ne_eq, not_true_eq_false, if_false, wp_set]
  generalize hnode : BlkNode.stored level r (E.decrypt r.iv b) = node
  have hself : (w.alloc node).blk w.nblk = node := alloc_blk_self w node
  have hl : node.level = level := by rw [← hnode]; rfl
  have hrf : node.ref = r := by rw [← hnode]; rfl
  have hdec : decode E w.log r = some (E.decrypt r.iv b) := by simp [decode, hb]
  have hco : Coherent E (w.alloc node) w.nblk := by
    refine coherent_of_decode ?_ ?_ ?_ ?_
    · rw [hself, hl, hrf]
      exact ⟨b, hb⟩
    · rw [hself, hrf, ← hnode]
      intro _
      exact hdec
    · rw [hself, hrf]
      intro _
      change Option.map unpackRefs (decode E w.log r) = _
      rw [hdec, ← hnode]
      rfl
    · rw [hself, ← hnode]
      intro _ i
      rfl
  have hinv : BInv E X (w.alloc node) := by
    refine h.alloc (fun _ => ⟨by rw [← hnode]; exact fun _ => rfl, ?_, ?_, ?_, fun _ => hco⟩)
      (by rw [← hnode]; exact fun hz => absurd hz (by simp [BlkNode.stored]))
    · rw [hrf]
      exact h.disk.fresh r _ hb
    · intro x hx
      rw [hrf, hb] at hx
      rw [← Option.some.inj hx, hl]
    · intro hpos i hi
      obtain ⟨k, rfl⟩ : ∃ k, level = k + 1 := ⟨level - 1, by omega⟩
      rw [hl]
      rw [← hnode] at hi ⊢
      exact h.disk.subRefs r b k hb i hi
  refine ⟨⟨hinv, Grew.alloc w node, Nat.lt_succ_self _, ?_, ?_, ?_, hco, ?_⟩, ?_, ?_, rfl, ?_⟩
  · change ((w.alloc node).blk w.nblk).zero = false
    rw [hself, ← hnode]
    rfl
  · change ((w.alloc node).blk w.nblk).level = level
    rw [hself, hl]
  · intro s hs hn
    rcases live_alloc hs with hs' | ⟨i, rfl⟩
    · have hn' : w.slotObj s = some w.nblk := by
        rw [← (live_alloc_of_live (b := node) hs').2.1]
        exact hn
      exact absurd (h.obj s _ hs' hn').lt (Nat.lt_irrefl _)
    · change ((w.alloc node).blk w.nblk).blkobj i = some w.nblk at hn
      rw [hself, ← hnode] at hn
      exact absurd hn (by simp [BlkNode.stored])
  · intro o ho
    have := hco.bytes o (by rw [hself, hl]; exact ho)
    rw [hself, hl, hrf] at this
    exact this
  · change ((w.alloc node).blk w.nblk).ref = r
    rw [hself, hrf]
  · change ((w.alloc node).blk w.nblk).isdirty = false
    rw [hself, ← hnode]
    rfl
  · intro r' hr'
    exact absurd (h.key r' w.nblk hr').lt (Nat.lt_irrefl _)

/-- **The block of a reference**, from the cache or from the store. -/
theorem wp_faultBlk {X : Set ℕ} {w : World} (h : BInv E X w) (nocache : Bool) {level : ℕ}
    {r : BlockRef} (hr : Stored w.log r (.blk level)) (hX : ∀ x ∈ X, (w.blk x).level ≠ level)
    {F : Exn → World → Prop} :
    wp (faultBlk E nocache level r) (Faulted E X w level r) F w := by
  have hG : ∀ o, w.cache.nodemap r = some o → o.IsBlk := by
    intro o ho
    cases o with
    | blk n => exact ⟨n, rfl⟩
    | fil f => exact absurd ((h.keyFil r f ho).kind_eq hr) (by simp)
  rw [faultBlk, wp_bind]
  refine wp_cacheLookup (h.rep.placed hG) ?_ ?_
  · intro hmiss
    simp only
    refine wp_seq (wp_loadBlk h hr (F := F)) ?_ (fun _ _ hF => hF)
    rintro n w' ⟨hf, href, hd, hcache, hunc⟩
    cases nocache with
    | true => simpa using hf
    | false =>
        simp only [Bool.not_false, if_true, wp_bind]
        have hmap : w'.cache.nodemap (w'.refOf (.blk n)) = none := by
          change w'.cache.nodemap (w'.blk n).ref = none
          rw [href, hcache]
          exact hmiss
        refine wp_cacheInsert (hf.inv.rep.placed fun o ho => ?_) (fun _ => ?_) (fun o ho => ?_)
        · rw [hmap] at ho
          simp at ho
        · have hst : Stored w'.log (w'.blk n).ref (.blk (w'.blk n).level) := hf.coherent.stored
          refine ⟨hf.inv.inserted hf.lt hf.zero (fun _ => hd) hst hf.free hmap hunc,
            hf.grew.trans (.setCache (sameFil_inserted hmap n)), hf.lt, hf.zero, hf.levelEq, hf.free,
            hf.coherent.congr rfl rfl (blkBytes_setCache _ _ _ _), ?_⟩
          intro o ho
          rw [blkBytes_setCache]
          exact hf.bytes o ho
        · rw [hmap] at ho
          simp at ho
  · intro o ho
    obtain ⟨n, rfl⟩ := hG o ho
    have hk := h.key r n ho
    have hl : (w.blk n).level = level := by
      have := hk.stored.kind_eq hr
      injection this
    have hn : n ∉ X := fun hmem => hX n hmem hl
    have hco := h.clean n hk.lt hk.zero hn (hk.clean hn)
    simp only [castBlk, wp_bind, wp_get, World.setCache_blk, hl, if_true, wp_pure]
    refine ⟨h.touched ho, .setCache (h.rep.sameFil_touched n), hk.lt, hk.zero, hl, ?_, ?_, ?_⟩
    · intro s hs hs'
      exact (h.obj s n hs hs').uncached r ho
    · exact hco.congr rfl rfl (blkBytes_setCache _ _ _ _)
    · intro o ho
      have := hco.bytes o (by rw [hl]; exact ho)
      rw [blkBytes_setCache]
      rw [hl, hk.ref] at this
      exact this

/-! ### Frames -/

variable (E) in
/-- What a change to the file `f` leaves alone, seen from the slots of files and of the nodes of `X`:
the slots that are not in `S`, and the bytes of those that do not hold a node of `Y`. -/
structure Frame (f : ℕ) (X Y : Set ℕ) (S : Set Slot) (w w' : World) : Prop where
  outer : w'.outer = w.outer
  nblk : w.nblk ≤ w'.nblk
  level : ∀ m, m < w.nblk → (w'.blk m).level = (w.blk m).level
  zero : ∀ m, m < w.nblk → (w'.blk m).zero = (w.blk m).zero
  ref : ∀ m, m < w.nblk → (w'.blk m).ref = (w.blk m).ref
  other : ∀ g, g ≠ f → w'.fil g = w.fil g
  own : w'.fil f = { w.fil f with
    isdirty := (w'.fil f).isdirty, refs := (w'.fil f).refs, objs := (w'.fil f).objs,
    inode := { (w.fil f).inode with blocks := (w'.fil f).inode.blocks } }
  slots : ∀ s, w.Live s → s.OwnerIn X → s ∉ S →
    w'.slotObj s = w.slotObj s ∧ w'.slotRef s = w.slotRef s
  bytes : ∀ s, w.Live s → s.OwnerIn X → s ∉ S → (∀ c, w.slotObj s = some c → c ∉ Y) →
    ∀ o, slotBytes E w' (w.slotLevel s) s o = slotBytes E w (w.slotLevel s) s o
  dirty : ∀ x ∈ X, (w.blk x).isdirty = true → (w'.blk x).isdirty = true
  filDirty : (w.fil f).isdirty = true → (w'.fil f).isdirty = true
  cacheFil : SameFil w.cache w'.cache

section frame

variable {f : ℕ} {X Y : Set ℕ} {S : Set Slot} {w w' : World}

theorem Frame.live (h : Frame E f X Y S w w') {s : Slot} (hs : w.Live s) : w'.Live s := by
  cases s with
  | fil g a =>
      have := outer_nfil h.outer
      simpa only [World.Live, this] using hs
  | sub n i =>
      obtain ⟨hn, hz, hl⟩ := hs
      exact ⟨hn.trans_le h.nblk, by rw [h.zero n hn]; exact hz, by rw [h.level n hn]; exact hl⟩

theorem Frame.slotLevel (h : Frame E f X Y S w w') {s : Slot} (hs : w.Live s) :
    w'.slotLevel s = w.slotLevel s := by
  cases s with
  | fil g a => rfl
  | sub n i => simp only [World.slotLevel, h.level n hs.1]

theorem Frame.size (h : Frame E f X Y S w w') (g : ℕ) :
    (w'.fil g).inode.size = (w.fil g).inode.size := by
  by_cases hg : g = f
  · subst hg
    rw [h.own]
  · rw [h.other g hg]

theorem Frame.trans {w'' : World} (h : Frame E f X Y S w w') (h' : Frame E f X Y S w' w'') : Frame E f X Y S w w'' where
  outer := h'.outer.trans h.outer
  nblk := h.nblk.trans h'.nblk
  level m hm := (h'.level m (hm.trans_le h.nblk)).trans (h.level m hm)
  zero m hm := (h'.zero m (hm.trans_le h.nblk)).trans (h.zero m hm)
  ref m hm := (h'.ref m (hm.trans_le h.nblk)).trans (h.ref m hm)
  other g hg := (h'.other g hg).trans (h.other g hg)
  own := by
    rw [h'.own, h.own]
  slots s hs hown hS := by
    have h₁ := h.slots s hs hown hS
    have h₂ := h'.slots s (h.live hs) hown hS
    exact ⟨h₂.1.trans h₁.1, h₂.2.trans h₁.2⟩
  bytes s hs hown hS hY o := by
    have h₁ := h.slots s hs hown hS
    have hY' : ∀ c, w'.slotObj s = some c → c ∉ Y := by
      rw [h₁.1]
      exact hY
    have h₂ := h'.bytes s (h.live hs) hown hS hY' o
    rw [h.slotLevel hs] at h₂
    rw [h₂, h.bytes s hs hown hS hY o]
  dirty x hx hd := h'.dirty x hx (h.dirty x hx hd)
  filDirty hd := h'.filDirty (h.filDirty hd)
  cacheFil := h.cacheFil.trans h'.cacheFil

/-- Seen from fewer nodes, with more slots and nodes that may change. -/
theorem Frame.mono {X' Y' : Set ℕ} {S' : Set Slot} (h : Frame E f X Y S w w') (hX : X' ⊆ X)
    (hY : Y ⊆ Y') (hS : ∀ s, s.OwnerIn X' → s ∈ S → s ∈ S') : Frame E f X' Y' S' w w' := by
  have hown : ∀ s : Slot, s.OwnerIn X' → s.OwnerIn X := by
    intro s hs
    cases s with
    | fil g a => trivial
    | sub p i => exact hX hs
  exact
    { h with
      slots := fun s hs ho hn => h.slots s hs (hown s ho) fun hmem => hn (hS s ho hmem)
      bytes := fun s hs ho hn hc o =>
        h.bytes s hs (hown s ho) (fun hmem => hn (hS s ho hmem)) (fun c hc' hmem => hc c hc' (hY hmem)) o
      dirty := fun x hx => h.dirty x (hX hx) }

/-- When only the slot `s` holds the node `n`, a change to `n` is a change below `s`. -/
theorem Frame.below {n : ℕ} {s : Slot} (h : Frame E f X (insert n X) ∅ w w')
    (hn : ∀ s', w.Live s' → w.slotObj s' = some n → s' = s) : Frame E f X X {s} w w' :=
  { h with
    slots := fun s' hs ho _ => h.slots s' hs ho (Set.notMem_empty _)
    bytes := by
      intro s' hs ho hne hc o
      refine h.bytes s' hs ho (Set.notMem_empty _) ?_ o
      rintro c hc' (rfl | hmem)
      · exact hne (hn s' hs hc')
      · exact hc c hc' hmem }

theorem Grew.frame {Z : Set ℕ} (hg : Grew w w') (h : BInv E Z w) (hX : ∀ x ∈ X, x < w.nblk) :
    Frame E f X Y S w w' where
  outer := hg.outer
  nblk := hg.nblk
  level m hm := by rw [hg.blk m hm]
  zero m hm := by rw [hg.blk m hm]
  ref m hm := by rw [hg.blk m hm]
  other g _ := by rw [hg.fil]
  own := by rw [hg.fil]
  slots s hs _ _ := ⟨hg.slotObj hs, hg.slotRef hs⟩
  bytes s hs _ _ _ o := hg.slotBytes h hs o
  dirty x hx hd := by rw [hg.blk x (hX x hx)]; exact hd
  filDirty hd := by rw [hg.fil]; exact hd
  cacheFil := hg.cacheFil

theorem Frame.refl {Z : Set ℕ} (h : BInv E Z w) (hX : ∀ x ∈ X, x < w.nblk) :
    Frame E f X Y S w w := (Grew.refl w).frame h hX

theorem SameShape.frame {Z : Set ℕ} (hs : SameShape w w') (h : BInv E Z w) (hZ : Z ⊆ Y)
    (hout : w'.outer = w.outer) (hoff : ∀ m, m < w.nblk → m ∉ Z → w'.blk m = w.blk m)
    (href : ∀ m, (w'.blk m).ref = (w.blk m).ref) (hother : ∀ g, g ≠ f → w'.fil g = w.fil g)
    (hown : w'.fil f = { w.fil f with
      isdirty := (w'.fil f).isdirty
      inode := { (w.fil f).inode with blocks := (w'.fil f).inode.blocks } })
    (hdirty : ∀ x ∈ X, (w.blk x).isdirty = true → (w'.blk x).isdirty = true)
    (hfil : (w.fil f).isdirty = true → (w'.fil f).isdirty = true) : Frame E f X Y S w w' where
  outer := hout
  nblk := hs.nblk.ge
  level m _ := hs.level m
  zero m _ := hs.zero m
  ref m _ := href m
  other := hother
  own := by
    rw [hown]
  slots s _ _ _ := ⟨hs.slotObj s, hs.slotRef s⟩
  bytes s hlive _ _ hY o := by
    simp only [UTFS.slotBytes, hs.slotObj, hs.slotRef, hs.log]
    cases hc : w.slotObj s with
    | none => rfl
    | some c =>
        have ho := h.obj s c hlive hc
        exact blkBytes_frame h hs.log Z h.upClosed hoff _ c ho.lt ho.zero ho.level
          (fun hmem => hY c hc (hZ hmem)) o
  dirty := hdirty
  filDirty := hfil
  cacheFil := by rw [hs.cache]; exact .refl _

end frame

/-- A slot of a file node is one of the file `f`. -/
def Slot.OfFile (f : ℕ) : Slot → Prop
  | .fil g _ => g = f
  | .sub _ _ => True

section slotFrame

variable {f : ℕ} {X : Set ℕ} {w : World} {s : Slot}

theorem frame_setSlotObj (h : BInv E X w) (hown : s.OwnerIn X) (hf : s.OfFile f) (o : Option ℕ) :
    Frame E f X X {s} w (w.setSlotObj s o) where
  outer := by cases s <;> rfl
  nblk := (setSlotObj_nblk w s o).ge
  level m _ := setSlotObj_level w s o m
  zero m _ := setSlotObj_zero w s o m
  ref m _ := setSlotObj_ref w s o m
  other g hg := by
    cases s with
    | sub p i => rfl
    | fil f' a =>
        obtain rfl : f' = f := hf
        simp [World.setSlotObj, World.setFil, hg]
  own := by
    cases s with
    | sub p i => rfl
    | fil f' a =>
        obtain rfl : f' = f := hf
        simp [World.setSlotObj, World.setFil]
  slots s' _ _ hne := ⟨slotObj_setSlotObj_of_ne w o hne, slotRef_setSlotObj w s o s'⟩
  bytes s' hlive _ hne hX a := by
    simp only [slotBytes, slotObj_setSlotObj_of_ne w o hne, slotRef_setSlotObj, setSlotObj_log]
    cases hc : w.slotObj s' with
    | none => rfl
    | some c =>
        have ho := h.obj s' c hlive hc
        simp only
        rw [← ho.level]
        exact blkBytes_setSlotObj h hown o ho.lt ho.zero (hX c hc) a
  dirty x _ hd := by rwa [setSlotObj_isdirty]
  filDirty hd := by
    cases s with
    | sub p i => exact hd
    | fil f' a =>
        obtain rfl : f' = f := hf
        simpa [World.setSlotObj, World.setFil] using hd
  cacheFil := by rw [setSlotObj_cache]; exact .refl _

theorem frame_setSlotRef (h : BInv E X w) (hown : s.OwnerIn X) (hf : s.OfFile f) (r : BlockRef) :
    Frame E f X X {s} w (w.setSlotRef s r) where
  outer := by cases s <;> rfl
  nblk := (setSlotRef_nblk w s r).ge
  level m _ := setSlotRef_level w s r m
  zero m _ := setSlotRef_zero w s r m
  ref m _ := setSlotRef_ref w s r m
  other g hg := by
    cases s with
    | sub p i => rfl
    | fil f' a =>
        obtain rfl : f' = f := hf
        simp [World.setSlotRef, World.setFil, hg]
  own := by
    cases s with
    | sub p i => rfl
    | fil f' a =>
        obtain rfl : f' = f := hf
        simp [World.setSlotRef, World.setFil]
  slots s' _ _ hne := ⟨slotObj_setSlotRef w s r s', slotRef_setSlotRef_of_ne w r hne⟩
  bytes s' hlive _ hne hX a := by
    simp only [slotBytes, slotObj_setSlotRef, slotRef_setSlotRef_of_ne w r hne, setSlotRef_log]
    cases hc : w.slotObj s' with
    | none => rfl
    | some c =>
        have ho := h.obj s' c hlive hc
        simp only
        rw [← ho.level]
        exact blkBytes_setSlotRef h hown r ho.lt ho.zero (hX c hc) a
  dirty x _ hd := by rwa [setSlotRef_isdirty]
  filDirty hd := by
    cases s with
    | sub p i => exact hd
    | fil f' a =>
        obtain rfl : f' = f := hf
        simpa [World.setSlotRef, World.setFil] using hd
  cacheFil := by rw [setSlotRef_cache]; exact .refl _

end slotFrame

/-! ### The node for a slot -/

/-- What is known about the node found for a slot that may be changed. -/
structure Found (E : Env) (f : ℕ) (X : Set ℕ) (w : World) (level : ℕ) (s : Slot) (n : ℕ)
    (w' : World) : Prop where
  inv : BInv E X w'
  lt : n < w'.nblk
  zero : (w'.blk n).zero = false
  levelEq : (w'.blk n).level = level
  only : ∀ s', w'.Live s' → w'.slotObj s' = some n → s' = s
  frame : Frame E f X X {s} w w'
  ref : w'.slotRef s = w.slotRef s
  node : ∀ o < span level, blkBytes E w' level n o = slotBytes E w level s o
  slot : ∀ o < span level, slotBytes E w' level s o = slotBytes E w level s o
  held : w'.slotObj s = some n ∨ w'.slotObj s = none

/-- The slot a node is found for: in hand, and below the other nodes in hand. -/
structure SlotIn (E : Env) (f : ℕ) (X : Set ℕ) (w : World) (level : ℕ) (s : Slot) : Prop where
  inv : BInv E X w
  live : w.Live s
  owner : s.OwnerIn X
  ofFile : s.OfFile f
  levelEq : w.slotLevel s = level
  above : ∀ x ∈ X, level < (w.blk x).level

section found

variable {f : ℕ} {X : Set ℕ} {w : World} {level : ℕ} {s : Slot}

theorem SlotIn.stored (h : SlotIn E f X w level s) (hr : w.slotRef s ≠ .nil) :
    Stored w.log (w.slotRef s) (.blk level) := by
  rw [← h.levelEq]
  exact h.inv.refOk s h.live hr

theorem BInv.lt_of_mem (h : BInv E X w) : ∀ x ∈ X, x < w.nblk := fun x hx => (h.hand x hx).1

/-- The node is the one in the slot. -/
theorem SlotIn.found_held (h : SlotIn E f X w level s) {n : ℕ} (hn : w.slotObj s = some n) :
    Found E f X w level s n w := by
  have ho := h.inv.obj s n h.live hn
  refine ⟨h.inv, ho.lt, ho.zero, ho.level.trans h.levelEq,
    fun s' hs' hn' => h.inv.objUniq s' s n hs' h.live hn' hn, .refl h.inv h.inv.lt_of_mem, rfl, ?_,
    fun _ _ => rfl, .inl hn⟩
  intro o _
  simp only [slotBytes, hn]

/-- The node was found through the reference in the slot. -/
theorem SlotIn.found_faulted (h : SlotIn E f X w level s) (hn : w.slotObj s = none) {n : ℕ}
    {w' : World} (hf : Faulted E X w level (w.slotRef s) n w') : Found E f X w level s n w' := by
  refine ⟨hf.inv, hf.lt, hf.zero, hf.levelEq, fun s' hs' hn' => absurd hn' (hf.free s' hs'),
    hf.grew.frame h.inv h.inv.lt_of_mem, hf.grew.slotRef h.live, ?_, ?_, ?_⟩
  · intro o ho
    simp only [slotBytes, hn]
    exact hf.bytes o ho
  · intro o _
    have := hf.grew.slotBytes h.inv h.live o
    rwa [h.levelEq] at this
  · right
    rw [hf.grew.slotObj h.live]
    exact hn

theorem blkBytes_fresh {n : ℕ} (hb : ∃ o, w.blk n = { BlkNode.fresh level with blkobj := o } ∧
      ∀ i, o i = none) (hnil : getBlock .nil w.log = none) (o : ℕ) :
    blkBytes E w level n o = 0 := by
  obtain ⟨obj, hb, hobj⟩ := hb
  cases level with
  | zero =>
      simp only [blkBytes, hb, BlkNode.fresh, byteAt]
      split <;> rfl
  | succ level =>
      simp only [blkBytes, hb, BlkNode.fresh, hobj, storeBytes_nil hnil]
      split <;> rfl

/-- The node is a new one, which the slot now holds. -/
theorem SlotIn.found_fresh (h : SlotIn E f X w level s) (hn : w.slotObj s = none)
    (hr : w.slotRef s = .nil) {b : ℕ} :
    let w₁ := (w.alloc (.fresh level)).setSlotObj s (some w.nblk)
    Found E f X w level s w.nblk
      (w₁.setFil f { w₁.fil f with inode := { (w₁.fil f).inode with blocks := b } }) := by
  intro w₁
  have hlive := live_alloc_of_live (b := .fresh level) h.live
  have hself : (w.alloc (.fresh level)).blk w.nblk = .fresh level := alloc_blk_self _ _
  -- The new node, before it is in the slot.
  have halloc : BInv E X (w.alloc (.fresh level)) := by
    refine h.inv.alloc (fun _ => ⟨fun _ => rfl, ?_, ?_, ?_, ?_⟩) (fun hz => absurd hz (by simp [BlkNode.fresh]))
    · intro hmem
      exact h.inv.disk.randNe _ hmem BlockRef.iv_nil
    · intro x hx
      rw [show (BlkNode.fresh level).ref = .nil from rfl, h.inv.disk.nilFree] at hx
      simp at hx
    · intro _ i hi
      exact absurd rfl hi
    · intro hd
      simp [BlkNode.fresh] at hd
  have hfree : ∀ s', (w.alloc (.fresh level)).Live s' →
      (w.alloc (.fresh level)).slotObj s' ≠ some w.nblk := by
    intro s' hs' hn'
    rcases live_alloc hs' with hs | ⟨i, rfl⟩
    · rw [(live_alloc_of_live hs).2.1] at hn'
      exact Nat.lt_irrefl _ (h.inv.obj s' _ hs hn').lt
    · simp [World.slotObj, BlkNode.fresh] at hn'
  have hown : w.nblk ∉ X := fun hmem => Nat.lt_irrefl _ (h.inv.hand _ hmem).1
  have hinv₁ : BInv E X w₁ := by
    refine halloc.setSlotObj h.owner (some w.nblk) ?_ ?_
    · rintro n ⟨⟩
      refine ⟨Nat.lt_succ_self _, by rw [hself]; rfl, ?_, fun _ => by rw [hself]; rfl, ?_⟩
      · rw [hself, hlive.2.2.2, h.levelEq]
        rfl
      · intro r hr'
        exact Nat.lt_irrefl _ (h.inv.key r _ hr').lt
    · rintro n ⟨⟩ s' hs' hn'
      exact absurd hn' (hfree s' hs')
  have hblk₁ : w₁.blk w.nblk = .fresh level := by
    rw [setSlotObj_blk_of_not_mem h.owner _ hown, hself]
  generalize hw₂ : w₁.setFil f { w₁.fil f with
    inode := { (w₁.fil f).inode with blocks := b } } = w₂
  have hsame : SameShape w₁ w₂ := by
    subst hw₂
    exact SameShape.setFil w₁ rfl rfl
  have hblk₂ : w₂.blk = w₁.blk := by subst hw₂; rfl
  have hinv₂ : BInv E X w₂ :=
    hinv₁.sameShape hsame (fun m => .inl (by rw [hblk₂])) (fun m _ _ => by rw [hblk₂])
  have hframe₂ : Frame E f X X {s} w₁ w₂ := by
    refine hsame.frame hinv₁ (fun _ h => h) (by subst hw₂; rfl) (fun m _ _ => by rw [hblk₂])
      (fun m => by rw [hblk₂]) ?_ ?_ (fun x _ hd => by rw [hblk₂]; exact hd) ?_
    · intro g hg
      subst hw₂
      simp [World.setFil, hg]
    · subst hw₂
      simp [World.setFil]
    · subst hw₂
      simp [World.setFil]
  have hnil : getBlock .nil w₂.log = none := hinv₂.disk.nilFree
  have hobj₂ : w₂.slotObj s = some w.nblk := by
    rw [hsame.slotObj]
    exact slotObj_setSlotObj_self _ _ _
  have hzero : ∀ o, blkBytes E w₂ level w.nblk o = 0 := by
    intro o
    refine blkBytes_fresh ⟨(BlkNode.fresh level).blkobj, ?_, fun _ => rfl⟩ hnil o
    rw [hblk₂, hblk₁]
  have hold : ∀ o, slotBytes E w level s o = 0 := by
    intro o
    simp only [slotBytes, hn, hr]
    exact storeBytes_nil h.inv.disk.nilFree level o
  refine ⟨hinv₂, ?_, ?_, ?_, ?_, ?_, ?_, ?_, ?_, .inl hobj₂⟩
  · rw [hsame.nblk]
    simp [w₁, World.alloc]
  · rw [hblk₂, hblk₁]; rfl
  · rw [hblk₂, hblk₁]; rfl
  · intro s' hs' hn'
    exact hinv₂.objUniq s' s _ hs' ((hsame.live s).2 (by simpa [w₁] using hlive.1)) hn' hobj₂
  · have h₀ : Frame E f X X {s} w (w.alloc (.fresh level)) :=
      (Grew.alloc w _).frame h.inv h.inv.lt_of_mem
    exact (h₀.trans (frame_setSlotObj halloc h.owner h.ofFile _)).trans hframe₂
  · rw [hsame.slotRef]
    simp only [w₁, slotRef_setSlotObj]
    exact hlive.2.2.1
  · intro o _
    rw [hzero, hold]
  · intro o _
    simp only [slotBytes, hobj₂]
    rw [hzero, ← hold o, slotBytes]

/-- **The node for a slot of a traversal that may change it.** -/
theorem wp_findBlk_modify {V : Type} {t : Traversal V} (ht : t.modifyX = true) (hf : t.fn = f)
    (h : SlotIn E f X w level s) {F : Exn → World → Prop} :
    wp (findBlk E t level s) (Found E f X w level s) F w := by
  simp only [findBlk, wp_bind, wp_get]
  cases hn : w.slotObj s with
  | some n =>
      have hfound := h.found_held hn
      simp only [castBlk, wp_bind, wp_get, hfound.levelEq, if_true, wp_pure]
      exact hfound
  | none =>
      by_cases hr : w.slotRef s = .nil
      · simp only [hr, ne_eq, not_true_eq_false, if_false, ht, if_true, allocBlk, setSlotObj,
          modifyINode, wp_bind, wp_get, wp_set, wp_modify, wp_pure, hf]
        exact h.found_fresh hn hr
      · simp only [hr, ne_eq, not_false_eq_true, if_true]
        refine wp_mono (wp_faultBlk h.inv t.nocache (h.stored hr) ?_ (F := F)) ?_ (fun _ _ hF => hF)
        · intro x hx hl
          have := h.above x hx
          omega
        · intro n w' hfault
          exact h.found_faulted hn hfault

end found

/-! ### Keeping a changed node -/

/-- The node that has the slot is dirty. -/
def World.OwnerDirty (w : World) : Slot → Prop
  | .fil f _ => (w.fil f).isdirty = true
  | .sub p _ => (w.blk p).isdirty = true

section keep

variable {f : ℕ} {X : Set ℕ} {w : World} {s : Slot} {n : ℕ}

/-- The key of a node holds a block node if it holds anything. -/
theorem BInv.isBlk_of_ref (h : BInv E X w) (hn : n < w.nblk) (hz : (w.blk n).zero = false)
    {o : Obj} (ho : w.cache.nodemap (w.blk n).ref = some o) : o.IsBlk := by
  cases o with
  | blk m => exact ⟨m, rfl⟩
  | fil g =>
      obtain ⟨b, hb⟩ := h.keyFil _ g ho
      have := h.nodeKind n hn hz _ hb
      simp at this

/-- Forgetting the key of a node, which then is not in the cache. -/
theorem wp_cacheRemove_ref (h : BInv E X w) (hn : n < w.nblk) (hz : (w.blk n).zero = false)
    {Q : Unit → World → Prop} {F : Exn → World → Prop}
    (hQ : ∀ c, BInv E X (w.setCache c) → SameFil w.cache c →
      (∀ r, c.nodemap r ≠ some (.blk n)) → Q () (w.setCache c)) :
    wp (cacheRemove (w.blk n).ref) Q F w := by
  refine wp_cacheRemove (h.rep.placed fun o ho => h.isBlk_of_ref hn hz ho) ?_ ?_
  · intro hmiss
    have := hQ w.cache (by simpa [World.setCache] using h) (.refl _) ?_
    · simpa [World.setCache] using this
    · intro r hr
      rw [← (h.key r n hr).ref, hmiss] at hr
      simp at hr
  · intro o ho
    obtain ⟨m, rfl⟩ := h.isBlk_of_ref hn hz ho
    refine hQ _ (h.removed ho) (h.rep.sameFil_removed ho) ?_
    intro r hr
    by_cases heq : r = (w.blk n).ref
    · subst heq
      simp [BlockNodeCache.removed] at hr
    · simp only [BlockNodeCache.removed, Function.update_of_ne heq] at hr
      exact heq (h.key r n hr).ref.symm

/-- What a changed node that has been kept in its slot looks like. -/
structure Kept (E : Env) (f : ℕ) (X : Set ℕ) (w : World) (s : Slot) (n : ℕ) (w' : World) :
    Prop where
  inv : BInv E X w'
  frame : Frame E f X X {s} w w'
  obj : w'.slotObj s = some n
  ref : w'.slotRef s = w.slotRef s
  bytes : ∀ o, blkBytes E w' (w.blk n).level n o = blkBytes E w (w.blk n).level n o
  owner : w'.OwnerDirty s
  node : w'.blk n = w.blk n

/-- Setting the dirty flag of a node that is not a zero singleton. -/
theorem wp_setBlkDirty (hz : (w.blk n).zero = false) {d : Bool} {Q : Unit → World → Prop}
    {F : Exn → World → Prop} (hQ : Q () (w.setBlk n { w.blk n with isdirty := d })) :
    wp (setBlkDirty n d) Q F w := by
  rw [setBlkDirty, wp_bind, wp_get, hz]
  exact hQ

/-- Marking the owner of a slot dirty. -/
theorem wp_setOwnerDirty (h : BInv E X w) (hlive : w.Live s) (hown : s.OwnerIn X)
    (hfile : s.OfFile f) {F : Exn → World → Prop} :
    wp (setOwnerDirty s)
      (fun _ w' => BInv E X w' ∧ Frame E f X X ∅ w w' ∧ w'.OwnerDirty s ∧ w'.slotObj s = w.slotObj s ∧
        w'.slotRef s = w.slotRef s ∧ (∀ m, m ∉ X → w'.blk m = w.blk m) ∧ w'.cache = w.cache) F w := by
  -- In both cases only a dirty flag changes.
  have key : ∀ w', SameShape w w' → w'.outer = w.outer →
      (∀ m, (w'.blk m).ref = (w.blk m).ref) → (∀ m, m ∉ X → w'.blk m = w.blk m) →
      (∀ g, g ≠ f → w'.fil g = w.fil g) →
      w'.fil f = { w.fil f with isdirty := (w'.fil f).isdirty } →
      (∀ x, (w.blk x).isdirty = true → (w'.blk x).isdirty = true) →
      ((w.fil f).isdirty = true → (w'.fil f).isdirty = true) → w'.OwnerDirty s →
      BInv E X w' ∧ Frame E f X X ∅ w w' ∧ w'.OwnerDirty s ∧ w'.slotObj s = w.slotObj s ∧
        w'.slotRef s = w.slotRef s ∧ (∀ m, m ∉ X → w'.blk m = w.blk m) ∧ w'.cache = w.cache := by
    intro w' hs hout href hoff hother hf hd hfd hod
    refine ⟨h.sameShape hs (fun m => .inl (href m)) (fun m _ => hoff m), ?_, hod, hs.slotObj s,
      hs.slotRef s, hoff, hs.cache⟩
    refine hs.frame h (fun _ h => h) hout (fun m _ => hoff m) href hother ?_ (fun x _ => hd x) hfd
    rw [hf]
  cases s with
  | fil g a =>
      obtain rfl : g = f := hfile
      simp only [setOwnerDirty, setFilDirty, wp_modify]
      refine key _ (.setFil w rfl rfl) rfl (fun _ => rfl) (fun _ _ => rfl)
        (fun k hk => setFil_of_ne w _ hk) ?_ (fun _ hd => hd) ?_ ?_
      · rw [setFil_self]
      · rw [setFil_self]
        exact fun _ => rfl
      · simp [World.OwnerDirty]
  | sub p i =>
      rw [setOwnerDirty]
      refine wp_setBlkDirty (h.hand p hown).2 ?_
      refine key _ (.setBlk w rfl rfl rfl rfl) rfl ?_ ?_ (fun _ _ => rfl) rfl ?_ (fun hd => hd) ?_
      · intro m
        by_cases hm : m = p
        · subst hm; rw [setBlk_self]
        · rw [setBlk_of_ne w _ hm]
      · intro m hm
        exact setBlk_of_ne w _ (fun hmp => hm (hmp ▸ hown))
      · intro m hd
        by_cases hm : m = p
        · subst hm; rw [setBlk_self]
        · rw [setBlk_of_ne w _ hm]; exact hd
      · simp [World.OwnerDirty]

/-- **A changed node is kept in its slot.** -/
theorem wp_keepDirty (h : BInv E (insert n X) w) (hlive : w.Live s) (hown : s.OwnerIn X)
    (hfile : s.OfFile f) (hX : n ∉ X) (hlevel : (w.blk n).level = w.slotLevel s)
    (habove : ∀ x ∈ X, (w.blk n).level < (w.blk x).level) (hdirty : (w.blk n).isdirty = true)
    (honly : ∀ s', w.Live s' → w.slotObj s' = some n → s' = s) {F : Exn → World → Prop} :
    wp (keepDirty s n) (fun _ => Kept E f X w s n) F w := by
  obtain ⟨hn, hz⟩ := h.hand n (.inl rfl)
  simp only [keepDirty, wp_bind, wp_get]
  refine wp_cacheRemove_ref h hn hz ?_
  intro c hc hmap hfree
  -- Out of the cache and dirty, the node can be let go of before it goes into the slot.
  have h₁ : BInv E X (w.setCache c) := by
    refine hc.dropHand (fun _ _ _ => hdirty) (fun r hr => absurd hr (hfree r)) ?_ ?_
    · intro hd
      rw [World.setCache_blk, hdirty] at hd
      simp at hd
    · intro p hp i hl hpi
      have := hc.slotLevel_sub hl hpi
      have := habove p hp
      simp only [World.setCache_blk] at *
      omega
  have hlive₁ : (w.setCache c).Live s := hlive
  have h₂ : BInv E X ((w.setCache c).setSlotObj s (some n)) := by
    refine h₁.setSlotObj hown (some n) ?_ ?_
    · rintro m ⟨⟩
      exact ⟨hn, hz, hlevel, fun _ => hdirty, hfree⟩
    · rintro m ⟨⟩ s' hs' hm
      exact honly s' hs' hm
  have hf₁ : Frame E f X X {s} w (w.setCache c) :=
    (Grew.setCache hmap).frame h (fun x hx => h.lt_of_mem x (.inr hx))
  have hf₂ := frame_setSlotObj h₁ hown hfile (some n)
  simp only [setSlotObj]
  refine wp_mono (wp_setOwnerDirty h₂ (by simpa using hlive₁) hown hfile (F := F)) ?_ (fun _ _ hF => hF)
  rintro - w' ⟨hinv, hf₃, hod, hobj, href, hoff, -⟩
  refine ⟨hinv, (hf₁.trans hf₂).trans (hf₃.mono (fun _ h => h) (fun _ h => h) (by simp)), ?_, ?_, ?_,
    hod, ?_⟩
  · rw [hobj]
    exact slotObj_setSlotObj_self _ _ _
  · rw [href, slotRef_setSlotObj]
    cases s <;> rfl
  · intro o
    have e₁ : blkBytes E w' (w.blk n).level n o
        = blkBytes E ((w.setCache c).setSlotObj s (some n)) (w.blk n).level n o :=
      blkBytes_frame h₂ (outer_log hf₃.outer) X h₂.upClosed (fun m _ => hoff m) _ n
        (by simpa using hn) (by simpa using hz) (by simp) hX o
    have e₂ := blkBytes_setSlotObj h₁ hown (some n) (m := n) hn hz hX o
    simp only [World.setCache_blk, blkBytes_setCache] at e₂
    rw [e₁, e₂]
  · rw [hoff n hX]
    cases s with
    | fil g a => rfl
    | sub p i =>
        have hne : n ≠ p := fun he => hX (he ▸ hown)
        exact Function.update_of_ne hne _ _

end keep

end UTFS

end Utopfs
