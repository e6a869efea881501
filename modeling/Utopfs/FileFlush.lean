/-
**Flushing and loading file nodes.**

An inode block holds everything of a file node but its handles.  Once the blocks below have been
flushed there are none left, so that the node made from the stored block has the same bytes.

Main definitions:

* `UTFS.decodeFile` — the file node in a stored inode block;
* `UTFS.FileCoherent` — a file node agrees with its stored block;
* `UTFS.FileFlushed` — what the flush of a file leaves alone, interrupted or not;
* `UTFS.nodeBytes` — the bytes of a file node without handles.

Main results:

* `UTFS.wp_persistFile`, `UTFS.wp_bnFlushFile` — a file node is flushed; its bytes and those of all
  other files stay the same;
* `UTFS.wp_loadFileNode` — a file node is made from its stored block.
-/

import Utopfs.Flush

set_option relaxedAutoImplicit false
set_option autoImplicit false

namespace Utopfs

namespace UTFS

open Prog

variable {E : Env}

/-! ### Stored file nodes -/

variable (E) in
/-- The file node in the block stored under a reference. -/
def decodeFile (log : List Effect) (r : BlockRef) : Option FileNode :=
  (decode E log r).bind fun b => (E.parseINode (unpackMsg b)).map (FileNode.stored r b)

/-- A node as `FileNode` sees it. -/
def FileNode.bare (x : FileNode) : FileNode := { x with cls := .file, dir := [], dirty := [] }

variable (E) in
/-- A file node agrees with the block stored under its reference. -/
structure FileCoherent (w : World) (f : ℕ) : Prop where
  stored : Stored w.log (w.fil f).ref .inode
  decoded : decodeFile E w.log (w.fil f).ref = some (w.fil f).bare

theorem LogLe.decodeFile {log log' : List Effect} (h : LogLe log log') {r : BlockRef} {k : Kind}
    (hs : Stored log r k) : decodeFile E log' r = UTFS.decodeFile E log r := by
  rw [UTFS.decodeFile, UTFS.decodeFile, h.decode E hs]

/-- The store may grow, and the node stay as it is. -/
theorem FileCoherent.logLe {w w' : World} {f : ℕ} (h : FileCoherent E w f)
    (hle : LogLe w.log w'.log) (hf : w'.fil f = w.fil f) : FileCoherent E w' f where
  stored := by
    rw [hf]
    exact hle.stored h.stored
  decoded := by
    rw [hf, hle.decodeFile h.stored]
    exact h.decoded

theorem FileCoherent.objs {w : World} {f : ℕ} (h : FileCoherent E w f) (s : FSlot) :
    (w.fil f).objs s = none := by
  have hd := h.decoded
  simp only [decodeFile, Option.bind_eq_some_iff, Option.map_eq_some_iff] at hd
  obtain ⟨b, -, i, -, hx⟩ := hd
  exact (congrFun (congrArg FileNode.objs hx) s).symm

theorem FileCoherent.clean {w : World} {f : ℕ} (h : FileCoherent E w f) :
    (w.fil f).isdirty = false := by
  have hd := h.decoded
  simp only [decodeFile, Option.bind_eq_some_iff, Option.map_eq_some_iff] at hd
  obtain ⟨b, -, i, -, hx⟩ := hd
  exact (congrArg FileNode.isdirty hx).symm

/-- The references of a stored file node name stored blocks. -/
theorem DiskOk.decodeFile_refs {log : List Effect} {rand : List IV} (h : DiskOk E log rand)
    {r : BlockRef} (hs : Stored log r .inode) {x : FileNode} (hx : decodeFile E log r = some x)
    (s : FSlot) (hr : x.refs s ≠ .nil) : Stored log (x.refs s) (.blk s.level) := by
  obtain ⟨b, hb⟩ := hs
  simp only [decodeFile, decode, hb, Option.map_some, Option.bind_some, Option.map_eq_some_iff] at hx
  obtain ⟨i, -, rfl⟩ := hx
  exact h.fileRefs r b hb s hr

variable (E) in
/-- The bytes of a file node without handles. -/
def nodeBytes (log : List Effect) (x : FileNode) (a : ℕ) : UInt8 :=
  if a < 4096 then byteAt x.inl a
  else
    match FSlot.at a with
    | some s => storeBytes E log s.level (x.refs s) (a - s.base)
    | none => 0

theorem fileBytes_eq_nodeBytes {w : World} {f : ℕ} (h : ∀ s, (w.fil f).objs s = none) (a : ℕ) :
    fileBytes E w f a = nodeBytes E w.log (w.fil f) a := by
  rw [fileBytes, nodeBytes]
  split
  case isTrue => rfl
  case isFalse =>
    cases FSlot.at a with
    | none => rfl
    | some s => simp only [slotBytes, World.slotObj, World.slotRef, h]

theorem nodeBytes_bare (log : List Effect) (x : FileNode) (a : ℕ) :
    nodeBytes E log x.bare a = nodeBytes E log x a := rfl

/-- Later puts do not change the bytes of a stored file. -/
theorem nodeBytes_mono {log log' : List Effect} {rand : List IV} (hd : DiskOk E log rand)
    (hle : LogLe log log') (hnil : getBlock .nil log' = none) {x : FileNode}
    (hx : ∀ s, x.refs s ≠ .nil → Stored log (x.refs s) (.blk s.level)) (a : ℕ) :
    nodeBytes E log' x a = nodeBytes E log x a := by
  rw [nodeBytes, nodeBytes]
  split
  case isTrue => rfl
  case isFalse =>
    cases FSlot.at a with
    | none => rfl
    | some s => exact storeBytes_mono hd hle hnil _ _ (hx s) _

/-! ### New file nodes -/

section alloc

variable {X : Set ℕ} {w : World} {x : FileNode}

/-- The heap with a new file node. -/
def World.allocFil (w : World) (x : FileNode) : World :=
  { w.setFil w.nfil x with nfil := w.nfil + 1 }

theorem allocFil_self (w : World) (x : FileNode) : (w.allocFil x).fil w.nfil = x := setFil_self w _ _

theorem allocFil_of_lt (w : World) (x : FileNode) {g : ℕ} (hg : g < w.nfil) :
    (w.allocFil x).fil g = w.fil g := setFil_of_ne w x (Nat.ne_of_lt hg)

/-- A slot of the new node, or an old one. -/
theorem live_allocFil {s : Slot} (hs : (w.allocFil x).Live s) :
    (w.Live s ∧ (w.allocFil x).slotObj s = w.slotObj s ∧ (w.allocFil x).slotRef s = w.slotRef s) ∨
      ∃ a, s = .fil w.nfil a := by
  cases s with
  | sub n i => exact .inl ⟨hs, rfl, rfl⟩
  | fil g a =>
      have hlt : g < w.nfil + 1 := hs
      rcases Nat.lt_succ_iff_lt_or_eq.1 hlt with hg | rfl
      · refine .inl ⟨hg, ?_, ?_⟩
        · simp only [World.slotObj, allocFil_of_lt w x hg]
        · simp only [World.slotRef, allocFil_of_lt w x hg]
      · exact .inr ⟨a, rfl⟩

/-- **A new file node without handles.** -/
theorem BInv.allocFil (h : BInv E X w) (hobjs : ∀ s, x.objs s = none)
    (hrefs : ∀ s, x.refs s ≠ .nil → Stored w.log (x.refs s) (.blk s.level)) :
    BInv E X (w.allocFil x) := by
  have hold : ∀ s n, (w.allocFil x).Live s → (w.allocFil x).slotObj s = some n →
      w.Live s ∧ w.slotObj s = some n := by
    intro s n hs hn
    rcases live_allocFil hs with ⟨hl, ho, -⟩ | ⟨a, rfl⟩
    · exact ⟨hl, ho ▸ hn⟩
    · rw [World.slotObj, allocFil_self, hobjs] at hn
      simp at hn
  refine ⟨h.disk, h.rep, ?_, ?_, ?_, ?_, h.keyFil, h.nodeIv, h.nodeKind, ?_, ?_, h.zobj, h.hand,
    fun p hp q i hl hq => h.upClosed p hp q i hl hq⟩
  · intro s n hs hn
    obtain ⟨hl, hn'⟩ := hold s n hs hn
    have ho := h.obj s n hl hn'
    refine ⟨ho.lt, ho.zero, ho.level.trans ?_, ho.dirty, ho.uncached⟩
    cases s <;> rfl
  · intro s s' n hs hs' hn hn'
    obtain ⟨hl, h₁⟩ := hold s n hs hn
    obtain ⟨hl', h₂⟩ := hold s' n hs' hn'
    exact h.objUniq s s' n hl hl' h₁ h₂
  · intro s hs hr
    rcases live_allocFil hs with ⟨hl, -, he⟩ | ⟨a, rfl⟩
    · rw [he] at hr ⊢
      have := h.refOk s hl hr
      cases s <;> exact this
    · rw [World.slotRef, allocFil_self] at hr ⊢
      exact hrefs a hr
  · intro r n hr
    have hk := h.key r n hr
    exact ⟨hk.lt, hk.zero, hk.ref, hk.clean, hk.stored⟩
  · intro n hn hz hX hd
    exact (h.clean n hn hz hX hd).congr rfl rfl
      (fun o => @blkBytes_congr E w (w.allocFil x) rfl rfl _ n o)
  · intro n hn hz
    exact ⟨(h.zero n hn hz).data, (h.zero n hn hz).obj⟩

/-- The other files keep their bytes. -/
theorem fileBytes_allocFil (w : World) (x : FileNode) {g : ℕ} (hg : g < w.nfil) (a : ℕ) :
    fileBytes E (w.allocFil x) g a = fileBytes E w g a := by
  exact @fileBytes_of_fil E w (w.allocFil x) g rfl rfl (allocFil_of_lt w x hg) a

theorem fileBytes_allocFil_self (w : World) (hobjs : ∀ s, x.objs s = none) (a : ℕ) :
    fileBytes E (w.allocFil x) w.nfil a = nodeBytes E w.log x a := by
  rw [fileBytes_eq_nodeBytes, allocFil_self]
  · rfl
  · rw [allocFil_self]
    exact hobjs

/-- Reading a stored block. -/
theorem readBlock_run {r : BlockRef} {b : Block} {k : Kind} (hd : DiskOk E w.log w.rand)
    (hb : getBlock r w.log = some (b, k)) : readBlock E r w = .ok (E.decrypt r.iv b) w := by
  have hdig := hd.digest r b k hb
  simp [readBlock, bsBlockGet, validate, hb, hdig, bind_apply, get_apply, pure_apply]

/-- Reading a stored file node. -/
theorem readFileNode_run {r : BlockRef} (hd : DiskOk E w.log w.rand) (hs : Stored w.log r .inode)
    (hx : decodeFile E w.log r = some x) : readFileNode E r w = .ok x w := by
  obtain ⟨b, hb⟩ := hs
  simp only [decodeFile, decode, hb, Option.map_some, Option.bind_some, Option.map_eq_some_iff] at hx
  obtain ⟨i, hi, rfl⟩ := hx
  rw [readFileNode, bind_apply, readBlock_run hd hb]
  simp only [hi]
  rfl

/-- **A file node is made from its stored block.** -/
theorem loadFileNode_run {r : BlockRef} (hd : DiskOk E w.log w.rand) (hs : Stored w.log r .inode)
    (hx : decodeFile E w.log r = some x) :
    loadFileNode E r w = .ok w.nfil (w.allocFil x) := by
  rw [loadFileNode, bind_apply, readFileNode_run hd hs hx]
  rfl

end alloc

/-! ### Writing the inode -/

section persist

variable {X : Set ℕ} {w : World} {f : ℕ}

/-- The plain contents that are written for a file node. -/
def FileNode.contents (E : Env) (x : FileNode) : Block :=
  packINode (padded (E.serializeINode x.inode)) x.inl x.refs x.qinref

/-- The node has taken its new reference; the block has not been put yet. -/
def World.rereferencedFil (w : World) (f : ℕ) (rand : List IV) (full : List Bool) (r : BlockRef) :
    World :=
  { w.setFil f { w.fil f with ref := r } with rand := rand, full := full }

/-- A file node is marked clean. -/
def World.cleanFil (w : World) (f : ℕ) : World := w.setFil f { w.fil f with isdirty := false }

theorem persistFile_run (w : World) (f : ℕ) :
    persistFile E f w =
      if 3328 < (E.serializeINode (w.fil f).inode).length then
        .error (.internalError "inode serialization error") w
      else
        match w.rand with
        | [] => .error (.internalError "trouble in RAND_pseudo_bytes") w
        | iv :: rand =>
            let buf := E.encrypt iv ((w.fil f).contents E)
            let r := BlockRef.make (E.digest buf) iv
            match w.full with
            | true :: full =>
                .error (.noSpaceError "insufficent space") (w.rereferencedFil f rand full r)
            | _ =>
                .ok r (((w.rereferencedFil f rand w.full.tail r).put r buf .inode).cleanFil f) := by
  by_cases hlen : 3328 < (E.serializeINode (w.fil f).inode).length
  · simp [persistFile, bind_apply, get_apply, throw_apply, hlen]
  · cases hr : w.rand with
    | nil => simp [persistFile, persistBlock, randomFill, bind_apply, get_apply, throw_apply, hlen, hr]
    | cons iv rand =>
        cases hf : w.full with
        | nil =>
            simp [-bind_pure_comp, persistFile, persistBlock, randomFill, bsBlockPut, setFilDirty, hlen,
              hr, hf, bind_apply, get_apply, set_apply, modify_apply, pure_apply, World.put,
              World.rereferencedFil, World.cleanFil, World.setFil, FileNode.contents]
        | cons b full =>
            cases b with
            | true =>
                simp [-bind_pure_comp, persistFile, persistBlock, randomFill, bsBlockPut, hlen, hr, hf,
                  bind_apply, get_apply, set_apply, modify_apply, pure_apply, throw_apply,
                  World.rereferencedFil, World.setFil, FileNode.contents]
            | false =>
                simp [-bind_pure_comp, persistFile, persistBlock, randomFill, bsBlockPut, setFilDirty,
                  hlen, hr, hf, bind_apply, get_apply, set_apply, modify_apply, pure_apply, World.put,
                  World.rereferencedFil, World.cleanFil, World.setFil, FileNode.contents]

/-- The node in a block written for a file node. -/
theorem decodeFile_contents {log : List Effect} {iv : IV} {x : FileNode}
    (hlen : (E.serializeINode x.inode).length ≤ 3328) (hobjs : ∀ s, x.objs s = none)
    (hclean : x.isdirty = false) (href : x.ref.iv = iv)
    (hget : getBlock x.ref log = some (E.encrypt iv (x.contents E), .inode)) :
    decodeFile E log x.ref = some x.bare := by
  have hdec : decode E log x.ref = some (x.contents E) := by
    rw [decode, hget, Option.map_some, href, E.decrypt_encrypt]
  have hparse : E.parseINode (unpackMsg (x.contents E)) = some x.inode := by
    rw [FileNode.contents, unpackMsg_packINode]
    exact E.parseINode_serializeINode x.inode hlen
  have hobjs' : x.objs = fun _ => none := funext hobjs
  rw [decodeFile, hdec, Option.bind_some, hparse, Option.map_some]
  simp only [FileNode.stored, FileNode.contents, unpackInl_packINode, unpackRef_packINode,
    unpackRefAt_packINode_qin, FileNode.bare, hobjs', hclean]

end persist

/-! ### Flushing a file -/

variable (E) in
/-- What the flush of the file `f` leaves alone, interrupted or not. -/
structure FileFlushed (f : ℕ) (w w' : World) : Prop where
  still : w'.still = w.still
  nblk : w'.nblk = w.nblk
  logLe : LogLe w.log w'.log
  rand : w'.rand.Sublist w.rand
  cacheFil : SameFil w.cache w'.cache
  other : ∀ g, g ≠ f → w'.fil g = w.fil g
  own : w'.fil f = { w.fil f with
    ref := (w'.fil f).ref, isdirty := (w'.fil f).isdirty, refs := (w'.fil f).refs,
    objs := (w'.fil f).objs }
  bytes : ∀ g, g < w.nfil → ∀ a, fileBytes E w' g a = fileBytes E w g a

section flush

variable {X : Set ℕ} {w w' : World} {f : ℕ}

theorem FileFlushed.nfil (h : FileFlushed E f w w') : w'.nfil = w.nfil :=
  congrArg (fun x => x.2.2.2.1) h.still

theorem FileFlushed.refl (w : World) : FileFlushed E f w w where
  still := rfl
  nblk := rfl
  logLe := .refl _
  rand := List.Sublist.refl _
  cacheFil := .refl _
  other _ _ := rfl
  own := rfl
  bytes _ _ _ := rfl

theorem FileFlushed.trans {w'' : World} (h : FileFlushed E f w w') (h' : FileFlushed E f w' w'') :
    FileFlushed E f w w'' where
  still := h'.still.trans h.still
  nblk := h'.nblk.trans h.nblk
  logLe := h.logLe.trans h'.logLe
  rand := h'.rand.trans h.rand
  cacheFil := h.cacheFil.trans h'.cacheFil
  other g hg := (h'.other g hg).trans (h.other g hg)
  own := by rw [h'.own, h.own]
  bytes g hg a := (h'.bytes g (by rw [h.nfil]; exact hg) a).trans (h.bytes g hg a)

/-- The flush of the blocks of a file. -/
theorem Flushed.fileFlushed {L : ℕ} (h : Flushed E L (filSlots f) w w') : FileFlushed E f w w' where
  still := h.still
  nblk := h.nblk
  logLe := h.logLe
  rand := h.rand
  cacheFil := h.cacheFil
  other g hg := by
    have hslot : ∀ s, (w'.fil g).objs s = (w.fil g).objs s ∧ (w'.fil g).refs s = (w.fil g).refs s := by
      intro s
      refine h.slots (.fil g s) ?_ (.inl trivial)
      rintro ⟨a, ha⟩
      injection ha with hgf
      exact hg hgf
    have hobjs : (w'.fil g).objs = (w.fil g).objs := funext fun s => (hslot s).1
    have hrefs : (w'.fil g).refs = (w.fil g).refs := funext fun s => (hslot s).2
    rw [h.fil g, hobjs, hrefs]
  own := by rw [h.fil f]
  bytes g hg a := fileBytes_congr (by rw [h.fil g]) (fun s o ho => h.files g s hg o ho) a

theorem mem_fslots (s : FSlot) : s ∈ fslots := by
  cases s with
  | dir i => simp [fslots]
  | sin => simp [fslots]
  | din => simp [fslots]
  | tin => simp [fslots]

theorem FSlot.level_le (s : FSlot) : s.level ≤ 3 := by cases s <;> simp [FSlot.level]

/-- The blocks of a file are flushed. -/
theorem wp_flushSlots (h : BInv E ∅ w) (hf : f < w.nfil) :
    wp (forM fslots fun s => flushSlot (bnFlushBlk E s.level) (.fil f s))
      (fun _ w' => BInv E ∅ w' ∧ Flushed E 3 (filSlots f) w w' ∧ ∀ s, (w'.fil f).objs s = none)
      (fun e w' => FlushExn e ∧ BInv E ∅ w' ∧ Flushed E 3 (filSlots f) w w') w := by
  refine wp_mono (wp_forM (I := fun l w' => BInv E ∅ w' ∧ Flushed E 3 (filSlots f) w w' ∧
    ∀ s, s ∉ l → (w'.fil f).objs s = none) ?_ fslots w ⟨h, .refl w, ?_⟩) ?_ (fun _ _ hF => hF)
  · rintro s l w₁ ⟨h₁, hf₁, hdone⟩
    have hlive : w₁.Live (.fil f s) := by
      rw [hf₁.live]
      exact hf
    have hslot := wp_flushSlot (bnFlushBlk E s.level) h₁ hlive trivial (by simp) (by
      intro d hobj
      exact wp_bnFlushBlk s.level ∅ w₁ d _ ⟨h₁, hlive, hobj, trivial, rfl, by simp⟩)
    have hstep : ∀ w₂, Flushed E s.level {.fil f s} w₁ w₂ → Flushed E 3 (filSlots f) w w₂ := by
      intro w₂ hf₂
      refine hf₁.trans (hf₂.mono s.level_le ?_)
      intro s' hs' hne
      exact absurd ⟨s, by simpa using hs'⟩ hne
    refine wp_mono hslot ?_ (fun e w₂ hF => ⟨hF.1, hF.2.1, hstep w₂ hF.2.2⟩)
    rintro - w₂ ⟨h₂, hf₂, hnone⟩
    refine ⟨h₂, hstep w₂ hf₂, ?_⟩
    intro s' hs'
    by_cases heq : s' = s
    · subst heq
      exact hnone
    · have hs := hf₂.slots (.fil f s') (by simpa using heq) (.inl trivial)
      exact hs.1.trans (hdone s' (by simp [heq, hs']))
  · intro s hs
    exact absurd (mem_fslots s) hs
  · rintro - w₁ ⟨h₁, hf₁, hdone⟩
    exact ⟨h₁, hf₁, fun s => hdone s (by simp)⟩

/-- A change of the metadata of a file, and of what puts depend on. -/
theorem BInv.setMeta (h : BInv E X w) {x : FileNode} {rand : List IV} (full : List Bool)
    (hsub : rand.Sublist w.rand) (hr : x.refs = (w.fil f).refs) (ho : x.objs = (w.fil f).objs) :
    BInv E X { w.setFil f x with rand := rand, full := full } := by
  have hset : SameShape w (w.setFil f x) := .setFil w hr ho
  have hs : SameShape w { w.setFil f x with rand := rand, full := full } := ⟨hset.level, hset.zero,
    hset.blkref, hset.blkobj, hset.refs, hset.objs, rfl, rfl, rfl, rfl, hsub, rfl⟩
  exact h.sameShape hs (fun _ => .inl rfl) (fun _ _ _ => rfl)

theorem fileFlushed_setMeta {x : FileNode} {rand : List IV} (full : List Bool)
    (hsub : rand.Sublist w.rand)
    (hx : x = { w.fil f with ref := x.ref, isdirty := x.isdirty }) :
    FileFlushed E f w { w.setFil f x with rand := rand, full := full } where
  still := rfl
  nblk := rfl
  logLe := .refl _
  rand := hsub
  cacheFil := .refl _
  other g hg := setFil_of_ne w x hg
  own := by
    have hself : ({ w.setFil f x with rand := rand, full := full } : World).fil f = x :=
      setFil_self w f x
    rw [hself, hx]
  bytes g _ a := by
    rw [← fileBytes_setFil (E := E) w f (x := x) (by rw [hx]) (by rw [hx]) (by rw [hx]) g a]
    exact @fileBytes_of_fil E (w.setFil f x) { w.setFil f x with rand := rand, full := full } g
      rfl rfl rfl a

/-- How the flush of a file can fail: as that of a block, or because the inode is too long. -/
def FileFlushExn (E : Env) (x : FileNode) (e : Exn) : Prop :=
  FlushExn e ∨
    (3328 < (E.serializeINode x.inode).length ∧ e = .internalError "inode serialization error")

/-- The inode block of a file without handles may be put. -/
theorem putOk_fil (h : BInv E X w) (hf : f < w.nfil) {iv : IV} {rand : List IV}
    (hrand : w.rand = iv :: rand) :
    PutOk E w.log rand (.make (E.digest (E.encrypt iv ((w.fil f).contents E))) iv)
      (E.encrypt iv ((w.fil f).contents E)) .inode := by
  have hd := h.disk
  rw [hrand] at hd
  refine hd.putOk ?_ ?_
  · intro level hk
    simp at hk
  · intro _ s hs
    rw [FileNode.contents, unpackRef_packINode] at hs ⊢
    exact h.refOk (.fil f s) hf hs

/-- The inode block has been put. -/
theorem BInv.persistedFil (h : BInv E X w) (hf : f < w.nfil) (hobjs : ∀ s, (w.fil f).objs s = none)
    (hlen : (E.serializeINode (w.fil f).inode).length ≤ 3328) {iv : IV} {rand : List IV}
    (hrand : w.rand = iv :: rand) (full : List Bool) :
    let buf := E.encrypt iv ((w.fil f).contents E)
    let r := BlockRef.make (E.digest buf) iv
    let w' := ((w.rereferencedFil f rand full r).put r buf .inode).cleanFil f
    BInv E X w' ∧ FileFlushed E f w w' ∧ r = (w'.fil f).ref ∧ FileCoherent E w' f := by
  intro buf r w'
  have hput : PutOk E w.log rand r buf .inode := putOk_fil h hf hrand
  have hsub : rand.Sublist w.rand := by rw [hrand]; exact List.sublist_cons_self _ _
  have h₁ : BInv E X (w.rereferencedFil f rand full r) := h.setMeta full hsub rfl rfl
  have hf₁ : FileFlushed E f w (w.rereferencedFil f rand full r) :=
    fileFlushed_setMeta full hsub rfl
  -- No block node has the new reference.
  obtain ⟨h₂, hf₂⟩ := h₁.flushed_put (L := 0) (S := filSlots f) hput (by
    intro n hn hnz hnr
    have := h.nodeIv n hn hnz
    change (w.blk n).ref = r at hnr
    rw [hnr, BlockRef.iv_make, hrand] at this
    exact absurd List.mem_cons_self this)
  have h₃ : BInv E X w' := h₂.setMeta full (List.Sublist.refl _) rfl rfl
  have hf₃ : FileFlushed E f ((w.rereferencedFil f rand full r).put r buf .inode) w' :=
    fileFlushed_setMeta full (List.Sublist.refl _) rfl
  have hself₂ : ((w.rereferencedFil f rand full r).put r buf .inode).fil f = { w.fil f with ref := r } :=
    setFil_self _ _ _
  have hself : w'.fil f = { w.fil f with ref := r, isdirty := false } := by
    change (World.setFil _ f _).fil f = _
    rw [setFil_self, hself₂]
  have hget : getBlock r w'.log = some (buf, .inode) := getBlock_put_self _ _ _ _
  refine ⟨h₃, (hf₁.trans hf₂.fileFlushed).trans hf₃, by rw [hself], ?_, ?_⟩
  · rw [hself]
    exact ⟨buf, hget⟩
  · rw [hself]
    exact decodeFile_contents (x := { w.fil f with ref := r, isdirty := false }) hlen hobjs rfl
      (BlockRef.iv_make _ _) hget

/-- **A file node without handles is written.** -/
theorem wp_persistFile (h : BInv E X w) (hf : f < w.nfil) (hobjs : ∀ s, (w.fil f).objs s = none) :
    wp (persistFile E f)
      (fun r w' => BInv E X w' ∧ FileFlushed E f w w' ∧ r = (w'.fil f).ref ∧ FileCoherent E w' f)
      (fun e w' => FileFlushExn E (w.fil f) e ∧ BInv E X w' ∧ FileFlushed E f w w' ∧
        (w'.fil f).isdirty = (w.fil f).isdirty) w := by
  rw [wp, persistFile_run]
  rcases Nat.lt_or_ge 3328 (E.serializeINode (w.fil f).inode).length with hlen | hlen
  · rw [if_pos hlen]
    exact ⟨.inr ⟨hlen, rfl⟩, h, .refl w, rfl⟩
  rw [if_neg (Nat.not_lt.2 hlen)]
  cases hrand : w.rand with
  | nil => exact ⟨.inl (.inr rfl), h, .refl w, rfl⟩
  | cons iv rand =>
      have hsub : rand.Sublist w.rand := by rw [hrand]; exact List.sublist_cons_self _ _
      cases hfull : w.full with
      | nil => exact h.persistedFil hf hobjs hlen hrand []
      | cons b full =>
          cases b with
          | true =>
              refine ⟨.inl (.inl rfl), h.setMeta full hsub rfl rfl, fileFlushed_setMeta full hsub rfl, ?_⟩
              change ((World.setFil w f _).fil f).isdirty = _
              rw [setFil_self]
          | false => exact h.persistedFil hf hobjs hlen hrand full

/-- **A file is flushed.** -/
theorem wp_bnFlushFile (h : BInv E ∅ w) (hf : f < w.nfil)
    (hclean : (w.fil f).isdirty = false → FileCoherent E w f) :
    wp (bnFlushFile E f)
      (fun r w' => BInv E ∅ w' ∧ FileFlushed E f w w' ∧ r = (w'.fil f).ref ∧ FileCoherent E w' f)
      (fun e w' => FileFlushExn E (w.fil f) e ∧ BInv E ∅ w' ∧ FileFlushed E f w w' ∧
        (w'.fil f).isdirty = true) w := by
  simp only [bnFlushFile, wp_bind, wp_get]
  cases hd : (w.fil f).isdirty with
  | false => exact ⟨h, .refl w, rfl, hclean hd⟩
  | true =>
      simp only [Bool.not_true, Bool.false_eq_true, if_false, wp_bind]
      refine wp_mono (wp_flushSlots h hf) ?_ ?_
      · rintro - w₁ ⟨h₁, hf₁, hobjs⟩
        have hnfil := hf₁.nfil
        refine wp_mono (wp_persistFile h₁ (by rw [hnfil]; exact hf) hobjs) ?_ ?_
        · rintro r w₂ ⟨h₂, hf₂, hr, hco⟩
          exact ⟨h₂, hf₁.fileFlushed.trans hf₂, hr, hco⟩
        · rintro e w₂ ⟨he, h₂, hf₂, hd₂⟩
          have hino : (w₁.fil f).inode = (w.fil f).inode := by rw [hf₁.fil f]
          rw [FileFlushExn, hino] at he
          refine ⟨he, h₂, hf₁.fileFlushed.trans hf₂, ?_⟩
          rw [hd₂, hf₁.fil f]
          exact hd
      · rintro e w₁ ⟨he, h₁, hf₁⟩
        refine ⟨.inl he, h₁, hf₁.fileFlushed, ?_⟩
        rw [hf₁.fil f]
        exact hd

end flush

end UTFS

end Utopfs
