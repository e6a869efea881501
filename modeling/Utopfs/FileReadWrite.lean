/-
**Reading and writing a file.**

`FileNode::read` and `FileNode::write` are traversals with the functors `ReadBTF` and `WriteBTF`.  Over
a range of offsets the first copies the bytes that are in its range and below the size of the file, the
second replaces the bytes in its range; both count.

Main results:

* `UTFS.readBTF_laws`, `UTFS.writeBTF_laws` — what the functors do;
* `UTFS.wp_fileRead` — the bytes of the file, up to its size;
* `UTFS.wp_fileWrite` — the bytes of the file and its size after a write;
* `UTFS.wp_fileWrite_within` — a write that returns is within the largest file.
-/

import Utopfs.FileBytes

set_option relaxedAutoImplicit false
set_option autoImplicit false

namespace Utopfs

namespace UTFS

open Prog

variable {E : Env}

/-! ### The functors -/

/-- `ReadBTF` over the offsets `[lo, hi)` of a file with the bytes `c` and the size `fsz`. -/
def readSem (size off fsz : ℕ) (c : ℕ → UInt8) (lo hi : ℕ) (v : ReadState) : ReadState where
  buf j := if max off lo ≤ off + j ∧ off + j < min (min (off + size) hi) fsz then c (off + j)
    else v.buf j
  retval := v.retval + (min (min (off + size) hi) fsz - max off lo)

theorem ReadState.ext' {v v' : ReadState} (hb : ∀ j, v.buf j = v'.buf j) (hr : v.retval = v'.retval) :
    v = v' := by
  cases v
  cases v'
  simp only at hb hr
  rw [funext hb, hr]

/-- The traversal of `FileNode::read`. -/
def readTraversal (f size off : ℕ) : Traversal ReadState where
  fn := f
  modifyX := false
  nocache := false
  rngoff := off
  rngsize := size
  btVisit := readBTF size off

theorem readBTF_laws (f size off fsz : ℕ) :
    VisitLaws (readTraversal f size off) fsz (fun _ b => b) (readSem size off fsz) where
  state := by
    intro v sz data blkoff c hc
    simp only [readTraversal, readBTF]
    split
    case isTrue h =>
      refine ReadState.ext' ?_ ?_
      · intro j
        simp only [readSem]
        rw [if_neg (by omega)]
      · simp only [readSem]
        omega
    case isFalse h =>
      refine ReadState.ext' ?_ rfl
      intro j
      simp only [readSem]
      by_cases hj : max off blkoff ≤ off + j ∧ off + j < min (min (off + size) (blkoff + sz)) fsz
      · have hlt : off + j - blkoff < sz := by omega
        rw [dif_pos ⟨hj.1, hj.2, hlt⟩, if_pos hj, ← hc ⟨off + j - blkoff, hlt⟩]
        congr 1
        simp only
        omega
      · rw [if_neg hj, dif_neg]
        exact fun h' => hj ⟨h'.1, h'.2.1⟩
  data := by
    intro v sz data blkoff j
    simp only [readTraversal, readBTF]
    split <;> rfl
  quiet := by
    intro v sz data blkoff _
    simp only [readTraversal, readBTF]
    split <;> rfl
  loud h := by simp [readTraversal] at h
  wr_out _ _ _ := rfl
  sem_nil c a v := by
    refine ReadState.ext' ?_ ?_
    · intro j
      simp only [readSem]
      rw [if_neg (by omega)]
    · simp only [readSem]
      omega
  sem_out c lo hi v h := by
    simp only [readTraversal, Traversal.rngend] at h
    refine ReadState.ext' ?_ ?_
    · intro j
      simp only [readSem]
      rw [if_neg (by omega)]
    · simp only [readSem]
      omega
  sem_append c lo mid hi v h₁ h₂ := by
    refine ReadState.ext' ?_ ?_
    · intro j
      simp only [readSem]
      by_cases hj : max off lo ≤ off + j ∧ off + j < min (min (off + size) hi) fsz
      · rw [if_pos hj]
        by_cases hm : off + j < mid
        · rw [if_neg (by omega), if_pos (by omega)]
        · rw [if_pos (by omega)]
      · rw [if_neg hj, if_neg (by omega), if_neg (by omega)]
    · simp only [readSem]
      omega
  sem_congr c c' lo hi v h := by
    refine ReadState.ext' ?_ rfl
    intro j
    simp only [readSem]
    split
    case isTrue hj => exact h _ (by omega) (by omega)
    case isFalse => rfl

/-- The bytes after a write of `data` at `off`. -/
def wrote (data : List UInt8) (off a : ℕ) (b : UInt8) : UInt8 :=
  if off ≤ a ∧ a < off + data.length then data.getD (a - off) 0 else b

/-- The traversal of `FileNode::write`. -/
def writeTraversal (f : ℕ) (data : List UInt8) (off : ℕ) : Traversal ℕ where
  fn := f
  modifyX := true
  nocache := false
  rngoff := off
  rngsize := data.length
  btVisit := writeBTF data off

theorem writeBTF_laws (f : ℕ) (data : List UInt8) (off fsz : ℕ) :
    VisitLaws (writeTraversal f data off) fsz (wrote data off)
      (fun _ lo hi v => v + (min (off + data.length) hi - max off lo)) where
  state := by
    intro v sz blk blkoff c _
    simp only [writeTraversal, writeBTF]
    split
    case isTrue h =>
      simp only
      omega
    case isFalse => rfl
  data := by
    intro v sz blk blkoff j
    have hj := j.2
    simp only [writeTraversal, writeBTF, wrote]
    split
    case isTrue h => rw [if_neg (by omega)]
    case isFalse h =>
      simp only
      by_cases hin : off ≤ blkoff + j.1 ∧ blkoff + j.1 < off + data.length
      · rw [if_pos hin, if_pos (by omega)]
      · rw [if_neg hin, if_neg (by omega)]
  quiet := by
    intro v sz blk blkoff h
    simp only [writeTraversal, writeBTF] at h ⊢
    split at h
    case isTrue hle => rw [if_pos hle]
    case isFalse => simp at h
  loud := by
    intro _ v sz blk blkoff h a h₁ h₂
    simp only [writeTraversal, writeBTF, Traversal.rngend] at h ⊢
    split at h
    case isTrue hle => omega
    case isFalse => simp at h
  wr_out := by
    intro a b h
    simp only [writeTraversal, Traversal.rngend] at h
    rw [wrote, if_neg (by omega)]
  sem_nil c a v := by omega
  sem_out c lo hi v h := by
    simp only [writeTraversal, Traversal.rngend] at h ⊢
    omega
  sem_append c lo mid hi v h₁ h₂ := by omega
  sem_congr _ _ _ _ _ _ := rfl

/-! ### Reading -/

section read

variable {V : Type} {f : ℕ} {t : Traversal V} {sem : (ℕ → UInt8) → ℕ → ℕ → V → V} {w : World}

/-- How reading a range of a file can stop: the traversal comes to a reference field in the range
below which it needs a zero singleton that is not set, or the range goes beyond the largest file. -/
def ReadStopped (E : Env) (f : ℕ) (w : World) (rngoff rngend : ℕ) (e : Exn) (w' : World) : Prop :=
  BInv E ∅ w' ∧ Grew w w' ∧
    ((e = .nullHandle ∧ ∃ (s : FSlot) (l : ℕ), rngoff < s.top ∧ s.base < rngend ∧
        w.HoleLevel s.level (.fil f s) l ∧ w.zobj l = none) ∨
      (e = .internalError "more indirect block traversal implementation required" ∧
        maxSize < rngend))

/-- How reading a file can fail: a zero singleton is not set, or the range goes beyond the largest
file. -/
def ReadFailed (E : Env) (w : World) (rngend : ℕ) (e : Exn) (w' : World) : Prop :=
  BInv E ∅ w' ∧ Grew w w' ∧
    ((e = .nullHandle ∧ ∃ l, l ≤ 3 ∧ w.zobj l = none) ∨
      (e = .internalError "more indirect block traversal implementation required" ∧
        maxSize < rngend))

theorem ReadStopped.failed {rngoff rngend : ℕ} {e : Exn} {w' : World}
    (h : ReadStopped E f w rngoff rngend e w') : ReadFailed E w rngend e w' := by
  obtain ⟨hinv, hg, ⟨he, s, l, -, -, hl, hz⟩ | hend⟩ := h
  · have hlev : s.level ≤ 3 := by cases s <;> simp [FSlot.level]
    exact ⟨hinv, hg, .inl ⟨he, l, hl.le.trans hlev, hz⟩⟩
  · exact ⟨hinv, hg, .inr hend⟩

theorem Grew.fileBytes {w' : World} (hg : Grew w w') (h : BInv E ∅ w) (hf : f < w.nfil) (a : ℕ) :
    fileBytes E w' f a = UTFS.fileBytes E w f a := by
  refine fileBytes_congr (by rw [hg.fil]) ?_ a
  intro s o _
  exact hg.slotBytes h (s := .fil f s) hf o

/-- The inline data are read and left as they are. -/
theorem wp_traverseInl_read (hlaws : VisitLaws t (w.fil f).inode.size (fun _ b => b) sem)
    (hfalse : ∀ v sz (data : Fin sz → UInt8) off,
      (t.btVisit v sz data off (w.fil f).inode.size).1 = false)
    {F : Exn → World → Prop} (v : V) :
    wp (traverseInl t f v) (fun v' w' => w' = w ∧ v' = sem (fileBytes E w f) 0 4096 v) F w := by
  rw [wp, traverseInl_run]
  by_cases hrng : t.rngoff < 4096
  · rw [if_pos hrng]
    have hdata : (t.btVisit v 4096 (w.fil f).inl 0 (w.fil f).inode.size).2.2 = (w.fil f).inl := by
      funext j
      exact hlaws.data v 4096 (w.fil f).inl 0 j
    simp only [hfalse, hdata, Bool.false_eq_true, if_false]
    refine ⟨by simp [World.setFil], hlaws.state v 4096 _ 0 _ ?_⟩
    intro j
    rw [Nat.zero_add, fileBytes_inl w f j.2]
    simp only [byteAt, j.2, dif_pos]
  · rw [if_neg hrng]
    exact ⟨rfl, (hlaws.sem_out _ _ _ v (.inl (by omega))).symm⟩

/-- A reference field of a file is read. -/
theorem wp_traverseSlot_fil (ht : t.modifyX = false) (hfn : t.fn = f)
    (hlaws : VisitLaws t (w.fil f).inode.size (fun _ b => b) sem)
    (hfalse : ∀ v sz (data : Fin sz → UInt8) off,
      (t.btVisit v sz data off (w.fil f).inode.size).1 = false)
    (h : BInv E ∅ w) (hf : f < w.nfil) {s : FSlot} (hrng : t.rngoff < s.top) (v : V) :
    wp (traverseSlot E t (rbTraverse E t s.level) s.level (.fil f s) s.base v)
      (fun v' w' => BInv E ∅ w' ∧ Grew w w' ∧ v' = sem (fileBytes E w f) s.base s.top v)
      (ZeroMissing E w (w.HoleLevel s.level (.fil f s))) w := by
  have hslot : SlotReadable w s.level (.fil f s) := .inl ⟨hf, rfl⟩
  refine wp_mono (wp_traverseSlot_read ht hlaws h hslot v ?_) ?_ (fun _ _ hF => hF)
  · intro n w₁ h₁ hr₁ hg₁
    refine wp_rbTraverse_read ht hfn hlaws hfalse s.level w₁ n s.base v ?_ h₁ hr₁ hrng
    rw [hg₁.fil]
  · rintro v₁ w₁ ⟨h₁, hg₁, hv₁⟩
    refine ⟨h₁, hg₁, hv₁.trans (hlaws.sem_congr _ _ _ _ _ ?_)⟩
    intro a h₁ h₂
    have ho : a - s.base < span s.level := by omega
    have ha : s.base + (a - s.base) = a := by omega
    rw [← fileBytes_slot w f ho, ha]

/-- **`FileNode::rb_traverse` without `RB_MODIFY_X`.** -/
theorem wp_rbTraverseFile_read (ht : t.modifyX = false) (hfn : t.fn = f)
    (hlaws : VisitLaws t (w.fil f).inode.size (fun _ b => b) sem)
    (hfalse : ∀ v sz (data : Fin sz → UInt8) off,
      (t.btVisit v sz data off (w.fil f).inode.size).1 = false)
    (h : BInv E ∅ w) (hf : f < w.nfil) (v : V) :
    wp (rbTraverseFile E t f v)
      (fun r w' => BInv E ∅ w' ∧ Grew w w' ∧ r.2 = sem (fileBytes E w f) 0 maxSize v)
      (ReadStopped E f w t.rngoff t.rngend) w := by
  have hm := maxSize_eq
  rw [rbTraverseFile]
  refine wp_seq (wp_traverseInl_read (E := E) hlaws hfalse v) ?_ (fun _ _ hF => hF)
  rintro v₁ w₁ ⟨rfl, hv₁⟩
  refine wp_seq (wp_traverseRefs (c := fileBytes E w₁ f) (J := fun _ w' => BInv E ∅ w' ∧ Grew w₁ w')
    hlaws (fun _ _ _ hJ _ _ _ => hJ) ?_ (fun w₂ hlt h₂ => ⟨h₂.1, h₂.2, .inr ⟨rfl, hlt⟩⟩) v₁
    ⟨h, .refl w₁⟩) ?_ (fun _ _ hF => hF)
  · rintro s v₂ w₂ ⟨h₂, hg₂⟩ hrng hbase
    refine wp_mono (wp_traverseSlot_fil ht hfn (by rw [hg₂.fil]; exact hlaws) (by rw [hg₂.fil]; exact hfalse)
      h₂ (hg₂.live (s := .fil f s) hf) hrng v₂) ?_ ?_
    · rintro v₃ w₃ ⟨h₃, hg₃, hv₃⟩
      refine ⟨⟨h₃, hg₂.trans hg₃⟩, hv₃.trans (hlaws.sem_congr _ _ _ _ _ ?_)⟩
      intro a h₁ h₂'
      rw [hg₂.fileBytes h hf]
    · rintro e w₃ hz
      obtain ⟨he, hinv, hg, l, hl, hzl⟩ := hz.mono hg₂ fun _ h => h
      refine ⟨hinv, hg, .inl ⟨he, s, l, hrng, hbase, ?_, hzl⟩⟩
      simpa only [World.HoleLevel, World.slotObj, World.slotRef, hg₂.fil] using hl
  · rintro v₂ w₂ ⟨⟨h₂, hg₂⟩, hv₂⟩
    refine ⟨h₂, hg₂, ?_⟩
    rw [show ((w₂.fil f).isdirty, v₂).2 = v₂ from rfl, hv₂, hv₁,
      hlaws.sem_append _ _ _ _ _ (by omega) (by omega)]

/-- The functor of `FileNode::read` changes no data. -/
theorem readTraversal_unchanged (f size off fsz : ℕ) (v : ReadState) (sz : ℕ) (data : Fin sz → UInt8)
    (blkoff : ℕ) : ((readTraversal f size off).btVisit v sz data blkoff fsz).1 = false := by
  simp only [readTraversal, readBTF]
  split <;> rfl

/-- **`FileNode::read`**: the bytes of the range that are below the size of the file. -/
theorem wp_fileRead_stopped (h : BInv E ∅ w) (hf : f < w.nfil) (buf : ℕ → UInt8) (size off : ℕ) :
    wp (fileRead E f buf size off)
      (fun r w' => BInv E ∅ w' ∧ Grew w w' ∧
        r.1 = ((min (min (off + size) maxSize) (w.fil f).inode.size - off : ℕ) : ℤ) ∧
        ∀ j, r.2 j = if off + j < min (min (off + size) maxSize) (w.fil f).inode.size
          then fileBytes E w f (off + j) else buf j)
      (ReadStopped E f w off (off + size)) w := by
  have hread := wp_rbTraverseFile_read (t := readTraversal f size off) (f := f) rfl rfl
    (readBTF_laws f size off (w.fil f).inode.size) (readTraversal_unchanged f size off _) h hf ⟨buf, 0⟩
  rw [fileRead, wp_tryCatch]
  refine wp_seq hread ?_ ?_
  · rintro ⟨changed, v⟩ w' ⟨hinv, hg, hv⟩
    obtain rfl : v = _ := hv
    refine ⟨hinv, hg, ?_, ?_⟩
    · simp only [readSem]
      congr 1
      omega
    · intro j
      simp only [readSem]
      refine if_congr ?_ rfl rfl
      omega
  · rintro e w' hF
    obtain ⟨-, -, ⟨rfl, -⟩ | ⟨rfl, -⟩⟩ := id hF
    · exact hF
    · exact hF

theorem wp_fileRead (h : BInv E ∅ w) (hf : f < w.nfil) (buf : ℕ → UInt8) (size off : ℕ) :
    wp (fileRead E f buf size off)
      (fun r w' => BInv E ∅ w' ∧ Grew w w' ∧
        r.1 = ((min (min (off + size) maxSize) (w.fil f).inode.size - off : ℕ) : ℤ) ∧
        ∀ j, r.2 j = if off + j < min (min (off + size) maxSize) (w.fil f).inode.size
          then fileBytes E w f (off + j) else buf j)
      (ReadFailed E w (off + size)) w :=
  wp_mono (wp_fileRead_stopped h hf buf size off) (fun _ _ hQ => hQ) fun _ _ hF => hF.failed

end read

/-! ### Writing -/

section write

variable {f : ℕ} {w : World}

/-- What a write that returned has done. -/
structure Written (E : Env) (f : ℕ) (data : List UInt8) (off : ℕ) (w w' : World) : Prop where
  inv : BInv E ∅ w'
  outer : w'.outer = w.outer
  nblk : w.nblk ≤ w'.nblk
  cacheFil : SameFil w.cache w'.cache
  other : ∀ g, g ≠ f → w'.fil g = w.fil g
  own : w'.fil f = { w.fil f with
    isdirty := (w'.fil f).isdirty, inl := (w'.fil f).inl, objs := (w'.fil f).objs,
    inode := { (w.fil f).inode with
      blocks := (w'.fil f).inode.blocks, size := (w'.fil f).inode.size } }
  otherBytes : ∀ g, g ≠ f → g < w.nfil → ∀ a, fileBytes E w' g a = fileBytes E w g a
  bytes : ∀ a, a < maxSize → fileBytes E w' f a = wrote data off a (fileBytes E w f a)
  size : (w'.fil f).inode.size =
    if (w'.fil f).isdirty then max (off + data.length) (w.fil f).inode.size
    else (w.fil f).inode.size
  quiet : (w'.fil f).isdirty = false → (w.fil f).isdirty = false ∧
    (data = [] ∨ maxSize ≤ off) ∧ ∀ a, fileBytes E w' f a = fileBytes E w f a

/-- The bytes of a file depend on the file node, the block nodes and the store. -/
theorem fileBytes_of_fil {w w' : World} {f : ℕ} (hblk : w'.blk = w.blk) (hlog : w'.log = w.log)
    (hfil : w'.fil f = w.fil f) (a : ℕ) : fileBytes E w' f a = fileBytes E w f a := by
  refine fileBytes_congr (by rw [hfil]) ?_ a
  intro s o _
  refine slotBytes_congr hblk hlog ?_ ?_ _ o
  · simp only [World.slotObj, hfil]
  · simp only [World.slotRef, hfil]

/-- The bytes of a file do not depend on its metadata. -/
theorem fileBytes_setFil (w : World) (f : ℕ) {x : FileNode} (hi : x.inl = (w.fil f).inl)
    (hr : x.refs = (w.fil f).refs) (ho : x.objs = (w.fil f).objs) (g a : ℕ) :
    fileBytes E (w.setFil f x) g a = fileBytes E w g a := by
  have hs : SameShape w (w.setFil f x) := .setFil w hr ho
  refine fileBytes_congr ?_ ?_ a
  · by_cases hg : g = f
    · subst hg; rw [setFil_self, hi]
    · rw [setFil_of_ne w x hg]
  · intro s o _
    exact @slotBytes_congr E w (w.setFil f x) rfl rfl _ (hs.slotObj _) (hs.slotRef _) _ o

/-- **`FileNode::write`.** -/
theorem wp_fileWrite (h : BInv E ∅ w) (hf : f < w.nfil) (data : List UInt8) (off : ℕ) :
    wp (fileWrite E f data off)
      (fun r w' => r = ((min (off + data.length) maxSize - off : ℕ) : ℤ) ∧ Written E f data off w w')
      (fun e w' => maxSize < off + data.length ∧
        FileWrote E f (writeTraversal f data off) (wrote data off) w w' ∧
        e = .internalError "more indirect block traversal implementation required") w := by
  have hwrite := wp_rbTraverseFile (E := E) (t := writeTraversal f data off) (f := f) rfl rfl
    (writeBTF_laws f data off (w.fil f).inode.size) h hf 0
  rw [fileWrite, wp_tryCatch]
  refine wp_seq hwrite ?_ ?_
  · rintro ⟨changed, v⟩ w₁ ⟨hw, hc, hv⟩
    obtain rfl : changed = _ := hc
    obtain rfl : v = _ := hv
    have hv : (0 + (min (off + data.length) maxSize - max off 0) : ℕ)
        = min (off + data.length) maxSize - off := by omega
    have hquiet : (w₁.fil f).isdirty = false → (w.fil f).isdirty = false ∧
        (data = [] ∨ maxSize ≤ off) ∧ ∀ a, fileBytes E w₁ f a = fileBytes E w f a := by
      intro hd
      obtain ⟨hd₀, hmiss, -, hb⟩ := hw.quiet hd
      refine ⟨hd₀, ?_, hb⟩
      rcases Nat.lt_or_ge off maxSize with hlt | hge
      · have := hmiss off (Nat.zero_le _) hlt
        simp only [writeTraversal, Traversal.rngend, Nat.lt_irrefl, false_or] at this
        exact .inl (List.length_eq_zero_iff.1 (by omega))
      · exact .inr hge
    cases hd : (w₁.fil f).isdirty with
    | false =>
        simp only [Bool.false_eq_true, if_false, wp_pure, hv]
        refine ⟨trivial, hw.inv, hw.outer, hw.nblk, hw.cacheFil, hw.other, ?_, hw.otherBytes, hw.bytes, ?_, hquiet⟩
        · rw [hw.own]
        · rw [hd, hw.own]
          rfl
    | true =>
        simp only [if_true, modifyINode, setFilDirty, wp_bind, wp_modify, wp_pure, hv, setFil_self]
        have hset : ∀ x y, (w₁.setFil f x).setFil f y = w₁.setFil f y := by
          intro x y
          simp [World.setFil]
        rw [hset]
        generalize hx : ({ w₁.fil f with
          inode := { (w₁.fil f).inode with
            size := max (off + data.length) (w₁.fil f).inode.size }
          isdirty := true } : FileNode) = x
        have hxi : x.inl = (w₁.fil f).inl := by rw [← hx]
        have hxr : x.refs = (w₁.fil f).refs := by rw [← hx]
        have hxo : x.objs = (w₁.fil f).objs := by rw [← hx]
        have hown := hw.own
        have hbytes := fileBytes_setFil (E := E) w₁ f hxi hxr hxo
        refine ⟨trivial, ?_, hw.outer, hw.nblk, hw.cacheFil, ?_, ?_, ?_, ?_, ?_, ?_⟩
        · exact hw.inv.sameShape (.setFil w₁ hxr hxo) (fun _ => .inl rfl) (fun _ _ _ => rfl)
        · intro g hg
          rw [setFil_of_ne _ _ hg]
          exact hw.other g hg
        · rw [setFil_self, ← hx, hown]
        · intro g hg hlt a
          rw [hbytes]
          exact hw.otherBytes g hg hlt a
        · intro a ha
          rw [hbytes]
          exact hw.bytes a ha
        · rw [setFil_self, ← hx, hown]
          rfl
        · rw [setFil_self, ← hx]
          intro hd'
          simp at hd'
  · rintro e w₁ ⟨hlt, hw, rfl⟩
    exact ⟨hlt, hw, rfl⟩

end write

/-! ### A write that returns is within the largest file -/

section within

variable {V : Type} {f : ℕ} {t : Traversal V} {w : World}

theorem wp_traverseInd_within : ∀ (l : List FSlot) (b : ℕ) (v : V) (w : World), Consecutive b l →
    wp (traverseInd E t f l v) (fun _ _ => t.rngend ≤ maxSize) (fun _ _ => True) w := by
  intro l
  induction l with
  | nil => exact fun _ _ _ _ => trivial
  | cons s l ih =>
      rintro b v w ⟨rfl, hl⟩
      have hle := s.top_le
      have hnext : ∀ v₁ w₁, wp (if t.rngend ≤ s.top then pure v₁ else traverseInd E t f l v₁)
          (fun _ _ => t.rngend ≤ maxSize) (fun _ _ => True) w₁ := by
        intro v₁ w₁
        split
        case isTrue hend => exact hend.trans hle
        case isFalse => exact ih _ v₁ w₁ hl
      rw [traverseInd]
      split
      case isTrue => exact wp_seq (wp_trivial _ _) (fun v₁ w₁ _ => hnext v₁ w₁) fun _ _ _ => trivial
      case isFalse => exact hnext v w

theorem wp_traverseRefs_within (v : V) :
    wp (traverseRefs E t f v) (fun _ _ => t.rngend ≤ maxSize) (fun _ _ => True) w := by
  have hm := maxSize_eq
  have hcons : Consecutive 167936 [.sin, .din, .tin] :=
    ⟨rfl, FSlot.top_sin.symm, FSlot.top_din.symm, FSlot.top_tin⟩
  have hnext : ∀ v₁ w₁, wp (if t.rngend ≤ 167936 then pure v₁ else traverseInd E t f [.sin, .din, .tin] v₁)
      (fun _ _ => t.rngend ≤ maxSize) (fun _ _ => True) w₁ := by
    intro v₁ w₁
    split
    case isTrue hend =>
      have : t.rngend ≤ maxSize := by omega
      exact this
    case isFalse => exact wp_traverseInd_within _ _ v₁ w₁ hcons
  rw [traverseRefs]
  by_cases hend : t.rngend ≤ 4096
  · rw [if_pos hend]
    have : t.rngend ≤ maxSize := by omega
    exact this
  · rw [if_neg hend]
    by_cases hoff : 167936 ≤ t.rngoff
    · rw [if_pos hoff]
      exact hnext v w
    · rw [if_neg hoff]
      exact wp_seq (wp_trivial _ _) (fun v₁ w₁ _ => hnext v₁ w₁) fun _ _ _ => trivial

/-- **A write that returns is within the largest file.** -/
theorem wp_fileWrite_within (h : BInv E ∅ w) (hf : f < w.nfil) (data : List UInt8) (off : ℕ) :
    wp (fileWrite E f data off) (fun _ _ => off + data.length ≤ maxSize) (fun _ _ => True) w := by
  have hwrite := wp_rbTraverseFile (E := E) (t := writeTraversal f data off) (f := f) rfl rfl
    (writeBTF_laws f data off (w.fil f).inode.size) h hf 0
  have hwithin : wp (rbTraverseFile E (writeTraversal f data off) f 0)
      (fun _ _ => off + data.length ≤ maxSize) (fun _ _ => True) w := by
    refine wp_seq (wp_trivial _ _) (fun v₁ w₁ _ => ?_) fun _ _ _ => trivial
    exact wp_seq (wp_traverseRefs_within v₁) (fun _ _ hle => hle) fun _ _ _ => trivial
  rw [fileWrite, wp_tryCatch]
  refine wp_seq (wp_and hwrite hwithin) ?_ ?_
  · rintro ⟨changed, v⟩ w₁ ⟨-, hle⟩
    cases changed with
    | false => exact hle
    | true => exact hle
  · rintro e w₁ ⟨⟨-, -, rfl⟩, -⟩
    trivial

end within

end UTFS

end Utopfs
