/-
**Flushing keeps the invariant.**

A directory is flushed after its dirty nodes: its entries are written to the file below it, which is cut
to their length, and its inode comes last.  What is then stored parses to the entries it had in memory.

Main results:

* `UTFS.safe_bnFlushFile` — the flush of a file;
* `UTFS.safe_flushDirData` — the entries of a directory;
* `UTFS.nodeFlush_hangs` — a directory below itself;
* `UTFS.safe_nodeFlush`, `UTFS.safe_bnFlush` — `bn_flush`;
* `UTFS.safe_findBlkref` — `DirNode::find_blkref`;
* `UTFS.safe_setRootref` — a new head node.
-/

import Utopfs.FsOk

set_option relaxedAutoImplicit false
set_option autoImplicit false

namespace Utopfs

namespace UTFS

open Prog

variable {E : Env} {n : ℕ} {w w' : World} {f : ℕ}

/-! ### One file -/

section file

/-- A node is changed, with its blocks. -/
theorem FsOk.rewritten (h : FsOk E n w) (hb : BInv E ∅ w') (hlog : w'.log = w.log) (hrand : w'.rand = w.rand)
    (hnfil : w'.nfil = w.nfil) (hcrew : w'.crew = w.crew) (hcache : SameFil w.cache w'.cache)
    (hother : ∀ g, g ≠ f → w'.fil g = w.fil g) (hcls : (w'.fil f).cls = (w.fil f).cls)
    (hmode : (w'.fil f).inode.mode = (w.fil f).inode.mode) (href : (w'.fil f).ref = (w.fil f).ref)
    (hdir : (w'.fil f).dir = (w.fil f).dir) (hdirty : (w'.fil f).dirty = (w.fil f).dirty)
    (hclean : (w'.fil f).isdirty = false → (w.fil f).isdirty = false) : FsOk E n w' ∧ Later w w' := by
  have hl : Later w w' := by
    refine ⟨by rw [hlog]; exact .refl _, by rw [hrand]; exact fun _ hi => hi, hnfil.ge, fun g _ => ?_,
      fun g _ => ?_⟩
    · by_cases hg : g = f
      · rw [hg, hcls]
      · rw [hother g hg]
    · by_cases hg : g = f
      · rw [hg, hmode]
      · rw [hother g hg]
  refine ⟨h.step_one hb hl (h.storeFit_log hlog) hnfil hcrew hcache hother fun hf => ?_, hl⟩
  have hn := h.node f hf
  refine ⟨fun hc => ?_, ?_, ?_⟩
  · rw [href, hmode, hlog]
    exact hn.clean (hclean hc)
  · rw [hdir, hlog]
    exact hn.refs
  · rw [hdirty]
    exact fun e he => (hn.held e he).later hl

theorem crew_of_outer (h : w'.outer = w.outer) : w'.crew = w.crew :=
  congrArg (fun x => (x.2.2.2.2.2.1, x.2.2.2.2.2.2.2.1, x.2.2.2.2.2.2.2.2.1, x.2.2.2.2.2.2.2.2.2.1,
    x.2.2.2.2.2.2.2.2.2.2.1)) h

theorem FsOk.written (h : FsOk E n w) {data : List UInt8} {off : ℕ} (hw : Written E f data off w w') :
    FsOk E n w' ∧ Later w w' := by
  have hown := hw.own
  exact h.rewritten hw.inv (outer_log hw.outer) (outer_rand hw.outer) (outer_nfil hw.outer)
    (crew_of_outer hw.outer) hw.cacheFil hw.other (by rw [hown]) (by rw [hown]) (by rw [hown]) (by rw [hown])
    (by rw [hown]) fun hc => (hw.quiet hc).1

/-- A write that was interrupted. -/
theorem FsOk.fileWrote (h : FsOk E n w) {V : Type} {t : Traversal V} {wr : ℕ → UInt8 → UInt8}
    (hw : FileWrote E f t wr w w') : FsOk E n w' ∧ Later w w' := by
  have hown := hw.own
  exact h.rewritten hw.inv (outer_log hw.outer) (outer_rand hw.outer) (outer_nfil hw.outer)
    (crew_of_outer hw.outer) hw.cacheFil hw.other (by rw [hown]) (by rw [hown]) (by rw [hown]) (by rw [hown])
    (by rw [hown]) fun hc => (hw.quiet hc).1

theorem FsOk.truncated (h : FsOk E n w) {size : ℕ} (ht : Truncated E f size w w') :
    FsOk E n w' ∧ Later w w' := by
  have hown := ht.own
  refine h.rewritten ht.inv ht.log ht.rand (congrArg (fun x => x.2.2.1) ht.members) ?_ ht.cacheFil ht.other
    (by rw [hown]) (by rw [hown]) (by rw [hown]) (by rw [hown]) (by rw [hown]) fun hc => ?_
  · exact congrArg (fun x => (x.2.1, x.2.2.2.1, x.2.2.2.2.1, x.2.2.2.2.2.1, x.2.2.2.2.2.2.1)) ht.members
  · rw [hown] at hc
    simp at hc

/-- A node has been flushed, perhaps not completely. -/
theorem FsOk.fileFlushed (h : FsOk E n w) (hf : f < w.nfil) (hb : BInv E ∅ w') (hff : FileFlushed E f w w')
    (hp : FilePuts f w w') (hco : (w'.fil f).isdirty = false → FileCoherent E w' f)
    (hdir : (w'.fil f).isdirty = false → sIsdir (w.fil f).inode.mode = true →
      (w.fil f).inode.size ≤ maxSize ∧ ∃ d, storedDir E w'.log (w'.fil f).ref = some d ∧
        ∀ e ∈ d, e.2 ≠ .nil → Stored w'.log e.2 .inode) : FsOk E n w' ∧ Later w w' := by
  have hown := hff.own
  have hl : Later w w' := by
    refine ⟨hff.logLe, fun iv hiv => hff.rand.subset hiv, hff.nfil.ge, fun g _ => ?_, fun g _ => ?_⟩
    · by_cases hg : g = f
      · rw [hg, hown]
      · rw [hff.other g hg]
    · by_cases hg : g = f
      · rw [hg, hown]
      · rw [hff.other g hg]
  have hcrew : w'.crew = w.crew :=
    congrArg (fun x => (x.2.2.1, x.2.2.2.2.1, x.2.2.2.2.2.1, x.2.2.2.2.2.2.1, x.2.2.2.2.2.2.2.1)) hff.still
  have hn := h.node f hf
  refine ⟨h.step_one hb hl ?_ hff.nfil hcrew hff.cacheFil hff.other fun _ => ⟨fun hc => ?_, ?_, ?_⟩, hl⟩
  · refine h.store.mono h.blk.disk hff.logLe hb.disk.nilFree (h.store.head.mono hff.logLe hp.heads) ?_
    intro r x hs hs' hx hm
    obtain ⟨rfl, hc⟩ := (hp.inode r hs).resolve_left hs'
    have hdec := (hco hc).decoded
    rw [hx] at hdec
    have hino : x.inode = (w.fil f).inode := by
      rw [Option.some.inj hdec, hown]
      rfl
    rw [hino] at hm ⊢
    exact hdir hc hm
  · refine ⟨(hco hc).stored, ?_⟩
    rw [storedIsDir, (hco hc).decoded]
    rfl
  · rw [hown]
    exact fun e he hr => hff.logLe.stored (hn.refs e he hr)
  · rw [hown]
    exact fun e he => (hn.held e he).later hl

/-- The node is clean, and this is its reference. -/
def CleanAt (f : ℕ) (r : BlockRef) (w : World) : Prop := (w.fil f).isdirty = false ∧ r = (w.fil f).ref

/-- The file `f` has been flushed, and this is its reference. -/
structure FileStored (E : Env) (f : ℕ) (w : World) (r : BlockRef) (w' : World) : Prop where
  clean : CleanAt f r w'
  flushed : FileFlushed E f w w'
  puts : FilePuts f w w'
  coherent : (w.fil f).isdirty = true → FileCoherent E w' f

/-- What has been stored for a directory parses to what its file holds. -/
theorem FileCoherent.storedDir (hco : FileCoherent E w' f) (hff : FileFlushed E f w w') (hf : f < w.nfil)
    {dir : Directory} (hm : sIsdir (w.fil f).inode.mode = true)
    (hparse : E.parseDir ((List.range (w.fil f).inode.size).map (fileBytes E w f)) = some dir) :
    UTFS.storedDir E w'.log (w'.fil f).ref = some dir := by
  have hino : (w'.fil f).inode = (w.fil f).inode := by rw [hff.own]
  have hbytes : nodeBytes E w'.log (w'.fil f).bare = fileBytes E w f := by
    funext a
    rw [nodeBytes_bare, ← fileBytes_eq_nodeBytes hco.objs, hff.bytes f hf]
  rw [UTFS.storedDir, hco.decoded, Option.bind_some]
  change (if sIsdir (w'.fil f).inode.mode = true then
    E.parseDir ((List.range (w'.fil f).inode.size).map (nodeBytes E w'.log (w'.fil f).bare))
    else none) = some dir
  rw [hino, if_pos hm, hbytes, hparse]

/-- **`FileNode::bn_flush`**, of a file or of a directory whose entries have been written. -/
theorem safe_bnFlushFile (h : FsOk E n w) (hf : f < w.nfil)
    (hdir : (w.fil f).isdirty = true → sIsdir (w.fil f).inode.mode = true →
      (w.fil f).inode.size ≤ maxSize ∧ ∃ d, E.parseDir ((List.range (w.fil f).inode.size).map
        (fileBytes E w f)) = some d ∧ ∀ e ∈ d, e.2 ≠ .nil → Stored w.log e.2 .inode) :
    Safe E n (bnFlushFile E f) (FileStored E f w) w := by
  cases hd : (w.fil f).isdirty with
  | false =>
      simp only [Safe, bnFlushFile, wp_bind, wp_get, hd]
      exact ⟨h, .refl w, ⟨hd, rfl⟩, .refl w, .refl w, fun hd' => by simp [hd] at hd'⟩
  | true =>
      refine wp_mono (wp_and (wp_bnFlushFile h.blk hf fun hc => ?_) (wp_bnFlushFile_puts h.blk hf)) ?_ ?_
      · rw [hd] at hc
        simp at hc
      · rintro r w₁ ⟨⟨hb, hff, hr, hco⟩, hp⟩
        have hmain := h.fileFlushed hf hb hff hp (fun _ => hco) fun _ hm => ?_
        · exact ⟨hmain.1, hmain.2, ⟨hco.clean, hr⟩, hff, hp, fun _ => hco⟩
        · obtain ⟨hsize, d, hparse, hrefs⟩ := hdir hd hm
          exact ⟨hsize, d, hco.storedDir hff hf hm hparse, fun e he hne => hff.logLe.stored (hrefs e he hne)⟩
      · rintro e w₁ ⟨⟨-, hb, hff, hd₁⟩, -, hp⟩
        refine .inr (h.fileFlushed hf hb hff hp (fun hc => ?_) fun hc => ?_) <;>
        · rw [hd₁] at hc
          simp at hc

end file

/-! ### Directories -/

section dir

variable {d : ℕ}

/-- The entries have been written to the file below a directory. -/
structure DataWritten (E : Env) (d : ℕ) (data : List UInt8) (w w' : World) : Prop where
  size : (w'.fil d).isdirty = true → (w'.fil d).inode.size = data.length
  bytes : (w'.fil d).isdirty = true → ∀ a, a < data.length → fileBytes E w' d a = data.getD a 0
  other : ∀ g, g ≠ d → w'.fil g = w.fil g
  nfil : w'.nfil = w.nfil
  dir : (w'.fil d).dir = (w.fil d).dir
  dirty : (w'.fil d).dirty = (w.fil d).dirty
  cacheFil : SameFil w.cache w'.cache
  clean : (w'.fil d).isdirty = false → (w.fil d).isdirty = false

/-- The directory `d` has been flushed, and this is its reference. -/
structure DirFlushed (E : Env) (d : ℕ) (w : World) (r : BlockRef) (w' : World) : Prop where
  clean : CleanAt d r w'
  other : ∀ g, g ≠ d → w'.fil g = w.fil g
  nfil : w'.nfil = w.nfil
  dir : (w'.fil d).dir = (w.fil d).dir
  dirty : (w'.fil d).dirty = (w.fil d).dirty
  cacheFil : SameFil w.cache w'.cache
  coherent : (w.fil d).isdirty = true → FileCoherent E w' d
  stored : (w.fil d).isdirty = true → storedDir E w'.log r = some (w.fil d).dir

/-- The file below a directory is flushed after its entries have been written. -/
theorem safe_flushWritten {data : List UInt8} {w₁ : World} (h : FsOk E n w₁) (hd : DirMember w₁ d)
    (hdata : E.serializeDir (w.fil d).dir = data) (hle : data.length ≤ maxSize)
    (hdw : DataWritten E d data w w₁) : Safe E n (bnFlushFile E d) (DirFlushed E d w) w₁ := by
  have hlt := hd.held.lt
  have hmode : sIsdir (w₁.fil d).inode.mode = true := by rw [← hd.held.kind, hd.isDir]
  have hparse : (w₁.fil d).isdirty = true →
      E.parseDir ((List.range (w₁.fil d).inode.size).map (fileBytes E w₁ d)) = some (w.fil d).dir := by
    intro hdirty
    have hmap : (List.range (w₁.fil d).inode.size).map (fileBytes E w₁ d) = data := by
      rw [hdw.size hdirty]
      refine List.ext_getElem (by simp) fun a ha ha' => ?_
      rw [List.getElem_map, List.getElem_range, hdw.bytes hdirty a ha', List.getElem_eq_getD 0]
    rw [hmap, ← hdata, E.parseDir_serializeDir]
  refine (safe_bnFlushFile h hlt fun hdirty _ => ⟨by rw [hdw.size hdirty]; exact hle, (w.fil d).dir,
    hparse hdirty, ?_⟩).mono ?_
  · rw [← hdw.dir]
    exact (h.node d hlt).refs
  · intro r w₂ h₂ hl₂ hs
    have hown := hs.flushed.own
    have hdirty₁ : (w.fil d).isdirty = true → (w₁.fil d).isdirty = true := by
      intro hdirty
      by_contra hc
      rw [hdw.clean (by simpa using hc)] at hdirty
      simp at hdirty
    refine ⟨hs.clean, fun g hg => (hs.flushed.other g hg).trans (hdw.other g hg),
      hs.flushed.nfil.trans hdw.nfil, ?_, ?_,
      hdw.cacheFil.trans hs.flushed.cacheFil, fun hdirty => hs.coherent (hdirty₁ hdirty), fun hdirty => ?_⟩
    · rw [hown, ← hdw.dir]
    · rw [hown, ← hdw.dirty]
    · rw [hs.clean.2]
      exact (hs.coherent (hdirty₁ hdirty)).storedDir hs.flushed hlt hmode (hparse (hdirty₁ hdirty))

/-- What follows the loop over the dirty nodes. -/
theorem safe_flushDirData (h : FsOk E n w) (hd : DirMember w d) :
    Safe E n (flushDirData E d) (DirFlushed E d w) w := by
  have hlt := hd.held.lt
  have hm := maxSize_eq
  rw [flushDirData]
  refine Safe.read ?_
  dsimp only
  generalize hdata : E.serializeDir (w.fil d).dir = data
  have hwrite : Safe E n (fileWrite E d data 0) (fun rv w' => 0 ≤ rv ∧ data.length ≤ maxSize ∧
      Written E d data 0 w w') w := by
    refine wp_mono (wp_and (wp_fileWrite h.blk hlt data 0) (wp_fileWrite_within h.blk hlt data 0)) ?_ ?_
    · rintro rv w₂ ⟨⟨hrv, hw⟩, hle⟩
      obtain ⟨h₂, hl₂⟩ := h.written hw
      exact ⟨h₂, hl₂, by rw [hrv]; exact Int.natCast_nonneg _, by omega, hw⟩
    · rintro e w₂ ⟨⟨-, hw, -⟩, -⟩
      exact .inr (h.fileWrote hw)
  refine hwrite.bind ?_
  rintro rv w₂ h₂ hl₂ ⟨hrv, hle, hw⟩
  rw [if_neg (by omega)]
  have hown := hw.own
  have hwrote : ∀ a, a < data.length → fileBytes E w₂ d a = data.getD a 0 := by
    intro a ha
    rw [hw.bytes a (by omega), wrote, if_pos (by omega), Nat.sub_zero]
  -- The file is cut to the length of the data.
  split
  case isTrue hlt' =>
    refine Safe.bind (Q := fun _ w' => Truncated E d data.length w₂ w') ?_ ?_
    · refine wp_mono (wp_fileTruncate h₂.blk (hlt.trans_le hl₂.nfil)) ?_ (fun _ _ hF => hF.elim)
      intro _ w₃ ht
      obtain ⟨h₃, hl₃⟩ := h₂.truncated ht
      exact ⟨h₃, hl₃, ht⟩
    · intro _ w₃ h₃ hl₃ ht
      have hown₃ := ht.own
      refine safe_flushWritten h₃ ((hd.later hl₂).later hl₃) hdata hle ⟨fun _ => by rw [hown₃],
        fun _ a ha => ?_, fun g hg => (ht.other g hg).trans (hw.other g hg),
        (congrArg (fun x => x.2.2.1) ht.members).trans (outer_nfil hw.outer), by rw [hown₃, hown],
        by rw [hown₃, hown], hw.cacheFil.trans ht.cacheFil, fun hc => ?_⟩
      · rw [ht.bytes a ha, hwrote a ha]
      · rw [hown₃] at hc
        simp at hc
  case isFalse hge =>
    refine safe_flushWritten h₂ (hd.later hl₂) hdata hle ⟨fun hdirty => ?_, fun _ => hwrote, hw.other,
      outer_nfil hw.outer, by rw [hown], by rw [hown], hw.cacheFil, fun hc => (hw.quiet hc).1⟩
    rw [hw.size, if_pos hdirty]
    omega

/-- The entries of a directory are changed. -/
theorem safe_modifyDir (h : FsOk E n w) {g : Directory → Directory}
    (hg : ∀ e ∈ g (w.fil d).dir, e.2 ≠ .nil → Stored w.log e.2 .inode) :
    Safe E n (modifyDir d g) (fun _ w' => w' = w.setFil d { w.fil d with dir := g (w.fil d).dir }) w := by
  obtain ⟨h', hl⟩ := h.setFil (f := d) (x := { w.fil d with dir := g (w.fil d).dir }) rfl rfl rfl rfl
    (fun hlt => (h.node d hlt).clean) (fun _ => hg) (fun hlt => (h.node d hlt).held)
  exact ⟨h', hl, rfl⟩

/-- The dirty nodes of a directory are changed. -/
theorem safe_modifyDirty (h : FsOk E n w) {g : List (Str × ℕ) → List (Str × ℕ)}
    (hg : ∀ e ∈ g (w.fil d).dirty, Held w e.2) :
    Safe E n (modifyDirty d g) (fun _ w' => w' = w.setFil d { w.fil d with dirty := g (w.fil d).dirty }) w := by
  obtain ⟨h', hl⟩ := h.setFil (f := d) (x := { w.fil d with dirty := g (w.fil d).dirty }) rfl rfl rfl rfl
    (fun hlt => (h.node d hlt).clean) (fun hlt => (h.node d hlt).refs) (fun _ => hg)
  exact ⟨h', hl, rfl⟩

/-- Erasing a dirty node. -/
theorem safe_eraseDirty (h : FsOk E n w) (hd : d < w.nfil) (entry : Str) :
    Safe E n (modifyDirty d (dirtyErase entry))
      (fun _ w' => w' = w.setFil d { w.fil d with dirty := dirtyErase entry (w.fil d).dirty }) w :=
  safe_modifyDirty h fun e he => (h.node d hd).held e (List.mem_of_mem_filter he)

end dir

/-! ### Trees -/

section tree

variable {d g : ℕ} {S F : Set ℕ}

theorem CleanAt.stored {f : ℕ} {r : BlockRef} (hc : CleanAt f r w) (h : FsOk E n w) (hf : f < w.nfil) :
    Stored w.log r .inode ∧ storedIsDir E w.log r = sIsdir (w.fil f).inode.mode := by
  rw [hc.2]
  exact (h.node f hf).clean hc.1

/-- An entry has got the reference of the node `f`, which is no longer among the dirty nodes of the
directory. -/
structure Settled (d : ℕ) (entry : Str) (f : ℕ) (ref : BlockRef) (w w' : World) : Prop where
  own : w'.fil d = { w.fil d with
    dir := dirSet entry ref (w.fil d).dir, dirty := dirtyErase entry (w.fil d).dirty }
  other : ∀ g, g ≠ d → w'.fil g = w.fil g
  nfil : w'.nfil = w.nfil
  log : w'.log = w.log
  key : ∀ r, w'.cache.nodemap r =
    if w.cache.nodemap r = none ∧ r = (w.fil f).ref then some (.fil f) else w.cache.nodemap r
  placed : ∀ o, w.cache.Placed o → w'.cache.Placed o
  self : w.cache.nodemap (w.fil f).ref = none → w'.cache.Placed (.fil f)

theorem Settled.keep {entry : Str} {f : ℕ} {ref : BlockRef} (h : Settled d entry f ref w w') {r : BlockRef}
    {o : Obj} (hr : w.cache.nodemap r = some o) : w'.cache.nodemap r = some o := by
  rw [h.key, if_neg (fun hn => by simp [hr] at hn)]
  exact hr

/-- The rest of a round of the loop over the dirty nodes. -/
theorem Safe.settle {β : Type} {m : M β} {Q : β → World → Prop} (h : FsOk E n w) (hd : d < w.nfil)
    {f : ℕ} (hf : Held w f) {entry : Str} {ref : BlockRef} (hc : CleanAt f ref w)
    (hm : ∀ w', FsOk E n w' → Later w w' → Settled d entry f ref w w' → Safe E n m Q w') :
    Safe E n (do
      modifyDir d (dirSet entry ref)
      cacheInsert (.fil f)
      modifyDirty d (dirtyErase entry)
      m) Q w := by
  have hs := (hc.stored h hf.lt).1
  refine (safe_modifyDir h fun e he hne => ?_).bind ?_
  · rcases mem_dirSet he with he | rfl
    · exact (h.node d hd).refs e he hne
    · exact hs
  rintro - w₁ h₁ hl₁ rfl
  have href : ((w.setFil d { w.fil d with dir := dirSet entry ref (w.fil d).dir }).fil f).ref =
      (w.fil f).ref := by
    by_cases hfd : f = d
    · rw [hfd, setFil_self]
    · rw [setFil_of_ne _ _ hfd]
  refine (safe_cacheInsert h₁ (by rw [href, ← hc.2]; exact hs) (hf.later hl₁)).bind ?_
  rintro - w₂ h₂ hl₂ hk
  refine (safe_eraseDirty h₂ ((hd.trans_le hl₁.nfil).trans_le hl₂.nfil) entry).bind ?_
  rintro - w₃ h₃ hl₃ rfl
  refine hm _ h₃ ((hl₁.trans hl₂).trans hl₃) ⟨?_, fun g hg => ?_, hk.nfil, hk.log, fun r => ?_, hk.placed,
    fun hn => ?_⟩
  · rw [setFil_self, hk.fil, setFil_self]
  · rw [setFil_of_ne _ _ hg, hk.fil, setFil_of_ne _ _ hg]
  · rw [← href]
    exact hk.key r
  · rw [← href] at hn
    exact hk.self hn

/-- The loop over the dirty nodes of a directory, with the number of rounds that are left. -/
theorem safe_flushDirty {flush : ℕ → M BlockRef} {I : ℕ → World → Prop}
    (hround : ∀ count w entry f l, FsOk E n w → DirMember w d → (w.fil d).dirty = (entry, f) :: l →
      Held w f → I (count + 1) w →
      Safe E n (flush f) (fun ref w' => CleanAt f ref w' ∧ ∀ w'', Settled d entry f ref w' w'' → I count w'') w) :
    ∀ (count : ℕ) (w : World), FsOk E n w → DirMember w d → I count w →
      Safe E n (flushDirty flush d count)
        (fun _ w' => ∃ k, I k w' ∧ (k = 0 ∨ (w'.fil d).dirty = [])) w := by
  intro count
  induction count with
  | zero => exact fun w h _ hI => .ret h ⟨0, hI, .inl rfl⟩
  | succ count ih =>
      intro w h hd hI
      rw [flushDirty]
      refine Safe.read ?_
      cases hdirty : (w.fil d).dirty with
      | nil => exact .ret h ⟨count + 1, hI, .inr hdirty⟩
      | cons x l =>
          obtain ⟨entry, f⟩ := x
          have hf : Held w f := (h.node d hd.held.lt).held (entry, f) (by rw [hdirty]; exact List.mem_cons_self)
          dsimp only
          refine (hround count w entry f l h hd hdirty hf hI).bind ?_
          rintro ref w₂ h₂ hl₂ ⟨hc, hnext⟩
          refine Safe.settle h₂ (hd.held.lt.trans_le hl₂.nfil) (hf.later hl₂) hc ?_
          exact fun w₃ h₃ hl₃ hs => ih w₃ h₃ ((hd.later hl₂).later hl₃) (hnext w₃ hs)

/-- The directories `S` are being flushed, and the node `g` is next: each of them is dirty, and the node
it waits for is `g` or one of them. -/
def Flushing (S : Set ℕ) (g : ℕ) (w : World) : Prop :=
  ∀ x ∈ S, (w.fil x).cls.isDir = true ∧ (w.fil x).isdirty = true ∧
    ∃ e y l, (w.fil x).dirty = (e, y) :: l ∧ (y = g ∨ y ∈ S)

/-- No directory but those of `S` has a node of `F` among its dirty nodes. -/
def OnlyBelow (S F : Set ℕ) (w : World) : Prop :=
  ∀ x, x < w.nfil → x ∉ S → ∀ e ∈ (w.fil x).dirty, e.2 ∉ F

/-- What a flush that returns leaves alone, while the directories `S` are being flushed. -/
structure Framed (S F : Set ℕ) (w w' : World) : Prop where
  above : ∀ x ∈ S, w'.fil x = w.fil x
  apart : ∀ f ∈ F, w'.fil f = w.fil f
  nfil : w'.nfil = w.nfil
  dirty : ∀ x, ∀ e ∈ (w'.fil x).dirty, e ∈ (w.fil x).dirty
  keep : ∀ r f, w.cache.nodemap r = some (.fil f) → w'.cache.nodemap r = some (.fil f)
  placed : ∀ f, w.cache.Placed (.fil f) → w'.cache.Placed (.fil f)

theorem Framed.refl (w : World) : Framed S F w w :=
  ⟨fun _ _ => rfl, fun _ _ => rfl, rfl, fun _ _ he => he, fun _ _ hr => hr, fun _ hp => hp⟩

theorem Framed.trans {w'' : World} (h : Framed S F w w') (h' : Framed S F w' w'') : Framed S F w w'' where
  above x hx := (h'.above x hx).trans (h.above x hx)
  apart f hf := (h'.apart f hf).trans (h.apart f hf)
  nfil := h'.nfil.trans h.nfil
  dirty x e he := h.dirty x e (h'.dirty x e he)
  keep r f hr := h'.keep r f (h.keep r f hr)
  placed f hp := h'.placed f (h.placed f hp)

theorem Framed.narrow {S' : Set ℕ} (h : Framed S' F w w') (hS : ∀ x, x ∈ S → x ∈ S') : Framed S F w w' where
  above x hx := h.above x (hS x hx)
  apart := h.apart
  nfil := h.nfil
  dirty := h.dirty
  keep := h.keep
  placed := h.placed

/-- Only the node `g` is changed, and gets no dirty nodes. -/
theorem Framed.one (hother : ∀ x, x ≠ g → w'.fil x = w.fil x) (hnfil : w'.nfil = w.nfil)
    (hdirty : ∀ e ∈ (w'.fil g).dirty, e ∈ (w.fil g).dirty)
    (hkeep : ∀ r f, w.cache.nodemap r = some (.fil f) → w'.cache.nodemap r = some (.fil f))
    (hplaced : ∀ f, w.cache.Placed (.fil f) → w'.cache.Placed (.fil f))
    (hS : g ∉ S) (hF : g ∉ F) : Framed S F w w' where
  above x hx := hother x fun hxg => hS (hxg ▸ hx)
  apart f hf := hother f fun hfg => hF (hfg ▸ hf)
  nfil := hnfil
  dirty x e he := by
    by_cases hx : x = g
    · subst hx
      exact hdirty e he
    · rw [hother x hx] at he
      exact he
  keep := hkeep
  placed := hplaced

theorem Flushing.congr (h : Flushing S g w) (hS : ∀ x ∈ S, w'.fil x = w.fil x) : Flushing S g w' := by
  intro x hx
  rw [hS x hx]
  exact h x hx

theorem OnlyBelow.mono (h : OnlyBelow S F w) (hnfil : w'.nfil = w.nfil)
    (hdirty : ∀ x, ∀ e ∈ (w'.fil x).dirty, e ∈ (w.fil x).dirty) : OnlyBelow S F w' :=
  fun x hx hS e he => h x (by rwa [← hnfil]) hS e (hdirty x e he)

/-- One more directory is being flushed. -/
theorem Flushing.insert (h : Flushing S g w) (hcls : (w.fil g).cls.isDir = true)
    (hd : (w.fil g).isdirty = true) {e : Str} {y : ℕ} {l : List (Str × ℕ)} (hl : (w.fil g).dirty = (e, y) :: l) :
    Flushing (Insert.insert g S) y w := by
  rintro x (rfl | hx)
  · exact ⟨hcls, hd, e, y, l, hl, .inl rfl⟩
  · obtain ⟨hc, hdirty, e', y', l', hl', hy⟩ := h x hx
    exact ⟨hc, hdirty, e', y', l', hl', .inr (hy.imp_right id)⟩

/-- **The flush of a directory that is being flushed does not return.** -/
theorem nodeFlush_hangs (fuel : ℕ) : ∀ g, g ∈ S → Flushing S g w →
    nodeFlush E fuel g w = .error (.hang "bn_flush of a directory below itself") w := by
  induction fuel with
  | zero => exact fun _ _ _ => rfl
  | succ fuel ih =>
      intro g hg h
      obtain ⟨hcls, hd, e, y, l, hl, hy⟩ := h g hg
      have hyS : y ∈ S := hy.elim (fun hyg => hyg ▸ hg) id
      have hrun := ih y hyS fun x hx => by
        obtain ⟨hc, hdirty, e', y', l', hl', hy'⟩ := h x hx
        exact ⟨hc, hdirty, e', y', l', hl', .inr (hy'.elim (fun hyg => hyg ▸ hg) id)⟩
      have hloop : flushDirty (nodeFlush E fuel) g (w.fil g).dirty.length w =
          .error (.hang "bn_flush of a directory below itself") w := by
        rw [hl, List.length_cons, flushDirty, bind_apply, get_apply]
        simp only [hl, bind_apply, hrun]
      rw [nodeFlush, bind_apply, get_apply]
      simp only [hcls, hd, if_true, Bool.not_true, Bool.false_eq_true, if_false, bind_apply, hloop]

/-- **`bn_flush` of a node in use.**  If it returns, then the directories that are being flushed are as
they were, and so are the nodes that are below no others. -/
theorem safe_nodeFlush : ∀ (fuel g : ℕ) (S : Set ℕ) (w : World), FsOk E n w → Held w g → Flushing S g w →
    g ∉ F → OnlyBelow S F w →
    Safe E n (nodeFlush E fuel g) (fun r w' => CleanAt g r w' ∧ Framed S F w w') w := by
  intro fuel
  induction fuel with
  | zero => exact fun g S w h _ _ _ _ => .raise h _
  | succ fuel ih =>
      intro g S w h hg hfl hF hbelow
      by_cases hS : g ∈ S
      · rw [Safe, wp, nodeFlush_hangs (fuel + 1) g hS hfl]
        exact .inr ⟨h, .refl w⟩
      rw [nodeFlush]
      refine Safe.read ?_
      cases hcls : (w.fil g).cls.isDir with
      | false =>
          rw [if_neg (by simp)]
          refine (safe_bnFlushFile h hg.lt fun _ hm => ?_).mono ?_
          · rw [← hg.kind, hcls] at hm
            simp at hm
          · intro r w₂ _ _ hs
            refine ⟨hs.clean, .one hs.flushed.other hs.flushed.nfil (fun e he => ?_)
              (fun r f hr => (hs.flushed.cacheFil.nodemap r f).2 hr) (fun f => hs.flushed.cacheFil.placed) hS hF⟩
            rw [hs.flushed.own] at he
            exact he
      | true =>
          rw [if_pos rfl]
          cases hd : (w.fil g).isdirty with
          | false => exact .ret h ⟨⟨hd, rfl⟩, .refl w⟩
          | true =>
              have hloop : Safe E n (flushDirty (nodeFlush E fuel) g (w.fil g).dirty.length) (fun _ w' =>
                  ∃ k : ℕ, (Framed S F w w' ∧ (w'.fil g).isdirty = true) ∧ (k = 0 ∨ (w'.fil g).dirty = [])) w := by
                refine safe_flushDirty (I := fun _ w' => Framed S F w w' ∧ (w'.fil g).isdirty = true) ?_ _ w h
                  ⟨hg, hcls⟩ ⟨.refl w, hd⟩
                rintro - w₁ entry f l h₁ hg₁ hl hf ⟨hfr, hd₁⟩
                have hbelow₁ := hbelow.mono hfr.nfil hfr.dirty
                have hfF : f ∉ F := hbelow₁ g hg₁.held.lt hS (entry, f) (by rw [hl]; exact List.mem_cons_self)
                refine (ih f (Insert.insert g S) w₁ h₁ hf ((hfl.congr hfr.above).insert hg₁.isDir hd₁ hl) hfF
                  fun x hx hxS => hbelow₁ x hx fun hS => hxS (.inr hS)).mono ?_
                rintro ref w₂ h₂ hl₂ ⟨hc, hfr₂⟩
                refine ⟨hc, fun w₃ hs => ?_⟩
                have hg₂ := hfr₂.above g (.inl rfl)
                refine ⟨(hfr.trans (hfr₂.narrow fun _ => .inr)).trans
                  (.one hs.other hs.nfil (fun e he => ?_) (fun r f' => hs.keep) (fun _ => hs.placed _) hS hF), ?_⟩
                · rw [hs.own] at he
                  exact List.mem_of_mem_filter he
                · rw [hs.own, hg₂]
                  exact hd₁
              refine hloop.bind ?_
              rintro - w₂ h₂ hl₂ ⟨-, ⟨hfr, -⟩, -⟩
              refine (safe_flushDirData h₂ (DirMember.later ⟨hg, hcls⟩ hl₂)).mono ?_
              intro r w₃ _ _ hs
              refine ⟨hs.clean, hfr.trans (.one hs.other hs.nfil (fun e he => ?_)
                (fun r f hr => (hs.cacheFil.nodemap r f).2 hr) (fun f => hs.cacheFil.placed) hS hF)⟩
              rw [hs.dirty] at he
              exact he

theorem safe_bnFlush (h : FsOk E n w) {f : ℕ} (hf : Held w f) : Safe E n (bnFlush E f) (CleanAt f) w := by
  rw [bnFlush]
  refine Safe.read ?_
  refine (safe_nodeFlush (F := ∅) _ f ∅ w h hf (fun x hx => hx.elim) (fun hf => hf) ?_).mono ?_
  · exact fun _ _ _ _ _ hF => hF
  · exact fun _ _ _ _ hQ => hQ.1

/-- **`DirNode::find_blkref`**: the reference of a stored inode, or the nil reference. -/
theorem safe_findBlkref (h : FsOk E n w) (hd : d < w.nfil) (entry : Str) :
    Safe E n (findBlkref E d entry) (fun r w' => r ≠ .nil → Stored w'.log r .inode) w := by
  rw [findBlkref]
  refine Safe.read ?_
  cases hf : (w.fil d).dirty.lookup entry with
  | some f =>
      have hheld := (h.node d hd).held _ (mem_of_lookup hf)
      dsimp only
      refine (safe_bnFlush h hheld).bind ?_
      intro ref w₂ h₂ hl₂ hc
      have hs₂ := (hc.stored h₂ (hheld.later hl₂).lt).1
      refine (safe_cacheInsert h₂ (by rw [← hc.2]; exact hs₂) (hheld.later hl₂)).bind ?_
      rintro - w₃ h₃ hl₃ -
      have hd₃ := (hd.trans_le hl₂.nfil).trans_le hl₃.nfil
      refine (safe_eraseDirty h₃ hd₃ entry).bind ?_
      rintro - w₄ h₄ hl₄ -
      have hs₄ := hl₄.logLe.stored (hl₃.logLe.stored hs₂)
      refine (safe_modifyDir h₄ ?_).bind ?_
      · intro e he hne
        have hold := (h₄.node d (hd₃.trans_le hl₄.nfil)).refs e
        split at he
        case isTrue =>
          rcases mem_dirSet he with he | rfl
          · exact hold he hne
          · exact hs₄
        case isFalse => exact hold he hne
      · rintro - w₅ h₅ hl₅ -
        exact .ret h₅ fun _ => hl₅.logLe.stored hs₄
  | none =>
      refine .ret h fun hne => ?_
      cases href : (w.fil d).dir.lookup entry with
      | none =>
          rw [href] at hne
          exact absurd rfl hne
      | some r =>
          rw [href] at hne
          exact (h.node d hd).refs _ (mem_of_lookup href) hne

end tree

/-! ### Head nodes -/

section head

variable {log : List Effect}

theorem BInv.logged {X : Set ℕ} (h : BInv E X w) (hlog : ∀ r, getBlock r log = getBlock r w.log) :
    BInv E X { w with log := log } := by
  have hle : LogLe w.log log := fun r x hx => (hlog r).trans hx
  have hge : LogLe log w.log := fun r x hx => (hlog r).symm.trans hx
  have hdisk : DiskOk E log w.rand := by
    have hd := h.disk
    refine ⟨(hlog _).trans hd.nilFree, fun r b k hb => hd.digest r b k (hge r _ hb), ?_, ?_,
      fun r x hx => hd.fresh r x (hge r x hx), hd.randNodup, hd.randNe⟩
    · exact fun r b level hb i hi => hle.stored (hd.subRefs r b level (hge r _ hb) i hi)
    · exact fun r b hb s hs => hle.stored (hd.fileRefs r b (hge r _ hb) s hs)
  refine ⟨hdisk, h.rep, ?_, h.objUniq, ?_, ?_, ?_, h.nodeIv, ?_, ?_, ?_, h.zobj, h.hand, h.upClosed⟩
  · intro s n hs hn
    have ho := h.obj s n hs hn
    exact ⟨ho.lt, ho.zero, ho.level, ho.dirty, ho.uncached⟩
  · exact fun s hs hr => hle.stored (h.refOk s hs hr)
  · intro r n hr
    have hk := h.key r n hr
    exact ⟨hk.lt, hk.zero, hk.ref, hk.clean, hle.stored hk.stored⟩
  · exact fun r f hr => hle.stored (h.keyFil r f hr)
  · exact fun n hn hz x hx => h.nodeKind n hn hz x (hge _ x hx)
  · intro n hn hz hX hd
    exact @Coherent.logLe E X w { w with log := log } h rfl hle hdisk.nilFree n hn hz
      (h.clean n hn hz hX hd)
  · intro n hn hz
    exact ⟨(h.zero n hn hz).data, (h.zero n hn hz).obj⟩

/-- **A head node is inserted**, for a stored directory. -/
theorem safe_setRootref (h : FsOk E n w) {ref : BlockRef} (hs : Stored w.log ref .inode)
    (hm : storedIsDir E w.log ref = true) : Safe E n (setRootref E ref) (fun _ _ => True) w := by
  rw [setRootref]
  refine Safe.read ?_
  dsimp only
  split
  case isTrue => exact .ret h trivial
  case isFalse =>
    refine (safe_now h).bind ?_
    rintro - w₂ h₂ hl₂ -
    generalize hr : E.encryptRef ref = root
    have hroot : E.decryptRef root = ref := by rw [← hr, E.decryptRef_encryptRef]
    have hlog : ∀ r, getBlock r (.headInsert w₂.hn root :: w₂.log) = getBlock r w₂.log := fun _ => rfl
    have hle : LogLe w₂.log (.headInsert w₂.hn root :: w₂.log) := fun r x hx => (hlog r).trans hx
    have hb := h₂.blk.logged hlog
    have hshape : SameShape { w₂ with log := .headInsert w₂.hn root :: w₂.log }
        { w₂ with log := .headInsert w₂.hn root :: w₂.log, hn := some root, rbr := ref } :=
      ⟨fun _ => rfl, fun _ => rfl, fun _ => rfl, fun _ => rfl, fun _ => rfl, fun _ => rfl, rfl, rfl, rfl, rfl,
        List.Sublist.refl _, rfl⟩
    have hb' := hb.sameShape hshape (fun _ => .inl rfl) fun _ _ _ => rfl
    have hst : StoreFit E (.headInsert w₂.hn root :: w₂.log) := by
      refine h₂.store.mono h₂.blk.disk hle hb.disk.nilFree ?_ fun r x hs hs' => ?_
      · intro root' hmem
        rcases List.mem_cons.1 (show root' ∈ root :: heads w₂.log from hmem) with rfl | hmem
        · rw [hroot]
          have hs₂ := hl₂.logLe.stored hs
          refine ⟨hle.stored hs₂, ?_⟩
          rw [storedIsDir_mono hle hs₂, storedIsDir_mono hl₂.logLe hs]
          exact hm
        · obtain ⟨h₁, h₂'⟩ := h₂.store.head root' hmem
          exact ⟨hle.stored h₁, by rw [storedIsDir_mono hle h₁]; exact h₂'⟩
      · obtain ⟨b, hb⟩ := hs
        exact absurd ⟨b, hb⟩ hs'
    have hl : Later w₂ { w₂ with log := .headInsert w₂.hn root :: w₂.log, hn := some root, rbr := ref } :=
      ⟨hle, fun _ hi => hi, Nat.le_refl _, fun _ _ => rfl, fun _ _ => rfl⟩
    exact ⟨h₂.step_one (f := 0) hb' hl hst rfl rfl (.refl _) (fun _ _ => rfl)
      fun h0 => (h₂.node 0 h0).mono hl rfl, hl, trivial⟩

end head

end UTFS

end Utopfs
