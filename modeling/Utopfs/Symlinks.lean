/-
**Symbolic links.**

The target of a link is not written through the block tree: the constructor copies it to the inline data
of the inode, and its length is the size in the inode.  Both are part of the inode block, so that the link
is what it was when the directory has been flushed and is loaded again.

The inline data have 4096 bytes.  Nothing checks that the target fits.

Main definitions:

* `UTFS.ReadsLink`, `UTFS.Shows` — what `readlink` gives of a node, and of a name;
* `UTFS.IsLink`, `UTFS.StoredLink` — a link in memory, and in the store;
* `UTFS.Linking` — a directory that has a new link, while it is flushed;
* `UTFS.SymlinkLaw` — what `DirNode::symlink` should do with a name that is not in use.

Main results:

* `UTFS.symlink_run` — what `DirNode::symlink` does;
* `UTFS.safe_bnFlush_link` — **the link after the flush of its directory**;
* `UTFS.symlinkLaw_iff` — the law holds **exactly for the targets that fit**.
-/

import Utopfs.FsFlush
import Utopfs.FsPaths
import Utopfs.FsReads
import Utopfs.FsRuns
import Utopfs.Messages

set_option relaxedAutoImplicit false
set_option autoImplicit false

namespace Utopfs

namespace UTFS

open Prog

/-! ### Reading a link -/

/-- What `readlink` leaves in a buffer of `size` bytes: the target, as much of it as fits before the null,
and what was there. -/
def linkText (target : Str) (size : ℕ) (obuf : ℕ → UInt8) : ℕ → UInt8 := fun j =>
  if j < min target.length (size - 1) then target.getD j 0
  else if j = min target.length (size - 1) then 0 else obuf j

/-- `readlink` of the node gives the target, whatever the size of the buffer. -/
def ReadsLink (f : ℕ) (target : Str) (w : World) : Prop :=
  ∀ size obuf, 0 < size → readlink size f obuf w = .ok (0, linkText target size obuf) w

/-- `readlink` of the name gives the target. -/
def Shows (E : Env) (d : ℕ) (entry target : Str) (w : World) : Prop :=
  ∃ f w', lookup E d entry false w = .ok (some f) w' ∧ ReadsLink f target w'

/-- The node is a link to the target. -/
structure IsLink (x : FileNode) (target : Str) : Prop where
  cls : x.cls = .symlink
  dirMode : sIsdir x.inode.mode = false
  linkMode : sIslnk x.inode.mode = true
  size : x.inode.size = target.length
  inl : ∀ j, x.inl j = target.getD j 0
  fits : target.length ≤ 4096

/-- A link to the target is stored. -/
structure StoredLink (E : Env) (log : List Effect) (r : BlockRef) (target : Str) : Prop where
  stored : Stored log r .inode
  link : ∃ x, decodeFile E log r = some x ∧ IsLink { x with cls := .symlink } target

variable {E : Env} {n d f g : ℕ} {w w' : World} {entry target : Str} {r : BlockRef} {x : FileNode}

theorem IsLink.reads (h : IsLink (w.fil f) target) : ReadsLink f target w := by
  intro size obuf hsize
  have hfits : min target.length (size - 1) ≤ 4096 := (Nat.min_le_left _ _).trans h.fits
  simp only [readlink, bind_apply, get_apply, h.cls, ne_eq, not_true_eq_false, if_false, h.size,
    Nat.pos_iff_ne_zero.1 hsize, dif_pos hfits, pure_apply]
  congr 2
  funext j
  rw [linkText]
  by_cases hj : j < min target.length (size - 1)
  · rw [dif_pos hj, if_pos hj, h.inl]
  · rw [dif_neg hj, if_neg hj]

theorem IsLink.isDir (h : IsLink x target) : x.cls.isDir = false := by rw [h.cls]; rfl

/-- The fields of a link that a flush leaves alone. -/
theorem IsLink.congr {y : FileNode} (h : IsLink x target) (hcls : y.cls = x.cls) (hinode : y.inode = x.inode)
    (hinl : y.inl = x.inl) : IsLink y target where
  cls := hcls.trans h.cls
  dirMode := by rw [hinode]; exact h.dirMode
  linkMode := by rw [hinode]; exact h.linkMode
  size := by rw [hinode]; exact h.size
  inl := by rw [hinl]; exact h.inl
  fits := h.fits

theorem StoredLink.mono {log log' : List Effect} (h : StoredLink E log r target) (hle : LogLe log log') :
    StoredLink E log' r target := by
  refine ⟨hle.stored h.stored, ?_⟩
  rw [hle.decodeFile h.stored]
  exact h.link

theorem IsLink.stored (h : IsLink (w.fil f) target) (hco : FileCoherent E w f) :
    StoredLink E w.log (w.fil f).ref target :=
  ⟨hco.stored, _, hco.decoded, h.congr h.cls.symm rfl rfl⟩

/-! ### Making a link -/

section make

theorem isLink_freshSymlink (hfits : target.length ≤ 4096) (t : ℕ) :
    IsLink (.freshSymlink target t) target where
  cls := rfl
  dirMode := show sIsdir (((0o777 ||| sIfreg) &&& ~~~sIfmt) ||| sIflnk) = false by decide
  linkMode := show sIslnk (((0o777 ||| sIfreg) &&& ~~~sIfmt) ||| sIflnk) = true by decide
  size := rfl
  inl _ := rfl
  fits := hfits

/-- The name is not in use. -/
structure Absent (w : World) (d : ℕ) (entry : Str) : Prop where
  dirty : (w.fil d).dirty.lookup entry = none
  dir : (w.fil d).dir.lookup entry = none

/-- The clock has been read. -/
def World.ticked (w : World) : World := { w with ticks := w.ticks + 1 }

/-- The directory has a link under a new name. -/
def World.symlinked (w : World) (d : ℕ) (entry target : Str) : World :=
  let w₁ := w.ticked.allocFil (.freshSymlink target (w.clock w.ticks))
  w₁.setFil d { w₁.fil d with
    dirty := dirtyInsert entry w.nfil (w₁.fil d).dirty, dir := dirSet entry .nil (w₁.fil d).dir, isdirty := true }

/-- **`DirNode::symlink`** of a name that is not in use. -/
theorem symlink_run (target : Str) (hcls : (w.fil d).cls = .dir) (ha : Absent w d entry) :
    symlink E d entry target w =
      if 4096 < target.length then .error (.undefined "memcpy beyond m_inl") w.ticked
      else .ok 0 (w.symlinked d entry target) := by
  have hlookup : lookup E d entry false w = .ok none w := by
    simp only [lookup, bind_apply, get_apply, ha.dirty, ha.dir, pure_apply]
  have hnow : now w = .ok (w.clock w.ticks) w.ticked := rfl
  simp only [symlink, addNode, bind_apply, get_apply, hcls, reduceCtorEq, if_false, hlookup, newSymlinkNode, hnow]
  by_cases hlen : 4096 < target.length
  · simp only [hlen, if_true, bind_apply, throw_apply]
  · simp only [hlen, if_false, allocFil, bind_apply, get_apply, set_apply, pure_apply, modifyDirty, modifyDir,
      modify_apply, setFilDirty, setFil_setFil, setFil_self]
    rfl

theorem symlinked_dir (entry target : Str) (hd : d < w.nfil) : (w.symlinked d entry target).fil d = { w.fil d with
    dirty := dirtyInsert entry w.nfil (w.fil d).dirty, dir := dirSet entry .nil (w.fil d).dir, isdirty := true } := by
  have hold : (w.ticked.allocFil (.freshSymlink target (w.clock w.ticks))).fil d = w.fil d :=
    allocFil_of_lt w.ticked _ hd
  rw [World.symlinked, setFil_self, hold]

theorem symlinked_lookup (hd : d < w.nfil) (ha : Absent w d entry) :
    ((w.symlinked d entry target).fil d).dirty.lookup entry = some w.nfil := by
  rw [symlinked_dir entry target hd]
  dsimp only
  rw [lookup_dirtyInsert (fun g hg => by simp [ha.dirty] at hg), if_pos rfl]

theorem symlinked_link (entry target : Str) (hd : d < w.nfil) :
    (w.symlinked d entry target).fil w.nfil = .freshSymlink target (w.clock w.ticks) := by
  rw [World.symlinked, setFil_of_ne _ _ (Nat.ne_of_gt hd)]
  exact allocFil_self w.ticked _

theorem symlinked_of_lt {x : ℕ} (hx : x < w.nfil) (hxd : x ≠ d) :
    (w.symlinked d entry target).fil x = w.fil x := by
  rw [World.symlinked, setFil_of_ne _ _ hxd]
  exact allocFil_of_lt w.ticked _ hx

end make

/-! ### Flushing the directory -/

section flush

variable {k : ℕ} {w₁ w₂ : World} {ref : BlockRef} {l : List (Str × ℕ)} {e : Str}

/-- The link has not been flushed. -/
structure Waiting (d f : ℕ) (entry : Str) (w : World) : Prop where
  dirty : (w.fil f).isdirty = true
  ref : (w.fil f).ref = .nil
  entry : (w.fil d).dirty.lookup entry = some f

/-- The link is stored under its reference in the directory, and is in the clean cache. -/
structure Linked (E : Env) (d f : ℕ) (entry target : Str) (w : World) : Prop where
  link : IsLink (w.fil f) target
  clean : (w.fil d).dirty.lookup entry = none
  entry : ∃ r, (w.fil d).dir.lookup entry = some r ∧ StoredLink E w.log r target ∧
    w.cache.nodemap r = some (.fil f)
  placed : w.cache.Placed (.fil f)

/-- The directory `d` has the new link `f`, and `k` rounds of its flush are left at most. -/
structure Linking (E : Env) (d f : ℕ) (entry target : Str) (k : ℕ) (w : World) : Prop where
  link : IsLink (w.fil f) target
  dirtied : (w.fil d).isdirty = true
  short : (w.fil d).dirty.length ≤ k
  below : OnlyBelow {d} {f} w
  sole : ∀ e ∈ (w.fil d).dirty, e.2 = f → e.1 = entry
  state : Waiting d f entry w ∨ Linked E d f entry target w

/-- The name in the front of the dirty nodes is erased. -/
theorem length_dirtyErase (e : Str) (g : ℕ) (l : List (Str × ℕ)) : (dirtyErase e ((e, g) :: l)).length ≤ l.length := by
  have hcons : dirtyErase e ((e, g) :: l) = dirtyErase e l := by simp [dirtyErase]
  rw [hcons]
  exact List.length_filter_le _ _

/-- A new reference is not in the clean cache yet. -/
theorem FileStored.notCached (h : FsOk E n w) (h₁ : FsOk E n w₁) (hs : FileStored E f w ref w₁)
    (hdirty : (w.fil f).isdirty = true) (hnil : (w.fil f).ref = .nil) : w₁.cache.nodemap ref = none := by
  have hst : Stored w₁.log ref .inode := by
    rw [hs.clean.2]
    exact (hs.coherent hdirty).stored
  have hiv : ref.iv ∈ w.rand := by
    rw [hs.clean.2]
    refine hs.puts.ref.resolve_left fun href => ?_
    obtain ⟨b, hb⟩ := hst
    rw [hs.clean.2, href, hnil, h₁.blk.disk.nilFree] at hb
    simp at hb
  cases ho : w₁.cache.nodemap ref with
  | none => rfl
  | some o =>
      cases o with
      | fil g =>
          obtain ⟨b, hb⟩ := h.blk.keyFil ref g ((hs.flushed.cacheFil.nodemap ref g).1 ho)
          exact absurd hiv (h.blk.disk.fresh ref _ hb)
      | blk m => exact absurd ho (h₁.key_ne_blk hst m)

/-- **The round of the link itself.** -/
theorem Linking.own (hL : Linking E d f entry target (k + 1) w) (hfd : f ≠ d) (h : FsOk E n w) (h₁ : FsOk E n w₁)
    (hw : Waiting d f entry w) (hl : (w.fil d).dirty = (entry, f) :: l) (hs : FileStored E f w ref w₁)
    (hset : Settled d entry f ref w₁ w₂) : Linking E d f entry target k w₂ := by
  have hf₁ := hs.flushed.own
  have hd₁ : w₁.fil d = w.fil d := hs.flushed.other d hfd.symm
  have hf₂ : w₂.fil f = w₁.fil f := hset.other f hfd
  have hfresh := hs.notCached h h₁ hw.dirty hw.ref
  have hlink₁ : IsLink (w₁.fil f) target := hL.link.congr (by rw [hf₁]) (by rw [hf₁]) (by rw [hf₁])
  have hlink : IsLink (w₂.fil f) target := by
    rw [hf₂]
    exact hlink₁
  have hsub : ∀ x ∈ (w₂.fil d).dirty, x ∈ (w.fil d).dirty := by
    intro x hx
    rw [hset.own, hd₁] at hx
    exact List.mem_of_mem_filter hx
  refine ⟨hlink, ?_, ?_, ?_, fun x hx => hL.sole x (hsub x hx), .inr ⟨hlink, ?_, ⟨ref, ?_, ?_, ?_⟩, hset.self ?_⟩⟩
  · rw [hset.own, hd₁]
    exact hL.dirtied
  · have hlen := hL.short
    have herase := length_dirtyErase entry f l
    rw [hl, List.length_cons] at hlen
    rw [hset.own, hd₁, hl]
    exact herase.trans (Nat.le_of_succ_le_succ hlen)
  · intro x hx hxd y hy
    have hx₂ : w₂.fil x = w₁.fil x := hset.other x hxd
    refine hL.below x (by rwa [hset.nfil, hs.flushed.nfil] at hx) hxd y ?_
    rw [hx₂] at hy
    by_cases hxf : x = f
    · subst hxf
      rw [hf₁] at hy
      exact hy
    · rw [hs.flushed.other x hxf] at hy
      exact hy
  · rw [hset.own, lookup_dirtyErase, if_pos rfl]
  · rw [hset.own, lookup_dirSet, if_pos rfl]
  · rw [hset.log, hs.clean.2]
    exact hlink₁.stored (hs.coherent hw.dirty)
  · rw [hset.key, if_pos ⟨hfresh, hs.clean.2⟩]
  · rw [← hs.clean.2]
    exact hfresh

/-- The round of another name. -/
theorem Linking.round (hL : Linking E d f entry target (k + 1) w) (hfd : f ≠ d) (hne : e ≠ entry)
    (hl : (w.fil d).dirty = (e, g) :: l) (hfr : Framed {d} {f} w w₁) (hle : LogLe w.log w₁.log)
    (hset : Settled d e g ref w₁ w₂) : Linking E d f entry target k w₂ := by
  have hd₁ : w₁.fil d = w.fil d := hfr.above d rfl
  have hf₂ : w₂.fil f = w.fil f := (hset.other f hfd).trans (hfr.apart f rfl)
  have hlink : IsLink (w₂.fil f) target := by
    rw [hf₂]
    exact hL.link
  have hlookup : (w₂.fil d).dirty.lookup entry = (w.fil d).dirty.lookup entry := by
    rw [hset.own, hd₁, lookup_dirtyErase, if_neg hne.symm]
  have hsub : ∀ x, ∀ y ∈ (w₂.fil x).dirty, y ∈ (w.fil x).dirty := by
    intro x y hy
    by_cases hx : x = d
    · subst hx
      rw [hset.own, hd₁] at hy
      exact List.mem_of_mem_filter hy
    · rw [hset.other x hx] at hy
      exact hfr.dirty x y hy
  refine ⟨hlink, ?_, ?_, hL.below.mono (hset.nfil.trans hfr.nfil) hsub, fun x hx => hL.sole x (hsub d x hx), ?_⟩
  · rw [hset.own, hd₁]
    exact hL.dirtied
  · have hlen := hL.short
    have herase := length_dirtyErase e g l
    rw [hl, List.length_cons] at hlen
    rw [hset.own, hd₁, hl]
    exact herase.trans (Nat.le_of_succ_le_succ hlen)
  · refine hL.state.imp (fun hw => ⟨?_, ?_, hlookup.trans hw.entry⟩) fun hd => ⟨hlink, hlookup.trans hd.clean, ?_, ?_⟩
    · rw [hf₂]
      exact hw.dirty
    · rw [hf₂]
      exact hw.ref
    · obtain ⟨r, hr, hst, hkey⟩ := hd.entry
      refine ⟨r, ?_, ?_, hset.keep (hfr.keep r f hkey)⟩
      · rw [hset.own, hd₁, lookup_dirSet, if_neg hne.symm]
        exact hr
      · rw [hset.log]
        exact hst.mono hle
    · exact hset.placed _ (hfr.placed f hd.placed)

/-- The flush of a node that is no directory. -/
theorem safe_nodeFlush_file (h : FsOk E n w) (hf : Held w f) (hcls : (w.fil f).cls.isDir = false) (fuel : ℕ) :
    Safe E n (nodeFlush E fuel f) (FileStored E f w) w := by
  cases fuel with
  | zero => exact .raise h _
  | succ fuel =>
      rw [nodeFlush]
      refine Safe.read ?_
      rw [hcls, if_neg (by simp)]
      refine safe_bnFlushFile h hf.lt fun _ hm => ?_
      rw [← hf.kind, hcls] at hm
      simp at hm

/-- **The loop over the dirty nodes of the directory.** -/
theorem safe_flushDirty_link (fuel : ℕ) (h : FsOk E n w) (hd : DirMember w d)
    (hL : Linking E d f entry target (w.fil d).dirty.length w) :
    Safe E n (flushDirty (nodeFlush E fuel) d (w.fil d).dirty.length)
      (fun _ w' => Linked E d f entry target w' ∧ (w'.fil d).dirty = [] ∧ (w'.fil d).isdirty = true) w := by
  refine (safe_flushDirty (I := Linking E d f entry target) ?_ _ w h hd hL).mono ?_
  · intro count w e g l h hd hl hg hL
    have hfd : f ≠ d := by
      rintro rfl
      have hf := hL.link.isDir
      rw [hd.isDir] at hf
      simp at hf
    by_cases hwait : Waiting d f entry w ∧ e = entry
    · obtain ⟨hw, rfl⟩ := hwait
      obtain rfl : g = f := by
        have := hw.entry
        rw [hl] at this
        simpa using this
      refine (safe_nodeFlush_file h hg hL.link.isDir fuel).mono ?_
      exact fun ref w₁ h₁ _ hs => ⟨hs.clean, fun w₂ hset => hL.own hfd h h₁ hw hl hs hset⟩
    · have hne : e ≠ entry := by
        rintro rfl
        rcases hL.state with hw | hd'
        · exact hwait ⟨hw, rfl⟩
        · have := hd'.clean
          rw [hl] at this
          simp at this
      have hgf : g ∉ ({f} : Set ℕ) := by
        rintro rfl
        exact hne (hL.sole (e, g) (by rw [hl]; exact List.mem_cons_self) rfl)
      have hflush : Flushing {d} g w := by
        rintro x rfl
        exact ⟨hd.isDir, hL.dirtied, e, g, l, hl, .inl rfl⟩
      refine (safe_nodeFlush fuel g {d} w h hg hflush hgf hL.below).mono ?_
      rintro ref w₁ _ hl₁ ⟨hc, hfr⟩
      exact ⟨hc, fun w₂ hset => hL.round hfd hne hl hfr hl₁.logLe hset⟩
  · rintro - w₁ - - ⟨k, hL₁, hk⟩
    have hnil : (w₁.fil d).dirty = [] := by
      rcases hk with rfl | hk
      · exact List.length_eq_zero_iff.1 (Nat.le_zero.1 hL₁.short)
      · exact hk
    refine ⟨hL₁.state.resolve_left fun hw => ?_, hnil, hL₁.dirtied⟩
    have := hw.entry
    rw [hnil] at this
    simp at this

/-- What the flush of the directory leaves: the link, and a stored directory that has it. -/
structure LinkFlushed (E : Env) (d f : ℕ) (entry target : Str) (ref : BlockRef) (w : World) : Prop where
  linked : Linked E d f entry target w
  nil : (w.fil d).dirty = []
  own : ref = (w.fil d).ref
  coherent : FileCoherent E w d
  dir : storedDir E w.log ref = some (w.fil d).dir
  mode : sIsdir (w.fil d).inode.mode = true

/-- **The link after the flush of its directory.** -/
theorem safe_bnFlush_link (h : FsOk E n w) (hd : DirMember w d)
    (hL : Linking E d f entry target (w.fil d).dirty.length w) :
    Safe E n (bnFlush E d) (LinkFlushed E d f entry target) w := by
  rw [bnFlush]
  refine Safe.read ?_
  rw [nodeFlush]
  refine Safe.read ?_
  rw [hd.isDir, if_pos rfl, hL.dirtied]
  refine (safe_flushDirty_link w.nfil h hd hL).bind ?_
  rintro - w₁ h₁ hl₁ ⟨hlinked, hnil, hdirty⟩
  have hd₁ := hd.later hl₁
  refine (safe_flushDirData h₁ hd₁).mono ?_
  intro ref w₂ h₂ hl₂ hs
  have hfd : f ≠ d := by
    rintro rfl
    have hf := hlinked.link.isDir
    rw [hd₁.isDir] at hf
    simp at hf
  have hf₂ : w₂.fil f = w₁.fil f := hs.other f hfd
  have hd₂ := hd₁.later hl₂
  obtain ⟨r, hr, hst, hkey⟩ := hlinked.entry
  refine ⟨⟨?_, ?_, ⟨r, ?_, hst.mono hl₂.logLe, (hs.cacheFil.nodemap r f).2 hkey⟩, hs.cacheFil.placed hlinked.placed⟩,
    hs.dirty.trans hnil, hs.clean.2, hs.coherent hdirty, ?_, ?_⟩
  · rw [hf₂]
    exact hlinked.link
  · rw [hs.dirty]
    exact hlinked.clean
  · rw [hs.dir]
    exact hr
  · rw [hs.dir]
    exact hs.stored hdirty
  · rw [← hd₂.held.kind, hd₂.isDir]

end flush

/-! ### Finding the link -/

section find

variable {m : ℕ} {w₂ w₃ : World} {ref : BlockRef}

/-- The node of a dirty name is found as it is. -/
theorem IsLink.shows (h : IsLink (w.fil f) target) (hentry : (w.fil d).dirty.lookup entry = some f) :
    Shows E d entry target w := by
  refine ⟨f, w, ?_, h.reads⟩
  simp only [lookup, bind_apply, get_apply, hentry, pure_apply]

/-- A stored link is found in the clean cache. -/
theorem Linked.shows (h : Linked E d f entry target w) : Shows E d entry target w := by
  obtain ⟨r, hr, -, hkey⟩ := h.entry
  refine ⟨f, w.setCache (w.cache.touched (.fil f)), ?_, IsLink.reads h.link⟩
  simp only [lookup, cacheLookup, bind_apply, get_apply, h.clean, hr, hkey, cacheTouch_run h.placed, pure_apply]

/-- A stored link that is not in the clean cache is loaded. -/
theorem StoredLink.shows (h : StoredLink E w.log r target) (hd : DiskOk E w.log w.rand)
    (hclean : (w.fil d).dirty.lookup entry = none) (hr : (w.fil d).dir.lookup entry = some r)
    (hnone : w.cache.nodemap r = none) : Shows E d entry target w := by
  obtain ⟨x, hx, hlink⟩ := h.link
  have hload := loadNode_link hd h.stored hx hlink.dirMode hlink.linkMode
  generalize hw₁ : (w.allocFil x).allocFil { x with cls := .symlink } = w₁ at hload
  have hself : w₁.fil (w.nfil + 1) = { x with cls := .symlink } := by
    rw [← hw₁]
    exact allocFil_self (w.allocFil x) _
  have hmiss : w₁.cache.nodemap (w₁.refOf (.fil (w.nfil + 1))) = none := by
    have href : w₁.refOf (.fil (w.nfil + 1)) = r := by
      change (w₁.fil (w.nfil + 1)).ref = r
      rw [hself]
      exact show x.ref = r from ref_decodeFile hx
    rw [href, ← hw₁]
    exact hnone
  have hreads : IsLink (w₁.fil (w.nfil + 1)) target := by
    rw [hself]
    exact hlink
  refine ⟨w.nfil + 1, w₁.setCache (w₁.cache.inserted (w₁.refOf (.fil (w.nfil + 1))) (.fil (w.nfil + 1))), ?_,
    IsLink.reads hreads⟩
  simp only [lookup, cacheLookup, bind_apply, get_apply, hclean, hr, hnone, pure_apply, hload, cacheInsert, hmiss,
    set_apply, mruPushFront, modify_apply, Bool.false_eq_true, if_false]
  rfl

/-- **The link after the directory has been loaded again**, where no file node is in the clean cache. -/
theorem LinkFlushed.reloaded (h : LinkFlushed E d f entry target ref w) (hok : FsOk E n w) (h₃ : FsOk E m w₃)
    (hle : LogLe w.log w₃.log) (hcache : ∀ r g, w₃.cache.nodemap r ≠ some (.fil g)) :
    wp (loadNode E ref) (fun d' w₄ => Shows E d' entry target w₄)
      (fun e _ => Unread m (w.fil d).inode.size e) w₃ := by
  have hst : Stored w.log ref .inode := by
    rw [h.own]
    exact h.coherent.stored
  have hdec : decodeFile E w₃.log ref = some (w.fil d).bare := by
    rw [hle.decodeFile hst, h.own]
    exact h.coherent.decoded
  refine wp_mono (wp_loadDir h₃ (hle.stored hst) hdec h.mode) ?_ fun e _ hF => hF.2.2
  rintro d' w₄ ⟨h₄, hu, hn, hd'⟩
  obtain ⟨r, hr, hlink, -⟩ := h.linked.entry
  have hlink₄ : StoredLink E w₄.log r target := by
    rw [hu.log]
    exact hlink.mono hle
  have hdirty : (w₄.fil d').dirty = [] := by
    have := hn.copy.dirty
    simpa only [World.dirtyOf, hd'.isDir, if_true] using this
  have hdir : (w₄.fil d').dir = (w.fil d).dir := by
    have := hn.copy.dir
    simpa only [World.dirOf, hd'.isDir, if_true, hu.log,
      storedDir_mono hok.blk.disk hle h₃.blk.disk.nilFree hst, h.dir, Option.getD_some] using this
  refine hlink₄.shows h₄.blk.disk (by rw [hdirty]; rfl) (by rw [hdir]; exact hr) ?_
  cases ho : w₄.cache.nodemap r with
  | none => rfl
  | some o =>
      cases o with
      | fil g => exact absurd ((hn.cache.nodemap r g).1 ho) (hcache r g)
      | blk k => exact absurd ho (h₄.key_ne_blk hlink₄.stored k)

end find

/-! ### The law -/

section law

/-- **What `DirNode::symlink` should do** with a name that is not in use.  If it fails, then not by a copy
beyond the inline data, and the directory is as it was.  If it does not, then `readlink` gives the target:
at once, after the directory has been flushed, and after it has been loaded again. -/
structure SymlinkLaw (E : Env) (d : ℕ) (entry target : Str) (w : World) : Prop where
  failed : ∀ e w₁, symlink E d entry target w = .error e w₁ → (∀ what, e ≠ .undefined what) ∧ w₁.fil d = w.fil d
  made : ∀ rv w₁, symlink E d entry target w = .ok rv w₁ → rv = 0 ∧ Shows E d entry target w₁ ∧
    ∀ ref w₂, bnFlush E d w₁ = .ok ref w₂ → Shows E d entry target w₂ ∧
      ∀ m w₃, FsOk E m w₃ → LogLe w₂.log w₃.log → (∀ r g, w₃.cache.nodemap r ≠ some (.fil g)) →
        wp (loadNode E ref) (fun d' w₄ => Shows E d' entry target w₄)
          (fun e _ => Unread m (w₂.fil d).inode.size e) w₃

/-- A target that does not fit is copied beyond the inline data. -/
theorem not_symlinkLaw (hcls : (w.fil d).cls = .dir) (ha : Absent w d entry) (hlong : 4096 < target.length) :
    ¬ SymlinkLaw E d entry target w := by
  intro hlaw
  have hrun := symlink_run (E := E) target hcls ha
  rw [if_pos hlong] at hrun
  exact (hlaw.failed _ _ hrun).1 _ rfl

theorem FsOk.linking (h : FsOk E n w) (hd : d < w.nfil) (ha : Absent w d entry) (hfits : target.length ≤ 4096) :
    Linking E d w.nfil entry target ((w.symlinked d entry target).fil d).dirty.length
      (w.symlinked d entry target) := by
  have hdir := symlinked_dir entry target hd
  have hlink := symlinked_link entry target hd
  have hold : ∀ x, x < w.nfil → ∀ e ∈ (w.fil x).dirty, e.2 ≠ w.nfil :=
    fun x hx e he => Nat.ne_of_lt ((h.node x hx).held e he).lt
  refine ⟨?_, by rw [hdir], Nat.le_refl _, fun x hx hxd e he => ?_, fun e he hef => ?_,
    .inl ⟨?_, ?_, symlinked_lookup hd ha⟩⟩
  · rw [hlink]
    exact isLink_freshSymlink hfits _
  · have hx' : x < w.nfil + 1 := hx
    rcases Nat.lt_succ_iff_lt_or_eq.1 hx' with hlt | rfl
    · rw [symlinked_of_lt hlt hxd] at he
      exact hold x hlt e he
    · rw [hlink] at he
      exact absurd he List.not_mem_nil
  · rw [hdir] at he
    rcases mem_dirtyInsert he with he | rfl
    · exact absurd hef (hold d hd e he)
    · rfl
  · rw [hlink]
    rfl
  · rw [hlink]
    rfl

/-- **A symbolic link is what it was made, exactly if its target fits in the inline data.** -/
theorem symlinkLaw_iff (h : FsOk E n w) (hd : DirMember w d) (hcls : (w.fil d).cls = .dir) (ha : Absent w d entry) :
    SymlinkLaw E d entry target w ↔ target.length ≤ 4096 := by
  constructor
  · intro hlaw
    by_contra hlong
    exact not_symlinkLaw hcls ha (Nat.lt_of_not_le hlong) hlaw
  · intro hfits
    have hrun := symlink_run (E := E) target hcls ha
    rw [if_neg (Nat.not_lt.2 hfits)] at hrun
    refine ⟨fun e w₁ he => ?_, fun rv w₁ hok => ?_⟩
    · rw [hrun] at he
      simp at he
    · rw [hrun] at hok
      obtain ⟨rfl, rfl⟩ : 0 = rv ∧ w.symlinked d entry target = w₁ := by simpa using hok
      have hsafe := wp_ok (safe_symlink h hd.held.lt entry target) hrun
      have hL := h.linking hd.held.lt ha hfits
      refine ⟨rfl, hL.link.shows (symlinked_lookup hd.held.lt ha), fun ref w₂ hflush => ?_⟩
      obtain ⟨h₂, -, hf⟩ := wp_ok (safe_bnFlush_link hsafe.1 (hd.later hsafe.2.1) hL) hflush
      exact ⟨hf.linked.shows, fun m w₃ h₃ hle hcache => hf.reloaded h₂ h₃ hle hcache⟩

/-- A directory without entries, and random bytes for two puts. -/
def World.oneDir : World :=
  (World.boot [fun _ => 1, fun _ => 2] [] fun _ => 0).allocFil (.freshDir 0o755 [] [] 0)

theorem oneDir_ok : FsOk Env.sample 0 World.oneDir := by
  have hne : ∀ iv ∈ [fun _ : Fin 16 => (1 : UInt8), fun _ => 2], iv ≠ fun _ => 0 := by
    simp only [List.mem_cons, List.not_mem_nil, or_false, forall_eq_or_imp, forall_eq]
    exact ⟨fun h => absurd (congrFun h 0) (by decide), fun h => absurd (congrFun h 0) (by decide)⟩
  have hboot : FsOk Env.sample 0 (World.boot [fun _ => 1, fun _ => 2] [] fun _ => 0) :=
    .started (BInv.boot (E := Env.sample) (by decide) hne [] fun _ => 0).disk .nil [] fun _ => 0
  refine (hboot.allocFil (fun _ => rfl) (fun _ hs => absurd rfl hs) (fun hc => ?_) rfl rfl).1
  have : true = false := hc
  simp at this

/-- Of the directory without entries. -/
theorem oneDir_absent (entry : Str) :
    DirMember World.oneDir 0 ∧ (World.oneDir.fil 0).cls = .dir ∧ Absent World.oneDir 0 entry :=
  ⟨⟨⟨Nat.zero_lt_one, by decide, by decide⟩, rfl⟩, rfl, rfl, rfl⟩

theorem symlinkLaw_short : SymlinkLaw Env.sample 0 [108] [116, 111] World.oneDir :=
  (symlinkLaw_iff oneDir_ok (oneDir_absent [108]).1 rfl (oneDir_absent [108]).2.2).2 (by decide)

theorem not_symlinkLaw_long : FsOk Env.sample 0 World.oneDir ∧ DirMember World.oneDir 0 ∧
    Absent World.oneDir 0 [108] ∧ ¬ SymlinkLaw Env.sample 0 [108] (List.replicate 4097 97) World.oneDir :=
  ⟨oneDir_ok, (oneDir_absent [108]).1, (oneDir_absent [108]).2.2, not_symlinkLaw rfl (oneDir_absent [108]).2.2
    (by rw [List.length_replicate]; decide)⟩

end law

end UTFS

end Utopfs
