/-
**Flushing leaves the tree of directories as it is.**

A flush gives every dirty node a new reference.  The entry of the node takes it over, and from then on the
clean cache leads from it to the node.  So the tree is the same after the flush, and at each put that finds
no space; what is stored in the end is what was in memory.

Main definitions:

* `UTFS.Leaves` — a program that leaves the tree as it is;
* `UTFS.Rewrote` — a node has been changed, with its blocks;
* `UTFS.Spared` — the nodes that are not below a path are as they were.

Main results:

* `UTFS.leaves_bnFlushFile`, `UTFS.leaves_flushDirData` — one file, and the entries of one directory;
* `UTFS.TInv.settled` — an entry takes over the reference of its node;
* `UTFS.leaves_nodeFlush`, `UTFS.leaves_bnFlush` — **`bn_flush`**;
* `UTFS.leaves_findBlkref` — `DirNode::find_blkref`.
-/

import Utopfs.DirLookup
import Utopfs.FsFlush

set_option relaxedAutoImplicit false
set_option autoImplicit false

namespace Utopfs

namespace UTFS

open Prog

variable (E : Env)

/-- The program leaves the tree as it is, and what it returns satisfies `Q`. -/
def Leaves (L : Laws) (M : Option (Loc × Str)) (H : Hand) {α : Type} (m : UTFS.M α)
    (Q : α → World → Prop) (w : World) : Prop :=
  wp m (fun a w' => TInv E L M H w' ∧ Calm E M H w w' ∧ Q a w')
    (fun e w' => Fatal e ∨ (TInv E L M H w' ∧ Calm E M H w w' ∧ ∀ en, e ≠ .errno en)) w

/-- The node `f` has been changed, with its blocks; what is below it is the same.  If it is clean then only
its times have changed. -/
structure Rewrote (f : ℕ) (w w' : World) : Prop where
  inv : BInv E ∅ w'
  log : w'.log = w.log
  rand : w'.rand = w.rand
  nfil : w'.nfil = w.nfil
  tops : w'.tops = w.tops
  cacheFil : SameFil w.cache w'.cache
  other : ∀ g, g ≠ f → w'.fil g = w.fil g
  otherBytes : ∀ g, g ≠ f → g < w.nfil → ∀ a, fileBytes E w' g a = fileBytes E w g a
  cls : (w'.fil f).cls = (w.fil f).cls
  kind : sIsdir (w'.fil f).inode.mode = sIsdir (w.fil f).inode.mode
  nlink : (w'.fil f).inode.nlink = (w.fil f).inode.nlink
  ref : (w'.fil f).ref = (w.fil f).ref
  dir : (w'.fil f).dir = (w.fil f).dir
  dirty : (w'.fil f).dirty = (w.fil f).dirty
  clean : (w'.fil f).isdirty = false →
    (w.fil f).isdirty = false ∧ (w'.fil f).timeless = (w.fil f).timeless

variable {E} {w w' : World} {M : Option (Loc × Str)} {H : Hand} {L : Laws} {α β : Type}

/-! ### Rules -/

section rules

variable {Q : α → World → Prop} {Q' : β → World → Prop}

theorem Leaves.ret (h : TInv E L M H w) {a : α} (hQ : Q a w) : Leaves E L M H (pure a) Q w :=
  ⟨h, .refl h, hQ⟩

theorem Leaves.fatal {e : Exn} (he : Fatal e) : Leaves E L M H (throw e : UTFS.M α) Q w := .inl he

/-- What has happened before is told too. -/
theorem Leaves.after {m : UTFS.M α} {w₁ : World} (hm : Leaves E L M H m Q w₁) (hc : Calm E M H w w₁) :
    wp m (fun a w' => TInv E L M H w' ∧ Calm E M H w w' ∧ Q a w')
      (fun e w' => Fatal e ∨ (TInv E L M H w' ∧ Calm E M H w w' ∧ ∀ en, e ≠ .errno en)) w₁ := by
  refine wp_mono hm ?_ ?_
  · rintro a w₂ ⟨h₂, hc₂, hq⟩
    exact ⟨h₂, hc.trans hc₂, hq⟩
  · exact fun e w₂ hF => hF.imp_right fun h₂ => ⟨h₂.1, hc.trans h₂.2.1, h₂.2.2⟩

theorem Leaves.bind {m : UTFS.M α} {g : α → UTFS.M β} (hm : Leaves E L M H m Q w)
    (hg : ∀ a w', TInv E L M H w' → Calm E M H w w' → Q a w' → Leaves E L M H (g a) Q' w') :
    Leaves E L M H (m >>= g) Q' w := by
  refine wp_seq hm ?_ (fun _ _ hF => hF)
  rintro a w₁ ⟨h₁, hc₁, hq⟩
  exact (hg a w₁ h₁ hc₁ hq).after hc₁

theorem Leaves.mono {m : UTFS.M α} {Q₂ : α → World → Prop} (hm : Leaves E L M H m Q w)
    (hQ : ∀ a w', TInv E L M H w' → Calm E M H w w' → Q a w' → Q₂ a w') : Leaves E L M H m Q₂ w :=
  wp_mono hm (fun a w' hm => ⟨hm.1, hm.2.1, hQ a w' hm.1 hm.2.1 hm.2.2⟩) fun _ _ hF => hF

/-- Reading the state. -/
theorem Leaves.read {m : World → UTFS.M β} (hm : Leaves E L M H (m w) Q' w) :
    Leaves E L M H (get >>= m) Q' w := hm

end rules

/-! ### Changing a node with its blocks -/

section rewrite

variable {f : ℕ} (hr : Rewrote E f w w')

include hr

theorem Rewrote.later : Later w w' where
  logLe := by rw [hr.log]; exact .refl _
  rand := by rw [hr.rand]; exact fun _ hi => hi
  nfil := hr.nfil.ge
  cls g _ := by
    by_cases hg : g = f
    · rw [hg, hr.cls]
    · rw [hr.other g hg]
  kind g _ := by
    by_cases hg : g = f
    · rw [hg, hr.kind]
    · rw [hr.other g hg]

theorem Rewrote.same (g : ℕ) : (w'.fil g).cls = (w.fil g).cls ∧ (w'.fil g).ref = (w.fil g).ref ∧
    (w'.fil g).dir = (w.fil g).dir ∧ (w'.fil g).dirty = (w.fil g).dirty := by
  by_cases hg : g = f
  · rw [hg]
    exact ⟨hr.cls, hr.ref, hr.dir, hr.dirty⟩
  · rw [hr.other g hg]
    exact ⟨rfl, rfl, rfl, rfl⟩

theorem Rewrote.still : Still w w' where
  ref g _ := (hr.same g).2.1
  dir g _ := (hr.same g).2.2.1
  dirty g _ e x hx := by
    rw [(hr.same g).2.2.2]
    exact hx

theorem Rewrote.dirOf (x : Loc) : w'.dirOf E x = w.dirOf E x ∧ w'.dirtyOf x = w.dirtyOf x := by
  cases x with
  | mem g =>
      obtain ⟨hcls, -, hdir, hdirty⟩ := hr.same g
      simp only [World.dirOf, World.dirtyOf, hcls, hdir, hdirty, and_self]
  | ref r => simp only [World.dirOf, World.dirtyOf, hr.log, and_self]

theorem Rewrote.ninv (h : NInv E L w) : NInv E L w' := by
  have hl := hr.later
  have hnil : getBlock .nil w'.log = none := hr.inv.disk.nilFree
  refine h.step hr.inv hl (by rw [hr.log]; exact h.store) ?_
    (fun r g hg => .inl ((hr.cacheFil.nodemap r g).1 hg))
    (fun d hd => .inl ((congrArg (fun x => x.1) hr.tops).symm.trans hd))
    (fun d hd => .inl ((congrArg (fun x => x.2.1) hr.tops).symm.trans hd))
    (fun d hd => .inl ((congrArg (fun x => x.2.2.1) hr.tops).symm.trans hd))
    (fun d hd => .inl ((congrArg (fun x => x.2.2.2) hr.tops).symm.trans hd))
  intro g hg
  rw [hr.nfil] at hg
  by_cases hgf : g = f
  swap
  · exact .inl ⟨hg, hr.other g hgf⟩
  subst hgf
  have hn := h.node g hg
  refine .inr ⟨?_, fun hc => ?_, fun hdir hc => ?_, ?_, ?_, ?_, ?_, ?_, fun hL hdir => ?_⟩
  · rw [hr.ref, hr.rand]
    exact hn.iv
  · obtain ⟨hc', ht⟩ := hr.clean hc
    have ha := hn.clean hc'
    exact ⟨by rw [hr.ref, hr.log]; exact ha.stored, by rw [hr.ref, hr.log, ht]; exact ha.decoded⟩
  · rw [hr.cls] at hdir
    obtain ⟨h₁, h₂⟩ := hn.cleanDir hdir (hr.clean hc).1
    exact ⟨by rw [hr.dirty]; exact h₁, by rw [hr.log, hr.ref, hr.dir]; exact h₂⟩
  · rw [hr.dir]
    exact hn.names
  · rw [hr.dir, hr.log]
    exact hn.refs
  · rw [hr.dir, hr.dirty]
    exact hn.dirtyIn
  · rw [hr.dirty]
    exact fun e he => (hn.held e he).later hl
  · rw [hr.dir, hr.dirty]
    exact hn.nonil
  · rw [hr.cls] at hdir
    rw [hr.nlink, hn.links hL hdir, hr.dir]
    congr 1
    refine countDirs_congr fun e he => ?_
    rw [World.isSub, World.isSub, hr.dirty, hr.log]
    cases hf : (w.fil g).dirty.lookup e.1 with
    | none => rfl
    | some y => exact (hl.kind y (hn.held _ (mem_of_lookup hf)).lt).symm

theorem Rewrote.sameTree (h : TInv E L M H w) : SameTree E M H (fun _ _ => False) w w' :=
  h.sameTree hr.later hr.inv.disk.nilFree hr.tops hr.cacheFil.nodemap (fun _ hg => hr.cacheFil.placed hg)
    (fun g _ => ⟨(hr.same g).2.2.1, (hr.same g).2.2.2, (hr.same g).2.1⟩) fun _ hg _ => hr.nfil ▸ hg

/-- **The invariant does not depend on the contents of a node.** -/
theorem Rewrote.tinv (h : TInv E L M H w) : TInv E L M H w' := h.kept (hr.ninv h.nodes) (hr.sameTree h)

/-- What can be seen of the other nodes. -/
theorem Rewrote.out (h : TInv E L M H w) {x : Loc} (hx : (w.graph E M H).Live x) (hne : x ≠ .mem f) :
    w'.out E x = w.out E x := by
  have hv := h.live_valid hx
  cases x with
  | mem g =>
      have hg : g ≠ f := fun heq => hne (heq ▸ rfl)
      have hbytes := funext (hr.otherBytes g hg hv.lt)
      simp only [World.out, hr.other g hg, hbytes]
  | ref r => simp only [World.out, hr.log]

/-- What a flush finds, unless the node was clean and is no longer. -/
theorem Rewrote.regAt {x : Loc} {e : Str} {g : ℕ}
    (hg : g = f → (w.fil f).isdirty = false → (w'.fil f).isdirty = false) (h : RegAt E w x e g) :
    RegAt E w' x e g := by
  rw [RegAt, World.entryRef, (hr.dirOf x).1, (hr.dirOf x).2]
  refine h.imp_right ?_
  rintro ⟨hc, href⟩
  by_cases hgf : g = f
  · subst hgf
    exact ⟨hg rfl hc, by rw [hr.ref]; exact href⟩
  · rw [hr.other g hgf]
    exact ⟨hc, href⟩

theorem Rewrote.reg (h : TInv E L M H w) {X : Set ℕ} (hX : Reg E M H X w) : Reg E M H (insert f X) w' := by
  have hs := hr.sameTree h
  intro x hx e g hstep
  rw [hs.live] at hx
  rw [hs.step x hx] at hstep
  by_cases hgf : g = f
  · exact .inl (.inl hgf)
  · exact (hX x hx e g hstep).imp .inr (hr.regAt fun heq => absurd heq hgf)

/-- A dirty directory whose own fields stay the same. -/
theorem Rewrote.calm (h : TInv E L M H w) (hdir : (w.fil f).cls.isDir = true)
    (hd : (w.fil f).isdirty = true) (hseen : (w'.fil f).inode.seen = (w.fil f).inode.seen) :
    TInv E L M H w' ∧ Calm E M H w w' := by
  refine h.calm (hr.ninv h.nodes) (hr.sameTree h) (fun _ => hr.still) (fun x hx => ?_) fun x _ e g _ hreg => ?_
  · by_cases hxf : x = .mem f
    · subst hxf
      simp only [World.out, hr.cls, hdir, if_true, hseen]
    · exact hr.out h hx hxf
  · refine hr.regAt (fun _ hc => ?_) hreg
    rw [hd] at hc
    simp at hc

end rewrite

theorem tops_of_outer (h : w'.outer = w.outer) : w'.tops = w.tops :=
  congrArg (fun x => (x.2.2.2.2.2.2.2.1, x.2.2.2.2.2.2.2.2.1, x.2.2.2.2.2.2.2.2.2.1,
    x.2.2.2.2.2.2.2.2.2.2.1)) h

/-- Writing at least one byte marks the node. -/
theorem Written.rewrote {f : ℕ} {data : List UInt8} {off : ℕ} (hw : Written E f data off w w')
    (hd : (w'.fil f).isdirty = true) : Rewrote E f w w' := by
  have hown := hw.own
  refine ⟨hw.inv, outer_log hw.outer, outer_rand hw.outer, outer_nfil hw.outer, tops_of_outer hw.outer,
    hw.cacheFil, hw.other, hw.otherBytes, by rw [hown], by rw [hown], by rw [hown], by rw [hown], by rw [hown],
    by rw [hown], fun hc => ?_⟩
  rw [hd] at hc
  simp at hc

theorem Truncated.rewrote {f size : ℕ} (ht : Truncated E f size w w') : Rewrote E f w w' := by
  have hown := ht.own
  refine ⟨ht.inv, ht.log, ht.rand, congrArg (fun x => x.2.2.1) ht.members,
    congrArg (fun x => (x.2.2.2.1, x.2.2.2.2.1, x.2.2.2.2.2.1, x.2.2.2.2.2.2.1)) ht.members, ht.cacheFil,
    ht.other, ht.otherBytes, by rw [hown], by rw [hown], by rw [hown], by rw [hown], by rw [hown], by rw [hown],
    fun hc => ?_⟩
  rw [hown] at hc
  simp at hc

/-- A write that has failed, to a dirty node. -/
theorem FileWrote.rewrote {f : ℕ} {V : Type} {t : Traversal V} {wr : ℕ → UInt8 → UInt8}
    (hw : FileWrote E f t wr w w') (hd : (w.fil f).isdirty = true) :
    Rewrote E f w w' ∧ (w'.fil f).inode.seen = (w.fil f).inode.seen := by
  have hown := hw.own
  refine ⟨⟨hw.inv, outer_log hw.outer, outer_rand hw.outer, outer_nfil hw.outer, tops_of_outer hw.outer,
    hw.cacheFil, hw.other, hw.otherBytes, by rw [hown], by rw [hown], by rw [hown], by rw [hown], by rw [hown],
    by rw [hown], fun hc => ?_⟩, by rw [hown]; rfl⟩
  rw [(hw.quiet hc).1] at hd
  simp at hd

/-! ### One file -/

section file

variable {f : ℕ}

theorem FileFlushed.later (hff : FileFlushed E f w w') : Later w w' := by
  have hown := hff.own
  refine ⟨hff.logLe, fun iv hiv => hff.rand.subset hiv, hff.nfil.ge, fun g _ => ?_, fun g _ => ?_⟩
  · by_cases hg : g = f
    · rw [hg, hown]
    · rw [hff.other g hg]
  · by_cases hg : g = f
    · rw [hg, hown]
    · rw [hff.other g hg]

theorem FileFlushed.same (hff : FileFlushed E f w w') (g : ℕ) : (w'.fil g).cls = (w.fil g).cls ∧
    (w'.fil g).inode = (w.fil g).inode ∧ (w'.fil g).dir = (w.fil g).dir ∧
    (w'.fil g).dirty = (w.fil g).dirty := by
  by_cases hg : g = f
  · have hown := hff.own
    rw [hg, hown]
    exact ⟨rfl, rfl, rfl, rfl⟩
  · rw [hff.other g hg]
    exact ⟨rfl, rfl, rfl, rfl⟩

theorem FileFlushed.tops (hff : FileFlushed E f w w') : w'.tops = w.tops :=
  congrArg (fun x => (x.2.2.2.2.1, x.2.2.2.2.2.1, x.2.2.2.2.2.2.1, x.2.2.2.2.2.2.2.1)) hff.still

theorem FileCoherent.agrees (hco : FileCoherent E w f) : Agrees E w.log (w.fil f) where
  stored := hco.stored
  decoded := by
    rw [hco.decoded]
    rfl

/-- A node has been flushed, perhaps not completely; a directory has been flushed after its dirty nodes, and
its entries have been written. -/
theorem NInv.fileFlushed (h : NInv E L w) (hf : Held w f) (hb : BInv E ∅ w') (hff : FileFlushed E f w w')
    (hp : FilePuts f w w') (hco : (w'.fil f).isdirty = false → FileCoherent E w' f)
    (hdir : (w'.fil f).isdirty = false → (w.fil f).cls.isDir = true →
      (w.fil f).inode.size ≤ maxSize ∧ (w.fil f).dirty = [] ∧
        storedDir E w'.log (w'.fil f).ref = some (w.fil f).dir) : NInv E L w' := by
  have hl := hff.later
  have hn := h.node f hf.lt
  obtain ⟨hcls, hinode, hentries, hdirty⟩ := hff.same f
  have hsub : ∀ e ∈ (w.fil f).dir, w'.isSub E f e = w.isSub E f e := by
    intro e he
    rw [World.isSub, World.isSub, hdirty]
    cases hy : (w.fil f).dirty.lookup e.1 with
    | none => exact storedIsDir_entry_mono hff.logLe h.blk.disk.nilFree hb.disk.nilFree (hn.refs e he)
    | some y => exact hl.kind y (hn.held _ (mem_of_lookup hy)).lt
  refine h.step hb hl ?_ ?_ (fun r g hr => .inl ((hff.cacheFil.nodemap r g).1 hr))
    (fun d hd => .inl ((congrArg (fun x => x.1) hff.tops).symm.trans hd))
    (fun d hd => .inl ((congrArg (fun x => x.2.1) hff.tops).symm.trans hd))
    (fun d hd => .inl ((congrArg (fun x => x.2.2.1) hff.tops).symm.trans hd))
    (fun d hd => .inl ((congrArg (fun x => x.2.2.2) hff.tops).symm.trans hd))
  · refine h.store.mono h.blk.disk hff.logLe hb.disk.nilFree hp.heads fun r hs hs' => ?_
    obtain ⟨rfl, hc⟩ := (hp.inode r hs).resolve_left hs'
    have hdec := (hco hc).decoded
    refine ⟨_, hdec, fun hm => ?_⟩
    have hino : (w'.fil f).bare.inode = (w.fil f).inode := hinode
    rw [hino] at hm ⊢
    rw [← hf.kind] at hm
    obtain ⟨hsize, hnone, hst⟩ := hdir hc hm
    refine ⟨_, hst, hsize, hn.names, fun e he hr => hff.logLe.stored (hn.refs e he hr), fun hL e he hr => ?_,
      fun hL => ?_⟩
    · have hmem := hn.nonil hL e he hr
      rw [hnone] at hmem
      simp at hmem
    · rw [hn.links hL hm]
      congr 1
      refine countDirs_congr fun e he => ?_
      rw [← hsub e he, World.isSub, hdirty, hnone]
      rfl
  · intro g hg
    rw [hff.nfil] at hg
    by_cases hgf : g = f
    swap
    · exact .inl ⟨hg, hff.other g hgf⟩
    subst hgf
    refine .inr ⟨hp.iv hn.iv, fun hc => (hco hc).agrees, fun hd hc => ?_, ?_, ?_, ?_, ?_, ?_, fun hL hd => ?_⟩
    · rw [hcls] at hd
      obtain ⟨-, hnone, hst⟩ := hdir hc hd
      exact ⟨by rw [hdirty]; exact hnone, by rw [hentries]; exact hst⟩
    · rw [hentries]
      exact hn.names
    · rw [hentries]
      exact fun e he hr => hff.logLe.stored (hn.refs e he hr)
    · rw [hentries, hdirty]
      exact hn.dirtyIn
    · rw [hdirty]
      exact fun e he => (hn.held e he).later hl
    · rw [hentries, hdirty]
      exact hn.nonil
    · rw [hcls] at hd
      rw [hinode, hn.links hL hd, hentries]
      congr 1
      exact countDirs_congr fun e he => (hsub e he).symm

/-- The new reference of a flushed node. -/
def NewRef (f : ℕ) (w w' : World) (g : ℕ) (r : BlockRef) : Prop :=
  g = f ∧ r = (w'.fil f).ref ∧ r.iv ∈ w.rand

theorem FileFlushed.sameTree (hff : FileFlushed E f w w') (h : TInv E L none none w) (hp : FilePuts f w w')
    (hnil : getBlock .nil w'.log = none) : SameTree E none none (NewRef f w w') w w' := by
  have hl := hff.later
  have hloc := locAt_congr hff.cacheFil.nodemap
  have hdir : ∀ x, (w.graph E none none).Live x → w'.dirOf E x = w.dirOf E x ∧ w'.dirtyOf x = w.dirtyOf x := by
    intro x hx
    have hv := h.live_valid hx
    cases x with
    | mem g =>
        obtain ⟨hcls, -, hd, hdy⟩ := hff.same g
        simp only [World.dirOf, World.dirtyOf, hcls, hd, hdy, and_self]
    | ref r =>
        simp only [World.dirOf, World.dirtyOf, and_true]
        rw [hv.storedDir_later h.nodes.blk.disk hl.logLe hnil]
  -- A reference with unused random bytes is in no entry, and no key of the clean cache.
  have hkeyOf : ∀ {y : Loc} {r : BlockRef} {k : Loc}, w'.KeyOf y r k →
      w.KeyOf y r k ∨ ∃ g r', y = .mem g ∧ k = .ref r' ∧ NewRef f w w' g r' := by
    intro y r k hk
    cases hk with
    | node hf => exact .inl (.node hf)
    | entry hr => exact .inl (.entry hr)
    | @own g hf hr =>
        by_cases hgf : g = f
        · subst hgf
          rcases hp.ref with href | hiv
          · rw [href] at hr ⊢
            exact .inl (.own hf hr)
          · exact .inr ⟨g, _, hf, rfl, rfl, rfl, hiv⟩
        · rw [hff.other g hgf] at hr ⊢
          exact .inl (.own hf hr)
  refine ⟨hl, congrArg (fun x => x.1) hff.tops, congrArg (fun x => x.2.1) hff.tops,
    congrArg (fun x => x.2.2.1) hff.tops, congrArg (fun x => x.2.2.2) hff.tops,
    fun r g hr => (hff.cacheFil.nodemap r g).2 hr, fun g hg => hff.cacheFil.placed hg, ?_, ?_, ?_,
    fun r g hr => .inl ((hff.cacheFil.nodemap r g).1 hr), fun g r hn => hn.2.2, fun g g' r hn hn' => ?_, ?_,
    fun _ hg _ => hff.nfil ▸ hg⟩
  · intro x hx e
    rw [World.step, World.step, World.kid, World.kid, (hdir x hx).1, (hdir x hx).2, hloc]
  · intro x hx e y _ k hk
    rw [World.entryRef, (hdir x hx).1] at hk
    exact hkeyOf hk
  · intro x r hH
    simp at hH
  · rw [hn.1, hn'.1]
  · intro g r hn g' hr
    obtain ⟨b, hb⟩ := h.nodes.blk.keyFil r g' ((hff.cacheFil.nodemap r g').1 hr)
    exact h.nodes.blk.disk.fresh r _ hb hn.2.2

theorem FileFlushed.out (hff : FileFlushed E f w w') (h : TInv E L none none w)
    (hnil : getBlock .nil w'.log = none) {x : Loc} (hx : (w.graph E none none).Live x) :
    w'.out E x = w.out E x := by
  refine h.sameOut hff.later hnil (fun g hg => ?_) hx
  obtain ⟨hcls, hinode, -, -⟩ := hff.same g
  simp only [World.out, hcls, hinode, funext (hff.bytes g hg)]

/-- **A node has been flushed, perhaps not completely.** -/
theorem TInv.fileFlushed (h : TInv E L none none w) (hf : Held w f) (hd : (w.fil f).isdirty = true)
    (hb : BInv E ∅ w') (hff : FileFlushed E f w w') (hp : FilePuts f w w')
    (hco : (w'.fil f).isdirty = false → FileCoherent E w' f)
    (hdir : (w'.fil f).isdirty = false → (w.fil f).cls.isDir = true →
      (w.fil f).inode.size ≤ maxSize ∧ (w.fil f).dirty = [] ∧
        storedDir E w'.log (w'.fil f).ref = some (w.fil f).dir) : TInv E L none none w' ∧ Calm E none none w w' := by
  have hnil := hb.disk.nilFree
  refine h.calm (h.nodes.fileFlushed hf hb hff hp hco hdir) (hff.sameTree h hp hnil)
    (fun hM => absurd rfl hM) (fun x hx => hff.out h hnil hx) fun x hx e g hstep hr => ?_
  have hv := h.live_valid hx
  have hdirOf : w'.dirOf E x = w.dirOf E x ∧ w'.dirtyOf x = w.dirtyOf x := by
    cases x with
    | mem y =>
        obtain ⟨hcls, -, hd, hdy⟩ := hff.same y
        simp only [World.dirOf, World.dirtyOf, hcls, hd, hdy, and_self]
    | ref r =>
        simp only [World.dirOf, World.dirtyOf, and_true]
        rw [hv.storedDir_later h.nodes.blk.disk hff.logLe hnil]
  rw [RegAt, World.entryRef, hdirOf.1, hdirOf.2]
  refine hr.imp_right ?_
  rintro ⟨hc, href⟩
  have hgf : g ≠ f := by
    rintro rfl
    rw [hc] at hd
    simp at hd
  rw [hff.other g hgf]
  exact ⟨hc, href⟩

/-- Only the node `f` has changed, and it has the dirty nodes it had. -/
structure OneFil (f : ℕ) (w w' : World) : Prop where
  other : ∀ g, g ≠ f → w'.fil g = w.fil g
  cls : (w'.fil f).cls = (w.fil f).cls
  dirty : (w'.fil f).dirty = (w.fil f).dirty

theorem OneFil.refl (w : World) : OneFil f w w := ⟨fun _ _ => rfl, rfl, rfl⟩

theorem OneFil.trans {w'' : World} (h : OneFil f w w') (h' : OneFil f w' w'') : OneFil f w w'' where
  other g hg := (h'.other g hg).trans (h.other g hg)
  cls := h'.cls.trans h.cls
  dirty := h'.dirty.trans h.dirty

/-- **`FileNode::bn_flush`**, of a file or of a directory whose entries have been written. -/
theorem leaves_bnFlushFile (h : TInv E L none none w) (hf : Held w f)
    (hdir : (w.fil f).isdirty = true → (w.fil f).cls.isDir = true →
      (w.fil f).inode.size ≤ maxSize ∧ (w.fil f).dirty = [] ∧
        E.parseDir ((List.range (w.fil f).inode.size).map (fileBytes E w f)) = some (w.fil f).dir) :
    Leaves E L none none (bnFlushFile E f) (fun r w' => CleanAt f r w' ∧ OneFil f w w') w := by
  cases hd : (w.fil f).isdirty with
  | false =>
      simp only [Leaves, bnFlushFile, wp_bind, wp_get, hd]
      exact ⟨h, .refl h, ⟨hd, rfl⟩, .refl w⟩
  | true =>
      refine wp_mono (wp_and (wp_bnFlushFile h.nodes.blk hf.lt fun hc => ?_)
        (wp_bnFlushFile_puts h.nodes.blk hf.lt)) ?_ ?_
      · rw [hd] at hc
        simp at hc
      · rintro r w₁ ⟨⟨hb, hff, hr, hco⟩, hp⟩
        obtain ⟨hcls, -, -, hdirty⟩ := hff.same f
        have hstored : (w.fil f).cls.isDir = true → (w.fil f).inode.size ≤ maxSize ∧ (w.fil f).dirty = [] ∧
            storedDir E w₁.log (w₁.fil f).ref = some (w.fil f).dir := by
          intro hm
          obtain ⟨hsize, hnone, hparse⟩ := hdir hd hm
          exact ⟨hsize, hnone, hco.storedDir hff hf.lt (by rw [← hf.kind]; exact hm) hparse⟩
        obtain ⟨ht, hcalm⟩ := h.fileFlushed hf hd hb hff hp (fun _ => hco) fun _ => hstored
        exact ⟨ht, hcalm, ⟨hco.clean, hr⟩, hff.other, hcls, hdirty⟩
      · rintro e w₁ ⟨⟨he, hb, hff, hd₁⟩, -, hp⟩
        have hno : ∀ {P : Prop}, (w₁.fil f).isdirty = false → P := by
          intro P hc
          rw [hd₁] at hc
          simp at hc
        obtain ⟨ht, hcalm⟩ := h.fileFlushed hf hd hb hff hp hno hno
        refine .inr ⟨ht, hcalm, fun en => ?_⟩
        rcases he with (rfl | rfl) | ⟨-, rfl⟩ <;> simp

end file

/-! ### The entries of one directory -/

section entries

variable {d : ℕ}

/-- The dirty directory `d` has been changed, but not what it has below it. -/
structure Redone (E : Env) (d : ℕ) (w w' : World) : Prop where
  one : OneFil d w w'
  dir : (w'.fil d).dir = (w.fil d).dir
  mark : (w'.fil d).isdirty = true

theorem Rewrote.redone (hr : Rewrote E d w w') (hd : (w'.fil d).isdirty = true) : Redone E d w w' :=
  ⟨⟨hr.other, hr.cls, hr.dirty⟩, hr.dir, hd⟩

theorem Redone.trans {w'' : World} (h : Redone E d w w') (h' : Redone E d w' w'') : Redone E d w w'' :=
  ⟨h.one.trans h'.one, h'.dir.trans h.dir, h'.mark⟩

/-- The file below a directory is flushed after its entries have been written. -/
theorem leaves_flushWritten {data : List UInt8} {w₁ : World} (h : TInv E L none none w₁) (hd : DirMember w₁ d)
    (hr : Redone E d w w₁) (hnone : (w.fil d).dirty = []) (hdata : E.serializeDir (w.fil d).dir = data)
    (hle : data.length ≤ maxSize) (hsize : (w₁.fil d).inode.size = data.length)
    (hbytes : ∀ a, a < data.length → fileBytes E w₁ d a = data.getD a 0) :
    Leaves E L none none (bnFlushFile E d) (fun r w' => CleanAt d r w' ∧ OneFil d w w') w₁ := by
  refine (leaves_bnFlushFile h hd.held fun _ _ =>
    ⟨by rw [hsize]; exact hle, hr.one.dirty.trans hnone, ?_⟩).mono fun r w₂ _ _ hco => ⟨hco.1, hr.one.trans hco.2⟩
  have hmap : (List.range (w₁.fil d).inode.size).map (fileBytes E w₁ d) = data := by
    rw [hsize]
    refine List.ext_getElem (by simp) fun a ha ha' => ?_
    rw [List.getElem_map, List.getElem_range, hbytes a ha', List.getElem_eq_getD 0]
  rw [hmap, ← hdata, E.parseDir_serializeDir, hr.dir]

/-- **What follows the loop over the dirty nodes.** -/
theorem leaves_flushDirData (h : TInv E L none none w) (hd : DirMember w d) (hmark : (w.fil d).isdirty = true)
    (hnone : (w.fil d).dirty = []) :
    Leaves E L none none (flushDirData E d) (fun r w' => CleanAt d r w' ∧ OneFil d w w') w := by
  have hlt := hd.held.lt
  have hm := maxSize_eq
  rw [flushDirData]
  refine Leaves.read ?_
  dsimp only
  generalize hdata : E.serializeDir (w.fil d).dir = data
  have hwrite : Leaves E L none none (fileWrite E d data 0) (fun rv w' => 0 ≤ rv ∧ data.length ≤ maxSize ∧
      Written E d data 0 w w' ∧ Redone E d w w') w := by
    refine wp_mono (wp_and (wp_fileWrite h.nodes.blk hlt data 0) (wp_fileWrite_within h.nodes.blk hlt data 0))
      ?_ ?_
    · rintro rv w₂ ⟨⟨hrv, hw⟩, hle⟩
      have hmark₂ : (w₂.fil d).isdirty = true := by
        by_contra hc
        rw [(hw.quiet (by simpa using hc)).1] at hmark
        simp at hmark
      have hr := hw.rewrote hmark₂
      obtain ⟨ht, hcalm⟩ := hr.calm h hd.isDir hmark (by rw [hw.own]; rfl)
      exact ⟨ht, hcalm, by rw [hrv]; exact Int.natCast_nonneg _, by omega, hw, hr.redone hmark₂⟩
    · rintro e w₂ ⟨⟨-, hw, rfl⟩, -⟩
      obtain ⟨hr, hseen⟩ := hw.rewrote hmark
      obtain ⟨ht, hcalm⟩ := hr.calm h hd.isDir hmark hseen
      exact .inr ⟨ht, hcalm, by simp⟩
  refine hwrite.bind ?_
  rintro rv w₂ h₂ hc₂ ⟨hrv, hle, hw, hr⟩
  have hd₂ := hd.later hc₂.later
  have hwrote : ∀ a, a < data.length → fileBytes E w₂ d a = data.getD a 0 := by
    intro a ha
    rw [hw.bytes a (by omega), wrote, if_pos (by omega), Nat.sub_zero]
  rw [if_neg (by omega)]
  -- The file is cut to the length of the data.
  split
  case isTrue hcut =>
    refine Leaves.bind (Q := fun _ w' => Truncated E d data.length w₂ w' ∧ Redone E d w₂ w') ?_ ?_
    · refine wp_mono (wp_fileTruncate h₂.nodes.blk hd₂.held.lt) ?_ (fun _ _ hF => hF.elim)
      intro _ w₃ ht
      have hr₃ := ht.rewrote
      obtain ⟨h₃, hc₃⟩ := hr₃.calm h₂ hd₂.isDir hr.mark (by rw [ht.own]; rfl)
      exact ⟨h₃, hc₃, ht, hr₃.redone (by rw [ht.own])⟩
    · rintro - w₃ h₃ hc₃ ⟨ht, hr₃⟩
      refine leaves_flushWritten h₃ (hd₂.later hc₃.later) (hr.trans hr₃) hnone hdata hle (by rw [ht.own]) ?_
      intro a ha
      rw [ht.bytes a ha, hwrote a ha]
  case isFalse hge =>
    refine leaves_flushWritten h₂ hd₂ hr hnone hdata hle ?_ hwrote
    rw [hw.size, if_pos hr.mark]
    omega

end entries

/-! ### An entry takes over the reference of its node -/

section settle

variable {d f : ℕ} {e : Str}

/-- A node of the tree enters the clean cache under its own reference. -/
theorem TInv.inserted (h : TInv E L none none w) {x : Loc} (hx : (w.graph E none none).Live x)
    (hk : w.kid E x e = some (.mem f)) (ha : Agrees E w.log (w.fil f))
    (hnone : w.cache.nodemap (w.fil f).ref = none) :
    TInv E L none none (w.setCache (w.cache.inserted (w.fil f).ref (.fil f))) ∧
      Calm E none none w (w.setCache (w.cache.inserted (w.fil f).ref (.fil f))) := by
  have hheld : Held w f := h.live_valid (hx.step (a := e) ((step_none x e).trans hk))
  have hne : (w.fil f).ref ≠ .nil := by
    intro hnil
    obtain ⟨b, hb⟩ := ha.stored
    rw [hnil, h.nodes.blk.disk.nilFree] at hb
    simp at hb
  have hkey : w.edgeKey E none x e (.ref (w.fil f).ref) := ⟨_, (step_none x e).trans hk, .own rfl hne⟩
  have hkind : storedIsDir E w.log (w.fil f).ref = sIsdir (w.fil f).inode.mode := by
    have hdec := ha.decoded
    rw [Option.map_eq_some_iff] at hdec
    obtain ⟨y, hy, ht⟩ := hdec
    have hm := congrArg (fun z : FileNode => sIsdir z.inode.mode) ht
    rw [storedIsDir, hy]
    exact hm
  generalize hr : (w.fil f).ref = r at hkey hkind hnone
  have hmap : ∀ r' o, (w.cache.inserted r (.fil f)).nodemap r' = some o →
      w.cache.nodemap r' = some o ∨ (r' = r ∧ o = .fil f) := by
    intro r' o hr'
    by_cases hrr : r' = r
    · subst hrr
      have : Obj.fil f = o := by simpa [BlockNodeCache.inserted] using hr'
      exact .inr ⟨rfl, this.symm⟩
    · exact .inl (by simpa only [BlockNodeCache.inserted, Function.update_of_ne hrr] using hr')
  have hl : Later w (w.setCache (w.cache.inserted r (.fil f))) :=
    ⟨.refl _, fun _ hi => hi, Nat.le_refl _, fun _ _ => rfl, fun _ _ => rfl⟩
  have hn : NInv E L (w.setCache (w.cache.inserted r (.fil f))) := by
    refine h.nodes.setCache (h.nodes.blk.setCacheFil (h.nodes.blk.rep.inserted hnone ?_) fun r' o hr' => ?_)
      fun r' g hr' => ?_
    · rintro ⟨n, hn⟩
      simp at hn
    · rcases hmap r' o hr' with hr' | ⟨rfl, rfl⟩
      · exact .inl hr'
      · exact .inr ⟨⟨f, rfl⟩, by rw [← hr]; exact ha.stored⟩
    · rcases hmap r' _ hr' with hr' | ⟨rfl, hg⟩
      · exact .inl hr'
      · injection hg with hg
        subst hg
        exact .inr ⟨hheld, hkind⟩
  have hs : SameTree E none none (fun _ _ => False) w (w.setCache (w.cache.inserted r (.fil f))) := by
    refine ⟨hl, rfl, rfl, rfl, rfl, keep_inserted hnone, fun g hg => placed_inserted hg, fun y hy a => ?_,
      fun y _ a z _ k hkz => .inl ?_, fun y r' hH => by simp at hH, fun r' g hr' => ?_, by simp, by simp, by simp,
      fun _ hg _ => hg⟩
    · rw [step_none, step_none, kid_setCache (keep_inserted hnone)]
      cases hz : w.kid E y a with
      | none => rfl
      | some z =>
          rw [Option.map_some]
          congr 1
          cases z with
          | mem g => rfl
          | ref r' =>
              -- No edge but the one to the node has the reference.
              refine locAt_of_none fun g hg => ?_
              rcases hmap r' _ hg with hg | ⟨rfl, -⟩
              · have hloc : w.locAt r' = .ref r' := norm_of_kid hz
                rw [locAt_eq_mem.2 hg] at hloc
                simp at hloc
              · have hent := entryRef_of_ref hz
                have hkey' : w.edgeKey E none y a (.ref r') :=
                  ⟨_, (step_none y a).trans hz, by rw [hent]; exact .entry (by rw [← hr]; exact hne)⟩
                obtain ⟨rfl, rfl⟩ := h.edge_unique hx hkey hy hkey'
                rw [hk] at hz
                simp at hz
    · rw [entryRef_setCache, keyOf_setCache] at hkz
      exact hkz
    · rcases hmap r' _ hr' with hr' | ⟨rfl, hg⟩
      · exact .inl hr'
      · injection hg with hg
        subst hg
        refine .inr ⟨placed_inserted_self, fun y hy a hky => ?_, fun y r'' hH => by simp at hH⟩
        obtain ⟨rfl, rfl⟩ := h.edge_unique hx hkey hy hky
        exact (step_none y a).trans hk
  exact h.calm hn hs (fun hM => absurd rfl hM) (fun y _ => out_setCache w _ y)
    fun y hy a g hstep hreg => h.sameReg hl h.nodes.blk.disk.nilFree (fun _ _ => rfl) hy hstep hreg

/-- A clean node of the tree is inserted, while a directory has been changed. -/
theorem wp_cacheInsert_setFil (h : TInv E L none none w) {x : Loc} (hx : (w.graph E none none).Live x)
    (hk : w.kid E x e = some (.mem f)) (hc : (w.fil f).isdirty = false) {y : FileNode}
    (hy : y.ref = (w.fil d).ref) :
    wp (cacheInsert (.fil f))
      (fun _ w' => ∃ c, w' = (w.setCache c).setFil d y ∧ c.nodemap (w.fil f).ref = some (.fil f) ∧
        TInv E L none none (w.setCache c) ∧ Calm E none none w (w.setCache c)) (fun _ _ => False)
      (w.setFil d y) := by
  have hstep : w.step E none x e = some (.mem f) := (step_none x e).trans hk
  have hheld : Held w f := h.live_valid (hx.step hstep)
  have ha := (h.nodes.node f hheld.lt).clean hc
  have hne : (w.fil f).ref ≠ .nil := by
    intro hnil
    obtain ⟨b, hb⟩ := ha.stored
    rw [hnil, h.nodes.blk.disk.nilFree] at hb
    simp at hb
  have hown : ∀ o, w.cache.nodemap (w.fil f).ref = some o → o = .fil f ∧ LposOk w f := by
    intro o ho
    cases o with
    | fil g =>
        obtain ⟨hg, hl⟩ := h.own x hx e _ hstep _ g (.own rfl hne) ho
        injection hg with hg
        subst hg
        exact ⟨rfl, hl⟩
    | blk m =>
        have := (h.nodes.blk.key _ m ho).stored.kind_eq ha.stored
        simp at this
  have href : (w.setFil d y).refOf (.fil f) = (w.fil f).ref := by
    by_cases hfd : f = d
    · subst hfd
      exact (congrArg FileNode.ref (setFil_self ..)).trans hy
    · exact congrArg FileNode.ref (setFil_of_ne w y hfd)
  refine wp_cacheInsert (fun o ho => ?_) (fun hnone => ?_) (fun o ho => ?_)
  · rw [href] at ho
    obtain ⟨rfl, hl⟩ := hown o ho
    exact hl
  · rw [href] at hnone ⊢
    obtain ⟨ht, hcalm⟩ := h.inserted hx hk ha hnone
    exact ⟨w.cache.inserted (w.fil f).ref (.fil f), rfl, Function.update_self .., ht, hcalm⟩
  · rw [href] at ho
    obtain ⟨rfl, hl⟩ := hown o ho
    obtain ⟨ht, hcalm⟩ := h.touched ho
    exact ⟨w.cache.touched (.fil f), rfl, ho, ht, hcalm⟩

/-- The count of the entries when one of them gets another reference. -/
theorem countDirs_dirSet {p q : Str × BlockRef → Bool} {r : BlockRef} {dir : Directory}
    (hnd : (dir.map Prod.fst).Nodup) (he : e ∈ dir.map Prod.fst) (hself : ∀ x ∈ dir, x.1 = e → q (e, r) = p x)
    (hother : ∀ x ∈ dir, x.1 ≠ e → q x = p x) : countDirs q (dirSet e r dir) = countDirs p dir := by
  induction dir with
  | nil => simp at he
  | cons x dir ih =>
      obtain ⟨n, r'⟩ := x
      rw [List.map_cons, List.nodup_cons] at hnd
      rw [dirSet]
      split
      case isTrue hn =>
        subst hn
        have hrest : countDirs q dir = countDirs p dir := countDirs_congr fun x hx =>
          hother x (List.mem_cons_of_mem _ hx) fun hxn => hnd.1 (by rw [← hxn]; exact List.mem_map.2 ⟨x, hx, rfl⟩)
        have hx := hself (n, r') List.mem_cons_self rfl
        simp only [countDirs] at hrest ⊢
        rw [List.countP_cons, List.countP_cons, hrest, hx]
      case isFalse hn =>
        have he' : e ∈ dir.map Prod.fst := by simpa [Ne.symm hn] using he
        have hrest := ih hnd.2 he' (fun x hx => hself x (List.mem_cons_of_mem _ hx))
          fun x hx => hother x (List.mem_cons_of_mem _ hx)
        have hx := hother (n, r') List.mem_cons_self hn
        simp only [countDirs] at hrest ⊢
        rw [List.countP_cons, List.countP_cons, hrest, hx]

/-- An entry has taken over the reference of its node, which is no longer one of the dirty nodes. -/
def World.settled (w : World) (d : ℕ) (e : Str) (ref : BlockRef) : World :=
  w.setFil d { w.fil d with dir := dirSet e ref (w.fil d).dir, dirty := dirtyErase e (w.fil d).dirty }

/-- **An entry takes over the reference of its node.** -/
theorem TInv.settled (h : TInv E L none none w) (hd : (w.graph E none none).Live (.mem d))
    (hdir : (w.fil d).cls.isDir = true) (hmark : (w.fil d).isdirty = true)
    (hdy : (w.fil d).dirty.lookup e = some f) {ref : BlockRef} (hc : CleanAt f ref w)
    (hmap : w.cache.nodemap ref = some (.fil f)) :
    TInv E L none none (w.settled d e ref) ∧ Calm E none none w (w.settled d e ref) := by
  have hlt := (h.live_valid hd).lt
  have hn := h.nodes.node d hlt
  have hheld := hn.held _ (mem_of_lookup hdy)
  have ha := (h.nodes.node f hheld.lt).clean hc.1
  have hin : e ∈ (w.fil d).dir.map Prod.fst := hn.dirtyIn _ (mem_of_lookup hdy)
  have hstored : Stored w.log ref .inode := by rw [hc.2]; exact ha.stored
  have hne : ref ≠ .nil := by
    rintro rfl
    obtain ⟨b, hb⟩ := hstored
    rw [h.nodes.blk.disk.nilFree] at hb
    simp at hb
  have hkind : storedIsDir E w.log ref = sIsdir (w.fil f).inode.mode := by
    obtain ⟨y, hy, ht⟩ := Option.map_eq_some_iff.1 ha.decoded
    have hm := congrArg (fun z : FileNode => sIsdir z.inode.mode) ht
    rw [hc.2, storedIsDir, hy]
    exact hm
  have ho : OnlyFil d w (w.settled d e ref) := .setFil w w.ticks rfl rfl rfl rfl rfl
  have hself : (w.settled d e ref).fil d =
      { w.fil d with dir := dirSet e ref (w.fil d).dir, dirty := dirtyErase e (w.fil d).dirty } := setFil_self ..
  generalize w.settled d e ref = w' at ho hself
  have hl := ho.later
  have hdir' : (w'.fil d).cls.isDir = true := by rw [hself]; exact hdir
  have hk : w.kid E (.mem d) e = some (.mem f) := by rw [kid_mem hdir, hdy]
  have hent : ∀ n, w'.entryRef E (.mem d) n = if n = e then ref else w.entryRef E (.mem d) n := by
    intro n
    rw [entryRef_mem hdir', entryRef_mem hdir, hself]
    change ((dirSet e ref (w.fil d).dir).lookup n).getD .nil = _
    rw [lookup_dirSet]
    by_cases hne : n = e
    · rw [if_pos hne, if_pos hne]
      rfl
    · rw [if_neg hne, if_neg hne]
  have hdirty : ∀ n, (w'.fil d).dirty.lookup n = if n = e then none else (w.fil d).dirty.lookup n := by
    intro n
    rw [hself]
    exact lookup_dirtyErase e _ n
  have hkid : ∀ n, w'.kid E (.mem d) n = w.kid E (.mem d) n := by
    intro n
    by_cases hne : n = e
    · rw [hne, hk, kid_mem hdir', hdirty, if_pos rfl, ho.locAt, hself]
      change ((dirSet e ref (w.fil d).dir).lookup e).map w.locAt = _
      rw [lookup_dirSet, if_pos rfl]
      exact congrArg some (locAt_eq_mem.2 hmap)
    · have hlook : (w'.fil d).dir.lookup n = (w.fil d).dir.lookup n := by
        rw [hself]
        exact (lookup_dirSet e ref _ n).trans (if_neg hne)
      rw [kid_mem hdir', kid_mem hdir, hdirty, if_neg hne, ho.locAt, hlook]
  have hok : NodeOk E L w' d := by
    refine ⟨?_, ?_, ?_, ?_, ?_, ?_, ?_, ?_, ?_⟩
    · rw [ho.rand, hself]
      exact hn.iv
    · rw [hself]
      exact fun hc => by simp [hmark] at hc
    · rw [hself]
      exact fun _ hc => by simp [hmark] at hc
    · rw [hself]
      change ((dirSet e ref (w.fil d).dir).map Prod.fst).Nodup
      rw [names_dirSet ref hin]
      exact hn.names
    · rw [hself, ho.log]
      intro x hx hr
      rcases mem_dirSet hx with hx | rfl
      · exact hn.refs x hx hr
      · exact hstored
    · rw [hself]
      intro x hx
      change x.1 ∈ (dirSet e ref (w.fil d).dir).map Prod.fst
      rw [names_dirSet ref hin]
      exact hn.dirtyIn x (List.mem_of_mem_filter hx)
    · rw [hself]
      exact fun x hx => (hn.held x (List.mem_of_mem_filter hx)).later hl
    · rw [hself]
      intro hL x hx hr
      have hx' : x ∈ (w.fil d).dir := (mem_dirSet hx).resolve_right fun hxe => hne (by rw [← hr, hxe])
      have hxe : x.1 ≠ e := by
        intro hxe
        have hnd : ((dirSet e ref (w.fil d).dir).map Prod.fst).Nodup := by
          rw [names_dirSet ref hin]
          exact hn.names
        have hlook := (lookup_eq_some_iff_mem hnd).2 (show (x.1, x.2) ∈ dirSet e ref (w.fil d).dir from hx)
        rw [hxe, lookup_dirSet, if_pos rfl, hr] at hlook
        exact hne (Option.some.inj hlook)
      obtain ⟨y, hy, hyx⟩ := List.mem_map.1 (hn.nonil hL x hx' hr)
      refine List.mem_map.2 ⟨y, List.mem_filter.2 ⟨hy, ?_⟩, hyx⟩
      simpa [hyx] using hxe
    · rw [hself]
      intro hL hcls
      change (w.fil d).inode.nlink.toNat = 2 + countDirs (w'.isSub E d) (dirSet e ref (w.fil d).dir)
      rw [hn.links hL hcls, countDirs_dirSet (p := w.isSub E d) hn.names hin]
      · intro x hx hxe
        rw [World.isSub, World.isSub, hdirty, if_pos rfl, ho.log, hxe, hdy]
        exact hkind
      · intro x hx hxe
        rw [World.isSub, World.isSub, hdirty, if_neg hxe, ho.log]
        cases hy : (w.fil d).dirty.lookup x.1 with
        | none => rfl
        | some y => exact hl.kind y (hn.held _ (mem_of_lookup hy)).lt
  refine h.calm (ho.ninv h.nodes hok) (ho.sameTree (by rw [hself])
    (fun n => by rw [step_none, step_none, hkid]) fun n y hy k hky => ?_) (fun hM => absurd rfl hM) (fun x _ => ?_)
    fun x hx n g hs hr => ?_
  · rw [hent] at hky
    split at hky
    case isTrue hn' =>
      rw [step_none, hn', hk] at hy
      obtain rfl := Option.some.inj hy
      cases hky with
      | node hf => exact .node hf
      | own hf hr => exact .own hf hr
      | entry hr =>
          rw [hc.2]
          exact .own rfl (by rw [← hc.2]; exact hne)
    case isFalse => exact hky
  · by_cases hx : x = .mem d
    · rw [hx]
      simp only [World.out, hdir', hdir, if_true]
      rw [hself]
    · exact ho.out hx
  · by_cases hxd : x = .mem d
    · subst hxd
      rw [RegAt, hent]
      have hdyOf : w'.dirtyOf (.mem d) = (w'.fil d).dirty := by simp only [World.dirtyOf, hdir', if_true]
      rw [hdyOf, hdirty]
      by_cases hn' : n = e
      · rw [if_pos hn', if_pos hn']
        rw [step_none, hn', hk] at hs
        obtain rfl : f = g := by simpa using hs
        refine .inr ?_
        by_cases hfd : f = d
        · subst hfd
          rw [hc.1] at hmark
          simp at hmark
        · rw [ho.other f hfd]
          exact ⟨hc.1, hc.2.symm⟩
      · rw [if_neg hn', if_neg hn']
        have hdyOf' : w.dirtyOf (.mem d) = (w.fil d).dirty := by simp only [World.dirtyOf, hdir, if_true]
        rw [RegAt, hdyOf'] at hr
        refine hr.imp_right ?_
        rintro ⟨hcl, href⟩
        by_cases hgd : g = d
        · subst hgd
          rw [hmark] at hcl
          simp at hcl
        · rw [ho.other g hgd]
          exact ⟨hcl, href⟩
    · exact ho.regAt (by rw [hself]) hxd (fun _ => by rw [hself]) hr

end settle

/-! ### Directories -/

section tree

variable {d f : ℕ} {e : Str} {i : Rt} {p : List Str}

/-- The rest of a round of the loop over the dirty nodes. -/
theorem leaves_settle {m : UTFS.M β} {Q : β → World → Prop} (h : TInv E L none none w)
    (hd : (w.graph E none none).Live (.mem d)) (hdir : (w.fil d).cls.isDir = true)
    (hmark : (w.fil d).isdirty = true) (hdy : (w.fil d).dirty.lookup e = some f) {ref : BlockRef}
    (hc : CleanAt f ref w)
    (hm : ∀ w', TInv E L none none w' → Calm E none none w w' → w'.fil = (w.settled d e ref).fil →
      Leaves E L none none m Q w') :
    Leaves E L none none (do
      modifyDir d (dirSet e ref)
      cacheInsert (.fil f)
      modifyDirty d (dirtyErase e)
      m) Q w := by
  have hk : w.kid E (.mem d) e = some (.mem f) := by rw [kid_mem hdir, hdy]
  simp only [Leaves, modifyDir, wp_bind, wp_modify]
  refine wp_mono (wp_cacheInsert_setFil h hd hk hc.1 rfl) ?_ fun _ _ hF => hF.elim
  rintro - w₁ ⟨c, rfl, hmap, h₁, hc₁⟩
  have hmap' : c.nodemap ref = some (.fil f) := by
    rw [hc.2]
    exact hmap
  obtain ⟨h₂, hc₂⟩ := h₁.settled (hc₁.live_mem hd) hdir hmark hdy hc hmap'
  have hw : ((w.setCache c).setFil d { w.fil d with dir := dirSet e ref (w.fil d).dir }).setFil d
      { ((w.setCache c).setFil d { w.fil d with dir := dirSet e ref (w.fil d).dir }).fil d with
        dirty := dirtyErase e (((w.setCache c).setFil d
          { w.fil d with dir := dirSet e ref (w.fil d).dir }).fil d).dirty } = (w.setCache c).settled d e ref := by
    simp [World.setFil, World.settled, World.setCache]
  simp only [modifyDirty, wp_bind, wp_modify]
  rw [hw]
  exact (hm _ h₂ (hc₁.trans hc₂) rfl).after (hc₁.trans hc₂)

/-- The nodes that are not below the path `p` are as they were. -/
def Spared (E : Env) (i : Rt) (p : List Str) (w w' : World) : Prop :=
  ∀ j q g, (w.graph E none none).find j q = some (.mem g) → ¬ (j = i ∧ p <+: q) → w'.fil g = w.fil g

theorem Spared.refl (w : World) : Spared E i p w w := fun _ _ _ _ _ => rfl

theorem Spared.trans {w'' : World} (h : Spared E i p w w') (hc : Calm E none none w w')
    (h' : Spared E i p w' w'') : Spared E i p w w'' :=
  fun j q g hg hq => (h' j q g (hc.find_mem hg) hq).trans (h j q g hg hq)

/-- Less has been changed. -/
theorem Spared.widen (h : Spared E i (p ++ [e]) w w') : Spared E i p w w' :=
  fun j q g hg hq => h j q g hg fun hc => hq ⟨hc.1, (List.prefix_append p [e]).trans hc.2⟩

/-- Only the node at the path has been changed. -/
theorem Spared.one (ht : TInv E L none none w) (hd : (w.graph E none none).find i p = some (.mem d))
    (h : ∀ g, g ≠ d → w'.fil g = w.fil g) : Spared E i p w w' := by
  intro j q g hg hq
  refine h g ?_
  rintro rfl
  obtain ⟨rfl, rfl⟩ := ht.find_mem_inj hg hd
  exact hq ⟨rfl, List.prefix_refl _⟩

/-- The directory is not below its entries. -/
theorem Spared.self (h : Spared E i (p ++ [e]) w w')
    (hd : (w.graph E none none).find i p = some (.mem d)) : w'.fil d = w.fil d := by
  refine h i p d hd ?_
  rintro ⟨-, hp⟩
  have := hp.length_le
  simp at this

theorem find_kid (hd : (w.graph E none none).find i p = some (.mem d))
    (hk : w.kid E (.mem d) e = some (.mem f)) :
    (w.graph E none none).find i (p ++ [e]) = some (.mem f) := by
  rw [LGraph.find_snoc_of hd]
  exact (step_none _ e).trans hk

/-- The loop over the dirty nodes of a directory. -/
theorem leaves_flushDirty {flush : ℕ → UTFS.M BlockRef}
    (hflush : ∀ w e f, TInv E L none none w → (w.graph E none none).find i (p ++ [e]) = some (.mem f) →
      Leaves E L none none (flush f) (fun r w' => CleanAt f r w' ∧ Spared E i (p ++ [e]) w w') w) :
    ∀ (count : ℕ) (w : World), TInv E L none none w → (w.graph E none none).find i p = some (.mem d) →
      (w.fil d).cls.isDir = true → (w.fil d).isdirty = true → (w.fil d).dirty.length ≤ count →
      Leaves E L none none (flushDirty flush d count) (fun _ w' => Spared E i p w w' ∧
        (w'.fil d).cls.isDir = true ∧ (w'.fil d).isdirty = true ∧ (w'.fil d).dirty = []) w := by
  intro count
  induction count with
  | zero =>
      intro w h hd hdir hmark hlen
      exact .ret h ⟨.refl w, hdir, hmark, List.length_eq_zero_iff.1 (Nat.le_zero.1 hlen)⟩
  | succ count ih =>
      intro w h hd hdir hmark hlen
      rw [flushDirty]
      refine Leaves.read ?_
      cases hdirty : (w.fil d).dirty with
      | nil => exact .ret h ⟨.refl w, hdir, hmark, hdirty⟩
      | cons x l =>
          obtain ⟨e, f⟩ := x
          have hlook : (w.fil d).dirty.lookup e = some f := by rw [hdirty, List.lookup_cons_self]
          have hk : w.kid E (.mem d) e = some (.mem f) := by rw [kid_mem hdir, hlook]
          dsimp only
          refine (hflush w e f h (find_kid hd hk)).bind ?_
          rintro ref w₂ h₂ hc₂ ⟨hc, hs⟩
          have hown : w₂.fil d = w.fil d := hs.self hd
          have hd₂ := hc₂.find_mem hd
          refine leaves_settle (e := e) h₂ ⟨i, p, hd₂⟩ (by rw [hown]; exact hdir) (by rw [hown]; exact hmark)
            (by rw [hown]; exact hlook) hc ?_
          intro w₃ h₃ hc₃ hfil
          have hself : w₃.fil d = { w.fil d with
              dir := dirSet e ref (w.fil d).dir, dirty := dirtyErase e (w.fil d).dirty } := by
            rw [hfil, World.settled, setFil_self, hown]
          have hlen' : (w₃.fil d).dirty.length ≤ count := by
            rw [hself]
            have hle := List.length_filter_le (fun x : Str × ℕ => x.1 ≠ e) l
            have hcons : dirtyErase e (w.fil d).dirty = l.filter fun x => x.1 ≠ e := by
              simp [dirtyErase, hdirty]
            rw [hdirty, List.length_cons] at hlen
            change (dirtyErase e (w.fil d).dirty).length ≤ count
            rw [hcons]
            omega
          refine (ih w₃ h₃ (hc₃.find_mem hd₂) (by rw [hself]; exact hdir) (by rw [hself]; exact hmark)
            hlen').mono ?_
          rintro - w₄ - - ⟨hs₄, hdone⟩
          refine ⟨(hs.widen.trans hc₂ (.one h₂ hd₂ fun g hg => ?_)).trans (hc₂.trans hc₃) hs₄, hdone⟩
          rw [hfil]
          exact setFil_of_ne _ _ hg

/-- **`bn_flush` of a node of the tree.** -/
theorem leaves_nodeFlush (fuel : ℕ) : ∀ (p : List Str) (g : ℕ) (w : World), TInv E L none none w →
    (w.graph E none none).find i p = some (.mem g) →
    Leaves E L none none (nodeFlush E fuel g) (fun r w' => CleanAt g r w' ∧ Spared E i p w w') w := by
  induction fuel with
  | zero => exact fun _ _ _ _ _ => .fatal trivial
  | succ fuel ih =>
      intro p g w h hg
      have hheld : Held w g := h.live_valid ⟨i, p, hg⟩
      rw [nodeFlush]
      refine Leaves.read ?_
      cases hcls : (w.fil g).cls.isDir with
      | false =>
          rw [if_neg (by simp)]
          refine (leaves_bnFlushFile h hheld fun _ hm => ?_).mono fun r w' _ _ hco =>
            ⟨hco.1, .one h hg hco.2.other⟩
          rw [hcls] at hm
          simp at hm
      | true =>
          rw [if_pos rfl]
          cases hd : (w.fil g).isdirty with
          | false => exact .ret h ⟨⟨hd, rfl⟩, .refl w⟩
          | true =>
              refine (leaves_flushDirty (fun w e f h hf => ih (p ++ [e]) f w h hf) _ w h hg hcls hd
                (Nat.le_refl _)).bind ?_
              rintro - w₂ h₂ hc₂ ⟨hs, hdir, hmark, hnone⟩
              refine (leaves_flushDirData h₂ ((DirMember.mk hheld hcls).later hc₂.later) hmark hnone).mono ?_
              rintro r w₃ - - ⟨hc, ho⟩
              exact ⟨hc, hs.trans hc₂ (.one h₂ (hc₂.find_mem hg) ho.other)⟩

theorem leaves_bnFlush (h : TInv E L none none w) (hf : (w.graph E none none).find i p = some (.mem f)) :
    Leaves E L none none (bnFlush E f) (fun r w' => CleanAt f r w' ∧ Spared E i p w w') w :=
  .read (leaves_nodeFlush _ p f w h hf)

/-- What `find_blkref` does to the directory after the flush. -/
theorem settle_run {ref : BlockRef} (hin : e ∈ (w.fil d).dir.map Prod.fst) :
    (do
      modifyDirty d (dirtyErase e)
      modifyDir d fun dir => if e ∈ dir.map Prod.fst then dirSet e ref dir else dir
      return ref : UTFS.M BlockRef) w = .ok ref (w.settled d e ref) := by
  simp only [modifyDirty, modifyDir, bind_apply, modify_apply, pure_apply, setFil_self, if_pos hin]
  simp [World.setFil, World.settled]

/-- **`DirNode::find_blkref`**: the name has no dirty node any more, and its entry has the reference.  A directory
that has had a dirty node is marked. -/
theorem leaves_findBlkref (h : TInv E L none none w) (hd : (w.graph E none none).find i p = some (.mem d))
    (hdir : (w.fil d).cls.isDir = true) (e : Str) :
    Leaves E L none none (findBlkref E d e)
      (fun r w' => (w'.fil d).cls.isDir = true ∧ (w'.fil d).dirty.lookup e = none ∧
        r = w'.entryRef E (.mem d) e ∧ Spared E i p w w' ∧ (w' = w ∨ (w'.fil d).isdirty = true)) w := by
  rw [findBlkref]
  refine Leaves.read ?_
  cases hdy : (w.fil d).dirty.lookup e with
  | none => exact .ret h ⟨hdir, hdy, (entryRef_mem hdir e).symm, .refl w, .inl rfl⟩
  | some f =>
      have hk : w.kid E (.mem d) e = some (.mem f) := by rw [kid_mem hdir, hdy]
      have hlt := (h.live_valid ⟨i, p, hd⟩).lt
      have hmark : (w.fil d).isdirty = true := by
        by_contra hc
        have hnone := ((h.nodes.node d hlt).cleanDir hdir (by simpa using hc)).1
        rw [hnone] at hdy
        simp at hdy
      have hin : e ∈ (w.fil d).dir.map Prod.fst := (h.nodes.node d hlt).dirtyIn _ (mem_of_lookup hdy)
      refine (leaves_bnFlush h (find_kid hd hk)).bind ?_
      rintro ref w₂ h₂ hc₂ ⟨hc, hs⟩
      have hown : w₂.fil d = w.fil d := hs.self hd
      have hd₂ := hc₂.find_mem hd
      rw [← hown] at hdir hmark hdy hin
      have hk₂ : w₂.kid E (.mem d) e = some (.mem f) := by rw [kid_mem hdir, hdy]
      have hcache := wp_cacheInsert_setFil (d := d) h₂ ⟨i, p, hd₂⟩ hk₂ hc.1 rfl
      rw [show w₂.setFil d (w₂.fil d) = w₂ by simp [World.setFil]] at hcache
      rw [Leaves, wp_bind]
      refine wp_mono hcache ?_ fun _ _ hF => hF.elim
      rintro - w₃ ⟨c, rfl, hmap, h₃, hc₃⟩
      obtain ⟨h₄, hc₄⟩ := h₃.settled (hc₃.live_mem ⟨i, p, hd₂⟩) hdir hmark hdy hc (by rw [hc.2]; exact hmap)
      have hw : (w₂.setCache c).setFil d (w₂.fil d) = w₂.setCache c := by simp [World.setFil, World.setCache]
      rw [hw, wp, settle_run (by exact hin)]
      have hself : ((w₂.setCache c).settled d e ref).fil d = { w₂.fil d with
          dir := dirSet e ref (w₂.fil d).dir, dirty := dirtyErase e (w₂.fil d).dirty } := setFil_self ..
      refine ⟨h₄, hc₃.trans hc₄, by rw [hself]; exact hdir, ?_, ?_, ?_, .inr (by rw [hself]; exact hmark)⟩
      · rw [hself]
        exact (lookup_dirtyErase e _ e).trans (if_pos rfl)
      · rw [entryRef_mem (by rw [hself]; exact hdir), hself]
        change ref = ((dirSet e ref (w₂.fil d).dir).lookup e).getD .nil
        rw [lookup_dirSet, if_pos rfl, Option.getD_some]
      · exact hs.widen.trans hc₂ (.one h₂ hd₂ fun g hg => setFil_of_ne _ _ hg)

end tree

end UTFS

end Utopfs
