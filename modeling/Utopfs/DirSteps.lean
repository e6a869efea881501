/-
**Steps that leave the tree of directories alone.**

A step that changes neither the entries of the directories nor the references of the nodes does not
change the tree.  `DirNode::update` of a node under its own name does not either: the node becomes one of
the dirty nodes of the directory, where it was one of the clean cache before.

Main definitions:

* `UTFS.OnlyFil` — only one file node has changed;
* `UTFS.Updated` — what `DirNode::update` does to a directory.

Main results:

* `UTFS.TInv.sameTree`, `UTFS.OnlyFil.sameTree` — what such a step has to show;
* `UTFS.TInv.touched` — a node of the clean cache is touched;
* `UTFS.wp_updateNode` — **`DirNode::update`**.
-/

import Utopfs.DirTree

set_option relaxedAutoImplicit false
set_option autoImplicit false

namespace Utopfs

namespace UTFS

open Prog

variable {E : Env}

/-! ### Steps that leave the entries alone -/

section quiet

variable {w w' : World} {M : Option (Loc × Str)} {H : Hand} {L : Laws}

/-- The nodes that `UTFileSystem` and its directories hold. -/
def World.tops (w : World) := (w.rdh, w.sdh, w.version, w.control)

theorem Valid.storedDir_later {r : BlockRef} (hr : Valid w (.ref r)) (hd : DiskOk E w.log w.rand)
    (hl : LogLe w.log w'.log) (hnil : getBlock .nil w'.log = none) :
    storedDir E w'.log r = storedDir E w.log r := by
  by_cases h : r = .nil
  · subst h
    simp [storedDir, decodeFile, decode, hnil, hd.nilFree]
  · exact storedDir_mono hd hl hnil (hr h)

theorem Valid.out_later {r : BlockRef} (hr : Valid w (.ref r)) (hd : DiskOk E w.log w.rand)
    (hl : LogLe w.log w'.log) (hnil : getBlock .nil w'.log = none) :
    w'.out E (.ref r) = w.out E (.ref r) := by
  by_cases h : r = .nil
  · subst h
    simp [World.out, decodeFile, decode, hnil, hd.nilFree]
  · simp only [World.out, hl.decodeFile (hr h)]
    cases hx : decodeFile E w.log r with
    | none => rfl
    | some x =>
        have hbytes : nodeBytes E w'.log x = nodeBytes E w.log x :=
          funext (nodeBytes_mono hd hl hnil (hd.decodeFile_refs (hr h) hx))
        simp only [Option.map_some, hbytes]

/-- What a node in memory has below it. -/
structure SameEntries (w w' : World) (f : ℕ) : Prop where
  dir : (w'.fil f).dir = (w.fil f).dir
  dirty : (w'.fil f).dirty = (w.fil f).dirty
  ref : (w'.fil f).ref = (w.fil f).ref

theorem locAt_congr (hmap : ∀ r f, w'.cache.nodemap r = some (.fil f) ↔ w.cache.nodemap r = some (.fil f)) :
    w'.locAt = w.locAt := by
  funext r
  cases hr : w.locAt r with
  | mem f => exact locAt_eq_mem.2 ((hmap r f).2 (locAt_eq_mem.1 hr))
  | ref r' =>
      obtain rfl := locAt_eq_ref hr
      refine locAt_of_none fun f hf => ?_
      rw [locAt_eq_mem.2 ((hmap r f).1 hf)] at hr
      simp at hr

/-- **Steps that leave the entries, the references and the clean cache alone.** -/
theorem TInv.sameTree (h : TInv E L M H w) (hl : Later w w') (hnil : getBlock .nil w'.log = none)
    (htops : w'.tops = w.tops)
    (hmap : ∀ r f, w'.cache.nodemap r = some (.fil f) ↔ w.cache.nodemap r = some (.fil f))
    (hlpos : ∀ f, LposOk w f → LposOk w' f) (hfil : ∀ f, f < w.nfil → SameEntries w w' f)
    (hplain : ∀ d, d < w'.nfil → (w'.fil d).cls = .specialDir → d < w.nfil) :
    SameTree E M H (fun _ _ => False) w w' := by
  have hloc := locAt_congr hmap
  have hdir : ∀ x, (w.graph E M H).Live x → w'.dirOf E x = w.dirOf E x ∧ w'.dirtyOf x = w.dirtyOf x := by
    intro x hx
    have hv := h.live_valid hx
    cases x with
    | mem d =>
        have hd := hfil d hv.lt
        simp only [World.dirOf, World.dirtyOf, hl.cls d hv.lt, hd.dir, hd.dirty, and_self]
    | ref r =>
        simp only [World.dirOf, World.dirtyOf, and_true]
        rw [hv.storedDir_later h.nodes.blk.disk hl.logLe hnil]
  have hkid : ∀ x, (w.graph E M H).Live x → ∀ e, w'.kid E x e = w.kid E x e := by
    intro x hx e
    rw [World.kid, World.kid, (hdir x hx).1, (hdir x hx).2, hloc]
  have hkeyOf : ∀ y r k, Valid w y → w'.KeyOf y r k → w.KeyOf y r k := by
    intro y r k hv hk
    cases hk with
    | node hf => exact .node hf
    | own hf hr =>
        subst hf
        have heq := (hfil _ hv.lt).ref
        rw [heq] at hr ⊢
        exact .own rfl hr
    | entry hr => exact .entry hr
  refine ⟨hl, congrArg (fun x => x.1) htops, congrArg (fun x => x.2.1) htops,
    congrArg (fun x => x.2.2.1) htops, congrArg (fun x => x.2.2.2) htops, fun r f hr => (hmap r f).2 hr,
    hlpos, fun x hx e => by rw [World.step, World.step, hkid x hx e], ?_, ?_,
    fun r g hr => .inl ((hmap r g).1 hr), by simp, by simp, by simp, hplain⟩
  · intro x hx e y hy k hk
    rw [World.entryRef, (hdir x hx).1] at hk
    exact .inl (hkeyOf y _ k (h.nodes.valid_kid (h.live_valid hx) (kid_of_step hy)) hk)
  · intro x r hH k hk
    exact hkeyOf x r k (h.hand x r hH).valid hk

/-- What can be seen of the nodes with a path, from what can be seen of those in memory. -/
theorem TInv.sameOut (h : TInv E L M H w) (hl : Later w w') (hnil : getBlock .nil w'.log = none)
    (hout : ∀ f, f < w.nfil → w'.out E (.mem f) = w.out E (.mem f)) {x : Loc} (hx : (w.graph E M H).Live x) :
    w'.out E x = w.out E x := by
  have hv := h.live_valid hx
  cases x with
  | mem f => exact hout f hv.lt
  | ref r => exact hv.out_later h.nodes.blk.disk hl.logLe hnil

/-- The nodes are as they were, and what a flush finds is so too. -/
theorem TInv.sameReg (h : TInv E L M H w) (hl : Later w w') (hnil : getBlock .nil w'.log = none)
    (hfil : ∀ f, f < w.nfil → w'.fil f = w.fil f) {x : Loc} (hx : (w.graph E M H).Live x) {e : Str} {f : ℕ}
    (hstep : w.step E M x e = some (.mem f)) (hr : RegAt E w x e f) : RegAt E w' x e f := by
  have hv := h.live_valid hx
  have hf : f < w.nfil := (h.live_valid (hx.step hstep)).lt
  have hdir : w'.dirOf E x = w.dirOf E x ∧ w'.dirtyOf x = w.dirtyOf x := by
    cases x with
    | mem d => simp only [World.dirOf, World.dirtyOf, hfil d hv.lt, and_self]
    | ref r =>
        simp only [World.dirOf, World.dirtyOf, and_true]
        rw [hv.storedDir_later h.nodes.blk.disk hl.logLe hnil]
  rw [RegAt, World.entryRef, hdir.1, hdir.2, hfil f hf]
  exact hr

/-- The clean cache changes. -/
theorem NInv.setCache (h : NInv E L w) {c : BlockNodeCache} (hb : BInv E ∅ (w.setCache c))
    (hkey : ∀ r f, c.nodemap r = some (.fil f) → w.cache.nodemap r = some (.fil f) ∨ FilKey E w r f) :
    NInv E L (w.setCache c) := by
  have hl : Later w (w.setCache c) :=
    ⟨.refl _, fun _ hi => hi, Nat.le_refl _, fun _ _ => rfl, fun _ _ => rfl⟩
  refine h.step hb hl h.store (fun f hf => .inl ⟨hf, rfl⟩) ?_ (fun _ hd => .inl hd) (fun _ hd => .inl hd)
    (fun _ hd => .inl hd) (fun _ hd => .inl hd)
  intro r f hr
  rcases hkey r f hr with hr | hk
  · exact .inl hr
  · exact .inr ⟨⟨hk.held.lt, hk.held.kind, hk.held.plain⟩, hk.kind⟩

/-- A file node of the clean cache is touched. -/
theorem TInv.touched (h : TInv E L M H w) {r : BlockRef} {f : ℕ}
    (hr : w.cache.nodemap r = some (.fil f)) :
    TInv E L M H (w.setCache (w.cache.touched (.fil f))) ∧
      Calm E M H w (w.setCache (w.cache.touched (.fil f))) := by
  have hb := h.nodes.blk.touched hr
  have hl : Later w (w.setCache (w.cache.touched (.fil f))) :=
    ⟨.refl _, fun _ hi => hi, Nat.le_refl _, fun _ _ => rfl, fun _ _ => rfl⟩
  refine h.calm (h.nodes.setCache hb fun _ _ hr => .inl hr) (h.sameTree hl h.nodes.blk.disk.nilFree rfl
    (fun _ _ => Iff.rfl) (fun g hg => h.nodes.blk.rep.placed_touched hg) (fun g _ => ⟨rfl, rfl, rfl⟩)
    fun _ hg _ => hg)
    (fun _ => .of_fil fun _ _ => rfl) (fun x hx => h.sameOut hl h.nodes.blk.disk.nilFree ?_ hx)
    fun x hx e g hs hr => h.sameReg hl h.nodes.blk.disk.nilFree (fun _ _ => rfl) hx hs hr
  · intro g _
    have hbytes := funext (@fileBytes_of_fil E w (w.setCache (w.cache.touched (.fil f))) g rfl rfl rfl)
    simp only [World.out, World.setCache_fil, hbytes]

end quiet

/-! ### Changing one node -/

section only

variable {w w' : World} {M : Option (Loc × Str)} {H : Hand} {L : Laws} {d : ℕ}

/-- Only the file node `d` has changed, and neither its blocks nor its kind. -/
structure OnlyFil (d : ℕ) (w w' : World) : Prop where
  blk : w'.blk = w.blk
  nblk : w'.nblk = w.nblk
  nfil : w'.nfil = w.nfil
  cache : w'.cache = w.cache
  log : w'.log = w.log
  rand : w'.rand = w.rand
  zobj : w'.zobj = w.zobj
  tops : w'.tops = w.tops
  other : ∀ g, g ≠ d → w'.fil g = w.fil g
  refs : (w'.fil d).refs = (w.fil d).refs
  objs : (w'.fil d).objs = (w.fil d).objs
  inl : (w'.fil d).inl = (w.fil d).inl
  cls : (w'.fil d).cls = (w.fil d).cls
  kind : sIsdir (w'.fil d).inode.mode = sIsdir (w.fil d).inode.mode

theorem OnlyFil.trans {w'' : World} (h : OnlyFil d w w') (h' : OnlyFil d w' w'') : OnlyFil d w w'' where
  blk := h'.blk.trans h.blk
  nblk := h'.nblk.trans h.nblk
  nfil := h'.nfil.trans h.nfil
  cache := h'.cache.trans h.cache
  log := h'.log.trans h.log
  rand := h'.rand.trans h.rand
  zobj := h'.zobj.trans h.zobj
  tops := h'.tops.trans h.tops
  other g hg := (h'.other g hg).trans (h.other g hg)
  refs := h'.refs.trans h.refs
  objs := h'.objs.trans h.objs
  inl := h'.inl.trans h.inl
  cls := h'.cls.trans h.cls
  kind := h'.kind.trans h.kind

theorem OnlyFil.setFil (w : World) (t : ℕ) {x : FileNode} (hr : x.refs = (w.fil d).refs)
    (ho : x.objs = (w.fil d).objs) (hi : x.inl = (w.fil d).inl) (hc : x.cls = (w.fil d).cls)
    (hm : sIsdir x.inode.mode = sIsdir (w.fil d).inode.mode) :
    OnlyFil d w { w.setFil d x with ticks := t } where
  blk := rfl
  nblk := rfl
  nfil := rfl
  cache := rfl
  log := rfl
  rand := rfl
  zobj := rfl
  tops := rfl
  other _ hg := setFil_of_ne w x hg
  refs := (congrArg FileNode.refs (setFil_self w d x)).trans hr
  objs := (congrArg FileNode.objs (setFil_self w d x)).trans ho
  inl := (congrArg FileNode.inl (setFil_self w d x)).trans hi
  cls := (congrArg FileNode.cls (setFil_self w d x)).trans hc
  kind := (congrArg (fun y => sIsdir y.inode.mode) (setFil_self w d x)).trans hm

section lemmas

variable (ho : OnlyFil d w w')

include ho

theorem OnlyFil.later : Later w w' where
  logLe := by rw [ho.log]; exact .refl _
  rand := by rw [ho.rand]; exact fun _ hi => hi
  nfil := ho.nfil.ge
  cls g _ := by
    by_cases hg : g = d
    · rw [hg, ho.cls]
    · rw [ho.other g hg]
  kind g _ := by
    by_cases hg : g = d
    · rw [hg, ho.kind]
    · rw [ho.other g hg]

theorem OnlyFil.sameShape : SameShape w w' where
  level m := by rw [ho.blk]
  zero m := by rw [ho.blk]
  blkref m := by rw [ho.blk]
  blkobj m := by rw [ho.blk]
  refs g := by
    by_cases hg : g = d
    · rw [hg, ho.refs]
    · rw [ho.other g hg]
  objs g := by
    by_cases hg : g = d
    · rw [hg, ho.objs]
    · rw [ho.other g hg]
  nblk := ho.nblk
  nfil := ho.nfil
  cache := ho.cache
  log := ho.log
  rand := by rw [ho.rand]
  zobj := ho.zobj

theorem OnlyFil.binv (h : BInv E ∅ w) : BInv E ∅ w' :=
  h.sameShape ho.sameShape (fun m => .inl (by rw [ho.blk])) (fun m _ _ => by rw [ho.blk])

theorem OnlyFil.fileBytes (g a : ℕ) : fileBytes E w' g a = UTFS.fileBytes E w g a := by
  refine fileBytes_congr ?_ ?_ a
  · by_cases hg : g = d
    · rw [hg, ho.inl]
    · rw [ho.other g hg]
  · intro s o _
    exact slotBytes_congr ho.blk ho.log (ho.sameShape.slotObj _) (ho.sameShape.slotRef _) _ o

/-- The node that has changed must be in order. -/
theorem OnlyFil.ninv (h : NInv E L w) (hd : NodeOk E L w' d) : NInv E L w' := by
  have htops := ho.tops
  refine h.step (ho.binv h.blk) ho.later (by rw [ho.log]; exact h.store) ?_
    (fun r f hr => .inl (by rw [← ho.cache]; exact hr))
    (fun f hf => .inl ((congrArg (fun x => x.1) htops).symm.trans hf))
    (fun f hf => .inl ((congrArg (fun x => x.2.1) htops).symm.trans hf))
    (fun f hf => .inl ((congrArg (fun x => x.2.2.1) htops).symm.trans hf))
    (fun f hf => .inl ((congrArg (fun x => x.2.2.2) htops).symm.trans hf))
  intro f hf
  by_cases hfd : f = d
  · rw [hfd]
    exact .inr hd
  · exact .inl ⟨ho.nfil ▸ hf, ho.other f hfd⟩

theorem OnlyFil.locAt : w'.locAt = w.locAt := locAt_congr fun r f => by rw [ho.cache]

/-- The entries of the other nodes. -/
theorem OnlyFil.entries {x : Loc} (hx : x ≠ .mem d) : w'.dirOf E x = w.dirOf E x ∧ w'.dirtyOf x = w.dirtyOf x := by
  cases x with
  | mem g =>
      have hg : g ≠ d := fun hg => hx (by rw [hg])
      simp only [World.dirOf, World.dirtyOf, ho.other g hg, and_self]
  | ref r => simp only [World.dirOf, World.dirtyOf, ho.log, and_self]

theorem OnlyFil.kid {x : Loc} (hx : x ≠ .mem d) (e : Str) : w'.kid E x e = w.kid E x e := by
  obtain ⟨hd, hdy⟩ := ho.entries (E := E) hx
  rw [World.kid, World.kid, hd, hdy, ho.locAt]

theorem OnlyFil.entryRef {x : Loc} (hx : x ≠ .mem d) (e : Str) : w'.entryRef E x e = w.entryRef E x e := by
  rw [World.entryRef, World.entryRef, (ho.entries hx).1]

theorem OnlyFil.keyOf (href : (w'.fil d).ref = (w.fil d).ref) {y : Loc} {r : BlockRef} {k : Loc}
    (hk : w'.KeyOf y r k) : w.KeyOf y r k := by
  cases hk with
  | node hf => exact .node hf
  | @own g hf hr =>
      have hg : (w'.fil g).ref = (w.fil g).ref := by
        by_cases hgd : g = d
        · rw [hgd, href]
        · rw [ho.other g hgd]
      rw [hg] at hr ⊢
      exact .own hf hr
  | entry hr => exact .entry hr

/-- What a change of one node has to show that leaves the tree alone. -/
theorem OnlyFil.sameTree (href : (w'.fil d).ref = (w.fil d).ref)
    (hstep : ∀ e, w'.step E M (.mem d) e = w.step E M (.mem d) e)
    (hent : ∀ e y, w.step E M (.mem d) e = some y → ∀ k,
      w.KeyOf y (w'.entryRef E (.mem d) e) k → w.KeyOf y (w.entryRef E (.mem d) e) k) :
    SameTree E M H (fun _ _ => False) w w' := by
  refine ⟨ho.later, congrArg (fun x => x.1) ho.tops, congrArg (fun x => x.2.1) ho.tops,
    congrArg (fun x => x.2.2.1) ho.tops, congrArg (fun x => x.2.2.2) ho.tops,
    fun r f hr => by rw [ho.cache]; exact hr, fun f hf => by rw [LposOk, ho.cache]; exact hf, ?_, ?_,
    fun x r _ k hk => ho.keyOf href hk, fun r g hr => .inl (by rw [← ho.cache]; exact hr), by simp, by simp,
    by simp, fun g hg _ => ho.nfil ▸ hg⟩
  · intro x _ e
    by_cases hx : x = .mem d
    · rw [hx, hstep]
    · rw [World.step, World.step, ho.kid hx]
  · intro x _ e y hy k hk
    have hk := ho.keyOf href hk
    by_cases hx : x = .mem d
    · subst hx
      exact .inl (hent e y hy k hk)
    · rw [ho.entryRef hx] at hk
      exact .inl hk

/-- What a flush finds below the other nodes, unless the node was clean and is no longer. -/
theorem OnlyFil.regAt (href : (w'.fil d).ref = (w.fil d).ref) {x : Loc} (hx : x ≠ .mem d) {e : Str} {g : ℕ}
    (hg : g = d → (w'.fil d).isdirty = (w.fil d).isdirty) (h : RegAt E w x e g) : RegAt E w' x e g := by
  rw [RegAt, (ho.entries (E := E) hx).2, ho.entryRef hx]
  refine h.imp_right ?_
  rintro ⟨hc, hr⟩
  by_cases hgd : g = d
  · subst hgd
    exact ⟨by rw [hg rfl]; exact hc, by rw [href]; exact hr⟩
  · rw [ho.other g hgd]
    exact ⟨hc, hr⟩

/-- What can be seen of the other nodes. -/
theorem OnlyFil.out {x : Loc} (hx : x ≠ .mem d) : w'.out E x = w.out E x := by
  cases x with
  | mem g =>
      have hg : g ≠ d := fun heq => hx (heq ▸ rfl)
      have hbytes := funext (ho.fileBytes (E := E) g)
      simp only [World.out, ho.other g hg, hbytes]
  | ref r => simp only [World.out, ho.log]

end lemmas

/-! ### `DirNode::update` -/

/-- The dirty nodes after an update with a node or without. -/
def updated (e : Str) (fnh : Option ℕ) (l : List (Str × ℕ)) : List (Str × ℕ) :=
  match fnh with
  | some f => dirtyInsert e f l
  | none => l

theorem updateNode_run (d : ℕ) (e : Str) (fnh : Option ℕ) (w : World) :
    updateNode d e fnh w = .ok () { w.setFil d { w.fil d with
      inode := { (w.fil d).inode with mtime := w.clock w.ticks }
      dirty := updated e fnh (w.fil d).dirty
      isdirty := true } with ticks := w.ticks + 1 } := by
  cases fnh with
  | none =>
      simp [-bind_pure_comp, updateNode, now, modifyINode, setFilDirty, bind_apply, get_apply, set_apply, modify_apply,
        pure_apply, World.setFil, updated]
  | some f =>
      simp [-bind_pure_comp, updateNode, now, modifyINode, modifyDirty, setFilDirty, bind_apply, get_apply,
        set_apply, modify_apply, pure_apply, World.setFil, updated]

theorem lookup_updated {e : Str} {fnh : Option ℕ} {l : List (Str × ℕ)}
    (h : ∀ f, fnh = some f → ∀ g, l.lookup e = some g → g = f) (n : Str) :
    (updated e fnh l).lookup n = if n = e ∧ fnh.isSome then fnh else l.lookup n := by
  cases fnh with
  | none => simp [updated]
  | some f =>
      rw [updated, lookup_dirtyInsert (h f rfl)]
      simp

theorem mem_updated {e : Str} {fnh : Option ℕ} {l : List (Str × ℕ)} {x : Str × ℕ}
    (h : x ∈ updated e fnh l) : x ∈ l ∨ ∃ f, fnh = some f ∧ x = (e, f) := by
  cases fnh with
  | none => exact .inl h
  | some f => exact (mem_dirtyInsert h).imp_right fun hx => ⟨f, rfl, hx⟩

/-- A directory that gets the node of one of its names, or none, as dirty. -/
structure Updated (d : ℕ) (e : Str) (fnh : Option ℕ) (w w' : World) : Prop where
  only : OnlyFil d w w'
  ref : (w'.fil d).ref = (w.fil d).ref
  seen : (w'.fil d).inode.seen = (w.fil d).inode.seen
  nlink : (w'.fil d).inode.nlink = (w.fil d).inode.nlink
  dir : (w'.fil d).dir = (w.fil d).dir
  dirty : (w'.fil d).dirty = updated e fnh (w.fil d).dirty
  isdirty : (w'.fil d).isdirty = true

theorem Updated.setFil {e : Str} (w : World) (t : ℕ) (fnh : Option ℕ) (m : ℕ) {x : FileNode}
    (hx : x = { w.fil d with
      inode := { (w.fil d).inode with mtime := m }
      dirty := updated e fnh (w.fil d).dirty
      isdirty := true }) : Updated d e fnh w { w.setFil d x with ticks := t } := by
  have hself : ({ w.setFil d x with ticks := t } : World).fil d = x := setFil_self w d x
  refine ⟨.setFil w t (by rw [hx]) (by rw [hx]) (by rw [hx]) (by rw [hx]) (by rw [hx]), ?_, ?_, ?_, ?_, ?_,
    ?_⟩
  all_goals rw [hself, hx]
  rfl

/-- The node of a name in a directory, when it is in memory. -/
theorem kid_cases (hdir : (w.fil d).cls.isDir = true) {e : Str} {f : ℕ}
    (hk : w.kid E (.mem d) e = some (.mem f)) : (w.fil d).dirty.lookup e = some f ∨
      ((w.fil d).dirty.lookup e = none ∧
        ∃ r, (w.fil d).dir.lookup e = some r ∧ w.cache.nodemap r = some (.fil f)) := by
  rw [kid_mem hdir] at hk
  cases hdy : (w.fil d).dirty.lookup e with
  | some g =>
      rw [hdy] at hk
      exact .inl (by simpa using hk)
  | none =>
      rw [hdy] at hk
      obtain ⟨r, hr, hloc⟩ := Option.map_eq_some_iff.1 hk
      exact .inr ⟨rfl, r, hr, locAt_eq_mem.1 hloc⟩

section updated

variable {e : Str} {fnh : Option ℕ} (hu : Updated d e fnh w w') (h : TInv E L M H w)
  (hdir : (w.fil d).cls.isDir = true) (hk : ∀ f, fnh = some f → w.kid E (.mem d) e = some (.mem f))

include hu hdir hk

theorem Updated.lookup (n : Str) : (w'.fil d).dirty.lookup n =
    if n = e ∧ fnh.isSome then fnh else (w.fil d).dirty.lookup n := by
  rw [hu.dirty]
  refine lookup_updated (fun f hf g hg => ?_) n
  rcases kid_cases hdir (hk f hf) with hdy | ⟨hdy, -⟩
  · rw [hdy] at hg
    exact (Option.some.inj hg).symm
  · rw [hdy] at hg
    simp at hg

theorem Updated.kid (n : Str) : w'.kid E (.mem d) n = w.kid E (.mem d) n := by
  rw [kid_mem (by rw [hu.only.cls]; exact hdir), kid_mem hdir, hu.lookup hdir hk, hu.dir, hu.only.locAt]
  by_cases hn : n = e ∧ fnh.isSome
  · rw [if_pos hn]
    obtain ⟨rfl, hs⟩ := hn
    obtain ⟨f, rfl⟩ := Option.isSome_iff_exists.1 hs
    have := hk f rfl
    rw [kid_mem hdir] at this
    exact this.symm
  · rw [if_neg hn]

theorem Updated.still : Still w w' := by
  refine ⟨fun g _ => ?_, fun g _ => ?_, fun g _ n f hg => ?_⟩
  · by_cases hgd : g = d
    · rw [hgd, hu.ref]
    · rw [hu.only.other g hgd]
  · by_cases hgd : g = d
    · rw [hgd, hu.dir]
    · rw [hu.only.other g hgd]
  · by_cases hgd : g = d
    swap
    · rw [hu.only.other g hgd]
      exact hg
    subst hgd
    rw [hu.lookup hdir hk]
    split
    case isTrue hn =>
      obtain ⟨rfl, hs⟩ := hn
      obtain ⟨f', rfl⟩ := Option.isSome_iff_exists.1 hs
      rcases kid_cases hdir (hk f' rfl) with hdy | ⟨hdy, -⟩
      · exact hdy.symm.trans hg
      · rw [hdy] at hg
        simp at hg
    case isFalse => exact hg

include h

theorem Updated.isSub (x : Str × BlockRef) (hx : x ∈ (w.fil d).dir) (hd : d < w.nfil) :
    w'.isSub E d x = w.isSub E d x := by
  have hok := h.nodes.node d hd
  have hkind : ∀ g, sIsdir (w'.fil g).inode.mode = sIsdir (w.fil g).inode.mode := by
    intro g
    by_cases hg : g = d
    · rw [hg, hu.only.kind]
    · rw [hu.only.other g hg]
  rw [World.isSub, World.isSub, hu.lookup hdir hk, hu.only.log]
  by_cases hn : x.1 = e ∧ fnh.isSome
  swap
  · rw [if_neg hn]
    cases (w.fil d).dirty.lookup x.1 with
    | none => rfl
    | some g => exact hkind g
  · rw [if_pos hn]
    obtain ⟨hn, hs⟩ := hn
    obtain ⟨f, rfl⟩ := Option.isSome_iff_exists.1 hs
    simp only [hkind]
    rcases kid_cases hdir (hk f rfl) with hdy | ⟨hdy, r, hr, hmap⟩
    · rw [hn, hdy]
    · -- The clean cache has a node of the kind that is stored.
      have hxr : x = (e, r) := by
        have hmem := mem_of_lookup hr
        have : (w.fil d).dir.lookup x.1 = some x.2 :=
          (lookup_eq_some_iff_mem hok.names).2 (by exact hx)
        rw [hn, hr] at this
        rw [← hn, Option.some.inj this]
      rw [hn, hdy, hxr]
      exact (h.nodes.key r f hmap).kind.symm

theorem Updated.nodeOk (hd : (w.graph E M H).Live (.mem d)) : NodeOk E L w' d := by
  have hlt := (h.live_valid hd).lt
  have hok := h.nodes.node d hlt
  have hl := hu.only.later
  refine ⟨?_, ?_, ?_, ?_, ?_, ?_, ?_, ?_, ?_⟩
  · rw [hu.ref, hu.only.rand]
    exact hok.iv
  · rw [hu.isdirty]
    simp
  · rw [hu.isdirty]
    simp
  · rw [hu.dir]
    exact hok.names
  · rw [hu.dir, hu.only.log]
    exact hok.refs
  · rw [hu.dir, hu.dirty]
    intro x hx
    rcases mem_updated hx with hx | ⟨f, hf, rfl⟩
    · exact hok.dirtyIn x hx
    · rcases kid_cases hdir (hk f hf) with hdy | ⟨-, r, hr, -⟩
      · exact hok.dirtyIn _ (mem_of_lookup hdy)
      · exact mem_names_of_lookup hr
  · rw [hu.dirty]
    intro x hx
    rcases mem_updated hx with hx | ⟨f, hf, rfl⟩
    · exact (hok.held x hx).later hl
    · exact Held.later (h.nodes.valid_kid (h.live_valid hd) (hk f hf)) hl
  · rw [hu.dir]
    intro hL x hx hr
    have hmem := hok.nonil hL x hx hr
    by_contra hc
    have := hu.lookup hdir hk x.1
    rw [lookup_eq_none_iff_notMem.2 hc] at this
    split at this
    case isTrue hn =>
      rw [← this] at hn
      simp at hn
    case isFalse => exact lookup_eq_none_iff_notMem.1 this.symm hmem
  · intro hL hc
    rw [hu.only.cls] at hc
    rw [hu.nlink, hok.links hL hc, hu.dir]
    congr 1
    exact countDirs_congr fun x hx => (hu.isSub h hdir hk x hx hlt).symm

/-- **An update does not change the tree.** -/
theorem TInv.updated (hd : (w.graph E M H).Live (.mem d)) : TInv E L M H w' ∧ Sim E M H w w' := by
  have hcls : (w'.fil d).cls.isDir = true := by rw [hu.only.cls]; exact hdir
  refine h.same (hu.only.ninv h.nodes (hu.nodeOk h hdir hk hd))
    (hu.only.sameTree hu.ref (fun n => by rw [World.step, World.step, hu.kid hdir hk]) ?_)
    (fun _ => hu.still hdir hk) ?_
  · intro n y _ k hkey
    rw [entryRef_mem hcls, hu.dir, ← entryRef_mem (E := E) hdir] at hkey
    exact hkey
  · intro x _
    by_cases hx : x = .mem d
    · rw [hx]
      simp only [World.out, hcls, hdir, if_true, hu.seen]
    · exact hu.only.out hx

end updated

/-- **`DirNode::update`.** -/
theorem wp_updateNode (h : TInv E L M H w) (hd : (w.graph E M H).Live (.mem d))
    (hdir : (w.fil d).cls.isDir = true) {e : Str} {fnh : Option ℕ}
    (hk : ∀ f, fnh = some f → w.kid E (.mem d) e = some (.mem f)) :
    wp (updateNode d e fnh) (fun _ w' => TInv E L M H w' ∧ Sim E M H w w' ∧ Updated d e fnh w w')
      (fun _ _ => False) w := by
  rw [wp, updateNode_run]
  have hu := Updated.setFil (d := d) (e := e) w (w.ticks + 1) fnh (w.clock w.ticks) rfl
  obtain ⟨ht, hs⟩ := h.updated hu hdir hk hd
  exact ⟨ht, hs, hu⟩

end only

end UTFS

end Utopfs
