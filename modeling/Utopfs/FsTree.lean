/-
**Operations on a tree.**

As long as no node gets a second name, the nodes of the file system form a tree, and every operation does to
what can be seen what its specification says: it acts on the node or on the name at its path, and on nothing
else, or it returns the error that the tree determines and changes nothing.

Main definitions:

* `UTFS.Bare` — a file system that has just been made and has not been stored;
* `UTFS.TreeOp`, `UTFS.TreeOp.run` — the operations that change the tree, and `fs_sync`;
* `UTFS.TreeOp.Does` — what they do to a tree, which maps paths to what can be seen;
* `UTFS.TreeRead`, `UTFS.TreeRead.Shows` — the operations that only read, and what they show of a tree;
* `UTFS.TreeOk` — the nodes are a tree, and a flush finds all that has changed.

Main results:

* `UTFS.TInv.headed`, `UTFS.fsMkfs_tree` — a head node is inserted, and a new file system is a tree;
* `UTFS.TreeOp.treats`, `UTFS.TreeRead.shows` — **every operation does what its specification says**.
-/

import Utopfs.DirRename
import Utopfs.FsCrash

set_option relaxedAutoImplicit false
set_option autoImplicit false

namespace Utopfs

namespace UTFS

open Prog

variable {E : Env} {w w' : World} {L : Laws} {n : ℕ}

/-! ### The store and its head nodes -/

section logged

variable {log log' : List Effect} (hlog : ∀ r, getBlock r log' = getBlock r log)

include hlog

theorem decode_logged (r : BlockRef) : decode E log' r = decode E log r := by
  rw [decode, decode, hlog]

theorem storeBytes_logged : ∀ (level : ℕ) (r : BlockRef) (o : ℕ),
    storeBytes E log' level r o = storeBytes E log level r o := by
  intro level
  induction level with
  | zero =>
      intro r o
      simp only [storeBytes, decode_logged hlog]
  | succ level ih =>
      intro r o
      simp only [storeBytes, decode_logged hlog, ih]

theorem decodeFile_logged (r : BlockRef) : decodeFile E log' r = decodeFile E log r := by
  rw [decodeFile, decodeFile, decode_logged hlog]

theorem nodeBytes_logged (x : FileNode) : nodeBytes E log' x = nodeBytes E log x := by
  funext a
  simp only [nodeBytes, storeBytes_logged hlog]

theorem storedDir_logged (r : BlockRef) : storedDir E log' r = storedDir E log r := by
  simp only [storedDir, decodeFile_logged hlog, nodeBytes_logged hlog]

theorem storedIsDir_logged (r : BlockRef) : storedIsDir E log' r = storedIsDir E log r := by
  simp only [storedIsDir, decodeFile_logged hlog]

end logged

theorem blkBytes_logged (hblk : w'.blk = w.blk) (hlog : ∀ r, getBlock r w'.log = getBlock r w.log) :
    ∀ level m o, blkBytes E w' level m o = blkBytes E w level m o := by
  intro level
  induction level with
  | zero =>
      intro m o
      simp only [blkBytes, hblk]
  | succ level ih =>
      intro m o
      simp only [blkBytes, hblk, ih, storeBytes_logged hlog]

theorem fileBytes_logged (hblk : w'.blk = w.blk) (hfil : w'.fil = w.fil)
    (hlog : ∀ r, getBlock r w'.log = getBlock r w.log) (f : ℕ) : fileBytes E w' f = fileBytes E w f := by
  funext a
  simp only [fileBytes, slotBytes, World.slotObj, World.slotRef, hfil, blkBytes_logged hblk hlog,
    storeBytes_logged hlog]

/-- **A head node is inserted**, for a stored directory. -/
theorem TInv.headed (h : TInv E L none none w) {ref : BlockRef} (hs : Stored w.log ref .inode)
    (hm : storedIsDir E w.log ref = true) :
    TInv E L none none (w.headed E ref) ∧ Calm E none none w (w.headed E ref) := by
  rw [World.headed]
  split
  case isTrue => exact ⟨h, .refl h⟩
  case isFalse =>
    generalize hw : ({ w with
      ticks := w.ticks + 1
      log := .headInsert w.hn (E.encryptRef ref) :: w.log
      hn := some (E.encryptRef ref)
      rbr := ref } : World) = w'
    have hlog' : w'.log = .headInsert w.hn (E.encryptRef ref) :: w.log := by rw [← hw]
    have hlog : ∀ r, getBlock r w'.log = getBlock r w.log := by
      intro r
      rw [hlog']
      rfl
    have hle : LogLe w.log w'.log := fun r x hx => (hlog r).trans hx
    have hblk : w'.blk = w.blk := by rw [← hw]
    have hfil : w'.fil = w.fil := by rw [← hw]
    have hcache : w'.cache = w.cache := by rw [← hw]
    have hnfil : w'.nfil = w.nfil := by rw [← hw]
    have htops : w'.rdh = w.rdh ∧ w'.sdh = w.sdh ∧ w'.version = w.version ∧ w'.control = w.control := by
      rw [← hw]
      exact ⟨rfl, rfl, rfl, rfl⟩
    have hb : BInv E ∅ w' := by
      have hput : BInv E ∅ { w with log := .headInsert w.hn (E.encryptRef ref) :: w.log } :=
        h.nodes.blk.logged fun _ => rfl
      rw [← hw]
      exact hput.sameShape
        ⟨fun _ => rfl, fun _ => rfl, fun _ => rfl, fun _ => rfl, fun _ => rfl, fun _ => rfl, rfl, rfl, rfl, rfl,
          List.Sublist.refl _, rfl⟩ (fun _ => .inl rfl) fun _ _ _ => rfl
    have hl : Later w w' := by
      rw [← hw]
      exact ⟨fun r x hx => hx, fun _ hi => hi, Nat.le_refl _, fun _ _ => rfl, fun _ _ => rfl⟩
    have hst : StoreOk E L w'.log := by
      refine ⟨fun root hr => ?_, fun r hr => ?_, fun r x hr hx hd => ?_⟩
      · rw [hlog'] at hr
        rcases List.mem_cons.1 (show root ∈ E.encryptRef ref :: heads w.log from hr) with rfl | hr
        · rw [E.decryptRef_encryptRef, storedIsDir_logged hlog]
          exact ⟨hle.stored hs, hm⟩
        · obtain ⟨h₁, h₂⟩ := h.nodes.store.head root hr
          rw [storedIsDir_logged hlog]
          exact ⟨hle.stored h₁, h₂⟩
      · obtain ⟨b, hb⟩ := hr
        rw [hlog] at hb
        rw [decodeFile_logged hlog]
        exact h.nodes.store.inode r ⟨b, hb⟩
      · obtain ⟨b, hb⟩ := hr
        rw [hlog] at hb
        rw [decodeFile_logged hlog] at hx
        obtain ⟨d, hd, hok⟩ := h.nodes.store.dir r x ⟨b, hb⟩ hx hd
        rw [storedDir_logged hlog]
        refine ⟨d, hd, hok.mono hle h.nodes.blk.disk.nilFree ?_⟩
        rw [hlog]
        exact h.nodes.blk.disk.nilFree
    have hn : NInv E L w' := by
      refine h.nodes.step hb hl hst (fun f hf => .inl ⟨hnfil ▸ hf, by rw [hfil]⟩) (fun r f hr => .inl ?_)
        (fun d hd => .inl ?_) (fun d hd => .inl ?_) (fun v hv => .inl ?_) fun c hc => .inl ?_
      · rw [← hcache]
        exact hr
      · rw [← htops.1]
        exact hd
      · rw [← htops.2.1]
        exact hd
      · rw [← htops.2.2.1]
        exact hv
      · rw [← htops.2.2.2]
        exact hc
    have hdir : ∀ x, w'.dirOf E x = w.dirOf E x := by
      intro x
      cases x with
      | mem d => simp only [World.dirOf, hfil]
      | ref r => simp only [World.dirOf, storedDir_logged hlog]
    have hdirty : ∀ x, w'.dirtyOf x = w.dirtyOf x := by
      intro x
      cases x with
      | mem d => simp only [World.dirtyOf, hfil]
      | ref r => rfl
    have hent : ∀ x e, w'.entryRef E x e = w.entryRef E x e := fun x e => by
      rw [World.entryRef, World.entryRef, hdir]
    have hkid : ∀ x e, w'.kid E x e = w.kid E x e := by
      intro x e
      have hloc : w'.locAt = w.locAt := by
        funext r
        simp only [World.locAt, hcache]
      rw [World.kid, World.kid, hdir, hdirty, hloc]
    have hkey : ∀ x e y k, w'.KeyOf y (w'.entryRef E x e) k → w.KeyOf y (w.entryRef E x e) k := by
      intro x e y k hk
      rw [hent] at hk
      cases hk with
      | node hy => exact .node hy
      | own hy hr =>
          rw [hfil] at hr ⊢
          exact .own hy hr
      | entry hr => exact .entry hr
    have hsame : SameTree E none none (fun _ _ => False) w w' := by
      refine ⟨hl, htops.1, htops.2.1, htops.2.2.1, htops.2.2.2, fun r f hr => ?_, fun f hf => ?_, fun x _ e => ?_,
        fun x _ e y _ k hk => .inl (hkey x e y k hk), fun x r hH => by simp at hH, fun r g hr => .inl ?_,
        fun _ _ hF => hF.elim, fun _ _ _ hF => hF.elim, fun _ _ hF => hF.elim, fun d hd _ => hnfil ▸ hd⟩
      · rw [hcache]
        exact hr
      · rw [LposOk, hcache]
        exact hf
      · rw [step_none, step_none, hkid]
      · rw [← hcache]
        exact hr
    refine h.calm hn hsame (fun hne => absurd rfl hne) (fun x _ => ?_) fun x _ e f _ hr => ?_
    · cases x with
      | mem f => simp only [World.out, hfil, fileBytes_logged hblk hfil hlog]
      | ref r => simp only [World.out, decodeFile_logged hlog, nodeBytes_logged hlog]
    · rw [RegAt, hdirty, hent, hfil]
      exact hr

/-! ### A new file system -/

section made

/-- Nothing has been stored yet, and there are no names. -/
structure Bare (w : World) : Prop where
  log : w.log = []
  ref : ∀ f, (w.fil f).ref = .nil
  dir : ∀ f, (w.fil f).dir = []
  dirty : ∀ f, (w.fil f).dirty = []
  plain : ∀ d, d < w.nfil → (w.fil d).cls = .specialDir → w.sdh = some d
  apart : ∀ d, w.rdh = some d → w.sdh ≠ some d

theorem Bare.kid (hb : Bare w) (x : Loc) (e : Str) : w.kid E x e = none := by
  have hdirty : w.dirtyOf x = [] := by
    cases x with
    | mem f => simp only [World.dirtyOf, hb.dirty, ite_self]
    | ref r => rfl
  have hdir : w.dirOf E x = [] := by
    cases x with
    | mem f => simp only [World.dirOf, hb.dir, ite_self]
    | ref r =>
        rw [World.dirOf, hb.log]
        rfl
  rw [World.kid, hdirty, hdir]
  rfl

/-- Only the roots have a path. -/
theorem Bare.find (hb : Bare w) (i : Rt) (e : Str) (p : List Str) :
    (w.graph E none none).find i (e :: p) = none := by
  rw [LGraph.find]
  cases (w.graph E none none).root i with
  | none => rfl
  | some x =>
      rw [Option.bind_some, LGraph.walk_cons]
      change (w.step E none x e).bind _ = none
      rw [step_none, hb.kid]
      rfl

/-- A new node, which has not been stored. -/
theorem NodeOk.unstored {f : ℕ} (hL : ¬ L.links) (hd : DiskOk E w.log w.rand) (href : (w.fil f).ref = .nil)
    (hmark : (w.fil f).isdirty = true) (hdir : (w.fil f).dir = []) (hdirty : (w.fil f).dirty = []) :
    NodeOk E L w f := by
  refine ⟨?_, fun hc => by simp [hmark] at hc, fun _ hc => by simp [hmark] at hc, ?_, ?_, ?_, ?_, ?_,
    fun hl => absurd hl hL⟩
  · rw [href]
    exact fun hi => hd.randNe _ hi rfl
  · rw [hdir]
    exact List.nodup_nil
  · simp [hdir]
  · simp [hdirty]
  · simp [hdirty]
  · simp [hdir]

/-- **A new file system is a tree**, and a flush finds all of it. -/
theorem Bare.tinv (hb : Bare w) (h : FsOk E n w) (hL : ¬ L.links) :
    TInv E L none none w ∧ Reg E none none ∅ w := by
  have hno : ∀ r k, ¬ Stored w.log r k := by
    rintro r k ⟨b, hr⟩
    rw [hb.log] at hr
    simp [getBlock] at hr
  have hstep : ∀ x e y, w.step E none x e ≠ some y := by
    intro x e y
    rw [step_none, hb.kid]
    simp
  have hedge : ∀ x e k, ¬ w.edgeKey E none x e k := by
    rintro x e k ⟨y, hy, -⟩
    exact hstep x e y hy
  have hnode : ∀ f, f < w.nfil → NodeOk E L w f := by
    intro f hf
    have hmark : (w.fil f).isdirty ≠ false := fun hc => hno _ _ ((h.node f hf).clean hc).1
    exact .unstored hL h.blk.disk (hb.ref f) (by simpa using hmark) (hb.dir f) (hb.dirty f)
  have hst : StoreOk E L w.log :=
    ⟨h.store.head, fun r hr => absurd hr (hno _ _), fun r x hr => absurd hr (hno _ _)⟩
  have hroot : ∀ i j k, w.rootKey none i k → w.rootKey none j k → i = j := by
    have hboth : ∀ d, w.rdh = some d → ∀ d', w.sdh = some d' → Loc.mem d ≠ .mem d' := by
      rintro d hd d' hd' hk
      injection hk with hk
      subst hk
      exact hb.apart d hd hd'
    rintro (- | - | -) (- | - | -) k hi hj
    · rfl
    · obtain ⟨d, hd, rfl⟩ := hi
      obtain ⟨d', hd', hk⟩ := hj
      exact absurd hk (hboth d hd d' hd')
    · obtain ⟨x, r, hH, -⟩ := hj
      simp at hH
    · obtain ⟨d, hd, rfl⟩ := hj
      obtain ⟨d', hd', hk⟩ := hi
      exact absurd hk (hboth d hd d' hd')
    · rfl
    · obtain ⟨x, r, hH, -⟩ := hj
      simp at hH
    · obtain ⟨x, r, hH, -⟩ := hi
      simp at hH
    · obtain ⟨x, r, hH, -⟩ := hi
      simp at hH
    · rfl
  have hn : NInv E L w := ⟨h.blk, hst, hnode, fun r f hr => absurd (h.blk.keyFil r f hr) (hno _ _), h.top,
    h.special, h.version, h.control⟩
  refine ⟨⟨hn, ⟨hroot, fun i k _ j q y b _ hk => hedge y b k hk, fun i p x a _ j q y b _ k hk => ?_⟩,
    fun x _ e y hy => absurd hy (hstep x e y), fun x r hH => by simp at hH, fun x e hM => by simp at hM, hb.plain⟩,
    fun x _ e f hf => absurd hf (hstep x e _)⟩
  exact absurd hk (hedge x a k)

/-- The special directory and the file in it. -/
theorem newSpecialDirNode_fil (w : World) : ∃ w' t₁ t₂, newSpecialDirNode w = .ok () w' ∧
    w'.fil = Function.update (Function.update w.fil w.nfil
      { FileNode.freshDir 0o555 (Str.ofText "root") (Str.ofText "root") t₁ with cls := .specialDir }) (w.nfil + 1)
      { FileNode.fresh 0o444 (Str.ofText "root") (Str.ofText "root") t₂ with cls := .specialFile } ∧
    w'.nfil = w.nfil + 2 ∧ w'.sdh = some w.nfil ∧ w'.blk = w.blk ∧ w'.log = w.log ∧ w'.rand = w.rand ∧
    w'.cache = w.cache :=
  ⟨_, _, _, rfl, rfl, rfl, rfl, rfl, rfl, rfl, rfl⟩

/-- The root directory of a new file system. -/
theorem newRootDirNode_bare {z : World} (uname gname : Str) (hlog : z.log = []) (hnfil : z.nfil = 0)
    (hfil : ∀ f, z.fil f = .fresh 0 [] [] 0) : ∃ d w₁ t, newRootDirNode uname gname z = .ok d w₁ ∧
      Bare { w₁ with rdh := some d, rbr := .nil } ∧ w₁.fil d = .freshDir 0o777 uname gname t := by
  obtain ⟨w₁, t₁, t₂, hspecial, hw, hn, hs, -, hl, -⟩ := newSpecialDirNode_fil
    (World.allocFil { z with ticks := z.ticks + 1 } (.freshDir 0o777 uname gname (z.clock z.ticks)))
  have hrun : newRootDirNode uname gname z = .ok z.nfil w₁ := by
    change (newSpecialDirNode >>= fun _ => pure z.nfil) (World.allocFil { z with ticks := z.ticks + 1 }
      (.freshDir 0o777 uname gname (z.clock z.ticks))) = _
    rw [bind_apply, hspecial]
    rfl
  have hroot : ∀ f, (World.allocFil { z with ticks := z.ticks + 1 }
      (.freshDir 0o777 uname gname (z.clock z.ticks))).fil f =
      if f = 0 then .freshDir 0o777 uname gname (z.clock z.ticks) else .fresh 0 [] [] 0 := by
    intro f
    rw [← hfil f, ← hnfil]
    exact Function.update_apply ..
  have hnext : (World.allocFil { z with ticks := z.ticks + 1 }
      (.freshDir 0o777 uname gname (z.clock z.ticks))).nfil = 1 := congrArg (· + 1) hnfil
  rw [hnext] at hw hs
  rw [hnfil] at hrun
  have hall : ∀ f, (w₁.fil f).ref = .nil ∧ (w₁.fil f).dir = [] ∧ (w₁.fil f).dirty = [] ∧
      ((w₁.fil f).cls = .specialDir → f = 1) := by
    intro f
    rw [hw]
    by_cases h2 : f = 2
    · subst h2
      exact ⟨rfl, rfl, rfl, fun hc => by simp [FileNode.fresh] at hc⟩
    rw [Function.update_of_ne h2]
    by_cases h1 : f = 1
    · subst h1
      exact ⟨rfl, rfl, rfl, fun _ => rfl⟩
    rw [Function.update_of_ne h1, hroot]
    split
    · exact ⟨rfl, rfl, rfl, fun hc => by simp [FileNode.freshDir] at hc⟩
    · exact ⟨rfl, rfl, rfl, fun hc => by simp [FileNode.fresh] at hc⟩
  refine ⟨0, w₁, z.clock z.ticks, hrun, ⟨hl.trans hlog, fun f => (hall f).1, fun f => (hall f).2.1,
    fun f => (hall f).2.2.1, fun d _ hc => ?_, fun d hd => ?_⟩, ?_⟩
  · rw [(hall d).2.2.2 hc]
    exact hs
  · obtain rfl := Option.some.inj hd
    rw [hs]
    simp
  · rw [hw, Function.update_of_ne (by simp), Function.update_of_ne (by simp), hroot, if_pos rfl]

/-- **What is made**: a root directory without names. -/
theorem Bare.view (hb : Bare w) {d t : ℕ} {uname gname : Str} (hd : w.rdh = some d)
    (hfil : w.fil d = .freshDir 0o777 uname gname t) :
    w.view E = Function.update (fun _ => none) [] (some (newDir 0o777 uname gname t)) := by
  funext p
  cases p with
  | nil =>
      rw [Function.update_self, World.view, find_top.2 hd, Option.bind_some, World.out, hfil]
      rfl
  | cons e p =>
      rw [Function.update_of_ne (List.cons_ne_nil e p), World.view, hb.find]
      rfl

@[simp] theorem headed_fil (ref : BlockRef) (w : World) : (w.headed E ref).fil = w.fil := by
  rw [World.headed]
  split <;> rfl

@[simp] theorem headed_rbr (ref : BlockRef) (w : World) : (w.headed E ref).rbr = ref := by
  rw [World.headed]
  split
  case isTrue h => exact h.symm
  case isFalse => rfl

/-- The root directory is flushed and becomes the root. -/
theorem leaves_flushTo (h : TInv E L none none w) {d : ℕ} (hd : w.rdh = some d) :
    Leaves E L none none (flushTo E d) (fun _ w' => (w'.fil d).isdirty = false ∧ (w'.fil d).ref = w'.rbr) w := by
  rw [flushTo]
  refine (leaves_bnFlush h (find_top.2 hd)).bind ?_
  rintro ref w₁ h₁ hc ⟨⟨hclean, rfl⟩, -⟩
  have hmem := h₁.nodes.top d (hc.toSim.rdh.trans hd)
  have hnode := h₁.nodes.node d hmem.held.lt
  obtain ⟨-, hdir⟩ := hnode.cleanDir hmem.isDir hclean
  have hm : storedIsDir E w₁.log (w₁.fil d).ref = true := by
    rw [storedDir, Option.bind_eq_some_iff] at hdir
    obtain ⟨x, hx, hdir⟩ := hdir
    rw [storedIsDir, hx]
    by_contra hne
    rw [if_neg hne] at hdir
    simp at hdir
  obtain ⟨h₂, hc₂⟩ := h₁.headed (hnode.clean hclean).stored hm
  rw [Leaves, wp, setRootref_run]
  exact ⟨h₂, hc₂, by rw [headed_fil]; exact hclean, by rw [headed_fil, headed_rbr]⟩

theorem flushRoot_run {d : ℕ} (hd : w.rdh = some d) : flushRoot E w = flushTo E d w := by
  simp only [flushRoot, bind_apply, get_apply, hd, member]
  rfl

/-- **`fs_sync` leaves the tree as it is.** -/
theorem leaves_fsSync (h : TInv E L none none w) : Leaves E L none none (fsSync E) (fun _ _ => True) w := by
  rw [fsSync]
  refine .read ?_
  cases hd : w.rdh with
  | none => exact .fatal trivial
  | some d =>
      have hflush : Leaves E L none none (flushRoot E) (fun _ _ => True) w := by
        rw [Leaves, wp, flushRoot_run hd]
        exact (leaves_flushTo h hd).mono fun _ _ _ _ _ => trivial
      change Leaves E L none none (if (w.fil d).isdirty then flushRoot E else pure ()) _ w
      split
      case isTrue => exact hflush
      case isFalse => exact .ret h trivial

/-- **`fs_mkfs` makes a tree.** -/
theorem fsMkfs_tree {rand : List IV} {full : List Bool} {clock : ℕ → ℕ} {uname gname : Str} (hnodup : rand.Nodup)
    (hne : ∀ iv ∈ rand, iv ≠ fun _ => 0) (hL : ¬ L.links)
    (hrun : fsMkfs E uname gname (World.boot rand full clock) = .ok () w) :
    TInv E L none none w ∧ Reg E none none ∅ w ∧
      ∃ t, w.view E = Function.update (fun _ => none) [] (some (newDir 0o777 uname gname t)) := by
  have hboot : FsOk E 0 (World.boot rand full clock) :=
    .started (BInv.boot hnodup hne full clock).disk .nil full clock
  have hz := hboot.zeroed.zeroed.zeroed.zeroed
  generalize hw : ((((World.boot rand full clock).zeroed 0).zeroed 1).zeroed 2).zeroed 3 = z at hz
  obtain ⟨d, w₁, t, hroot, hbare, hfil⟩ := newRootDirNode_bare (z := z) uname gname (by rw [← hw]; rfl)
    (by rw [← hw]; rfl) (fun f => by rw [← hw]; rfl)
  obtain ⟨h₁, -, hd⟩ := wp_ok (safe_newRootDirNode hz uname gname) hroot
  obtain ⟨h₂, -⟩ := safe_modify_members h₁ (some d) w₁.sdh w₁.version w₁.control .nil w₁.hn
    (fun d' hd' => Option.some.inj hd' ▸ hd) h₁.special h₁.version h₁.control
  have hflush : flushTo E d { w₁ with rdh := some d, rbr := .nil } = .ok () w := by
    rw [← hrun, fsMkfs, bind_newZeroNode, bind_newZeroNode, bind_newZeroNode, bind_newZeroNode]
    rw [hw, bind_apply, hroot]
    rfl
  obtain ⟨ht, hX⟩ := hbare.tinv (E := E) h₂ hL
  obtain ⟨h₃, hc, -⟩ := wp_ok (leaves_flushTo ht rfl) hflush
  refine ⟨h₃, hc.reg _ hX, t, ?_⟩
  rw [funext hc.toSim.view, hbare.view rfl hfil]

end made

/-! ### The operations -/

/-- A tree: what can be seen at its paths. -/
abbrev Tree := List Str → Option NodeView

/-- A path with its names, which does not lead into the special directory. -/
structure TreePath where
  text : Str
  entry : Str
  rest : List Str
  split : splitPath text = pure (entry, rest)
  plain : entry ≠ specialDir

/-- The names on a path. -/
def TreePath.names (p : TreePath) : List Str := p.entry :: p.rest

/-- The operations that change the tree, but for `fs_link`, and `fs_sync`.  A write has data, and a name is not
moved to a place above or below it. -/
inductive TreeOp
  | mknod (p : TreePath) (mode : UInt32) (uname gname : Str)
  | mkdir (p : TreePath) (mode : UInt32) (uname gname : Str)
  | unlink (p : TreePath)
  | rmdir (p : TreePath)
  | symlink (opath : Str) (p : TreePath)
  | rename (o p : TreePath) (hold : ¬ o.names <+: p.names) (hnew : ¬ p.names <+: o.names)
  | chmod (p : TreePath) (mode : UInt32)
  | chown (p : TreePath) (uname gname : Str)
  | utime (p : TreePath) (atime mtime : ℕ)
  | truncate (p : TreePath) (size : ℕ)
  | write (p : TreePath) (data : List UInt8) (off : ℕ) (hne : data ≠ [])
  | sync

variable (E) in
/-- What the file system does for an operation. -/
def TreeOp.run : TreeOp → M ℤ
  | .mknod p mode uname gname => fsMknod E p.text mode uname gname
  | .mkdir p mode uname gname => fsMkdir E p.text mode uname gname
  | .unlink p => fsUnlink E p.text
  | .rmdir p => fsRmdir E p.text
  | .symlink opath p => fsSymlink E opath p.text
  | .rename o p _ _ => fsRename E o.text p.text
  | .chmod p mode => fsChmod E p.text mode
  | .chown p uname gname => fsChown E p.text uname gname
  | .utime p atime mtime => fsUtime E p.text atime mtime
  | .truncate p size => fsTruncate E p.text size
  | .write p data off _ => fsWrite E p.text data off
  | .sync => do
      fsSync E
      return 0

/-- An operation on a name: it is done, or the tree determines the error and is as it was. -/
def OnName (p : TreePath) (P : Tree → Errno → Prop) (C : Tree → Tree → Prop) (n : Tree) (rv : ℤ) (n' : Tree) :
    Prop :=
  (p.entry ≠ [] ∧ blocked n [] p.names = none ∧ rv = 0 ∧ C n n') ∨
    ∃ en, RootErrs n p.entry p.rest (P n) en ∧ rv = -en.code ∧ n' = n

/-- An operation on a node: nothing else in the tree changes. -/
def OnNode (p : TreePath) (done : ℤ) (C : NodeView → NodeView → Prop) (n : Tree) (rv : ℤ) (n' : Tree) : Prop :=
  (blocked n [] (target p.entry p.rest) = none ∧ rv = done ∧ ∃ v v', n (target p.entry p.rest) = some v ∧ C v v' ∧
      n' = Function.update n (target p.entry p.rest) (some v')) ∨
    ∃ en, Errs n [] (target p.entry p.rest) (fun en => en = .enoent ∧ n (target p.entry p.rest) = none) en ∧
      rv = -en.code ∧ n' = n

/-- A node gets a name that is not there. -/
def Adds (p : TreePath) (n n' : Tree) (v : ℕ → NodeView) : Prop :=
  n p.names = none ∧ ∃ t, n' = Function.update n p.names (some (v t))

/-- The name is there already. -/
def Exists (p : TreePath) (n : Tree) (en : Errno) : Prop := en = .eexist ∧ n p.names ≠ none

/-- **What the operations do to a tree.** -/
def TreeOp.Does : TreeOp → Tree → ℤ → Tree → Prop
  | .mknod p mode uname gname => OnName p (Exists p) fun n n' => Adds p n n' (newFile mode uname gname)
  | .mkdir p mode uname gname => OnName p (Exists p) fun n n' => n p.names = none ∧
      Adds p (Function.update n p.names.dropLast
        ((n p.names.dropLast).map (NodeView.adjust fun i => { i with nlink := i.nlink + 1 }))) n'
        (newDir mode uname gname)
  | .unlink p => OnName p (fun n en => unlinkErrno false (n p.names) = some en) fun n n' =>
      unlinkErrno false (n p.names) = none ∧ n' = pruned n p.names
  | .rmdir p => OnName p (fun n en => rmdirErrno n p.names = some en) fun n n' =>
      rmdirErrno n p.names = none ∧ n' = pruned n p.names
  | .symlink opath p => OnName p (Exists p) fun n n' => opath.length ≤ 4096 ∧ Adds p n n' (newLink opath)
  | .rename o p _ _ => fun n rv n' =>
      (rv = 0 ∧ o.entry ≠ [] ∧ p.entry ≠ [] ∧ n o.names ≠ none ∧ blocked n [] o.names = none ∧
        blocked n [] p.names = none ∧ n' = moved n o.names p.names) ∨
      ∃ en, (RootErrs n o.entry o.rest (fun _ => False) en ∨ RootErrs n p.entry p.rest (fun _ => False) en) ∧
        rv = -en.code ∧ n' = n
  | .chmod p mode => OnNode p 0 fun v v' => v' = v.adjust (.chmod mode)
  | .chown p uname gname => OnNode p 0 fun v v' => v' = v.adjust (.chown uname gname)
  | .utime p atime mtime => OnNode p 0 fun v v' => v' = v.adjust (.utime atime mtime)
  | .truncate p size => OnNode p 0 fun v v' => ∃ blocks mtime, v' = v.truncate size blocks mtime
  | .write p data off _ => OnNode p data.length fun v v' => ∃ blocks, v' = v.write data off blocks
  | .sync => fun n rv n' => rv = 0 ∧ n' = n

/-- The exceptions of an operation that may leave part of its work behind: a write beyond the largest file, and a
move of what is not there. -/
def TreeOp.Loses : TreeOp → Exn → Prop
  | .rename _ _ _ _, _ => True
  | .write _ _ _ _, ex => ex = .internalError "more indirect block traversal implementation required"
  | _, _ => False

/-- The laws that hold although a directory that is removed leaves a link behind. -/
def treeLaws : Laws := ⟨True, False⟩

variable (E) in
/-- The nodes are a tree, and a flush finds all that has changed. -/
structure TreeOk (w : World) : Prop where
  inv : TInv E treeLaws none none w
  reg : Reg E none none ∅ w

section step

variable {m : M ℤ} {p : TreePath}

variable (E) in
/-- The program does to the tree what `D` says.  No `errno` leaves it, and another exception leaves the tree as it
was, unless the process has gone or it is one of `Lost`. -/
def Treats (m : M ℤ) (Lost : Exn → Prop) (D : Tree → ℤ → Tree → Prop) (w : World) : Prop :=
  wp m (fun rv w' => TreeOk E w' ∧ D (w.view E) rv (w'.view E))
    (fun ex w' => (∀ en, ex ≠ .errno en) ∧ (¬ Fatal ex → ¬ Lost ex → TreeOk E w' ∧ w'.view E = w.view E)) w

theorem Fails.kept {Lost : Exn → Prop} (hlost : ∀ en, ¬ Lost (.errno en)) (h : TreeOk E w) {ex : Exn}
    (hF : Fails E treeLaws none Lost (fun _ => False) w ex w') :
    (∀ en, ex ≠ .errno en) ∧ (¬ Fatal ex → ¬ Lost ex → TreeOk E w' ∧ w'.view E = w.view E) := by
  rcases hF with hF | hF | ⟨h', hc, hen⟩
  · refine ⟨?_, fun hne => absurd hF hne⟩
    rintro en rfl
    exact hF
  · refine ⟨?_, fun _ hne => absurd hF hne⟩
    rintro en rfl
    exact hlost en hF
  · exact ⟨fun en he => (hen en he).1, fun _ _ => ⟨⟨h', hc.reg _ h.reg⟩, funext hc.toSim.view⟩⟩

theorem Treats.of_parent {P : Tree → Errno → Prop} {C : Tree → Tree → Prop} {C' : ℤ → Tree → Prop}
    (h : TreeOk E w)
    (hm : wp m (ParentEnds E treeLaws p.entry p.rest w (P (w.view E)) C')
      (Fails E treeLaws none (fun _ => False) (fun _ => False) w) w)
    (hC : ∀ rv n, C' rv n → rv = 0 ∧ C (w.view E) n) : Treats E m (fun _ => False) (OnName p P C) w := by
  refine wp_mono hm ?_ fun ex _ hF => hF.kept (fun _ => id) h
  rintro rv w' (⟨hne, hb, hch, hc⟩ | ⟨en, hen, hrv, hdown⟩)
  · obtain ⟨h0, hc⟩ := hC rv _ hc
    exact ⟨⟨hch.inv, hch.reg⟩, .inl ⟨hne, hb, h0, hc⟩⟩
  · exact ⟨⟨hdown.inv, hdown.calm.reg _ h.reg⟩, .inr ⟨en, hen, hrv, funext hdown.calm.toSim.view⟩⟩

theorem Treats.of_leaf {Lost : Exn → Prop} (hlost : ∀ en, ¬ Lost (.errno en)) {done : ℤ}
    {C : NodeView → NodeView → Prop} (h : TreeOk E w)
    (hm : wp m (LeafEnds E treeLaws (target p.entry p.rest) w fun rv v v' => rv = done ∧ C v v')
      (Fails E treeLaws none Lost (fun _ => False) w) w) : Treats E m Lost (OnNode p done C) w := by
  refine wp_mono hm ?_ fun ex _ hF => hF.kept hlost h
  rintro rv w' (⟨hb, hch, v, v', hv, ⟨hrv, hC⟩, hn⟩ | ⟨en, hen, hrv, hdown⟩)
  · exact ⟨⟨hch.inv, hch.reg⟩, .inl ⟨hb, hrv, v, v', hv, hC, hn⟩⟩
  · exact ⟨⟨hdown.inv, hdown.calm.reg _ h.reg⟩, .inr ⟨en, hen, hrv, funext hdown.calm.toSim.view⟩⟩

/-- **Every operation does what its specification says**, one operation after the other. -/
theorem TreeOp.treats (op : TreeOp) (hw : TreeOk E w) : Treats E (op.run E) op.Loses op.Does w := by
  have hL : ¬ treeLaws.links := id
  obtain ⟨h, hX⟩ := id hw
  cases op with
  | mknod p mode uname gname =>
      refine .of_parent hw (wp_fsMknod p.split h hX hL p.plain mode uname gname) ?_
      rintro rv n ⟨hrv, hnone, hn⟩
      exact ⟨hrv, hnone, hn⟩
  | mkdir p mode uname gname =>
      refine .of_parent hw (wp_fsMkdir p.split h hX hL p.plain mode uname gname) ?_
      rintro rv n ⟨hrv, hnone, v, ⟨t, rfl⟩, hn⟩
      have hne : p.names ≠ p.names.dropLast := fun heq => by
        have := congrArg List.length heq
        simp [TreePath.names] at this
      exact ⟨hrv, hnone, (Function.update_of_ne hne _ _).trans hnone, t, hn⟩
  | unlink p => exact .of_parent hw (wp_fsUnlink p.split h hX hL p.plain) fun rv n hn => hn
  | rmdir p => exact .of_parent hw (wp_fsRmdir p.split h hX trivial hL p.plain) fun rv n hn => hn
  | symlink opath p =>
      refine .of_parent hw (wp_fsSymlink p.split h hX hL p.plain opath) ?_
      rintro rv n ⟨hrv, hnone, hlen, hn⟩
      exact ⟨hrv, hlen, hnone, hn⟩
  | rename o p hold hnew =>
      refine wp_mono (wp_fsRename o.split p.split h hX trivial hL o.plain p.plain hold hnew) ?_
        fun _ _ hF => ⟨hF, fun _ hne => absurd trivial hne⟩
      rintro rv w' (⟨hrv, ho, hp, hsome, hob, hpb, hch, hv⟩ | ⟨en, hen, hrv, h', hc, -⟩)
      · exact ⟨⟨hch.inv, hch.reg⟩, .inl ⟨hrv, ho, hp, hsome, hob, hpb, hv⟩⟩
      · exact ⟨⟨h', hc.reg _ hX⟩, .inr ⟨en, hen, hrv, funext hc.toSim.view⟩⟩
  | chmod p mode => exact .of_leaf (fun _ => id) hw (wp_fsChmod p.split h hX p.plain mode)
  | chown p uname gname => exact .of_leaf (fun _ => id) hw (wp_fsChown p.split h hX p.plain uname gname)
  | utime p atime mtime => exact .of_leaf (fun _ => id) hw (wp_fsUtime p.split h hX p.plain atime mtime)
  | truncate p size => exact .of_leaf (fun _ => id) hw (wp_fsTruncate p.split h hX p.plain size)
  | write p data off hne =>
      have hlost : ∀ en, ¬ TreeOp.Loses (.write p data off hne) (.errno en) := by simp [TreeOp.Loses]
      exact .of_leaf hlost hw (wp_fsWrite p.split h hX p.plain hne off)
  | sync =>
      refine wp_seq (leaves_fsSync h) ?_ ?_
      · rintro - w' ⟨h', hc, -⟩
        exact ⟨⟨h', hc.reg _ hX⟩, rfl, funext hc.toSim.view⟩
      · rintro ex w' (hF | ⟨h', hc, hen⟩)
        · refine ⟨?_, fun hne => absurd hF hne⟩
          rintro en rfl
          exact hF
        · exact ⟨hen, fun _ _ => ⟨⟨h', hc.reg _ hX⟩, funext hc.toSim.view⟩⟩

end step

/-! ### The operations that only read -/

section read

/-- The operations that only read. -/
inductive TreeRead
  | getattr (p : TreePath) (st : Stat)
  | readlink (p : TreePath) (obuf : ℕ → UInt8) (size : ℕ)
  | open (p : TreePath) (flags : UInt32)
  | read (p : TreePath) (buf : ℕ → UInt8) (size off : ℕ)
  | readdir (p : TreePath) (off : ℕ)
  | access (p : TreePath)

/-- What they return besides a value. -/
def TreeRead.Out : TreeRead → Type
  | .getattr _ _ => Stat
  | .readlink _ _ _ => ℕ → UInt8
  | .open _ _ => Unit
  | .read _ _ _ _ => ℕ → UInt8
  | .readdir _ _ => List Str
  | .access _ => Unit

variable (E) in
/-- What the file system does for an operation that reads. -/
def TreeRead.run : (q : TreeRead) → M (ℤ × q.Out)
  | .getattr p st => fsGetattr E p.text st
  | .readlink p obuf size => fsReadlink E p.text obuf size
  | .open p flags => fsOpen E p.text flags
  | .read p buf size off => fsRead E p.text buf size off
  | .readdir p off => fsReaddir E p.text off []
  | .access p => do
      let rv ← fsAccess E p.text
      return (rv, ())

/-- **What the operations that read show of a tree.** -/
def TreeRead.Shows : (q : TreeRead) → Tree → ℤ × q.Out → Prop
  | .getattr p st => fun n =>
      Shown n (target p.entry p.rest) (fun _ _ => False) (NodeView.Stats (target p.entry p.rest)) st
  | .readlink p obuf size => fun n =>
      Shown n (target p.entry p.rest) (fun _ en => en = .einval) (NodeView.Text obuf size) obuf
  | .open p _ => fun n => Opened n p.entry p.rest
  | .read p buf size off => fun n =>
      Shown n (target p.entry p.rest) (fun _ _ => False) (NodeView.Gives buf size off) buf
  | .readdir p _ => fun n => Shown n (target p.entry p.rest) (fun v en => en = .enotdir ∧ v.bytes ≠ none)
      (Lists n (target p.entry p.rest) []) []
  | .access p => fun n => Shown n (target p.entry p.rest) (fun _ _ => False) (fun _ rv _ => rv = 0) ()

variable (E) in
/-- The program shows what `S` says of the tree and leaves it as it was; so does an exception, which is no `errno`,
unless the process has gone. -/
def Displays {α : Type} (m : M α) (S : Tree → α → Prop) (w : World) : Prop :=
  wp m (fun r w' => TreeOk E w' ∧ w'.view E = w.view E ∧ S (w.view E) r)
    (fun ex w' => (∀ en, ex ≠ .errno en) ∧ (¬ Fatal ex → TreeOk E w' ∧ w'.view E = w.view E)) w

theorem Displays.of_wp {α : Type} {m : M α} {S : Tree → α → Prop} (h : TreeOk E w)
    (hm : wp m (AsBefore E treeLaws w (S (w.view E)))
      (Fails E treeLaws none (fun _ => False) (fun _ => False) w) w) : Displays E m S w := by
  refine wp_mono hm ?_ fun ex w' hF => ?_
  · rintro r w' ⟨h', hc, hr⟩
    exact ⟨⟨h', hc.reg _ h.reg⟩, funext hc.toSim.view, hr⟩
  · obtain ⟨hen, hkept⟩ := hF.kept (fun _ => id) h
    exact ⟨hen, fun hfatal => hkept hfatal id⟩

/-- **Every operation that reads shows what its specification says.** -/
theorem TreeRead.shows (q : TreeRead) (hw : TreeOk E w) : Displays E (q.run E) q.Shows w := by
  have h := hw.inv
  cases q with
  | getattr p st => exact .of_wp hw (wp_fsGetattr p.split h p.plain st)
  | readlink p obuf size => exact .of_wp hw (wp_fsReadlink p.split h p.plain obuf size)
  | «open» p flags => exact .of_wp hw (wp_fsOpen p.split h p.plain flags)
  | read p buf size off => exact .of_wp hw (wp_fsRead p.split h p.plain buf size off)
  | readdir p off => exact .of_wp hw (wp_fsReaddir p.split h p.plain trivial off [])
  | access p =>
      refine .of_wp hw (wp_seq (wp_fsAccess p.split h p.plain) ?_ fun _ _ hF => hF)
      exact fun rv w' hr => hr

end read

end UTFS

end Utopfs
