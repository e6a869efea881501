/-
**What a mount shows.**

A mount finds the one head node that no edge leaves, and makes the root directory from its stored inode.
Nothing else is in memory then, so every path leads through the entries of stored directories to a stored
inode.  The puts that came later than these blocks make no difference.

Main definitions:

* `UTFS.storedAt`, `UTFS.storedSight`, `UTFS.storedView` — following a path in the store, and what is there;
* `UTFS.Mounted` — a mounted file system.

Main results:

* `UTFS.wp_fsMount` — `UTFileSystem::fs_mount`;
* `UTFS.Mounted.pathView` — **a mounted file system shows the tree in the store**;
* `UTFS.storedView_mono` — **later puts do not change this tree**.
-/

import Utopfs.FsRuns

set_option relaxedAutoImplicit false
set_option autoImplicit false

namespace Utopfs

namespace UTFS

open Prog

variable (E : Env)

/-! ### The tree in the store -/

/-- The reference at the end of a path. -/
def storedAt (log : List Effect) : BlockRef → List Str → Option BlockRef
  | r, [] => some r
  | r, e :: p => (((storedDir E log r).getD []).lookup e).bind fun r' => storedAt log r' p

/-- What is stored under a reference. -/
def storedSight (log : List Effect) (r : BlockRef) : Option Sight :=
  (decodeFile E log r).map fun x =>
    ⟨x.inode, ((storedDir E log r).getD []).map Prod.fst, nodeBytes E log x⟩

/-- What is at the end of a path. -/
def storedView (log : List Effect) (r : BlockRef) (p : List Str) : Option Sight :=
  (storedAt E log r p).bind (storedSight E log)

/-- The file system is mounted on a store with this root. -/
structure Mounted (log : List Effect) (root : BlockRef) (w : World) : Prop where
  ok : FsOk E 3 w
  log : w.log = log
  hn : w.hn = some root
  rbr : w.rbr = E.decryptRef root
  cache : ∀ r f, w.cache.nodemap r ≠ some (.fil f)
  top : ∃ d, w.rdh = some d ∧ (w.fil d).ref = E.decryptRef root ∧ CopyOf E w (E.decryptRef root) d

variable {E} {n : ℕ} {w w' : World} {log log' : List Effect} {r root : BlockRef} {x : FileNode}

/-! ### Later puts -/

/-- **Later puts do not change the tree below a stored inode.** -/
theorem storedAt_mono {rand : List IV} (hd : DiskOk E log rand) (hs : StoreFit E log) (hle : LogLe log log')
    (hnil : getBlock .nil log' = none) : ∀ (p : List Str) (r : BlockRef), (r ≠ .nil → Stored log r .inode) →
    storedAt E log' r p = storedAt E log r p ∧
      ∀ r', storedAt E log r p = some r' → r' ≠ .nil → Stored log r' .inode := by
  intro p
  induction p with
  | nil =>
      intro r hr
      refine ⟨rfl, fun r' hr' => ?_⟩
      obtain rfl : r = r' := Option.some.inj hr'
      exact hr
  | cons e p ih =>
      intro r hr
      by_cases hn : r = .nil
      · -- Nothing is stored under the nil reference.
        have hnone : ∀ {log : List Effect}, getBlock .nil log = none → storedAt E log r (e :: p) = none := by
          intro log h
          simp [storedAt, storedDir, decodeFile, decode, hn, h]
        rw [hnone hnil, hnone hd.nilFree]
        exact ⟨rfl, fun r' hr' => by simp at hr'⟩
      · have hdir := storedDir_mono hd hle hnil (hr hn)
        simp only [storedAt, hdir]
        cases hl : ((storedDir E log r).getD []).lookup e with
        | none => exact ⟨rfl, fun r' hr' => by simp at hr'⟩
        | some r₁ =>
            refine ih r₁ fun hne => ?_
            cases hst : storedDir E log r with
            | none => simp [hst] at hl
            | some d =>
                rw [hst, Option.getD_some] at hl
                obtain ⟨x, hx, hx'⟩ := Option.bind_eq_some_iff.1 hst
                split at hx'
                case isTrue hm =>
                  obtain ⟨-, d', hd', hrefs⟩ := hs.dir r x (hr hn) hx hm
                  obtain rfl : d = d' := Option.some.inj (hst.symm.trans hd')
                  exact hrefs _ (mem_of_lookup hl) hne
                case isFalse => simp at hx'

theorem storedView_mono {rand : List IV} (hd : DiskOk E log rand) (hs : StoreFit E log) (hle : LogLe log log')
    (hnil : getBlock .nil log' = none) (hr : Stored log r .inode) (p : List Str) :
    storedView E log' r p = storedView E log r p := by
  obtain ⟨hat, hstored⟩ := storedAt_mono hd hs hle hnil p r fun _ => hr
  rw [storedView, storedView, hat]
  cases hp : storedAt E log r p with
  | none => rfl
  | some r' =>
      change storedSight E log' r' = storedSight E log r'
      by_cases hn : r' = .nil
      · simp [storedSight, decodeFile, decode, hn, hnil, hd.nilFree]
      · have hs' := hstored r' hp hn
        rw [storedSight, storedSight, hle.decodeFile hs', storedDir_mono hd hle hnil hs']
        cases hx : decodeFile E log r' with
        | none => rfl
        | some x =>
            have hbytes : nodeBytes E log' x = nodeBytes E log x :=
              funext (nodeBytes_mono hd hle hnil (hd.decodeFile_refs hs' hx))
            simp only [Option.map_some, hbytes]

/-! ### Mounting -/

/-- The special directory and its version file. -/
theorem newSpecialDirNode_run (w : World) : ∃ w', newSpecialDirNode w = .ok () w' ∧ w'.blk = w.blk ∧
    w'.log = w.log ∧ w'.cache = w.cache ∧ w'.hn = w.hn ∧ w'.rbr = w.rbr ∧ w'.rdh = w.rdh ∧
    w.nfil ≤ w'.nfil ∧ ∀ f, f < w.nfil → w'.fil f = w.fil f := by
  refine ⟨_, rfl, rfl, rfl, rfl, rfl, rfl, rfl, Nat.le_add_right w.nfil 2, fun f hf => ?_⟩
  have h₁ : f ≠ w.nfil := Nat.ne_of_lt hf
  have h₂ : f ≠ w.nfil + 1 := Nat.ne_of_lt (Nat.lt_succ_of_lt hf)
  exact (Function.update_of_ne h₂ _ _).trans (Function.update_of_ne h₁ _ _)

/-- A copy stays one while neither it nor the store changes. -/
theorem CopyOf.congr {d : ℕ} (hc : CopyOf E w r d) (hblk : w'.blk = w.blk) (hlog : w'.log = w.log)
    (hnfil : w.nfil ≤ w'.nfil) (hfil : w'.fil d = w.fil d) : CopyOf E w' r d where
  lt := hc.lt.trans_le hnfil
  dirty := (dirtyOf_mem hfil).trans hc.dirty
  dir := by rw [dirOf_mem hfil, hc.dir, dirOf_ref hlog]
  sight := by
    have hbytes : fileBytes E w' d = fileBytes E w d := funext (fileBytes_of_fil hblk hlog hfil)
    have hmem : w'.sight E (.mem d) = w.sight E (.mem d) := by
      simp only [World.sight, World.dirOf, hfil, hbytes]
    rw [hmem, hc.sight, sight_ref hlog]

/-- A root that is a stored directory. -/
theorem FsOk.root_decodes (h : FsOk E n w) (hf : headFurthest w.log = [root]) :
    Stored w.log (E.decryptRef root) .inode ∧
      ∃ x, decodeFile E w.log (E.decryptRef root) = some x ∧ sIsdir x.inode.mode = true := by
  have hmem : root ∈ headFurthest w.log := by simp [hf]
  obtain ⟨hs, hk⟩ := h.store.head root (List.mem_filter.1 hmem).1
  refine ⟨hs, ?_⟩
  rw [storedIsDir] at hk
  cases hx : decodeFile E w.log (E.decryptRef root) with
  | none => simp [hx] at hk
  | some x => exact ⟨x, rfl, by simpa [hx] using hk⟩

/-- The root directory is made. -/
theorem wp_loadRootDirNode (h : FsOk E n w) (hs : Stored w.log r .inode) (hx : decodeFile E w.log r = some x)
    (hm : sIsdir x.inode.mode = true) (hcache : ∀ r f, w.cache.nodemap r ≠ some (.fil f)) :
    wp (loadRootDirNode E r)
      (fun d w' => FsOk E n w' ∧ DirMember w' d ∧ w'.log = w.log ∧ w'.hn = w.hn ∧ w'.rbr = w.rbr ∧
        (∀ r f, w'.cache.nodemap r ≠ some (.fil f)) ∧ (w'.fil d).ref = r ∧ CopyOf E w' r d)
      (fun e _ => Unread n x.inode.size e) w := by
  have hload := wp_upgradeDir_ok h hs hx (ref_decodeFile hx) hm
  have hmoved := (halts_upgradeDir E x w).step
  rw [loadRootDirNode, wp_bind, wp, readFileNode_run h.blk.disk hs hx]
  simp only [wp_bind]
  rw [wp]
  cases hrun : upgradeDir E x w with
  | error e w₁ => exact (wp_error hload hrun).2.2
  | ok d w₁ =>
      rw [final_ok hrun] at hmoved
      obtain ⟨h₁, hu, hn, hd⟩ := wp_ok hload hrun
      obtain ⟨w₂, hspecial, hblk, hlog, hc, hhn, hrbr, -, hnfil, hfil⟩ := newSpecialDirNode_run w₁
      obtain ⟨h₂, hl₂, -⟩ := wp_ok (safe_newSpecialDirNode h₁) hspecial
      have hlt := hd.held.lt
      dsimp only
      rw [wp, bind_apply, hspecial]
      refine ⟨h₂, hd.later hl₂, hlog.trans hu.log, hhn.trans hmoved.hn, hrbr.trans hmoved.rbr, ?_, ?_, ?_⟩
      · intro r' f hf
        rw [hc] at hf
        exact hcache r' f ((hn.cache.nodemap r' f).1 hf)
      · rw [hfil d hlt]
        exact hn.ref
      · exact hn.copy.congr hblk hlog hnfil (hfil d hlt)

/-- **Mounting**: with one head node to mount, it succeeds unless the root directory is too large to read. -/
theorem wp_fsMount (h : FsOk E n w) {rand : List IV} (hnodup : rand.Nodup) (hne : ∀ iv ∈ rand, iv ≠ fun _ => 0)
    (hfresh : ∀ r x, getBlock r w.log = some x → r.iv ∉ rand) (full : List Bool) (clock : ℕ → ℕ)
    (hf : headFurthest w.log = [root]) (hx : decodeFile E w.log (E.decryptRef root) = some x) :
    wp (fsMount E) (fun _ w' => Mounted E w.log root w') (fun e _ => Unread 3 x.inode.size e)
      (w.restarted rand full clock) := by
  obtain ⟨hs, x', hx', hm⟩ := h.root_decodes hf
  obtain rfl : x = x' := Option.some.inj (hx.symm.trans hx')
  have hdisk : DiskOk E w.log rand := { h.blk.disk with fresh := hfresh, randNodup := hnodup, randNe := hne }
  have hz : FsOk E 3 ((((w.restarted rand full clock).zeroed 0).zeroed 1).zeroed 2) :=
    (FsOk.started hdisk h.store full clock).zeroed.zeroed.zeroed
  generalize hw : (((w.restarted rand full clock).zeroed 0).zeroed 1).zeroed 2 = z at hz
  have hlog : z.log = w.log := by rw [← hw]; rfl
  have hnocache : ∀ r f, z.cache.nodemap r ≠ some (.fil f) := by
    rw [← hw]
    exact fun r f => (Option.some_ne_none _).symm
  -- The members are set, and the root directory is made.
  obtain ⟨h₁, -⟩ := safe_modify_members hz z.rdh z.sdh z.version z.control (E.decryptRef root) (some root) hz.top
    hz.special hz.version hz.control
  have hroot : getRootref E z = .ok (E.decryptRef root)
      { z with hn := some root, rbr := E.decryptRef root } := by
    have hfz : headFurthest z.log = [root] := by rw [hlog]; exact hf
    simp only [getRootref, bind_apply, get_apply, hfz]
    rfl
  have hload := wp_loadRootDirNode h₁ (by rw [hlog]; exact hs) (by rw [hlog]; exact hx) hm hnocache
  rw [wp, fsMount, bind_apply, modify_apply]
  dsimp only
  rw [bind_newZeroNode, bind_newZeroNode, bind_newZeroNode]
  change wp _ _ _ ((((w.restarted rand full clock).zeroed 0).zeroed 1).zeroed 2)
  rw [hw, wp_bind, wp_tryCatch, wp_bind, wp, hroot]
  dsimp only
  refine wp_mono hload ?_ ?_
  · rintro d w₂ ⟨h₂, hd, hlog₂, hhn, hrbr, hc, href, hcopy⟩
    obtain ⟨h₃, -⟩ := safe_modify_members h₂ (some d) w₂.sdh w₂.version w₂.control w₂.rbr w₂.hn
      (fun d' hd' => Option.some.inj hd' ▸ hd) h₂.special h₂.version h₂.control
    exact ⟨h₃, hlog₂.trans hlog, hhn, hrbr, hc, d, rfl, href, hcopy.congr rfl rfl (Nat.le_refl _) rfl⟩
  · rintro e w₂ ⟨rfl, hu⟩
    exact ⟨rfl, hu⟩

/-! ### What is shown -/

section shown

theorem locAt_uncached (hcache : ∀ r f, w.cache.nodemap r ≠ some (.fil f)) (r : BlockRef) : w.locAt r = .ref r :=
  locAt_of_none fun f => hcache r f

theorem kid_uncached (hcache : ∀ r f, w.cache.nodemap r ≠ some (.fil f)) (r : BlockRef) (e : Str) :
    w.kid E (.ref r) e = (((storedDir E w.log r).getD []).lookup e).map .ref := by
  have hlocAt : w.locAt = .ref := funext (locAt_uncached hcache)
  simp only [World.kid, World.dirtyOf, World.dirOf, List.lookup_nil, hlocAt]

theorem walk_uncached (hcache : ∀ r f, w.cache.nodemap r ≠ some (.fil f)) : ∀ (p : List Str) (r : BlockRef),
    (w.graph E none none).walk (.ref r) p = (storedAt E w.log r p).map .ref := by
  intro p
  induction p with
  | nil => exact fun r => rfl
  | cons e p ih =>
      intro r
      have hstep : (w.graph E none none).step (.ref r) e = w.kid E (.ref r) e := by
        simp only [World.graph, step_none]
      rw [LGraph.walk_cons, hstep, kid_uncached hcache, storedAt]
      cases ((storedDir E w.log r).getD []).lookup e with
      | none => rfl
      | some r' => exact ih r'

/-- **A mounted file system shows the tree in the store.** -/
theorem Mounted.pathView (h : Mounted E log root w) {entry : Str} (hentry : entry ≠ specialDir) (rest : List Str) :
    w.pathView E entry rest =
      storedView E log (E.decryptRef root) (if entry = [] then [] else entry :: rest) := by
  obtain ⟨d, hd, -, hc⟩ := h.top
  rw [← h.log, World.pathView, World.nodeAt, storedView]
  by_cases he : entry = []
  · simp only [he, if_true, hd, Option.map_some, Option.bind_some, storedAt]
    exact hc.sight
  · rw [if_neg he, if_neg hentry, if_neg he]
    have hroot : (w.graph E none none).root .top = some (.mem d) := by
      simp only [World.graph, World.root, hd, Option.map_some]
    have hstep : (w.graph E none none).step (.mem d) entry = w.kid E (.ref (E.decryptRef root)) entry := by
      simp only [World.graph, step_none, World.kid, hc.dirty, hc.dir]
      rfl
    rw [LGraph.find, hroot, Option.bind_some, LGraph.walk_cons, hstep, kid_uncached h.cache, storedAt]
    cases ((storedDir E w.log (E.decryptRef root)).getD []).lookup entry with
    | none => rfl
    | some r =>
        simp only [Option.map_some, Option.bind_some, walk_uncached h.cache]
        cases storedAt E w.log r rest <;> rfl

end shown

end UTFS

end Utopfs
