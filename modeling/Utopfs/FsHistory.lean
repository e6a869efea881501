/-
**Histories of the file system.**

A context is made by `fs_mkfs` in a new block store, or by `fs_mount` on what another has left in it: at the end
of an operation, or at any point of one in which the process has stopped.  The next operation starts from there.

Whatever has happened, the head nodes are a chain, and what is reachable from the last one is there as it was
when that was inserted; and so it was at every point of the history before.

Main definitions:

* `UTFS.atHead` — the store as the last head node was inserted;
* `UTFS.Rooted` — the head nodes are a chain, and its end has the reference of the root directory;
* `UTFS.Ran`, `UTFS.Runs` — what an operation does to the store, wherever it is stopped;
* `UTFS.Entry`, `UTFS.Context` — how a context was made, and the states of all contexts.

Main results:

* `UTFS.FsOp.runs` — what every operation does to the store;
* `UTFS.Context.fsOk` — **the invariant holds in every context**;
* `UTFS.Context.recovers_of_stops` — **the store holds a file system wherever the process stops**.
-/

import Utopfs.FsMount
import Utopfs.HeadChain

set_option relaxedAutoImplicit false
set_option autoImplicit false

namespace Utopfs

namespace UTFS

open Prog

variable (E : Env)

/-! ### The store -/

/-- The store as the last head node was inserted. -/
def atHead : List Effect → List Effect
  | [] => []
  | .headInsert prev root :: l => .headInsert prev root :: l
  | _ :: l => atHead l

/-- The head nodes are a chain, of which `rbr` is the end; the reference of the root directory is `rbr`, or
it is not among them. -/
structure Rooted (w : World) : Prop where
  last : (heads w.log).head? = some (E.encryptRef w.rbr)
  furthest : headFurthest w.log = [E.encryptRef w.rbr]
  hn : w.hn = some (E.encryptRef w.rbr)
  edges : ∀ r, headLeft r w.log = true → r ∈ heads w.log
  made : ∀ root ∈ heads w.log, root = E.encryptRef (E.decryptRef root)
  top : ∀ d, w.rdh = some d → (w.fil d).ref = w.rbr ∨ E.encryptRef (w.fil d).ref ∉ heads w.log
  chain : HeadChain w.log

variable {E} {n : ℕ} {w w' : World} {l : List Effect}

/-! ### Runs with other faults -/

/-- The invariant does not depend on the puts that will find no space. -/
theorem FsOk.setFull (h : FsOk E n w) (full : List Bool) : FsOk E n (w.setFull full) := by
  have hs : SameShape w (w.setFull full) :=
    ⟨fun _ => rfl, fun _ => rfl, fun _ => rfl, fun _ => rfl, fun _ => rfl, fun _ => rfl, rfl, rfl, rfl, rfl,
      List.Sublist.refl _, rfl⟩
  have hl : Later w (w.setFull full) :=
    ⟨.refl _, fun _ hi => hi, Nat.le_refl _, fun _ _ => rfl, fun _ _ => rfl⟩
  exact h.step_one (f := 0) (h.blk.sameShape hs (fun _ => .inl rfl) fun _ _ _ => rfl) hl h.store rfl rfl
    (.refl _) (fun _ _ => rfl) fun h0 => (h.node 0 h0).mono hl rfl

/-- The process stops with this in the store: a run with other faults ends so. -/
def Stopped (E : Env) (n : ℕ) (w : World) (l : List Effect) : Prop :=
  ∃ w', FsOk E n w' ∧ Later w w' ∧ Moved w w' ∧ w'.log = l

section stopped

variable {α : Type} {m : M α} {Q : α → World → Prop}

/-- A program that keeps the invariant whatever puts find no space is stopped with the invariant kept. -/
theorem Stopped.of_safe (hm : Halts m) (hsafe : ∀ full, Safe E n m Q (w.setFull full)) (hl : w.log <:+ l)
    (hl' : l <:+ (final m w).log) (hne : l ≠ (final m w).log) : Stopped E n w l := by
  obtain ⟨-, -, -, hstop⟩ := hm w
  obtain ⟨faults, w', hrun, hlog⟩ := hstop l hl hl' hne
  have hrun' : m (w.setFull faults) = .error plan.fault w' := hrun
  obtain ⟨h', hl'⟩ := (wp_error (hsafe faults) hrun').resolve_left And.left
  have hmoved := (hm (w.setFull faults)).step
  rw [final_error hrun'] at hmoved
  exact ⟨w', h', ⟨hl'.logLe, hl'.rand, hl'.nfil, hl'.cls, hl'.kind⟩,
    ⟨hmoved.log, hmoved.rdh, hmoved.rbr, hmoved.hn, hmoved.rand, hmoved.nfil, hmoved.ref⟩, hlog⟩

end stopped

/-! ### Operations -/

section ops

/-- The operations that flush the root directory. -/
def FsOp.flushes : FsOp → Bool
  | .sync | .refresh _ | .umount => true
  | _ => false

/-- Every operation but those that insert a head node. -/
theorem FsOp.halts (op : FsOp) (hop : op.flushes = false) : Halts (op.run E) := by
  have drop : ∀ {β : Type} {m : M β}, Halts m → Halts (do let _ ← m) := fun hm => hm.bind fun _ => .pure _
  cases op with
  | mknod path mode uname gname => exact drop (halts_changeParent E (fun d e => halts_mknod E d e _ _ _) path)
  | mkdir path mode uname gname => exact drop (halts_changeParent E (fun d e => halts_mkdir E d e _ _ _) path)
  | unlink path => exact drop (halts_changeParent E (fun d e => halts_unlink E d e false) path)
  | rmdir path => exact drop (halts_changeParent E (fun d e => halts_rmdir E d e) path)
  | symlink opath npath => exact drop (halts_changeParent E (fun d e => halts_symlink E d e opath) npath)
  | rename opath npath => exact drop (halts_fsRename E opath npath)
  | link opath npath => exact drop (halts_fsLink E opath npath)
  | chmod path mode =>
      refine drop (halts_changeLeaf E (fun f => ?_) path)
      exact (halts_modifyINode f _).bind fun _ => (halts_setFilDirty f true).bind fun _ => .pure _
  | chown path uname gname =>
      refine drop (halts_changeLeaf E (fun f => ?_) path)
      exact (halts_modifyINode f _).bind fun _ => (halts_setFilDirty f true).bind fun _ => .pure _
  | truncate path size =>
      exact drop (halts_changeLeaf E (fun f => (halts_fileTruncate E f size).bind fun _ => .pure _) path)
  | write path data off => exact drop (halts_changeLeaf E (fun f => halts_fileWrite E f data off) path)
  | utime path atime mtime =>
      exact drop (halts_changeLeaf E (fun f => (halts_modifyINode f _).bind fun _ => .pure _) path)
  | getattr path st => exact drop (halts_readLeaf E (fun f st => halts_getattr f st) path st)
  | readlink path obuf size => exact drop (halts_readLeaf E (fun f buf => halts_readlink size f buf) path obuf)
  | «open» path flags => exact drop (halts_fsOpen E path flags)
  | read path buf size off => exact drop (halts_readLeaf E (fun f buf => halts_readNode E size off f buf) path buf)
  | readdir path off => exact drop (halts_readLeaf E (fun f names => halts_emitEntries f names) path [])
  | access path => exact drop (halts_fsAccess E path)
  | sync => simp [FsOp.flushes] at hop
  | refresh rid => simp [FsOp.flushes] at hop
  | umount => simp [FsOp.flushes] at hop

variable (E) in
/-- A head node has been inserted, unless the root is the last one. -/
def World.headed (w : World) (ref : BlockRef) : World :=
  if ref = w.rbr then w
  else { w with
    ticks := w.ticks + 1
    log := .headInsert w.hn (E.encryptRef ref) :: w.log
    hn := some (E.encryptRef ref)
    rbr := ref }

theorem setRootref_run (ref : BlockRef) (w : World) : setRootref E ref w = .ok () (w.headed E ref) := by
  simp only [setRootref, bind_apply, get_apply, World.headed]
  split <;> rfl

variable (E) in
/-- Flushing a directory and making it the root. -/
def flushTo (d : ℕ) : M Unit := do
  let ref ← bnFlush E d
  setRootref E ref

/-- Flushing a directory and making it the root: the flush stops or raises an exception, or the head node
is inserted at the end. -/
theorem flushTo_cases (h : FsOk E n w) {d : ℕ} (hd : DirMember w d) {r : EStateM.Result Exn World Unit}
    (hrun : flushTo E d w = r) :
    (∃ e w', r = .error e w' ∧ Moved w w') ∨
    ∃ w₁, r = .ok () (w₁.headed E (w₁.fil d).ref) ∧ FsOk E n w₁ ∧ Later w w₁ ∧ Moved w w₁ ∧
      Stored w₁.log (w₁.fil d).ref .inode := by
  have hmoved : Moved w (final (bnFlush E d) w) := (halts_bnFlush E d w).step
  have hsafe := safe_bnFlush h hd.held
  subst hrun
  rw [flushTo, bind_apply]
  cases hflush : bnFlush E d w with
  | error e w' =>
      rw [final_error hflush] at hmoved
      exact .inl ⟨e, w', rfl, hmoved⟩
  | ok ref w₁ =>
      rw [final_ok hflush] at hmoved
      obtain ⟨h₁, hl₁, hc⟩ := wp_ok hsafe hflush
      have hs := (hc.stored h₁ (hd.later hl₁).held.lt).1
      refine .inr ⟨w₁, ?_, h₁, hl₁, hmoved, by rw [← hc.2]; exact hs⟩
      rw [← hc.2]
      exact setRootref_run ref w₁

/-- **Where flushing a directory and making it the root stops.** -/
theorem stopped_flushTo (h : FsOk E n w) {d : ℕ} (hd : DirMember w d) (hl : w.log <:+ l)
    (hl' : l <:+ (final (flushTo E d) w).log) (hne : l ≠ (final (flushTo E d) w).log) : Stopped E n w l := by
  have hstop : l <:+ (final (bnFlush E d) w).log → l ≠ (final (bnFlush E d) w).log → Stopped E n w l :=
    Stopped.of_safe (halts_bnFlush E d)
      (fun full => safe_bnFlush (h.setFull full) ⟨hd.held.lt, hd.held.kind, hd.held.plain⟩) hl
  cases hflush : bnFlush E d w with
  | error e w' =>
      have hend : final (flushTo E d) w = final (bnFlush E d) w := by
        simp only [final, flushTo, bind_apply, hflush]
      rw [hend] at hl' hne
      exact hstop hl' hne
  | ok ref w₁ =>
      have hend : final (flushTo E d) w = w₁.headed E ref := by
        simp only [final, flushTo, bind_apply, hflush, setRootref_run]
      have hmoved : Moved w (final (bnFlush E d) w) := (halts_bnFlush E d w).step
      rw [hend, World.headed] at hl' hne
      rw [final_ok hflush] at hstop hmoved
      obtain ⟨h₁, hl₁, -⟩ := wp_ok (safe_bnFlush h hd.held) hflush
      by_cases hlast : l = w₁.log
      · exact ⟨w₁, h₁, hl₁, hmoved, hlast.symm⟩
      · refine hstop ?_ hlast
        split at hl'
        case isTrue => exact hl'
        case isFalse href =>
          rw [if_neg href] at hne
          exact (List.suffix_cons_iff.1 hl').resolve_left hne

end ops

/-! ### The chain of the head nodes -/

section chain

theorem headLeft_append {l' : List Effect} (h : heads l = []) (r : BlockRef) :
    headLeft r (l ++ l') = headLeft r l' := by
  induction l with
  | nil => rfl
  | cons x l ih =>
      cases x with
      | headInsert prev root => simp [heads] at h
      | _ => exact ih h

theorem atHead_append {l' : List Effect} (h : heads l = []) : atHead (l ++ l') = atHead l' := by
  induction l with
  | nil => rfl
  | cons x l ih =>
      cases x with
      | headInsert prev root => simp [heads] at h
      | _ => exact ih h

theorem Moved.heads_eq (h : Moved w w') : heads w'.log = heads w.log := by
  obtain ⟨l, hl, hh⟩ := h.log
  rw [hl, heads_append, hh, List.nil_append]

theorem Moved.atHead_eq (h : Moved w w') : atHead w'.log = atHead w.log := by
  obtain ⟨l, hl, hh⟩ := h.log
  rw [hl, atHead_append hh]

theorem Moved.headLeft_eq (h : Moved w w') (r : BlockRef) : headLeft r w'.log = headLeft r w.log := by
  obtain ⟨l, hl, hh⟩ := h.log
  rw [hl, headLeft_append hh]

theorem Moved.furthest_eq (h : Moved w w') : headFurthest w'.log = headFurthest w.log := by
  simp only [headFurthest, h.heads_eq, h.headLeft_eq]

theorem Moved.headChain (h : Moved w w') : HeadChain w'.log ↔ HeadChain w.log := by
  obtain ⟨l, hl, hh⟩ := h.log
  rw [hl, headChain_append hh]

/-- A reference with unused random bytes is not in a head node. -/
theorem FsOk.fresh_root (h : FsOk E n w) {r : BlockRef} (hiv : r.iv ∈ w.rand) : E.encryptRef r ∉ heads w.log := by
  intro hmem
  obtain ⟨⟨b, hb⟩, -⟩ := h.store.head _ hmem
  rw [E.decryptRef_encryptRef] at hb
  exact h.blk.disk.fresh r _ hb hiv

theorem Rooted.moved (h : Rooted E w) (hok : FsOk E n w) (hm : Moved w w') : Rooted E w' where
  last := by rw [hm.heads_eq, hm.rbr]; exact h.last
  furthest := by rw [hm.furthest_eq, hm.rbr]; exact h.furthest
  hn := by rw [hm.hn, hm.rbr]; exact h.hn
  edges r hr := by
    rw [hm.headLeft_eq] at hr
    rw [hm.heads_eq]
    exact h.edges r hr
  made := by rw [hm.heads_eq]; exact h.made
  top d hd := by
    rw [hm.rdh] at hd
    rw [hm.heads_eq, hm.rbr]
    rcases hm.ref d (hok.top d hd).held.lt with href | hiv
    · rw [href]
      exact h.top d hd
    · exact .inr (hok.fresh_root hiv)
  chain := hm.headChain.2 h.chain

/-- **The new head node follows the last one**, and becomes the last. -/
theorem Rooted.headed (h : Rooted E w) {d : ℕ} (hd : w.rdh = some d) : Rooted E (w.headed E (w.fil d).ref) := by
  rw [World.headed]
  split
  case isTrue => exact h
  case isFalse hne =>
    have hnew := (h.top d hd).resolve_left hne
    have hlast : E.encryptRef w.rbr ∈ heads w.log := List.mem_of_mem_head? h.last
    have hleft : headLeft (E.encryptRef (w.fil d).ref) w.log = false :=
      Bool.eq_false_iff.2 fun hl => hnew (h.edges _ hl)
    have hfurthest : headFurthest (.headInsert w.hn (E.encryptRef (w.fil d).ref) :: w.log) =
        [E.encryptRef (w.fil d).ref] := by
      have hrest : (heads w.log).filter (fun r => !headLeft r
          (.headInsert w.hn (E.encryptRef (w.fil d).ref) :: w.log)) = [] := by
        rw [List.filter_eq_nil_iff]
        intro r hr
        -- The last one is left now, and the others were left before.
        by_cases hl : headLeft r w.log = true
        · simp [headLeft, hl]
        · have hr' : r ∈ headFurthest w.log := List.mem_filter.2 ⟨hr, by simp [hl]⟩
          rw [h.furthest, List.mem_singleton] at hr'
          simp [headLeft, h.hn, hr']
      have hself : headLeft (E.encryptRef (w.fil d).ref)
          (.headInsert w.hn (E.encryptRef (w.fil d).ref) :: w.log) = false := by
        have hprev : E.encryptRef w.rbr ≠ E.encryptRef (w.fil d).ref := fun heq => hnew (heq ▸ hlast)
        simp [headLeft, hleft, h.hn, hprev]
      simp only [headFurthest, heads, List.filter_cons, hself, hrest, Bool.not_false, if_true]
    refine ⟨rfl, hfurthest, rfl, fun r hr => ?_, fun root hr => ?_, fun d' hd' => .inl ?_,
      h.hn.trans h.last.symm, hnew, h.chain⟩
    · rcases Bool.or_eq_true_iff.1 hr with hr | hr
      · rw [decide_eq_true_eq, h.hn, Option.some.injEq] at hr
        exact List.mem_cons_of_mem _ (by rw [← hr]; exact hlast)
      · exact List.mem_cons_of_mem _ (h.edges r hr)
    · rcases List.mem_cons.1 hr with rfl | hr
      · rw [E.decryptRef_encryptRef]
      · exact h.made root hr
    · obtain rfl : d = d' := Option.some.inj (hd.symm.trans hd')
      rfl

/-- The root directory is let go. -/
theorem Rooted.closed (h : Rooted E w) : Rooted E { w with
    rdh := none, sdh := none, version := none, control := none } :=
  ⟨h.last, h.furthest, h.hn, h.edges, h.made, fun _ hd => by simp at hd, h.chain⟩

/-- The first head node. -/
theorem Rooted.first (hheads : heads w.log = []) (hhn : w.hn = none) (hrbr : w.rbr = .nil) {d : ℕ}
    (hd : w.rdh = some d) (hne : (w.fil d).ref ≠ .nil) : Rooted E (w.headed E (w.fil d).ref) := by
  have hleft : ∀ {log : List Effect}, heads log = [] → ∀ r, headLeft r log = false := by
    intro log hl r
    have hnil : headLeft r (log ++ []) = headLeft r [] := headLeft_append hl r
    rwa [List.append_nil] at hnil
  rw [World.headed, if_neg (by rw [hrbr]; exact hne)]
  refine ⟨rfl, ?_, rfl, fun r hr => ?_, fun root hr => ?_, fun d' hd' => .inl ?_,
    ⟨by rw [hhn, hheads]; rfl, by rw [hheads]; exact List.not_mem_nil, .of_heads hheads⟩⟩
  · simp [headFurthest, heads, hheads, headLeft, hleft hheads, hhn]
  · simp [headLeft, hleft hheads, hhn] at hr
  · have hr' : root ∈ [E.encryptRef (w.fil d).ref] := by
      rw [← hheads]
      exact hr
    rw [List.mem_singleton.1 hr', E.decryptRef_encryptRef]
  · obtain rfl : d = d' := Option.some.inj (hd.symm.trans hd')
    rfl

end chain

/-! ### Histories -/

section histories

/-- What leads from a state of a history to a later one. -/
structure Leads (E : Env) (n : ℕ) (w w' : World) : Prop where
  ok : FsOk E n w'
  rooted : Rooted E w → Rooted E w'
  atHead : LogLe (atHead w.log) w.log → LogLe (atHead w'.log) w'.log

theorem Leads.trans {w'' : World} (h : Leads E n w w') (h' : Leads E n w' w'') : Leads E n w w'' :=
  ⟨h'.ok, fun hr => h'.rooted (h.rooted hr), fun ha => h'.atHead (h.atHead ha)⟩

theorem Leads.of_moved (h : FsOk E n w) (h' : FsOk E n w') (hl : Later w w') (hm : Moved w w') : Leads E n w w' where
  ok := h'
  rooted hr := hr.moved h hm
  atHead hle := by
    rw [hm.atHead_eq]
    exact hle.trans hl.logLe

/-- What an operation does to the store, wherever it is stopped. -/
structure Ran (E : Env) (n : ℕ) (w w' : World) : Prop where
  grows : w.log <:+ w'.log
  leads : Leads E n w w'
  stops : ∀ l, w.log <:+ l → l <:+ w'.log → l ≠ w'.log → ∃ w₁, Leads E n w w₁ ∧ w₁.log = l

/-- The process stops before, at or after the state in between. -/
theorem Ran.trans {w'' : World} (h : Ran E n w w') (h' : Ran E n w' w'') : Ran E n w w'' where
  grows := h.grows.trans h'.grows
  leads := h.leads.trans h'.leads
  stops l hl hl' hne := by
    rcases List.suffix_or_suffix_of_suffix hl' h'.grows with hbefore | hafter
    · by_cases heq : l = w'.log
      · exact ⟨w', h.leads, heq.symm⟩
      · exact h.stops l hl hbefore heq
    · obtain ⟨w₁, hw₁, hlog⟩ := h'.stops l hafter hl' hne
      exact ⟨w₁, h.leads.trans hw₁, hlog⟩

theorem Stopped.leads (h : FsOk E n w) (hs : Stopped E n w l) : ∃ w₁, Leads E n w w₁ ∧ w₁.log = l := by
  obtain ⟨w₁, h₁, hl₁, hm₁, hlog⟩ := hs
  exact ⟨w₁, .of_moved h h₁ hl₁ hm₁, hlog⟩

/-- Nothing is added to the log. -/
theorem Ran.quiet (hl : Leads E n w w') (hlog : w'.log = w.log) : Ran E n w w' where
  grows := by rw [hlog]
  leads := hl
  stops l hl hl' hne := absurd (hl'.eq_of_length_le (by rw [hlog]; exact hl.length_le)) hne

theorem Ran.refl (h : FsOk E n w) : Ran E n w w := .quiet (.of_moved h h (.refl w) (.refl w)) rfl

/-- A part of a refresh; the process stops after any part of what the store is told. -/
theorem Refreshed.ran (hr : Refreshed w w') (h : FsOk E n w) (h' : FsOk E n w') : Ran E n w w' where
  grows := plan.grows hr.moved
  leads := .of_moved h h' hr.later hr.moved
  stops l hl hl' _ := by
    obtain ⟨l₀, hlog, htold⟩ := hr.log
    obtain ⟨l₁, rfl⟩ := hl
    rw [hlog] at hl'
    have hsuffix : l₁ <:+ l₀ := (List.suffix_append_self_iff).1 hl'
    obtain ⟨h₁, hr₁⟩ := h.told (l := l₁) fun x hx => htold x (hsuffix.subset hx)
    exact ⟨w.told l₁, .of_moved h h₁ hr₁.later hr₁.moved, rfl⟩

/-- The store of `w'` is left behind by what an operation does to it. -/
def Ended (E : Env) (n : ℕ) (w w' : World) : Prop :=
  ∃ w₁, Ran E n w w₁ ∧ w₁.log = w'.log

theorem Ended.trans {w'' : World} (h : Ran E n w w') (h' : Ended E n w' w'') : Ended E n w w'' := by
  obtain ⟨w₁, hw₁, hlog⟩ := h'
  exact ⟨w₁, h.trans hw₁, hlog⟩

/-- The process stops before the end, or at the end. -/
theorem Ended.stops (h : Ended E n w w') (hl : w.log <:+ l) (hl' : l <:+ w'.log) :
    ∃ w₁, Leads E n w w₁ ∧ w₁.log = l := by
  obtain ⟨w₁, hw₁, hlog⟩ := h
  rw [← hlog] at hl'
  by_cases heq : l = w₁.log
  · exact ⟨w₁, hw₁.leads, heq.symm⟩
  · exact hw₁.stops l hl hl' heq

/-- **The program is part of an operation**, and does to the store what an operation does, also where it ends
for good. -/
def Runs {α : Type} (E : Env) (n : ℕ) (m : M α) (w : World) : Prop :=
  wp m (fun _ w' => Ran E n w w') (fun e w' => (Fatal e ∧ Ended E n w w') ∨ Ran E n w w') w

variable {α β : Type}

theorem Runs.ended {m : M α} (hm : Runs E n m w) : Ended E n w (final m w) := by
  rw [Runs] at hm
  cases hrun : m w with
  | ok a w' =>
      have hran := wp_ok hm hrun
      rw [final_ok hrun]
      exact ⟨w', hran, rfl⟩
  | error e w' =>
      rw [final_error hrun]
      exact (wp_error hm hrun).elim And.right fun hran => ⟨w', hran, rfl⟩

theorem Runs.ret (h : FsOk E n w) (a : α) : Runs E n (pure a) w := Ran.refl h

theorem Runs.of_run {m : M α} (m' : M α) (hrun : m w = m' w) (hm : Runs E n m' w) : Runs E n m w := by
  rw [Runs, wp, hrun]
  exact hm

theorem Runs.raise (h : FsOk E n w) (e : Exn) : Runs E n (throw e : M α) w := .inr (.refl h)

/-- What has happened before is told too. -/
theorem Runs.later {m : M α} {w₁ : World} (hm : Runs E n m w₁) (hr : Ran E n w w₁) :
    wp m (fun _ w' => Ran E n w w') (fun e w' => (Fatal e ∧ Ended E n w w') ∨ Ran E n w w') w₁ :=
  wp_mono hm (fun _ _ hw => hr.trans hw) fun _ _ hF => hF.imp (And.imp_right (.trans hr)) hr.trans

theorem Runs.bind {m : M α} {f : α → M β} (hm : Runs E n m w)
    (hf : ∀ a w', FsOk E n w' → Runs E n (f a) w') : Runs E n (m >>= f) w := by
  refine wp_seq hm ?_ (fun _ _ hF => hF)
  exact fun a w₁ hr => (hf a w₁ hr.leads.ok).later hr

/-- Exceptions are caught, except those that end the program. -/
theorem Runs.rescue {m : M α} {handler : Exn → M α} (hm : Runs E n m w)
    (hfatal : ∀ e, Fatal e → handler e = throw e) (hf : ∀ e w', FsOk E n w' → Runs E n (handler e) w') :
    Runs E n (tryCatch m handler) w := by
  rw [Runs, wp_tryCatch]
  refine wp_mono hm (fun _ _ hr => hr) ?_
  rintro e w₁ (⟨he, hended⟩ | hr)
  · rw [hfatal e he]
    exact .inl ⟨he, hended⟩
  · exact (hf e w₁ hr.leads.ok).later hr

theorem Runs.of_rereads {m : M α} {Q : α → World → Prop} (h : FsOk E n w) (hm : Rereads E n m Q w) : Runs E n m w :=
  wp_mono hm (fun _ _ ⟨h', hr, _⟩ => hr.ran h h') fun _ _ ⟨h', hr⟩ => .inr (hr.ran h h')

/-- A store that is in order, with nothing in memory. -/
theorem exists_bare {log : List Effect} {rand : List IV} (hd : DiskOk E log rand) (hs : StoreFit E log) (n : ℕ)
    (rbr : BlockRef) (hn : Option BlockRef) :
    ∃ w, FsOk E n w ∧ w.log = log ∧ w.rdh = none ∧ w.rbr = rbr ∧ w.hn = hn := by
  have hzeroed : ∃ w, FsOk E n w ∧ w.log = log ∧ w.rdh = none := by
    clear rbr hn
    induction n with
    | zero => exact ⟨_, .started hd hs [] id, rfl, rfl⟩
    | succ n ih =>
        obtain ⟨w, h, hlog, hrdh⟩ := ih
        exact ⟨w.zeroed n, h.zeroed, hlog, hrdh⟩
  obtain ⟨w, h, hlog, -⟩ := hzeroed
  obtain ⟨h', -⟩ := safe_modify_members h none w.sdh w.version w.control rbr hn (by simp) h.special h.version
    h.control
  exact ⟨_, h', hlog, rfl, rfl, rfl⟩

/-- Where the program ends for good, the store is that of a state in order. -/
theorem StoreLeft.leads (hs : StoreLeft E w w') (h : FsOk E n w) (hm : Moved w w') :
    ∃ w₁, Leads E n w w₁ ∧ w₁.log = w'.log := by
  obtain ⟨w₁, h₁, hlog, hrdh, hrbr, hhn⟩ := exists_bare hs.disk hs.store n w'.rbr w'.hn
  refine ⟨w₁, ⟨h₁, fun hr => ?_, fun hle => ?_⟩, hlog⟩
  · have hr' := hr.moved h hm
    exact ⟨by rw [hlog, hrbr]; exact hr'.last, by rw [hlog, hrbr]; exact hr'.furthest,
      by rw [hhn, hrbr]; exact hr'.hn, by rw [hlog]; exact hr'.edges, by rw [hlog]; exact hr'.made,
      fun d hd => by simp [hrdh] at hd, by rw [hlog]; exact hr'.chain⟩
  · rw [hlog, hm.atHead_eq]
    exact hle.trans hs.logLe

/-- A program that ends for good before a head node is inserted. -/
theorem StoreLeft.ended (hs : StoreLeft E w w') (h : FsOk E n w) (hm : Moved w w')
    (hstops : ∀ l, w.log <:+ l → l <:+ w'.log → l ≠ w'.log → ∃ w₁, Leads E n w w₁ ∧ w₁.log = l) :
    Ended E n w w' := by
  obtain ⟨w₁, hw₁, hlog⟩ := hs.leads h hm
  refine ⟨w₁, ⟨?_, hw₁, ?_⟩, hlog⟩
  · rw [hlog]
    exact plan.grows hm
  · rw [hlog]
    exact hstops

/-- A program that may stop at any put, and keeps the invariant whatever puts find no space. -/
theorem Runs.of_halts {m : M α} {Q : α → World → Prop} (hm : Halts m)
    (hsafe : ∀ w, FsOk E n w → Safe E n m Q w) (h : FsOk E n w) : Runs E n m w := by
  have hstops : ∀ l, w.log <:+ l → l <:+ (final m w).log → l ≠ (final m w).log →
      ∃ w₁, Leads E n w w₁ ∧ w₁.log = l := fun l hle hle' hne =>
    (Stopped.of_safe hm (fun full => hsafe _ (h.setFull full)) hle hle' hne).leads h
  have hmoved : Moved w (final m w) := (hm w).step
  cases hrun : m w with
  | ok a w' =>
      obtain ⟨h', hl', -⟩ := wp_ok (hsafe w h) hrun
      rw [final_ok hrun] at hstops hmoved
      rw [Runs, wp, hrun]
      exact ⟨plan.grows hmoved, .of_moved h h' hl' hmoved, hstops⟩
  | error e w' =>
      rw [final_error hrun] at hstops hmoved
      rw [Runs, wp, hrun]
      rcases wp_error (hsafe w h) hrun with ⟨he, hleft⟩ | ⟨h', hl'⟩
      · exact .inl ⟨he, hleft.ended h hmoved hstops⟩
      · exact .inr ⟨plan.grows hmoved, .of_moved h h' hl' hmoved, hstops⟩

theorem suffix_headed (w : World) (ref : BlockRef) : w.log <:+ (w.headed E ref).log := by
  rw [World.headed]
  split
  · exact List.suffix_refl _
  · exact List.suffix_cons _ _

theorem atHead_headed {ref : BlockRef} (h : LogLe (atHead w.log) w.log) :
    LogLe (atHead (w.headed E ref).log) (w.headed E ref).log := by
  rw [World.headed]
  split
  · exact h
  · exact .refl _

/-- The root directory is flushed and becomes the root. -/
theorem runs_flushTo (h : FsOk E n w) {d : ℕ} (hd : w.rdh = some d) : Runs E n (flushTo E d) w := by
  have hmem := h.top d hd
  have hstop : ∀ l, w.log <:+ l → l <:+ (final (flushTo E d) w).log → l ≠ (final (flushTo E d) w).log →
      ∃ w₁, Leads E n w w₁ ∧ w₁.log = l := fun l hl hl' hne => (stopped_flushTo h hmem hl hl' hne).leads h
  have hsafe := safe_flushTo h hmem
  rcases flushTo_cases h hmem rfl with ⟨e, w₁, hrun, hm⟩ | ⟨w₁, hrun, h₁, hl₁, hm, -⟩
  · rw [final_error hrun] at hstop
    rw [Runs, wp, hrun]
    rcases wp_error hsafe hrun with ⟨he, hleft⟩ | ⟨h', hl'⟩
    · exact .inl ⟨he, hleft.ended h hm hstop⟩
    · exact .inr ⟨plan.grows hm, .of_moved h h' hl' hm, hstop⟩
  · rw [final_ok hrun] at hstop
    rw [Runs, wp, hrun]
    refine ⟨(plan.grows hm).trans (suffix_headed w₁ _), ⟨(wp_ok hsafe hrun).1, fun hr => ?_, fun hle => ?_⟩, hstop⟩
    · exact (hr.moved h hm).headed (by rw [hm.rdh]; exact hd)
    · exact atHead_headed (by rw [hm.atHead_eq]; exact hle.trans hl₁.logLe)

theorem runs_flushRoot (h : FsOk E n w) : Runs E n (flushRoot E) w := by
  cases hd : w.rdh with
  | none =>
      have hnull : flushRoot E w = .error .nullHandle w := by
        simp only [flushRoot, bind_apply, get_apply, hd, member]
        rfl
      rw [Runs, wp, hnull]
      exact .inr (.refl h)
  | some d =>
      refine .of_run (flushTo E d) ?_ (runs_flushTo h hd)
      simp only [flushRoot, bind_apply, get_apply, hd, member]
      rfl

theorem runs_fsSync (h : FsOk E n w) : Runs E n (fsSync E) w := by
  cases hd : w.rdh with
  | none =>
      have hnull : fsSync E w = .error .nullHandle w := by
        simp only [fsSync, bind_apply, get_apply, hd, member]
        rfl
      rw [Runs, wp, hnull]
      exact .inr (.refl h)
  | some d =>
      refine .of_run (if (w.fil d).isdirty then flushRoot E else pure ()) ?_ ?_
      · simp only [fsSync, bind_apply, get_apply, hd, member, pure_apply]
      · split
        · exact runs_flushRoot h
        · exact .ret h ()

theorem runs_fsUmount (h : FsOk E n w) : Runs E n (fsUmount E) w := by
  rw [fsUmount]
  refine (runs_flushRoot h).bind fun _ w₁ h₁ => ?_
  obtain ⟨h₂, -⟩ := safe_modify_members h₁ none none none none w₁.rbr w₁.hn (by simp) (by simp) (by simp) (by simp)
  have hleads : Leads E n w₁ { w₁ with rdh := none, sdh := none, version := none, control := none } :=
    ⟨h₂, fun hr => hr.closed, id⟩
  exact Ran.quiet hleads rfl

/-- A refresh, with a flush before it and one after it. -/
theorem runs_fsRefresh (h : FsOk E n w) (rid : ℕ) : Runs E n (fsRefresh E rid) w := by
  rw [fsRefresh]
  refine ((runs_fsSync h).rescue (fun e he => ?_) fun e w' h' => ?_).bind fun _ w₁ h₁ => ?_
  · cases e <;> first | rfl | exact he.elim
  · cases e <;> first | exact .ret h' () | exact .raise h' _
  refine (Runs.of_rereads h₁ (rereads_tell h₁ (x := .refreshStart rid) rfl)).bind fun _ w₂ h₂ => ?_
  refine (Runs.of_rereads h₂ (rereads_refreshRoot h₂ rid)).bind fun nb w₃ h₃ => ?_
  refine (Runs.of_rereads h₃ (rereads_tell h₃ (x := .refreshFinish rid) rfl)).bind fun _ w₄ h₄ => ?_
  exact (runs_fsSync h₄).bind fun _ w₅ h₅ => .ret h₅ nb

/-- **What an operation does to the store.** -/
theorem FsOp.runs (op : FsOp) (h : FsOk E n w) : Runs E n (op.run E) w := by
  cases hop : op.flushes with
  | false => exact .of_halts (op.halts hop) (fun _ h => op.safe h) h
  | true =>
      cases op with
      | sync => exact runs_fsSync h
      | refresh rid => exact (runs_fsRefresh h rid).bind fun _ _ h' => .ret h' ()
      | umount => exact runs_fsUmount h
      | _ => simp [FsOp.flushes] at hop

theorem FsOp.After.ran {op : FsOp} (ha : op.After E w w') (h : FsOk E n w) : Ran E n w w' := by
  have hruns : wp (op.run E) (fun _ w' => Ran E n w w')
      (fun e w' => (Fatal e ∧ Ended E n w w') ∨ Ran E n w w') w := op.runs h
  rcases ha with hrun | ⟨e, hrun, hne⟩
  · have hran := wp_ok hruns hrun
    exact hran
  · have hran := wp_error hruns hrun
    exact hran.resolve_left fun hF => hne hF.1

end histories

/-! ### Contexts -/

/-- How a context is made. -/
inductive Entry
  | mkfs
  | mount
  deriving DecidableEq

/-- The levels for which there are zero singletons. -/
def Entry.zeros : Entry → ℕ
  | .mkfs => 4
  | .mount => 3

/-- Random bytes that have not been used. -/
structure Unused (log : List Effect) (rand : List IV) : Prop where
  nodup : rand.Nodup
  ne : ∀ iv ∈ rand, iv ≠ fun _ => 0
  fresh : ∀ r x, getBlock r log = some x → r.iv ∉ rand

/-- The program is started on this store. -/
def World.onStore (log : List Effect) (rand : List IV) (full : List Bool) (clock : ℕ → ℕ) : World :=
  { World.boot rand full clock with log := log }

variable (E) in
/-- The process stops in the operation with this in the store, or it ends there with an exception of
`Fatal`. -/
def FsOp.Stops (op : FsOp) (w : World) (l : List Effect) : Prop :=
  w.log <:+ l ∧ l <:+ (final (op.run E) w).log

variable (E) in
/-- The process stops with this in the store: at a point that `w` has behind it, or in the next operation. -/
def World.Stops (w : World) (l : List Effect) : Prop :=
  l <:+ w.log ∨ ∃ op : FsOp, op.Stops E w l

variable (E) in
/-- **The states of a context**, by how it was made.  Random bytes are not used twice.

A mount finds the store as an operation has left it that returned or raised an exception, or as it was at any point
of an operation in which the process stopped.  After an exception of `Fatal` the process has gone, and the next
that happens is a mount. -/
inductive Context : Entry → World → Prop
  | mkfs {w : World} (rand : List IV) (full : List Bool) (clock : ℕ → ℕ) (uname gname : Str) :
      rand.Nodup → (∀ iv ∈ rand, iv ≠ fun _ => 0) →
      fsMkfs E uname gname (World.boot rand full clock) = .ok () w → Context .mkfs w
  | mount {e : Entry} {w w' : World} (rand : List IV) (full : List Bool) (clock : ℕ → ℕ) :
      Context e w → rand.Nodup → (∀ iv ∈ rand, iv ≠ fun _ => 0) →
      (∀ r x, getBlock r w.log = some x → r.iv ∉ rand) →
      fsMount E (w.restarted rand full clock) = .ok () w' → Context .mount w'
  | remount {e : Entry} {w w' : World} {l : List Effect} (op : FsOp) (rand : List IV) (full : List Bool)
      (clock : ℕ → ℕ) :
      Context e w → op.Stops E w l → Unused l rand →
      fsMount E (.onStore l rand full clock) = .ok () w' → Context .mount w'
  | op {e : Entry} {w w' : World} (op : FsOp) : Context e w → op.After E w w' → Context e w'

section contexts

/-- What the store is where the process stops in an operation. -/
theorem FsOp.Stops.leads {op : FsOp} (hs : op.Stops E w l) (h : FsOk E n w) : ∃ w₁, Leads E n w w₁ ∧ w₁.log = l :=
  (op.runs h).ended.stops hs.1 hs.2

/-- **The invariant holds in every context.** -/
theorem Context.fsOk {e : Entry} (h : Context E e w) : FsOk E e.zeros w := by
  induction h with
  | mkfs rand full clock uname gname hnodup hne hrun =>
      exact (FsOk.started (BInv.boot hnodup hne full clock).disk .nil full clock).made hrun
  | mount rand full clock _ hnodup hne hfresh hrun ih =>
      exact ih.mounted hnodup hne hfresh full clock hrun
  | remount op rand full clock _ hstops hunused hrun ih =>
      obtain ⟨w₁, hw₁, rfl⟩ := hstops.leads ih
      exact hw₁.ok.mounted hunused.nodup hunused.ne hunused.fresh full clock hrun
  | op op _ ha ih => exact (ha.fsOk ih).1

/-- The store was like this at some point of a history, and what is reachable from the last head node is
there as it was when that was inserted. -/
def Recovers (E : Env) (l : List Effect) : Prop :=
  ∃ n w, FsOk E n w ∧ w.log = l ∧ (heads l ≠ [] → Rooted E w ∧ LogLe (UTFS.atHead l) l)

theorem newRootDirNode_run (uname gname : Str) (w : World) : ∃ d w', newRootDirNode uname gname w = .ok d w' ∧
    w'.log = w.log ∧ w'.hn = w.hn :=
  ⟨_, _, rfl, rfl, rfl⟩

/-- A new file system has one head node, and none while it is being made. -/
theorem fsMkfs_recovers {rand : List IV} {full : List Bool} {clock : ℕ → ℕ} {uname gname : Str}
    (hnodup : rand.Nodup) (hne : ∀ iv ∈ rand, iv ≠ fun _ => 0)
    (hrun : fsMkfs E uname gname (World.boot rand full clock) = .ok () w) :
    Rooted E w ∧ LogLe (atHead w.log) w.log ∧ ∀ l, l <:+ w.log → Recovers E l := by
  have hboot : FsOk E 0 (World.boot rand full clock) :=
    .started (BInv.boot hnodup hne full clock).disk .nil full clock
  have hok : FsOk E 4 w := hboot.made hrun
  have hz := hboot.zeroed.zeroed.zeroed.zeroed
  generalize hw : ((((World.boot rand full clock).zeroed 0).zeroed 1).zeroed 2).zeroed 3 = z at hz
  have hlog : z.log = [] := by rw [← hw]; rfl
  have hhn : z.hn = none := by rw [← hw]; rfl
  obtain ⟨d, w₁, hroot, hlog₁, hhn₁⟩ := newRootDirNode_run uname gname z
  obtain ⟨h₁, -, hd⟩ := wp_ok (safe_newRootDirNode hz uname gname) hroot
  obtain ⟨h₂, hl₂⟩ := safe_modify_members h₁ (some d) w₁.sdh w₁.version w₁.control .nil w₁.hn
    (fun d' hd' => Option.some.inj hd' ▸ hd) h₁.special h₁.version h₁.control
  have hd₂ := hd.later hl₂
  generalize hw₂ : ({ w₁ with rdh := some d, rbr := .nil } : World) = w₂ at h₂ hl₂ hd₂
  have hlog₂ : w₂.log = [] := by rw [← hw₂]; exact hlog₁.trans hlog
  have hflush : flushTo E d w₂ = .ok () w := by
    rw [← hrun, fsMkfs, bind_newZeroNode, bind_newZeroNode, bind_newZeroNode, bind_newZeroNode]
    rw [hw, bind_apply, hroot, ← hw₂]
    rfl
  obtain ⟨w₃, hw₃, h₃, -, hm, ⟨b, hb⟩⟩ := (flushTo_cases h₂ hd₂ hflush).resolve_left (by simp)
  obtain ⟨-, rfl⟩ := EStateM.Result.ok.inj hw₃
  have hheads : heads w₃.log = [] := by rw [hm.heads_eq, hlog₂]; rfl
  have hrbr : w₃.rbr = .nil := by rw [hm.rbr, ← hw₂]
  have hnil : (w₃.fil d).ref ≠ .nil := by
    intro heq
    rw [heq, h₃.blk.disk.nilFree] at hb
    simp at hb
  have hrooted := Rooted.first (E := E) hheads (by rw [hm.hn, ← hw₂]; exact hhn₁.trans hhn) hrbr (d := d)
    (by rw [hm.rdh, ← hw₂]) hnil
  have hlast : (w₃.headed E (w₃.fil d).ref).log =
      .headInsert w₃.hn (E.encryptRef (w₃.fil d).ref) :: w₃.log := by
    rw [World.headed, if_neg (by rw [hrbr]; exact hnil)]
  have hat : LogLe (atHead (w₃.headed E (w₃.fil d).ref).log) (w₃.headed E (w₃.fil d).ref).log := by
    rw [hlast]
    exact .refl _
  refine ⟨hrooted, hat, fun l hl => ?_⟩
  by_cases heq : l = (w₃.headed E (w₃.fil d).ref).log
  · exact ⟨4, _, hok, heq.symm, fun _ => ⟨hrooted, by rw [heq]; exact hat⟩⟩
  · have hend : final (flushTo E d) w₂ = w₃.headed E (w₃.fil d).ref := final_ok hflush
    obtain ⟨w₄, h₄, -, hm₄, rfl⟩ : Stopped E _ w₂ l :=
      stopped_flushTo h₂ hd₂ (by rw [hlog₂]; exact List.nil_suffix) (by rw [hend]; exact hl) (by rw [hend]; exact heq)
    refine ⟨4, w₄, h₄, rfl, fun hne => absurd ?_ hne⟩
    rw [hm₄.heads_eq, hlog₂]
    rfl

/-- A mount finds the last root. -/
theorem Mounted.of_mount (h : FsOk E n w) (hr : Rooted E w) {rand : List IV} (hrand : Unused w.log rand)
    {full : List Bool} {clock : ℕ → ℕ} (hrun : fsMount E (.onStore w.log rand full clock) = .ok () w') :
    Mounted E w.log (E.encryptRef w.rbr) w' := by
  obtain ⟨-, x, hx, -⟩ := h.root_decodes hr.furthest
  have hm := wp_ok (wp_fsMount h hrand.nodup hrand.ne hrand.fresh full clock hr.furthest hx) hrun
  exact hm

/-- Mounting changes nothing in the store. -/
theorem Mounted.rooted (h : Mounted E w.log (E.encryptRef w.rbr) w') (hr : Rooted E w) : Rooted E w' := by
  have hrbr : w'.rbr = w.rbr := by rw [h.rbr, E.decryptRef_encryptRef]
  obtain ⟨d, hd, href, -⟩ := h.top
  refine ⟨by rw [h.log, hrbr]; exact hr.last, by rw [h.log, hrbr]; exact hr.furthest, by rw [h.hn, hrbr],
    by rw [h.log]; exact hr.edges, by rw [h.log]; exact hr.made, fun d' hd' => .inl ?_,
    by rw [h.log]; exact hr.chain⟩
  obtain rfl : d = d' := Option.some.inj (hd.symm.trans hd')
  rw [href, h.rbr]

/-- A history goes on to any point of an operation. -/
theorem Ended.recovers (h : Ended E n w w') (hr : Rooted E w) (hat : LogLe (atHead w.log) w.log)
    (hall : ∀ l, l <:+ w.log → Recovers E l) (hgrows : w.log <:+ w'.log) (hl : l <:+ w'.log) : Recovers E l := by
  rcases List.suffix_or_suffix_of_suffix hl hgrows with hbefore | hafter
  · exact hall l hbefore
  · obtain ⟨w₁, hw₁, rfl⟩ := h.stops hafter hl
    exact ⟨n, w₁, hw₁.ok, rfl, fun _ => ⟨hw₁.rooted hr, hw₁.atHead hat⟩⟩

/-- The store holds a file system at every point of a history. -/
theorem Context.recovers {e : Entry} (h : Context E e w) :
    Rooted E w ∧ LogLe (atHead w.log) w.log ∧ ∀ l, l <:+ w.log → Recovers E l := by
  induction h with
  | mkfs rand full clock uname gname hnodup hne hrun => exact fsMkfs_recovers hnodup hne hrun
  | mount rand full clock hctx hnodup hne hfresh hrun ih =>
      obtain ⟨hr, hat, hall⟩ := ih
      have hm := Mounted.of_mount hctx.fsOk hr ⟨hnodup, hne, hfresh⟩ hrun
      exact ⟨hm.rooted hr, by rw [hm.log]; exact hat, by rw [hm.log]; exact hall⟩
  | remount op rand full clock hctx hstops hunused hrun ih =>
      obtain ⟨hr, hat, hall⟩ := ih
      obtain ⟨w₁, hw₁, rfl⟩ := hstops.leads hctx.fsOk
      have hm := Mounted.of_mount hw₁.ok (hw₁.rooted hr) hunused hrun
      refine ⟨hm.rooted (hw₁.rooted hr), by rw [hm.log]; exact hw₁.atHead hat, fun l hl => ?_⟩
      rw [hm.log] at hl
      exact (op.runs hctx.fsOk).ended.recovers hr hat hall (hstops.1.trans hstops.2) (hl.trans hstops.2)
  | op op hctx ha ih =>
      obtain ⟨hr, hat, hall⟩ := ih
      have hran := ha.ran hctx.fsOk
      exact ⟨hran.leads.rooted hr, hran.leads.atHead hat, fun l hl =>
        Ended.recovers ⟨_, hran, rfl⟩ hr hat hall hran.grows hl⟩

/-- Whatever the store has been before. -/
theorem World.Stops.suffix {l' : List Effect} (hs : w.Stops E l) (hl : l' <:+ l) : w.Stops E l' := by
  rcases hs with hl₁ | ⟨op, hop, hend⟩
  · exact .inl (hl.trans hl₁)
  · rcases List.suffix_or_suffix_of_suffix hl hop with hbefore | hafter
    · exact .inl hbefore
    · exact .inr ⟨op, hafter, hl.trans hend⟩

/-- **The store holds a file system wherever the process stops.** -/
theorem Context.recovers_of_stops {e : Entry} (h : Context E e w) (hs : w.Stops E l) : Recovers E l := by
  obtain ⟨hr, hat, hall⟩ := h.recovers
  rcases hs with hl | ⟨op, hop, hend⟩
  · exact hall l hl
  · exact (op.runs h.fsOk).ended.recovers hr hat hall (hop.trans hend) hend

end contexts

end UTFS

end Utopfs
