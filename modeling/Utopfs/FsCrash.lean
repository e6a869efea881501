/-
**What is in the block store when the process stops.**

Blocks are put after the blocks they refer to, and the head node is inserted after the blocks of its root.
So wherever the process stops, the references in the store lead to blocks, and the root that a mount finds
is the one of the last head node, with all its tree.  What was put since then is not reachable, and what
was put before has not changed.

Main definitions:

* `UTFS.Closed` — the references in the store lead to blocks.

Main results:

* `UTFS.Context.closed_of_suffix` — **the store is closed wherever the process stops**;
* `UTFS.Context.headFurthest_eq` — **there is one head node to mount**, the last one;
* `UTFS.Context.crash_consistent` — **what a mount shows wherever the process stops**.
-/

import Utopfs.Holes

set_option relaxedAutoImplicit false
set_option autoImplicit false

namespace Utopfs

namespace UTFS

open Prog

variable (E : Env)

/-! ### The store -/

/-- Every reference that is stored leads to a block of the kind that the code takes it for. -/
structure Closed (log : List Effect) : Prop where
  head : ∀ root ∈ heads log, Stored log (E.decryptRef root) .inode ∧ storedIsDir E log (E.decryptRef root) = true
  dir : ∀ r d, Stored log r .inode → storedDir E log r = some d → ∀ e ∈ d, e.2 ≠ .nil → Stored log e.2 .inode
  file : ∀ r b, getBlock r log = some (b, .inode) → ∀ s, unpackRef (E.decrypt r.iv b) s ≠ .nil →
    Stored log (unpackRef (E.decrypt r.iv b) s) (.blk s.level)
  sub : ∀ r b level, getBlock r log = some (b, .blk (level + 1)) → ∀ i, unpackRefs (E.decrypt r.iv b) i ≠ .nil →
    Stored log (unpackRefs (E.decrypt r.iv b) i) (.blk level)

variable {E} {n : ℕ} {w : World} {l : List Effect}

theorem FsOk.closed (h : FsOk E n w) : Closed E w.log where
  head := h.store.head
  dir r d hs hd e he hne := by
    obtain ⟨x, hx, hx'⟩ := Option.bind_eq_some_iff.1 hd
    split at hx'
    case isTrue hm =>
      obtain ⟨-, d', hd', hrefs⟩ := h.store.dir r x hs hx hm
      rw [hd] at hd'
      obtain rfl := Option.some.inj hd'
      exact hrefs e he hne
    case isFalse => simp at hx'
  file := h.blk.disk.fileRefs
  sub := h.blk.disk.subRefs
/-! ### Wherever the process stops -/

section stopping

variable {e : Entry}

theorem Rooted.heads_ne (h : Rooted E w) : heads w.log ≠ [] := by
  intro hnone
  have hlast := h.last
  simp [hnone] at hlast

/-- **The store is closed wherever the process stops.** -/
theorem Context.closed_of_suffix (h : Context E e w) (hl : w.Stops E l) : Closed E l := by
  obtain ⟨n, w₁, h₁, rfl, -⟩ := h.recovers_of_stops hl
  exact h₁.closed

/-- A store of which the last effect is taken back. -/
theorem closed_of_suffix_sample : ∃ w, Context .sample .mount w ∧ heads w.log ≠ [] ∧ Closed .sample w.log.tail := by
  obtain ⟨w, h, -⟩ := exists_holeRun
  exact ⟨w, h, h.recovers.1.heads_ne, h.closed_of_suffix (.inl (List.tail_suffix _))⟩

/-- A file is made, the process stops in `fs_sync` as the head node is to be inserted, and the file system is mounted
again.  Something has been put in `fs_sync`. -/
def stopRun : M Bool := do
  fsMkfs .sample [] []
  FsOp.run .sample (.mknod (Str.ofText "/f") 0o644 [] [])
  let w ← get
  modify fun w => .onStore (final (FsOp.run .sample .sync) w).log.tail [] [] id
  fsMount .sample
  return decide (w.log.length < (final (FsOp.run .sample .sync) w).log.length)

/-- The context that is mounted then has blocks in the store that no head node leads to. -/
example : ∃ w, Context .sample .mount w ∧ (heads w.log).length = 1 ∧ (atHead w.log).length < w.log.length := by
  obtain ⟨put, w, hrun, hw⟩ := exists_of_passes (m := stopRun)
    (q := fun put w => put && decide ((heads w.log).length = 1 ∧ (atHead w.log).length < w.log.length))
    (s := .boot Env.sampleRand [] id) (by decide +kernel)
  obtain ⟨⟨⟩, w₁, h₁, h₀⟩ := ok_of_bind hrun
  obtain ⟨⟨⟩, w₂, h₂, h₀⟩ := ok_of_bind h₀
  rw [bind_apply, get_apply] at h₀
  obtain ⟨⟨⟩, w₃, h₃, h₀⟩ := ok_of_bind h₀
  obtain ⟨⟨⟩, w₄, h₄, h₅⟩ := ok_of_bind h₀
  obtain ⟨rfl, rfl⟩ := EStateM.Result.ok.inj h₅
  obtain rfl : World.onStore _ [] [] id = w₃ := by injection h₃
  rw [Bool.and_eq_true, decide_eq_true_eq, decide_eq_true_eq] at hw
  have hmade : Context .sample .mkfs w₂ :=
    .op _ (.mkfs Env.sampleRand [] id [] [] Env.sampleRand_nodup Env.sampleRand_ne h₁) (.inl h₂)
  have hgrows : w₂.log <:+ (final (FsOp.run .sample .sync) w₂).log.tail := by
    obtain ⟨w', hw', hlog⟩ := (FsOp.runs .sync hmade.fsOk).ended
    have hgrows := hw'.grows
    rw [hlog] at hgrows
    cases hend : (final (FsOp.run .sample .sync) w₂).log with
    | nil => simp [hend] at hw
    | cons x l =>
        rw [hend] at hgrows hw
        refine (List.suffix_cons_iff.1 hgrows).resolve_left fun heq => ?_
        rw [heq] at hw
        exact absurd hw.1 (Nat.lt_irrefl _)
  exact ⟨w₄, .remount .sync [] [] id hmade ⟨hgrows, List.tail_suffix _⟩ ⟨List.nodup_nil, by simp, by simp⟩ h₄, hw.2⟩

theorem atHead_suffix (l : List Effect) : atHead l <:+ l := by
  induction l with
  | nil => exact List.suffix_refl _
  | cons x l ih =>
      cases x with
      | headInsert prev root => exact List.suffix_refl _
      | _ => exact ih.trans (List.suffix_cons _ _)

theorem heads_atHead (l : List Effect) : heads (atHead l) = heads l := by
  induction l with
  | nil => rfl
  | cons x l ih =>
      cases x with
      | headInsert prev root => rfl
      | _ => exact ih

/-- **There is one head node to mount wherever the process stops**: the one that was inserted last.  The search
of the head graph from the node without a reference finds it too, in whatever order the edges of the store have
come into the graph. -/
theorem Context.headFurthest_eq (h : Context E e w) (hl : w.Stops E l) (hh : heads l ≠ []) (fstag : Str) :
    headFurthest l = (heads l).head?.toList ∧
    ∀ es : List Head.HeadEdge, (∀ edge, edge ∈ es ↔ edge ∈ headEdges fstag l) →
      Head.headFurthest (Head.inserted es) ⟨fstag, []⟩ =
        .ok ((headFurthest l).map fun r => ⟨fstag, r.bytes⟩) := by
  obtain ⟨n, w₁, -, rfl, hr⟩ := h.recovers_of_stops hl
  obtain ⟨hr, -⟩ := hr hh
  have hone : headFurthest w₁.log = (heads w₁.log).head?.toList := by
    rw [hr.furthest, hr.last]
    rfl
  exact ⟨hone, fun es hes => by rw [hone]; exact hr.chain.headFurthest hes⟩

/-- The second head node of a run is its last effect, and blocks have been put between the two. -/
theorem exists_twoHeads : ∃ w, Context .sample .mount w ∧ (heads w.log).length = 2 ∧
    (heads w.log.tail).length = 1 ∧ headFurthest w.log ≠ headFurthest w.log.tail ∧
    (atHead w.log.tail).length < w.log.tail.length := by
  obtain ⟨⟨⟩, w, hrun, hw⟩ := exists_of_passes (m := holeRun)
    (q := fun _ w => decide ((heads w.log).length = 2 ∧ (heads w.log.tail).length = 1 ∧
      headFurthest w.log ≠ headFurthest w.log.tail ∧ (atHead w.log.tail).length < w.log.tail.length))
    (s := .boot Env.sampleRand [] id) (by decide +kernel)
  exact ⟨w, context_of_holeRun hrun, of_decide_eq_true hw⟩

/-- The process stops before or after the second of two head nodes is inserted. -/
theorem headFurthest_eq_sample : ∃ w, Context .sample .mount w ∧ headFurthest w.log ≠ headFurthest w.log.tail ∧
    ∀ l ∈ [w.log, w.log.tail], headFurthest l = (heads l).head?.toList ∧
      Head.headFurthest (Head.inserted (headEdges [1] l)) ⟨[1], []⟩ =
        .ok ((headFurthest l).map fun r => ⟨[1], r.bytes⟩) := by
  obtain ⟨w, h, hw, htail, hne, -⟩ := exists_twoHeads
  have hheads : ∀ l ∈ [w.log, w.log.tail], l <:+ w.log ∧ heads l ≠ [] := by
    intro l hl
    rcases List.mem_pair.1 hl with rfl | rfl
    · exact ⟨List.suffix_refl _, List.ne_nil_of_length_pos (by omega)⟩
    · exact ⟨List.tail_suffix _, List.ne_nil_of_length_pos (by omega)⟩
  refine ⟨w, h, hne, fun l hl => ?_⟩
  obtain ⟨hsuffix, hh⟩ := hheads l hl
  obtain ⟨hone, hsearch⟩ := h.headFurthest_eq (.inl hsuffix) hh [1]
  exact ⟨hone, hsearch _ fun _ => Iff.rfl⟩

variable (E) in
/-- The root directory of the store has this size. -/
def RootSize (log : List Effect) (size : ℕ) : Prop :=
  ∃ root x, headFurthest log = [root] ∧ decodeFile E log (E.decryptRef root) = some x ∧ x.inode.size = size

/-- Mounting what some context left in the store, with this root. -/
theorem FsOk.mounts (h : FsOk E n w) {root : BlockRef} (hf : headFurthest w.log = [root]) {rand : List IV}
    (hrand : Unused w.log rand) (full : List Bool) (clock : ℕ → ℕ) :
    (∃ w', fsMount E (.onStore w.log rand full clock) = .ok () w' ∧ Mounted E w.log root w') ∨
    ∃ w' size, fsMount E (.onStore w.log rand full clock) = .error .nullHandle w' ∧ RootSize E w.log size ∧
      539136000 < size := by
  obtain ⟨-, x, hx, -⟩ := h.root_decodes hf
  have hwp := wp_fsMount h hrand.nodup hrand.ne hrand.fresh full clock hf hx
  change wp (fsMount E) _ _ (.onStore w.log rand full clock) at hwp
  cases hrun : fsMount E (.onStore w.log rand full clock) with
  | ok u w' =>
      have hm := wp_ok hwp hrun
      exact .inl ⟨w', rfl, hm⟩
  | error ex w' =>
      obtain ⟨rfl, s, hbase, hlevel⟩ := wp_error hwp hrun
      refine .inr ⟨w', _, rfl, ⟨root, x, hf, hx, rfl⟩, ?_⟩
      -- Only the triple indirect block has the level for which there is no singleton.
      cases s with
      | tin => exact hbase
      | dir i => simp [FSlot.level] at hlevel
      | sin => simp [FSlot.level] at hlevel
      | din => simp [FSlot.level] at hlevel

/-- **Crash consistency.**  Wherever the process stops after the first head node has been inserted, a mount
shows exactly what a mount as the last head node was inserted shows, unless the root directory is too large
to be read. -/
theorem Context.crash_consistent (h : Context E e w) (hl : w.Stops E l) (hh : heads l ≠ [])
    {rand rand' : List IV} (hrand : Unused l rand) (hrand' : Unused (atHead l) rand') (full full' : List Bool)
    (clock clock' : ℕ → ℕ) :
    (∃ w₁ w₂, fsMount E (.onStore l rand full clock) = .ok () w₁ ∧
      fsMount E (.onStore (atHead l) rand' full' clock') = .ok () w₂ ∧
      ∀ entry rest, entry ≠ specialDir → w₁.pathView E entry rest = w₂.pathView E entry rest) ∨
    ∃ size, RootSize E l size ∧ 539136000 < size := by
  obtain ⟨n, v, hv, rfl, hr⟩ := h.recovers_of_stops hl
  obtain ⟨n₀, v₀, hv₀, hlog₀, hr₀⟩ := h.recovers_of_stops (hl.suffix (atHead_suffix _))
  obtain ⟨hr, hle⟩ := hr hh
  obtain ⟨hr₀, -⟩ := hr₀ (by rw [heads_atHead]; exact hh)
  -- Both have the same root.
  have hroot : E.encryptRef v₀.rbr = E.encryptRef v.rbr := by
    have := hr₀.last
    rw [hlog₀, heads_atHead, hr.last] at this
    exact (Option.some.inj this).symm
  have hf₀ : headFurthest (atHead v.log) = [E.encryptRef v.rbr] := by
    rw [← hlog₀, hr₀.furthest, hroot]
  have hs₀ := (hv₀.root_decodes (by rw [hlog₀]; exact hf₀)).1
  rw [hlog₀] at hs₀
  rw [← hlog₀] at hrand' hf₀
  obtain ⟨w₁, hw₁, hm₁⟩ | ⟨-, size, -, hbig⟩ := hv.mounts hr.furthest hrand full clock
  · obtain ⟨w₂, hw₂, hm₂⟩ | ⟨-, size, -, ⟨root, x, hf, hx, hsize⟩, hbig⟩ := hv₀.mounts hf₀ hrand' full' clock'
    · rw [hlog₀] at hw₂ hm₂
      refine .inl ⟨w₁, w₂, hw₁, hw₂, fun entry rest hentry => ?_⟩
      rw [hm₁.pathView hentry, hm₂.pathView hentry]
      have hd₀ := hv₀.blk.disk
      have hst₀ := hv₀.store
      rw [hlog₀] at hd₀ hst₀
      exact storedView_mono hd₀ hst₀ hle hv.blk.disk.nilFree hs₀ _
    · obtain rfl : E.encryptRef v.rbr = root := List.singleton_inj.1 (hf₀.symm.trans hf)
      refine .inr ⟨size, ⟨_, x, hr.furthest, ?_, hsize⟩, hbig⟩
      rw [hlog₀] at hx
      rw [hle.decodeFile hs₀]
      exact hx
  · exact .inr ⟨size, hbig⟩

/-- The process stops before the second head node is inserted, with blocks in the store that no head node leads
to: what is mounted is the file system of the first one. -/
theorem crash_consistent_sample : ∃ w, Context .sample .mount w ∧ heads w.log.tail ≠ [] ∧
    (atHead w.log.tail).length < w.log.tail.length ∧ headFurthest w.log ≠ headFurthest w.log.tail ∧
    ((∃ w₁ w₂, fsMount .sample (.onStore w.log.tail [] [] id) = .ok () w₁ ∧
      fsMount .sample (.onStore (atHead w.log.tail) [] [] id) = .ok () w₂ ∧
      ∀ entry rest, entry ≠ specialDir → w₁.pathView .sample entry rest = w₂.pathView .sample entry rest) ∨
    ∃ size, RootSize .sample w.log.tail size ∧ 539136000 < size) := by
  obtain ⟨w, h, -, htail, hne, hlt⟩ := exists_twoHeads
  have hh : heads w.log.tail ≠ [] := List.ne_nil_of_length_pos (by omega)
  have hunused : ∀ l, Unused l [] := fun l => ⟨List.nodup_nil, by simp, by simp⟩
  exact ⟨w, h, hh, hlt, hne,
    h.crash_consistent (.inl (List.tail_suffix _)) hh (hunused _) (hunused _) [] [] id id⟩

end stopping

end UTFS

end Utopfs
