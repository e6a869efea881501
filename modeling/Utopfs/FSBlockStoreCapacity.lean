/-
**The capacity of the directory block store.**

A put asks for room twice.  First it compares the data with what is available, the size of the store
without the committed bytes other than those of the old copy; if that is too little the put is turned
away.  Then it purges from the old end of the LRU list until the two counters and the data fit.  Both
times the store trusts its counters, and it asks the old copy's time stamp on which side of the
`MARK` it is.

The counters go wrong in the ways that `Utopfs.FSBlockStoreSpace` names, and then the store takes more
than its size: an overwritten block of another size is counted at the end of a cycle with the size it
was made with (`FSBS.not_capacity_after_overwrite`).

Main definitions:

* `FSBS.LifeWith` — the states of a store over its life, all of whose steps meet a condition;
* `FSBS.FSBlockStore.committedBut` — the committed bytes other than those of a key's old copy;
* `FSBS.PutFits` — what the store owes a put;
* `FSBS.CapacityInv` — the invariant: the two counters add up to the stored bytes, and these are
  within the size of the store.

Main results:

* `FSBS.purgeLoop_ends`, `FSBS.purgeLoop_succeeds` — the purge loop ends with room for the block, and
  raises nothing while it stays behind the mark;
* `FSBS.capacityInv_life` — the invariant over the life of a store;
* `FSBS.putFits_of_tallies` — the store keeps within its size.
-/

import Mathlib.Algebra.Order.BigOperators.Group.Finset
import Mathlib.Tactic
import Utopfs.FSBlockStoreReopen

set_option relaxedAutoImplicit false
set_option autoImplicit false

namespace Utopfs

namespace FSBS

open Prog

/-! ### What the store owes a put -/

/-- The states of a store over its life, with the time of the last step: it is created, it takes steps
that meet the condition `P` on the state before the step and the operation, and it is closed and
opened again.  Time does not run backwards. -/
inductive LifeWith (P : FSBlockStore Key → Op Key → Prop) (size : ℕ) :
    FSBlockStore Key → ℕ → Prop
  | create : LifeWith P size (bsCreate size) 0
  | step {s : FSBlockStore Key} {t : ℕ} (now : ℕ) (op : Op Key) :
      LifeWith P size s t → t ≤ now → P s op → LifeWith P size (stepEvent now op s).2 now
  | reopen {s s' : FSBlockStore Key} {t : ℕ} (dir : List (Name Key)) :
      LifeWith P size s t → Listing s.files dir → bsOpen size s.files dir = .ok s' →
      LifeWith P size s' t

/-- All lives. -/
abbrev Life (size : ℕ) : FSBlockStore Key → ℕ → Prop := LifeWith (fun _ _ => True) size

/-- The bytes of the committed blocks other than the old copy of `k`. -/
def FSBlockStore.committedBut (s : FSBlockStore Key) (k : Key) : ℕ :=
  (((inFront s.names .mark).filter fun n => n ≠ .block k).map s.blockBytes).sum

/-- **What the store owes a put** at time `now`: the files of its blocks are within its size; the put
is turned away exactly if the data are larger than the size without the committed blocks other than
the old copy, and then nothing changes; otherwise the purge loop ends, with room for the block, and
the block is stored. -/
structure PutFits (s : FSBlockStore Key) (now : ℕ) (k : Key) (data : List UInt8) : Prop where
  total : ∀ ks : List Key, ks.Nodup → ((ks.map s.prevsize).sum : ℤ) ≤ s.size
  noSpace : (∃ what s', bsBlockPut now k data s = .error (.noSpaceError what) s') ↔
    s.size - s.committedBut k < data.length
  unchanged : ∀ what s', bsBlockPut now k data s = .error (.noSpaceError what) s' → s' = s
  purged : data.length ≤ s.size - s.committedBut k →
    ∃ s', purgeLoop (s.prevcommitted k) data.length (s.lru.length + 1) s = .ok () s' ∧
      s'.excess (s.prevcommitted k) data.length ≤ 0
  stored : data.length ≤ s.size - s.committedBut k →
    ∃ s', bsBlockPut now k data s = .ok () s' ∧ s'.files (.block k) = some ⟨data, now⟩

/-! ### The stored bytes -/

/-- The bytes of the files of the list. -/
def FSBlockStore.stored (s : FSBlockStore Key) : ℕ := (s.names.map (sizeOf s.files)).sum

/-- Taking an element out of a list without repetitions takes its share out of a sum. -/
theorem sum_filter_ne {α : Type} [DecidableEq α] {L : List α} (hnd : L.Nodup) {a : α} {g : α → ℕ}
    (ha : a ∉ L → g a = 0) : ((L.filter fun x => x ≠ a).map g).sum + g a = (L.map g).sum := by
  induction L with
  | nil => simpa using ha
  | cons x L ih =>
      obtain ⟨hx, hnd⟩ := List.nodup_cons.1 hnd
      by_cases hxa : x = a
      · subst hxa
        have hrest : L.filter (fun y => decide (y ≠ x)) = L := by
          refine List.filter_eq_self.2 fun y hy => ?_
          simpa using fun hyx : y = x => hx (hyx ▸ hy)
        rw [List.filter_cons_of_neg (by simp), hrest, List.map_cons, List.sum_cons, Nat.add_comm]
      · have := ih hnd fun hL => ha (by simp [Ne.symm hxa, hL])
        rw [List.filter_cons_of_pos (by simpa using hxa), List.map_cons, List.map_cons, List.sum_cons,
          List.sum_cons]
        omega

theorem sizeOf_eq_zero {files : Name Key → Option File} {n : Name Key} (h : files n = none) :
    sizeOf files n = 0 := by
  simp [sizeOf, h]

theorem prevsize_eq (s : FSBlockStore Key) (k : Key) :
    s.prevsize k = sizeOf s.files (.block k) := by
  unfold FSBlockStore.prevsize FSBS.sizeOf
  cases s.files (.block k) <;> rfl

/-- The files of any keys are among those of the list. -/
theorem sum_prevsize_le {s : FSBlockStore Key} (hfile : ∀ n, s.files n ≠ none → n ∈ s.names)
    (hnd : s.names.Nodup) {ks : List Key} (hks : ks.Nodup) :
    (ks.map s.prevsize).sum ≤ s.stored := by
  have hblocks : (ks.map Name.block).Nodup := hks.map fun _ _ h => by simpa using h
  have hsum : (ks.map s.prevsize).sum = ((ks.map Name.block).map (sizeOf s.files)).sum := by
    rw [List.map_map]
    exact congrArg List.sum (List.map_congr_left fun k _ => prevsize_eq s k)
  rw [hsum, FSBlockStore.stored, ← List.sum_toFinset _ hblocks, ← List.sum_toFinset _ hnd]
  refine Finset.sum_le_sum_of_ne_zero fun n _ hn => ?_
  exact List.mem_toFinset.2 (hfile n fun hnone => hn (sizeOf_eq_zero hnone))

/-- The stored bytes are the recorded ones. -/
theorem SpaceInv.stored_eq {s : FSBlockStore Key} (hi : SpaceInv s) :
    s.stored = (s.recs.map Prod.snd).sum := by
  rw [FSBlockStore.stored, ← recs_names, List.map_map]
  refine congrArg List.sum (List.map_congr_left fun r hr => ?_)
  obtain ⟨f, hf, hz⟩ := hi.sizes r hr
  exact (sizeOf_eq hf).trans hz.symm

/-- The two sums make up the whole, if the mark has no bytes. -/
theorem sums_total {L : List (Name Key × ℕ)} (h : ∀ r ∈ L, r.1 = .mark → r.2 = 0) :
    (sums L).1 + (sums L).2 = (L.map Prod.snd).sum := by
  induction L with
  | nil => rfl
  | cons r L ih =>
      have ih := ih fun r' hr' => h r' (List.mem_cons_of_mem _ hr')
      by_cases hrm : r.1 = .mark
      · rw [sums_cons_mark L hrm, List.map_cons, List.sum_cons, h r List.mem_cons_self hrm]
      · rw [sums_cons L hrm, List.map_cons, List.sum_cons, ← ih, Nat.add_assoc]

/-- Counters that are the sums over the list add up to the stored bytes. -/
theorem SpaceInv.counters {s : FSBlockStore Key} (hi : SpaceInv s) (hc : s.Counted) :
    s.committed + s.uncommitted = s.stored := by
  obtain ⟨hc, hu⟩ := (counted_iff s).1 hc
  have hmark : ∀ r ∈ s.recs, r.1 = .mark → r.2 = 0 := by
    intro r hr hrm
    obtain ⟨f, hf, hz⟩ := hi.sizes r hr
    rw [hz, hi.tokens r.1 f hf (by simp [hrm]), List.length_nil]
  rw [hc, hu, hi.stored_eq, ← sums_total hmark]
  push_cast
  rfl

/-- What a touch adds to the stored bytes: the new file in place of the old one. -/
theorem Touched.stored {s s₁ s' : FSBlockStore Key} {n : Name Key} {f : File} (ht : Touched n s₁ s')
    (hs : SameIndex s s₁) (hfiles : s₁.files = Function.update s.files n (some f))
    (hnd : s.names.Nodup) (hfile : ∀ n, s.files n ≠ none → n ∈ s.names) :
    s'.stored + sizeOf s.files n = s.stored + f.data.length := by
  have hnew : sizeOf s'.files n = f.data.length := by
    rw [ht.files, hfiles]
    exact sizeOf_eq (Function.update_self ..)
  have hold : ∀ m ∈ s.names.filter fun m => m ≠ n, sizeOf s'.files m = sizeOf s.files m := by
    intro m hm
    have hmn : m ≠ n := by simpa using (List.mem_filter.1 hm).2
    simp only [sizeOf, ht.files, hfiles, Function.update_of_ne hmn]
  have hout : n ∉ s.names → sizeOf s.files n = 0 := fun hn =>
    sizeOf_eq_zero (not_not.1 fun hf => hn (hfile n hf))
  have hsum := sum_filter_ne hnd hout
  rw [FSBlockStore.stored, ht.names, hs.names, List.map_cons, List.sum_cons, hnew,
    List.map_congr_left hold]
  simp only [FSBlockStore.stored]
  omega

/-! ### The purge loop ends, and succeeds -/

/-- A purge takes a node out of the list. -/
theorem purgeUncommitted_shorter (s : FSBlockStore Key) :
    wp purgeUncommitted (fun _ s' => s'.lru.length < s.lru.length) (fun _ _ => True) s := by
  simp only [purgeUncommitted, wp_bind, wp_get]
  cases hy : s.lru.getLast? with
  | none => trivial
  | some y =>
      cases s.mark with
      | none => trivial
      | some m =>
          have hne : s.lru ≠ [] := by
            rintro hnil
            simp [hnil] at hy
          have hlen : s.lru.dropLast.length < s.lru.length := by
            rw [List.length_dropLast]
            exact Nat.sub_lt (List.length_pos_of_ne_nil hne) Nat.one_pos
          simp only
          split
          · trivial
          · simp only [wp_bind, wp_set]
            split
            · trivial
            · exact hlen

/-- **The purge loop ends**: an end without an exception is one with room for the block. -/
theorem purgeLoop_ends (prevcommitted : ℤ) (blksize : ℕ) :
    ∀ (fuel : ℕ) (s : FSBlockStore Key), s.lru.length < fuel →
      wp (purgeLoop prevcommitted blksize fuel) (fun _ s' => s'.excess prevcommitted blksize ≤ 0)
        (fun _ _ => True) s := by
  intro fuel
  induction fuel with
  | zero => exact fun s h => absurd h (Nat.not_lt_zero _)
  | succ fuel ih =>
      intro s hlen
      simp only [purgeLoop, wp_bind, wp_get]
      split
      case isFalse hpos => exact not_lt.1 hpos
      case isTrue =>
        refine wp_seq (purgeUncommitted_shorter s) (fun _ s' hs' => ih s' ?_) (fun _ _ _ => trivial)
        exact Nat.lt_of_lt_of_le hs' (Nat.lt_succ_iff.1 hlen)

/-- A purge of an entry that is not newer than the mark succeeds. -/
theorem purgeUncommitted_succeeds {s : FSBlockStore Key} {l : List (ℕ × ℕ)} {y : ℕ × ℕ} {m : ℕ}
    (hl : s.lru = l ++ [y]) (hfile : s.files (s.entry y.2).name ≠ none) (hm : s.mark = some m)
    (hold : (s.entry y.2).tstamp ≤ (s.entry m).tstamp) :
    wp purgeUncommitted (fun _ s' => s' = s.purged l [y]) (fun _ _ => False) s := by
  have hlast : s.lru.getLast? = some y := by simp [hl]
  have hspec := purgeUncommitted_spec hl hfile
  have hno : wp purgeUncommitted (fun _ _ => True) (fun _ _ => False) s := by
    simp only [purgeUncommitted, wp_bind, wp_get, hlast, hm, if_neg (not_lt.2 hold), if_neg hfile]
    trivial
  exact wp_mono (wp_and hspec hno) (fun _ _ h => h.1) (fun _ _ h => h.2)

/-- **The purge loop succeeds** while it stays within a suffix of the list none of whose entries is
newer than the mark. -/
theorem purgeLoop_succeeds (prevcommitted : ℤ) (blksize : ℕ) (A : List (ℕ × ℕ)) :
    ∀ (fuel : ℕ) (s : FSBlockStore Key) (B : List (ℕ × ℕ)), Linked s →
      (∀ x ∈ s.lru, s.files (s.entry x.2).name ≠ none) → s.lru = A ++ B →
      s.excess prevcommitted blksize ≤ s.bytesIn B →
      (∀ x ∈ B, ∃ m, s.mark = some m ∧ (s.entry x.2).tstamp ≤ (s.entry m).tstamp) →
      wp (purgeLoop prevcommitted blksize fuel) (fun _ _ => True) (fun _ _ => False) s := by
  intro fuel
  induction fuel with
  | zero => exact fun s B _ _ _ _ _ => trivial
  | succ fuel ih =>
      intro s B hlink hfile hlru hex hold
      simp only [purgeLoop, wp_bind, wp_get]
      split
      case isFalse => trivial
      case isTrue hpos =>
        rcases List.eq_nil_or_concat' B with rfl | ⟨B', y, rfl⟩
        · -- Nothing is left to purge, so nothing is left to free.
          simp only [FSBlockStore.bytesIn, List.map_nil, List.sum_nil, Nat.cast_zero] at hex
          omega
        · have hlru' : s.lru = (A ++ B') ++ [y] := by simp [hlru]
          have hy : y ∈ s.lru := by simp [hlru]
          obtain ⟨m, hm, hle⟩ := hold y (by simp)
          refine wp_seq (purgeUncommitted_succeeds hlru' (hfile y hy) hm hle) ?_
            (fun _ _ hF => hF.elim)
          rintro _ _ rfl
          have hsub : (A ++ B').Sublist s.lru := by rw [hlru']; exact List.sublist_append_left _ _
          exact ih (s.purged (A ++ B') [y]) B' (hlink.purged hsub [y])
            (file_purged_last hlink hfile hlru') rfl (excess_purged_last hex)
            fun x hx => hold x (List.mem_append_left _ hx)

/-! ### The invariant -/

/-- What the capacity adds to the accounting: the counters add up to the stored bytes, these are within
the size of the store, and the time stamps of the list are in order up to the mark's. -/
structure Within (size : ℕ) (s : FSBlockStore Key) (t : ℕ) : Prop where
  dated : Dated s t
  created : s.size = size
  counters : s.committed + s.uncommitted = s.stored
  fits : s.stored ≤ size
  mark : ∀ m, s.mark = some m → m ∈ s.entries ∧ (s.entry m).name = .mark
  marked : s.files .mark ≠ none → s.mark ≠ none

/-- The accounting is right, as far as the condition makes it, and the store is within its size. -/
structure CapacityInv (size : ℕ) (s : FSBlockStore Key) (t : ℕ) : Prop where
  space : SpaceInv s
  within : Within size s t

theorem Within.mono {size : ℕ} {s : FSBlockStore Key} {t t' : ℕ} (hw : Within size s t)
    (ht : t ≤ t') : Within size s t' :=
  ⟨hw.dated.mono ht, hw.created, hw.counters, hw.fits, hw.mark, hw.marked⟩

theorem touched_size (s : FSBlockStore Key) (n : Name Key) (mtime size : ℕ) :
    (s.touched n mtime size).size = s.size := by
  unfold FSBlockStore.touched
  split <;> rfl

/-- Touching a name whose file has just been written and counted, if there was room for it. -/
theorem Within.touchEntry {size : ℕ} {s s₁ : FSBlockStore Key} {t now : ℕ} (hlink : Linked s)
    (hfile : ∀ n, s.files n ≠ none ↔ n ∈ s.names) (hw : Within size s t) (ht : t ≤ now)
    (hs : SameIndex s s₁) (hm : s₁.mark = s.mark) (hsize : s₁.size = s.size) {n : Name Key} (hn : n ≠ .mark) {f : File} (hnow : f.mtime = now)
    (hfiles : s₁.files = Function.update s.files n (some f))
    (hcount : s₁.committed + s₁.uncommitted + sizeOf s.files n =
      s.committed + s.uncommitted + f.data.length)
    (hroom : s.stored + f.data.length ≤ size + sizeOf s.files n)
    (hhave : s.files n = none → s.find n = none) (blksize : ℕ) :
    wp (FSBS.touchEntry n now blksize) (fun _ s' => Within size s' now ∧ s'.files = s₁.files)
      (fun _ _ => False) s₁ := by
  have hl := hs.linked hlink
  have hhave : (s₁.find n).isSome → n ∈ s₁.names := by
    rw [hs.find, hs.names, ← hfile]
    intro hsome hnone
    simp [hhave hnone] at hsome
  have heq := touchEntry_eq hl n now blksize hhave
  have htouch := wp_ok (touchEntry_spec hl n now blksize hhave) heq
  simp only [wp, heq]
  obtain ⟨h₁, h₂⟩ := touched_counters s₁ n now blksize
  have hstored := htouch.stored hs hfiles hlink.names_nodup fun n => (hfile n).1
  have hcounters := hw.counters
  refine ⟨⟨hw.dated.touched ht hs hl hnow hfiles htouch, ?_, ?_, ?_, ?_, ?_⟩, htouch.files⟩
  · rw [touched_size, hsize, hw.created]
  · rw [h₁, h₂]
    omega
  · omega
  · intro m hm'
    rw [htouch.mark, hm] at hm'
    obtain ⟨hme, hmn⟩ := hw.mark m hm'
    obtain ⟨hme', hname⟩ := touched_table s₁ n now blksize hl.lt (hs.entries ▸ hme)
    exact ⟨hme', by rw [hname, hs.entry, hmn]⟩
  · intro hmark
    rw [htouch.mark, hm]
    refine hw.marked ?_
    rwa [htouch.files, hfiles, Function.update_of_ne hn.symm] at hmark

/-- A purge takes the bytes of the nodes it drops out of the stored ones. -/
theorem SpaceInv.stored_purged {s : FSBlockStore Key} (hi : SpaceInv s) {l B : List (ℕ × ℕ)}
    (hl : s.lru = l ++ B) : (s.purged l B).stored + s.bytesIn B = s.stored := by
  have hnd := hi.linked.names_nodup
  rw [names_of_purge hl] at hnd
  have hkeep : ∀ n ∈ (s.purged l B).names, sizeOf (s.purged l B).files n = sizeOf s.files n := by
    intro n hn
    have hnB : n ∉ B.map fun x => (s.entry x.2).name := List.disjoint_of_nodup_append hnd hn
    simp only [sizeOf, files_purged, hnB, if_false]
  have hbytes : s.bytesIn B = ((B.map fun x => (s.entry x.2).name).map (sizeOf s.files)).sum := by
    rw [FSBlockStore.bytesIn, List.map_map]
    refine congrArg List.sum (List.map_congr_left fun x hx => ?_)
    have hx' : x ∈ s.lru := hl ▸ List.mem_append_right _ hx
    obtain ⟨f, hf, hz⟩ := hi.sizes _ (List.mem_map.2 ⟨x, hx', rfl⟩)
    exact hz.trans (sizeOf_eq hf).symm
  rw [FSBlockStore.stored, FSBlockStore.stored, List.map_congr_left hkeep, hbytes, names_of_purge hl,
    List.map_append, List.sum_append]

theorem Within.purged {size : ℕ} {s : FSBlockStore Key} {t : ℕ} (hi : SpaceInv s)
    (hw : Within size s t) {l B : List (ℕ × ℕ)} (hl : s.lru = l ++ B) :
    Within size (s.purged l B) t := by
  have hnd := hi.linked.names_nodup
  rw [names_of_purge hl] at hnd
  have hsub : (s.purged l B).names.Sublist s.names := by
    rw [names_of_purge hl]
    exact List.sublist_append_left _ _
  have hkeep : ∀ n ∈ (s.purged l B).names,
      mtimeOf (s.purged l B).files n = mtimeOf s.files n := by
    intro n hn
    have hnB : n ∉ B.map fun x => (s.entry x.2).name := List.disjoint_of_nodup_append hnd hn
    simp only [mtimeOf, files_purged, hnB, if_false]
  have hstored := hi.stored_purged hl
  have hcounters := hw.counters
  have hfits := hw.fits
  refine ⟨⟨?_, ?_, ?_⟩, hw.created, ?_, by omega, hw.mark, ?_⟩
  · intro x hx
    have hx' : x ∈ s.lru := hl ▸ List.mem_append_left _ hx
    have hsame := hkeep _ (List.mem_map.2 ⟨x, hx, rfl⟩)
    exact (hw.dated.stamp x hx').trans hsame.symm
  · refine (hw.dated.sorted.sublist hsub).imp_of_mem fun {a b} ha hb hab => ?_
    rwa [hkeep a ha, hkeep b hb]
  · intro n hn
    rw [hkeep n hn]
    exact hw.dated.past n (hsub.subset hn)
  · have hu : (s.purged l B).uncommitted = s.uncommitted - s.bytesIn B := rfl
    have hc : (s.purged l B).committed = s.committed := rfl
    rw [hu, hc]
    omega
  · intro hfile
    refine hw.marked fun hnone => hfile ?_
    rw [files_purged, hnone, ite_self]

/-! ### One lemma for each operation -/

/-- Writing a block and bringing the counters up to date. -/
theorem booked_counters (s : FSBlockStore Key) (now : ℕ) (k : Key) (data : List UInt8)
    (prevsize : ℕ) (wascommitted : Bool) :
    (s.booked now k data prevsize wascommitted).committed +
        (s.booked now k data prevsize wascommitted).uncommitted + prevsize =
      s.committed + s.uncommitted + data.length := by
  cases wascommitted <;> simp only [FSBlockStore.booked, FSBlockStore.setFile, if_true,
    Bool.false_eq_true, if_false] <;> omega

theorem booked_size (s : FSBlockStore Key) (now : ℕ) (k : Key) (data : List UInt8)
    (prevsize : ℕ) (wascommitted : Bool) :
    (s.booked now k data prevsize wascommitted).size = s.size := by
  cases wascommitted <;> rfl

theorem prevcommitted_le (s : FSBlockStore Key) (k : Key) : s.prevcommitted k ≤ s.prevsize k := by
  unfold FSBlockStore.prevcommitted
  split <;> omega

/-- The end of a put whose loop has left room for the block. -/
theorem Within.booked {size : ℕ} {s : FSBlockStore Key} {t now : ℕ} (hi : SpaceInv s)
    (hw : Within size s t) (ht : t ≤ now) {k : Key} {data : List UInt8} {l B : List (ℕ × ℕ)}
    (hl : s.lru = l ++ B) (hold : s.files (.block k) ≠ none → B <:+ s.past (.block k))
    (hnew : s.files (.block k) = none → s.find (.block k) = none)
    (hex : (s.purged l B).excess (s.prevcommitted k) data.length ≤ 0) :
    wp (FSBS.touchEntry (.block k) now data.length)
      (fun _ s' => Within size s' now ∧ s'.files (.block k) = some ⟨data, now⟩) (fun _ _ => False)
      ((s.purged l B).booked now k data (s.prevsize k) (s.wascommitted k)) := by
  have hsame := hi.file_purged hl hold
  have hw' := hw.purged hi hl
  set s₁ := s.purged l B with hs₁
  have hprev : sizeOf s₁.files (.block k) = s.prevsize k := by
    rw [prevsize_eq, sizeOf, hsame]
    rfl
  have hbooked := booked_counters s₁ now k data (s.prevsize k) (s.wascommitted k)
  have hroom : s₁.stored + data.length ≤ size + s.prevsize k := by
    have hle := prevcommitted_le s k
    have hcounters := hw'.counters
    have hsize := hw'.created
    simp only [FSBlockStore.excess] at hex
    omega
  have htouch := hw'.touchEntry (f := ⟨data, now⟩)
    (hi.linked.purged (hl ▸ List.sublist_append_left l B) B)
    (file_iff_purged hi.linked hi.file hl) ht
    (sameIndex_booked s₁ now k data (s.prevsize k) (s.wascommitted k)) (booked_mark ..)
    (booked_size ..) (by simp) rfl (booked_files ..) (hprev ▸ hbooked) (hprev ▸ hroom)
    (fun hnone => hnew (hsame.symm.trans hnone)) data.length
  refine wp_mono htouch ?_ (fun _ _ hF => hF.elim)
  rintro _ s' ⟨hs', hfiles⟩
  refine ⟨hs', ?_⟩
  rw [hfiles, booked_files, Function.update_self]

/-- What the loop of a put within the condition leaves, if it ends without an exception. -/
theorem purgeLoop_room {s : FSBlockStore Key} (hi : SpaceInv s) {k : Key} {data : List UInt8}
    (hmark : s.excess (s.prevcommitted k) data.length ≤ s.behind .mark) :
    wp (purgeLoop (s.prevcommitted k) data.length (s.lru.length + 1))
      (fun _ s' => Dropped (s.prevcommitted k) data.length s s' ∧
        s'.excess (s.prevcommitted k) data.length ≤ 0)
      (fun _ s' => Dropped (s.prevcommitted k) data.length s s') s := by
  have hlru : ∀ x ∈ s.lru, s.files (s.entry x.2).name ≠ none := fun x hx =>
    (hi.file _).2 (mem_names.2 ⟨x, hx, rfl⟩)
  exact wp_mono (wp_and (purgeLoop_dropped hi.linked hlru hmark (s.lru.length + 1))
    (purgeLoop_ends (s.prevcommitted k) data.length _ s (Nat.lt_succ_self _)))
    (fun _ _ h => h) (fun _ _ h => h.1)

/-- A put within the condition keeps the store within its size. -/
theorem Within.bsBlockPut {size : ℕ} {s : FSBlockStore Key} {t now : ℕ} (hi : SpaceInv s)
    (hw : Within size s t) (ht : t ≤ now) {k : Key} {data : List UInt8}
    (htal : Tallies s (.put k data)) :
    wp (FSBS.bsBlockPut now k data) (fun _ s' => Within size s' now) (fun _ s' => Within size s' now)
      s := by
  simp only [FSBS.bsBlockPut, wp_bind, wp_get]
  split
  case isTrue => exact hw.mono ht
  case isFalse hspace =>
    obtain ⟨hfit, -, -⟩ := htal.resolve_left hspace
    obtain ⟨hmark, hold, hnew⟩ := hfit.resolve_left hspace
    refine wp_seq (purgeLoop_room hi hmark) ?_ ?_
    · rintro _ _ ⟨⟨l, B, hl, rfl, hB⟩, hex⟩
      simp only [wp_bind, wp_modify]
      exact wp_mono (hw.booked hi ht hl (fun hf => hB _ (hold hf)) hnew hex) (fun _ _ h => h.1)
        (fun _ _ hF => hF.elim)
    · rintro _ _ ⟨l, B, hl, rfl, -⟩
      exact (hw.purged hi hl).mono ht

theorem Within.bsRefreshStart {size : ℕ} {s : FSBlockStore Key} {t now : ℕ} (hi : SpaceInv s)
    (hw : Within size s t) (ht : t ≤ now) {rid : ℕ} (hfit : Tallies s (.refreshStart rid)) :
    wp (FSBS.bsRefreshStart now rid) (fun _ s' => Within size s' now)
      (fun _ s' => Within size s' now) s := by
  simp only [FSBS.bsRefreshStart, wp_bind, wp_get]
  split
  case isTrue => exact hw.mono ht
  case isFalse hno =>
    have hnone : s.files (.rid rid) = none := by simpa using hno
    have hzero := sizeOf_eq_zero hnone
    simp only [wp_bind, wp_set]
    refine wp_mono (hw.touchEntry (f := ⟨[], now⟩) hi.linked hi.file ht (sameIndex_setFile s _ _) rfl
      rfl (by simp) rfl rfl ?_ ?_ hfit 0) (fun _ _ h => h.1) (fun _ _ hF => hF.elim)
    · rw [hzero]
      rfl
    · simpa using hw.fits.trans (Nat.le_add_right _ _)

theorem Within.bsRefreshBlock {size : ℕ} {s : FSBlockStore Key} {t now : ℕ} (hi : SpaceInv s)
    (hw : Within size s t) (ht : t ≤ now) (rid : ℕ) (k : Key) :
    wp (FSBS.bsRefreshBlock now rid k) (fun _ s' => Within size s' now)
      (fun _ s' => Within size s' now) s := by
  simp only [FSBS.bsRefreshBlock, wp_bind, wp_get]
  split
  case isTrue => exact hw.mono ht
  case isFalse =>
    cases hf : s.files (.block k) with
    | none => exact hw.mono ht
    | some f =>
        have hsize := sizeOf_eq hf
        simp only [wp_bind, wp_set]
        refine wp_mono (hw.touchEntry (f := { f with mtime := now }) hi.linked hi.file ht
          (sameIndex_setFile s _ _) rfl rfl (by simp) rfl rfl ?_ ?_ ?_ f.data.length)
          (fun _ _ h => h.1) (fun _ _ hF => hF.elim)
        · rw [hsize]
          rfl
        · rw [hsize]
          exact Nat.add_le_add_right hw.fits _
        · intro hnone
          simp [hf] at hnone

/-- The end of a cycle drops the old mark, which has no bytes, and counts again. -/
theorem Within.bsRefreshFinish {size : ℕ} {s : FSBlockStore Key} {t : ℕ} (hi : SpaceInv s)
    (hw : Within size s t) (rid : ℕ) :
    wp (FSBS.bsRefreshFinish rid) (fun _ s' => Within size s' t) (fun _ s' => Within size s' t) s := by
  cases hf : s.files (.rid rid) with
  | none =>
      simp only [FSBS.bsRefreshFinish, wp_bind, wp_get, hf]
      exact hw
  | some f =>
      obtain ⟨r, hr, -, -⟩ := hi.mem_recs hf
      obtain ⟨hrm, hrn⟩ := find_eq_some hr
      have heq := bsRefreshFinish_eq hi.linked hf hr hi.mark
      have hfin := wp_ok (bsRefreshFinish_spec hi.linked (fun h => (hi.file _).1 h) hi.mark) heq
      have hspace := wp_ok (hi.bsRefreshFinish rid) heq
      have hle : (s.finished rid r f).stored ≤ s.stored := by
        rw [FSBlockStore.stored, hfin.names, List.map_map]
        have hsame : ∀ n ∈ s.names.filter fun n => n ≠ .mark,
            (sizeOf (s.finished rid r f).files ∘ renamed rid) n = sizeOf s.files n := by
          intro n hn
          simp only [Function.comp_apply, sizeOf, hfin.file (by simpa using (List.mem_filter.1 hn).2)]
        rw [List.map_congr_left hsame]
        exact (List.filter_sublist.map _).sum_le_sum fun _ _ => Nat.zero_le _
      simp only [wp, heq]
      refine ⟨hw.dated.finished hi.linked hr hfin, hw.created, hspace.counters ⟨rfl, rfl⟩,
        hle.trans hw.fits, ?_, fun _ => by simp [FSBlockStore.finished]⟩
      intro m hm
      obtain rfl : r = m := Option.some_inj.1 hm
      refine ⟨List.mem_filter.2 ⟨hrm, by simp [hrn]⟩, ?_⟩
      simp [FSBlockStore.finished]

/-! ### The life of a store -/

theorem CapacityInv.stepEvent {size : ℕ} {s : FSBlockStore Key} {t now : ℕ}
    (hi : CapacityInv size s t) (ht : t ≤ now) {op : Op Key} (htal : Tallies s op) :
    CapacityInv size (FSBS.stepEvent now op s).2 now := by
  refine ⟨hi.space.stepEvent now htal, stepEvent_of_wp (I := fun s' => Within size s' now) ?_⟩
  cases op with
  | put k data =>
      exact wp_seq (hi.within.bsBlockPut hi.space ht htal) (fun _ _ h => h) (fun _ _ h => h)
  | refreshStart rid =>
      exact wp_seq (hi.within.bsRefreshStart hi.space ht htal) (fun _ _ h => h) (fun _ _ h => h)
  | refreshBlock rid k =>
      refine wp_seq (hi.within.bsRefreshBlock hi.space ht rid k) ?_ (fun _ _ h => h)
      rintro (_ | _) s' h <;> exact h
  | refreshFinish rid =>
      exact wp_seq (hi.within.bsRefreshFinish hi.space rid) (fun _ _ h => h.mono ht)
        (fun _ _ h => h.mono ht)

theorem capacityInv_bsCreate (size : ℕ) : CapacityInv size (bsCreate size : FSBlockStore Key) 0 where
  space := spaceInv_bsCreate size
  within :=
    { dated := (stampInv_bsCreate size).dated
      created := rfl
      counters := by simp [bsCreate, FSBlockStore.stored, FSBlockStore.names]
      fits := by simp [bsCreate, FSBlockStore.stored, FSBlockStore.names]
      mark := by simp [bsCreate]
      marked := by simp [bsCreate] }

/-- An opening finds the same files, and counts them. -/
theorem CapacityInv.reopen {size : ℕ} {s s' : FSBlockStore Key} {t : ℕ} (hi : CapacityInv size s t)
    {dir : List (Name Key)} (hl : Listing s.files dir) (ho : bsOpen size s.files dir = .ok s') :
    CapacityInv size s' t := by
  obtain ⟨l, rfl, hnd, hmem, hfile⟩ := bsOpen_spec hl ho
  have hspace := spaceInv_unrolled size hnd hmem hfile hi.space.tokens
  have hindex := indexInv_unrolled size hnd hmem
  have horder : InOrder (unrolled size s.files l) := by
    rw [bsOpen_eq size hl] at ho
    exact Except.ok.inj ho ▸ inOrder_unrolled size hl
  have hnames := names_unrolled size s.files l
  have hperm : (unrolled size s.files l).names.Perm s.names := by
    refine (List.perm_ext_iff_of_nodup hspace.linked.names_nodup hi.space.linked.names_nodup).2 ?_
    intro n
    rw [← hspace.file, ← hi.space.file]
    rfl
  have hstored : (unrolled size s.files l).stored = s.stored := (hperm.map _).sum_eq
  refine ⟨hspace, ⟨⟨?_, horder.sorted, ?_⟩, rfl,
    hspace.counters (counted_unrolled size s.files l), hstored ▸ hi.within.fits, hindex.mark, ?_⟩⟩
  · intro x hx
    obtain ⟨i, hi, rfl⟩ : ∃ i < l.length, (i, i) = x := by simpa [unrolled] using hx
    obtain ⟨f, hf, hts, -⟩ := hfile (l.get ⟨i, hi⟩) (List.get_mem _ _)
    rw [unrolled_entry _ _ hi]
    exact hts.trans (mtimeOf_eq hf).symm
  · exact fun n hn => hi.within.dated.past n (hperm.mem_iff.1 hn)
  · intro hne hnone
    have hmark := horder.mark
    obtain ⟨f, hf⟩ := Option.ne_none_iff_exists'.1 hne
    rw [FSBlockStore.markStamp, hnone, hf] at hmark
    simp at hmark

/-- **The invariant holds over the life of a store** whose steps meet the condition. -/
theorem capacityInv_life {size : ℕ} {s : FSBlockStore Key} {t : ℕ}
    (hlife : LifeWith Tallies size s t) : CapacityInv size s t := by
  induction hlife with
  | create => exact capacityInv_bsCreate size
  | step now op _ ht htal ih => exact ih.stepEvent ht htal
  | reopen dir _ hl ho ih => exact ih.reopen hl ho

/-! ### What the next put finds -/

/-- The mark's entry carries the time of the mark's file. -/
theorem CapacityInv.mark_tstamp {size : ℕ} {s : FSBlockStore Key} {t : ℕ}
    (hi : CapacityInv size s t) {m : ℕ} (hm : s.mark = some m) :
    .mark ∈ s.names ∧ (s.entry m).tstamp = mtimeOf s.files .mark := by
  obtain ⟨hme, hmn⟩ := hi.within.mark m hm
  have hin := hi.space.mark (find_isSome_iff.2 ⟨m, hme, hmn⟩)
  obtain ⟨x, hx, hxn⟩ := mem_names.1 hin
  obtain rfl := hi.space.linked.nameInj _ (hi.space.linked.mem x hx) m hme (hxn.trans hmn.symm)
  exact ⟨hin, hxn ▸ hi.within.dated.stamp x hx⟩

/-- What is in front of the mark is not older. -/
theorem Dated.inFront {s : FSBlockStore Key} {t : ℕ} (hd : Dated s t) (hm : .mark ∈ s.names)
    {n : Name Key} (hn : n ∈ FSBS.inFront s.names .mark) :
    mtimeOf s.files .mark ≤ mtimeOf s.files n := by
  have hsorted := hd.sorted
  rw [← List.takeWhile_append_dropWhile (p := fun x => decide (x ≠ Name.mark)) (l := s.names),
    List.pairwise_append] at hsorted
  refine hsorted.2.2 n hn .mark ?_
  have hout : .mark ∉ s.names.takeWhile fun x => decide (x ≠ Name.mark) := fun h => by
    simpa using List.mem_takeWhile_imp h
  rw [← List.takeWhile_append_dropWhile (p := fun x => decide (x ≠ Name.mark)) (l := s.names)] at hm
  exact (List.mem_append.1 hm).resolve_left hout

/-- What is behind the mark is not newer. -/
theorem CapacityInv.past_old {size : ℕ} {s : FSBlockStore Key} {t : ℕ} (hi : CapacityInv size s t) :
    ∀ x ∈ s.past .mark, ∃ m, s.mark = some m ∧ (s.entry x.2).tstamp ≤ (s.entry m).tstamp := by
  intro x hx
  obtain ⟨A, hA, hout, hnil⟩ := past_spec hi.space.linked (y := .mark)
  have hm : .mark ∈ s.names := by
    by_contra hm
    simp [hnil hm] at hx
  obtain ⟨m, hmark⟩ := Option.ne_none_iff_exists'.1 (hi.within.marked ((hi.space.file _).2 hm))
  refine ⟨m, hmark, ?_⟩
  have hsorted := hi.within.dated.sorted
  rw [FSBlockStore.names, hA, List.map_append, List.pairwise_append] at hsorted
  have hmA : .mark ∈ A.map fun x => (s.entry x.2).name := by
    rw [FSBlockStore.names, hA, List.map_append] at hm
    refine (List.mem_append.1 hm).resolve_right (hout ?_)
    rwa [FSBlockStore.names, hA, List.map_append]
  rw [(hi.mark_tstamp hmark).2, hi.within.dated.stamp x (hA ▸ List.mem_append_right _ hx)]
  exact hsorted.2.2 _ hmA _ (List.mem_map.2 ⟨x, hx, rfl⟩)

/-- The committed bytes are those of the other blocks and of the old copy, if it is in front of the
mark. -/
theorem committedBytes_eq {s : FSBlockStore Key} (hnd : s.names.Nodup) (k : Key) :
    s.committedBytes =
      s.committedBut k + if .block k ∈ inFront s.names .mark then s.prevsize k else 0 := by
  have hnd' : (inFront s.names .mark).Nodup := hnd.sublist (List.takeWhile_sublist _)
  unfold FSBlockStore.committedBytes FSBlockStore.committedBut
  split
  case isTrue hin =>
    have := sum_filter_ne hnd' (a := .block k) (g := s.blockBytes) fun hno => absurd hin hno
    exact this.symm
  case isFalse hno =>
    have hall : (inFront s.names .mark).filter (fun n => decide (n ≠ .block k)) =
        inFront s.names .mark := by
      refine List.filter_eq_self.2 fun n hn => ?_
      simpa using fun hnk : n = .block k => hno (hnk ▸ hn)
    rw [hall, Nat.add_zero]

/-- An old copy in front of the mark counts as committed. -/
theorem CapacityInv.wascommitted {size : ℕ} {s : FSBlockStore Key} {t : ℕ} (hi : CapacityInv size s t)
    {k : Key} (hk : .block k ∈ inFront s.names .mark) : s.wascommitted k = true := by
  obtain ⟨f, hf⟩ := Option.ne_none_iff_exists'.1 ((hi.space.file _).2 (mem_of_mem_inFront hk))
  refine (wascommitted_iff hf).2 ?_
  rintro ⟨m, hm, hlt⟩
  obtain ⟨hmn, hts⟩ := hi.mark_tstamp hm
  have hle := hi.within.dated.inFront hmn hk
  rw [mtimeOf_eq hf, ← hts] at hle
  exact absurd hlt (not_lt.2 hle)

/-- **The store turns away what does not fit**: the room that a put sees is the size without the
committed blocks other than the old copy. -/
theorem CapacityInv.noSpace_iff {size : ℕ} {s : FSBlockStore Key} {t : ℕ} (hi : CapacityInv size s t)
    (hno : s.NoCycle) {k : Key} {data : List UInt8} (htal : Tallies s (.put k data)) :
    s.NoSpace k data ↔ s.size - s.committedBut k < data.length := by
  have hc := (hi.space.accounted hno).committed
  have hbut := committedBytes_eq hi.space.linked.names_nodup k
  by_cases hspace : s.NoSpace k data
  · refine ⟨fun _ => ?_, fun _ => hspace⟩
    simp only [FSBlockStore.NoSpace, FSBlockStore.prevcommitted] at hspace
    by_cases hk : .block k ∈ inFront s.names .mark
    · rw [hi.wascommitted hk, if_pos rfl] at hspace
      rw [if_pos hk] at hbut
      omega
    · rw [if_neg hk] at hbut
      split at hspace <;> omega
  · refine ⟨fun h => absurd h hspace, fun hlt => absurd ?_ hspace⟩
    obtain ⟨-, -, hcycle⟩ := htal.resolve_left hspace
    -- No token is in the list, so the put knows on which side of the mark the old copy is.
    have hside := (hcycle.resolve_left fun ⟨rid, hrid, _⟩ =>
      (hi.space.file _).2 hrid (hno rid)).2
    simp only [FSBlockStore.NoSpace, FSBlockStore.prevcommitted]
    cases hf : s.files (.block k) with
    | none =>
        have hprev : s.prevsize k = 0 := by simp [FSBlockStore.prevsize, hf]
        rw [hprev] at hbut ⊢
        split at hbut <;> split <;> omega
    | some f =>
        rcases hside f hf with hnil | hside
        · have hprev : s.prevsize k = 0 := by simp [FSBlockStore.prevsize, hf, hnil]
          rw [hprev] at hbut ⊢
          split at hbut <;> split <;> omega
        · have hn : .block k ∈ s.names := (hi.space.file _).1 (by simp [hf])
          have hiff : s.wascommitted k = true ↔ .block k ∈ inFront s.names .mark := by
            rw [wascommitted_iff hf, hside, mem_behindMark_iff hi.space.linked hn (by simp), not_not]
          by_cases hk : .block k ∈ inFront s.names .mark
          · rw [if_pos (hiff.2 hk)]
            rw [if_pos hk] at hbut
            omega
          · rw [if_neg fun h => hk (hiff.1 h)]
            rw [if_neg hk] at hbut
            omega

theorem bsBlockPut_noSpace {s : FSBlockStore Key} {k : Key} {data : List UInt8}
    (h : s.NoSpace k data) (now : ℕ) :
    bsBlockPut now k data s = .error (.noSpaceError "insufficent space") s := by
  have h' : s.size - s.committed + s.prevcommitted k < data.length := h
  simp only [bsBlockPut, bind_apply, get_apply, if_pos h', throw_apply]

/-- **A put that fits is stored.** -/
theorem CapacityInv.stored {size : ℕ} {s : FSBlockStore Key} {t now : ℕ} (hi : CapacityInv size s t)
    (ht : t ≤ now) {k : Key} {data : List UInt8} (htal : Tallies s (.put k data))
    (hspace : ¬ s.NoSpace k data) :
    (∃ s', purgeLoop (s.prevcommitted k) data.length (s.lru.length + 1) s = .ok () s' ∧
      s'.excess (s.prevcommitted k) data.length ≤ 0) ∧
    ∃ s', bsBlockPut now k data s = .ok () s' ∧ s'.files (.block k) = some ⟨data, now⟩ := by
  obtain ⟨hfit, -, -⟩ := htal.resolve_left hspace
  obtain ⟨hmark, hold, hnew⟩ := hfit.resolve_left hspace
  have hlru : ∀ x ∈ s.lru, s.files (s.entry x.2).name ≠ none := fun x hx =>
    (hi.space.file _).2 (mem_names.2 ⟨x, hx, rfl⟩)
  obtain ⟨A, hA, -⟩ := past_spec hi.space.linked (y := .mark)
  have hroom := purgeLoop_room hi.space hmark
  have hsucc := purgeLoop_succeeds (s.prevcommitted k) data.length A (s.lru.length + 1) s
    (s.past .mark) hi.space.linked hlru hA hmark hi.past_old
  cases hm : purgeLoop (s.prevcommitted k) data.length (s.lru.length + 1) s with
  | error e s' => exact (wp_error hsucc hm).elim
  | ok u s₁ =>
      obtain ⟨⟨l, B, hl, rfl, hB⟩, hex⟩ := wp_ok hroom hm
      refine ⟨⟨_, rfl, hex⟩, ?_⟩
      have htouch := hi.within.booked hi.space ht hl (fun hf => hB _ (hold hf)) hnew hex
      have hput : wp (bsBlockPut now k data)
          (fun _ s' => s'.files (.block k) = some ⟨data, now⟩) (fun _ _ => False) s := by
        have h' : ¬ s.size - s.committed + s.prevcommitted k < data.length := hspace
        simp only [FSBS.bsBlockPut, wp_bind, wp_get, if_neg h']
        refine wp_mono (Q := fun _ s' => s' = s.purged l B) (E := fun _ _ => False) ?_ ?_
          (fun _ _ hF => hF.elim)
        · simp only [wp, hm]
        · rintro _ _ rfl
          exact wp_mono htouch (fun _ _ h => h.2) (fun _ _ hF => hF.elim)
      cases hp : bsBlockPut now k data s with
      | ok u' s' =>
          have hfile := wp_ok hput hp
          exact ⟨s', rfl, hfile⟩
      | error e s' => exact (wp_error hput hp).elim

/-- **The store keeps within its size.**  In every state with no refresh cycle open, over every life
whose steps meet the condition, the next put that meets it gets what the store owes it. -/
theorem putFits_of_tallies (size : ℕ) (s : FSBlockStore Key) (t : ℕ)
    (hlife : LifeWith Tallies size s t) (hno : s.NoCycle) (now : ℕ) (ht : t ≤ now) (k : Key)
    (data : List UInt8) (htal : Tallies s (.put k data)) : PutFits s now k data := by
  have hi := capacityInv_life hlife
  have hiff := hi.noSpace_iff hno htal
  have hstored : data.length ≤ s.size - s.committedBut k → ¬ s.NoSpace k data := fun hle hspace =>
    absurd hle (not_le.2 (hiff.1 hspace))
  refine ⟨fun ks hks => ?_, ⟨?_, fun hlt => ?_⟩, ?_, fun hle => ?_, fun hle => ?_⟩
  · have hle := sum_prevsize_le (fun n => (hi.space.file n).1) hi.space.linked.names_nodup hks
    rw [hi.within.created]
    exact_mod_cast hle.trans hi.within.fits
  · rintro ⟨what, s', herr⟩
    by_contra hlt
    obtain ⟨-, s'', hok, -⟩ := hi.stored ht htal fun hspace => hlt (hiff.1 hspace)
    rw [hok] at herr
    simp at herr
  · exact ⟨_, _, bsBlockPut_noSpace (hiff.2 hlt) now⟩
  · intro what s' herr
    by_cases hspace : s.NoSpace k data
    · rw [bsBlockPut_noSpace hspace now] at herr
      simp only [EStateM.Result.error.injEq] at herr
      exact herr.2.symm
    · obtain ⟨-, s'', hok, -⟩ := hi.stored ht htal hspace
      rw [hok] at herr
      simp at herr
  · exact (hi.stored ht htal (hstored hle)).1
  · exact (hi.stored ht htal (hstored hle)).2

/-- A run is a life without openings. -/
theorem RunWith.life {P : FSBlockStore Key → Op Key → Prop} {size : ℕ} {s : FSBlockStore Key}
    {t : ℕ} {h : List (Event Key)} (hr : RunWith P size s t h) : LifeWith P size s t := by
  induction hr with
  | create => exact .create
  | step now op _ ht hP ih => exact ih.step now op ht hP

/-- A store of 30 bytes holds two blocks of 10, of which a cycle has kept the first; there is room for
15 bytes, once the second is purged. -/
theorem putFits_after_cycle :
    ∃ s : FSBlockStore Key, LifeWith Tallies 30 s 1 ∧ s.names = [.block (key 0), .mark, .block (key 1)] ∧
      PutFits s 1 (key 2) (List.replicate 15 7) := by
  have r₀ : LifeWith Tallies 30 (bsCreate 30 : FSBlockStore Key) 0 := .create
  have r₁ := r₀.step 0 (.put (key 0) (List.replicate 10 7)) (by decide)
    (.inr ⟨by decide, by decide, .inr ⟨by decide, by decide⟩⟩)
  have r₂ := r₁.step 0 (.put (key 1) (List.replicate 10 7)) (by decide)
    (.inr ⟨by decide, by decide, .inr ⟨by decide, by decide⟩⟩)
  have r₃ := r₂.step 1 (.refreshStart 1) (by decide) (fun _ => rfl)
  have r₄ := r₃.step 1 (.refreshBlock 1 (key 0)) (by decide) trivial
  have r₅ := r₄.step 1 (.refreshFinish 1) (by decide) trivial
  have hno := (capacityInv_life r₅).space.noCycle (L := [.block (key 0), .mark, .block (key 1)]) (by decide)
    (by simp)
  refine ⟨_, r₅, by decide, ?_⟩
  exact putFits_of_tallies 30 _ 1 r₅ hno 1 (by decide) (key 2) (List.replicate 15 7)
    (.inr ⟨by decide, by decide, .inr ⟨by decide, by decide⟩⟩)

/-- **Replacing a block by a longer one lets the store outgrow its size.**  The entry keeps the ten
bytes it was made with, the next cycle counts those, and the store takes 20 bytes beside the 30 it
holds. -/
theorem not_capacity_after_overwrite :
    ¬ ∀ (size : ℕ) (s : FSBlockStore Key) (t : ℕ), Life size s t → s.NoCycle → ∀ now, t ≤ now →
      ∀ k data, PutFits s now k data := by
  intro hall
  have r₀ : RunWith Keeps 30 (bsCreate 30 : FSBlockStore Key) 0 [] := .create
  have r₁ := r₀.step 0 (.put (key 0) (List.replicate 10 7)) (by decide) (by decide)
  have r₂ := r₁.step 0 (.put (key 0) (List.replicate 30 7)) (by decide) (by decide)
  have r₃ := r₂.step 1 (.refreshStart 1) (by decide) (by decide)
  have r₄ := r₃.step 1 (.refreshFinish 1) (by decide) (by decide)
  have r₅ := r₄.step 2 (.put (key 1) (List.replicate 20 7)) (by decide) (by decide)
  have hno := noCycle_of_names (stampInv_run r₅).index.file (L := [.block (key 1), .mark, .block (key 0)])
    (by decide) (by simp)
  have htotal := (hall 30 _ 2 (r₅.mono fun _ _ _ => trivial).life hno 2 le_rfl (key 0) []).total [key 0, key 1]
    (by decide)
  exact absurd htotal (by decide)

end FSBS

end Utopfs
