/-
**Garbage collection in the directory block store.**

A client protects its live blocks by a refresh cycle: it starts a cycle, refreshes every block it
still needs and finishes the cycle, whose token then becomes the `MARK`.  A block put or refreshed
since the start of that cycle has to stay; what is behind the `MARK` in the LRU list may be purged
when a put needs the room.

The store decides what to purge by its two counters, and these are recomputed only when a cycle
finishes: a block that an open cycle refreshes moves in front of the `MARK` while the counters still
call its bytes uncommitted.  A put may then look for more bytes behind the `MARK` than there are; it
purges the `MARK` and, when the time stamps agree, the blocks in front of it
(`FSBS.not_gcSafe_open_cycle`).

Main definitions:

* `FSBS.Protected`, `FSBS.lastPut` — what the client's history says about a block;
* `FSBS.GcSafe` — what the store owes the client: a protected block can be read back, and a put
  purges only what is behind the `MARK`;
* `FSBS.Fits` — the condition on the state before a step that keeps the counters' error harmless;
* `FSBS.GcInv` — the invariant: what is protected is in front of the `MARK`, what an open cycle has
  touched is in front of its token.

Main results:

* `FSBS.gcInv_run` — the invariant holds along every run whose steps meet the condition;
* `FSBS.gcSafe_of_fits` — the store then keeps its promise.
-/

import Mathlib.Data.List.Infix
import Mathlib.Data.List.TakeWhile
import Mathlib.Tactic
import Utopfs.FSBlockStoreIndex
import Utopfs.Recency

set_option relaxedAutoImplicit false
set_option autoImplicit false

namespace Utopfs

namespace FSBS

open Prog

/-! ### The order of the names -/

/-- The elements in front of the first `y` of a list; all of them if there is none. -/
def inFront {α : Type} [DecidableEq α] (L : List α) (y : α) : List α := L.takeWhile fun x => x ≠ y

/-- Moving `n` to the front leaves what is in front of another element in front of it. -/
theorem mem_inFront_moved {α : Type} [DecidableEq α] {L : List α} {n y m : α} (hy : n ≠ y) :
    m ∈ inFront (n :: L.filter fun x => x ≠ n) y ↔ m = n ∨ m ∈ inFront L y :=
  Recency.mem_before_moved hy

theorem inFront_append {α : Type} [DecidableEq α] {A B : List α} {y : α} (hy : y ∈ A) :
    inFront (A ++ B) y = inFront A y :=
  Recency.before_append hy

theorem mem_of_mem_inFront {α : Type} [DecidableEq α] {L : List α} {y m : α}
    (h : m ∈ inFront L y) : m ∈ L :=
  List.takeWhile_subset _ h

/-- Off the mark, the renaming at the end of a cycle is injective. -/
theorem renamed_inj {rid : ℕ} {n y : Name Key} (hn : n ≠ .mark) (hy : y ≠ .mark)
    (h : renamed rid n = renamed rid y) : n = y := by
  unfold renamed at h
  split at h <;> split at h
  · simp_all
  · exact absurd h.symm hy
  · exact absurd h hn
  · exact h

/-- The end of a cycle keeps the order of the blocks relative to every token. -/
theorem mem_inFront_finished (rid : ℕ) {y : Name Key} {k : Key} (hy : y ≠ .mark)
    {L : List (Name Key)} (h : .block k ∈ inFront L y) :
    .block k ∈ inFront ((L.filter fun n => n ≠ .mark).map (renamed rid)) (renamed rid y) := by
  induction L with
  | nil => simp [inFront] at h
  | cons a L ih =>
      by_cases ham : a = .mark
      · subst ham
        refine ih ?_
        simpa [inFront, Ne.symm hy] using h
      · by_cases hay : a = y
        · subst hay
          simp [inFront] at h
        · have hne : renamed rid a ≠ renamed rid y := fun he => hay (renamed_inj ham hy he)
          simp only [inFront, ne_eq, hay, not_false_eq_true, decide_true, List.takeWhile_cons_of_pos,
            List.mem_cons] at h
          simp only [inFront, ne_eq, ham, not_false_eq_true, decide_true, List.filter_cons_of_pos,
            List.map_cons, hne, List.takeWhile_cons_of_pos, List.mem_cons]
          rcases h with h | h
          · exact .inl (by simp [← h, renamed])
          · exact .inr (ih h)

/-! ### What a purge may take -/

/-- The nodes behind the one that carries the name `y`; none if no node does. -/
def FSBlockStore.past (s : FSBlockStore Key) (y : Name Key) : List (ℕ × ℕ) :=
  (s.lru.dropWhile fun x => (s.entry x.2).name ≠ y).drop 1

/-- The bytes recorded behind the name `y`. -/
def FSBlockStore.behind (s : FSBlockStore Key) (y : Name Key) : ℕ := s.bytesIn (s.past y)

/-- The nodes behind `y` are a suffix of the list, and none of them carries `y`. -/
theorem past_spec {s : FSBlockStore Key} (h : Linked s) (y : Name Key) :
    ∃ A, s.lru = A ++ s.past y ∧ (y ∈ s.names → y ∉ (s.past y).map fun x => (s.entry x.2).name) ∧
      (y ∉ s.names → s.past y = []) := by
  set p : ℕ × ℕ → Bool := fun x => (s.entry x.2).name ≠ y with hp
  have hpast : s.past y = (s.lru.dropWhile p).drop 1 := rfl
  refine ⟨s.lru.takeWhile p ++ (s.lru.dropWhile p).take 1, ?_, ?_, ?_⟩
  · rw [List.append_assoc, hpast, List.take_append_drop, List.takeWhile_append_dropWhile]
  · intro _ hmem
    -- The first node that is dropped carries `y`, so a second one would make the name occur twice.
    obtain ⟨x, hx, hxy⟩ := List.mem_map.1 hmem
    rw [hpast] at hx
    cases hd : s.lru.dropWhile p with
    | nil => simp [hd] at hx
    | cons z l =>
        have hz : (s.entry z.2).name = y := by
          have := List.head_dropWhile_not p (l := s.lru) (by simp [hd])
          simp only [hd, List.head_cons] at this
          simpa [hp] using this
        have hxl : x ∈ l := by simpa [hd] using hx
        have hsuf : z :: l <:+ s.lru := hd ▸ List.dropWhile_suffix p
        have hnd : ((z :: l).map fun x => (s.entry x.2).name).Nodup :=
          h.names_nodup.sublist (hsuf.sublist.map _)
        simp only [List.map_cons, List.nodup_cons] at hnd
        exact hnd.1 (List.mem_map.2 ⟨x, hxl, hxy.trans hz.symm⟩)
  · intro hy
    have hall : s.lru.dropWhile p = [] := by
      refine List.dropWhile_eq_nil_iff.2 fun x hx => ?_
      simpa [hp] using fun hxy => hy (mem_names.2 ⟨x, hx, hxy⟩)
    rw [hpast, hall]
    rfl

/-- What a purge loop does that stays behind `y`: a suffix of the list is gone, with its files. -/
def PurgedBehind (y : Name Key) (s s' : FSBlockStore Key) : Prop :=
  ∃ l B, s.lru = l ++ B ∧ B <:+ s.past y ∧ s' = s.purged l B

/-- **The purge loop stays behind `y`** when the bytes recorded there cover what has to be freed. -/
theorem purgeLoop_behind {s : FSBlockStore Key} (h : Linked s)
    (hfile : ∀ x ∈ s.lru, s.files (s.entry x.2).name ≠ none) {prevcommitted : ℤ} {blksize : ℕ}
    {y : Name Key} (hex : s.excess prevcommitted blksize ≤ s.behind y) (fuel : ℕ) :
    wp (purgeLoop prevcommitted blksize fuel) (fun _ s' => PurgedBehind y s s')
      (fun _ s' => PurgedBehind y s s') s := by
  obtain ⟨A, hA, -⟩ := past_spec h y
  have key : ∀ s' : FSBlockStore Key,
      (∃ B₁ B₂, s.past y = B₁ ++ B₂ ∧ s' = s.purged (A ++ B₁) B₂) → PurgedBehind y s s' := by
    rintro _ ⟨B₁, B₂, hB, rfl⟩
    refine ⟨A ++ B₁, B₂, ?_, ⟨B₁, hB.symm⟩, rfl⟩
    rw [hA, hB, List.append_assoc]
  exact wp_mono (purgeLoop_spec prevcommitted blksize A fuel s _ h hfile hA hex)
    (fun _ => key) (fun _ => key)

/-- What is left of the store after its purge loop: a suffix of the list is gone, with its files, and
it is behind every name that has the bytes behind it. -/
def Dropped (prevcommitted : ℤ) (blksize : ℕ) (s s' : FSBlockStore Key) : Prop :=
  ∃ l B, s.lru = l ++ B ∧ s' = s.purged l B ∧
    ∀ y, s.excess prevcommitted blksize ≤ s.behind y → B <:+ s.past y

/-- **The purge loop stays behind the mark**, and behind every other name that has the bytes behind
it, when the bytes recorded behind the mark cover what has to be freed. -/
theorem purgeLoop_dropped {s : FSBlockStore Key} (h : Linked s)
    (hfile : ∀ x ∈ s.lru, s.files (s.entry x.2).name ≠ none) {prevcommitted : ℤ} {blksize : ℕ}
    (hex : s.excess prevcommitted blksize ≤ s.behind .mark) (fuel : ℕ) :
    wp (purgeLoop prevcommitted blksize fuel) (fun _ s' => Dropped prevcommitted blksize s s')
      (fun _ s' => Dropped prevcommitted blksize s s') s := by
  have key : ∀ s', PurgedBehind .mark s s' →
      (∀ y, s.excess prevcommitted blksize ≤ s.behind y → PurgedBehind y s s') →
      Dropped prevcommitted blksize s s' := by
    rintro _ ⟨l, B, hl, -, rfl⟩ hall
    refine ⟨l, B, hl, rfl, fun y hy => ?_⟩
    -- The state tells which nodes are left, so the loop drops the same suffix for every name.
    obtain ⟨l', B', hl', hB', heq⟩ := hall y hy
    have hll : l = l' := congrArg FSBlockStore.lru heq
    subst hll
    have hBB : B = B' := List.append_cancel_left (hl.symm.trans hl')
    exact hBB ▸ hB'
  have hloop : ∀ y, s.excess prevcommitted blksize ≤ s.behind y →
      wp (purgeLoop prevcommitted blksize fuel) (fun _ s' => PurgedBehind y s s')
        (fun _ s' => PurgedBehind y s s') s :=
    fun y hy => purgeLoop_behind h hfile hy fuel
  cases hm : purgeLoop prevcommitted blksize fuel s with
  | ok a s' =>
      have hall := fun y hy => wp_ok (hloop y hy) hm
      simp only [wp, hm]
      exact key s' (hall _ hex) hall
  | error e s' =>
      have hall := fun y hy => wp_error (hloop y hy) hm
      simp only [wp, hm]
      exact key s' (hall _ hex) hall

theorem names_purged (s : FSBlockStore Key) (l B : List (ℕ × ℕ)) :
    (s.purged l B).names = l.map fun x => (s.entry x.2).name := rfl

theorem files_purged (s : FSBlockStore Key) (l B : List (ℕ × ℕ)) (n : Name Key) :
    (s.purged l B).files n =
      if n ∈ B.map (fun x => (s.entry x.2).name) then none else s.files n := rfl

theorem find_purged (s : FSBlockStore Key) (l B : List (ℕ × ℕ)) (n : Name Key) :
    (s.purged l B).find n = s.find n := rfl

/-- A name that a purge behind `y` leaves in the list keeps what is in front of it, and `y` itself
stays. -/
theorem names_of_purge {s : FSBlockStore Key} {l B : List (ℕ × ℕ)} (hl : s.lru = l ++ B) :
    s.names = (s.purged l B).names ++ B.map fun x => (s.entry x.2).name := by
  rw [names_purged, FSBlockStore.names, hl, List.map_append]

/-- A purge keeps the names those of the files. -/
theorem file_iff_purged {s : FSBlockStore Key} (h : Linked s)
    (hfile : ∀ n, s.files n ≠ none ↔ n ∈ s.names) {l B : List (ℕ × ℕ)} (hl : s.lru = l ++ B)
    (n : Name Key) : (s.purged l B).files n ≠ none ↔ n ∈ (s.purged l B).names := by
  have hnames := names_of_purge hl
  have hnd := h.names_nodup
  have hn := hfile n
  rw [hnames, List.mem_append] at hn
  rw [hnames] at hnd
  by_cases hnB : n ∈ B.map fun x => (s.entry x.2).name
  · simp only [files_purged, hnB, if_true, ne_eq, not_true_eq_false, false_iff]
    exact fun hnl => List.disjoint_of_nodup_append hnd hnl hnB
  · simp only [files_purged, hnB, if_false]
    simpa [hnB] using hn

theorem mem_names_purged {s : FSBlockStore Key} (h : Linked s) {l B : List (ℕ × ℕ)} {y : Name Key}
    (hl : s.lru = l ++ B) (hB : B <:+ s.past y) (hy : y ∈ s.names) : y ∈ (s.purged l B).names := by
  obtain ⟨A, -, hout, -⟩ := past_spec h y
  rw [names_of_purge hl] at hy
  refine (List.mem_append.1 hy).resolve_right fun hyB => ?_
  rw [← names_of_purge hl] at hy
  exact hout hy ((hB.sublist.map _).subset hyB)

/-! ### What the client is promised -/

/-- The data of the last successful put of a key. -/
def lastPut (k : Key) : List (Event Key) → Option (List UInt8)
  | [] => none
  | .put k' data :: h => if k' = k then some data else lastPut k h
  | _ :: h => lastPut k h

/-- The block was put or refreshed since the last start of cycle `rid`. -/
def TouchedSince (rid : ℕ) (k : Key) : List (Event Key) → Prop
  | [] => False
  | .put k' _ :: h => k' = k ∨ TouchedSince rid k h
  | .refreshBlock _ k' :: h => k' = k ∨ TouchedSince rid k h
  | .refreshStart rid' :: h => rid' ≠ rid ∧ TouchedSince rid k h
  | .refreshFinish _ :: h => TouchedSince rid k h
  | .failed :: h => TouchedSince rid k h

/-- The block was put or refreshed since the start of the most recently finished cycle, or at any
time if no cycle has finished. -/
def Protected (k : Key) : List (Event Key) → Prop
  | [] => False
  | .put k' _ :: h => k' = k ∨ Protected k h
  | .refreshBlock _ k' :: h => k' = k ∨ Protected k h
  | .refreshFinish rid :: h => TouchedSince rid k h
  | .refreshStart _ :: h => Protected k h
  | .failed :: h => Protected k h

/-- A put is turned away for lack of space before anything is purged. -/
def FSBlockStore.NoSpace (s : FSBlockStore Key) (k : Key) (data : List UInt8) : Prop :=
  s.size - s.committed + s.prevcommitted k < data.length

instance (s : FSBlockStore Key) (k : Key) (data : List UInt8) : Decidable (s.NoSpace k data) :=
  inferInstanceAs (Decidable (_ < _))

/-- The state in which the purge loop of a put leaves the store, normally or by an exception. -/
def FSBlockStore.afterPurge (s : FSBlockStore Key) (k : Key) (data : List UInt8) :
    FSBlockStore Key :=
  match purgeLoop (s.prevcommitted k) data.length (s.lru.length + 1) s with
  | .ok _ s' => s'
  | .error _ s' => s'

/-- The file of that name is removed by the purges of a put. -/
def FSBlockStore.PurgedBy (s : FSBlockStore Key) (k : Key) (data : List UInt8) (n : Name Key) :
    Prop :=
  ¬ s.NoSpace k data ∧ s.files n ≠ none ∧ (s.afterPurge k data).files n = none

/-- The names behind the `MARK` in the LRU order. -/
def FSBlockStore.behindMark (s : FSBlockStore Key) : List (Name Key) :=
  (s.past .mark).map fun x => (s.entry x.2).name

/-- **What the store owes its client**, after the history `h` and at the next operation: a protected
block reads back as it was last put, and a put purges nothing protected, nothing that is not behind
the `MARK`, and not the `MARK`. -/
structure GcSafe (s : FSBlockStore Key) (h : List (Event Key)) (op : Op Key) : Prop where
  get : ∀ k, Protected k h → ∃ data, lastPut k h = some data ∧
    ∀ buffsize, data.length ≤ buffsize → bsBlockGet k buffsize s = .ok data s
  purge : ∀ k data n, op = .put k data → s.PurgedBy k data n →
    n ∈ s.behindMark ∧ n ≠ .mark ∧ ∀ k', n = .block k' → ¬ Protected k' h

/-- The condition on a step.  The bytes a put has to free are recorded behind the `MARK`, and if it
replaces a block, behind the previous copy too; and no operation brings back a name whose file was
purged, since the entry of that name is still in the table. -/
def Fits (s : FSBlockStore Key) : Op Key → Prop
  | .put k data =>
      s.NoSpace k data ∨
        (s.excess (s.prevcommitted k) data.length ≤ s.behind .mark ∧
          (s.files (.block k) ≠ none →
            s.excess (s.prevcommitted k) data.length ≤ s.behind (.block k)) ∧
          (s.files (.block k) = none → s.find (.block k) = none))
  | .refreshStart rid => s.files (.rid rid) = none → s.find (.rid rid) = none
  | .refreshBlock _ _ => True
  | .refreshFinish _ => True

instance Fits.decidable (s : FSBlockStore Key) : DecidablePred (Fits s)
  | .put _ _ => inferInstanceAs (Decidable (FSBlockStore.NoSpace _ _ _ ∨ (_ ∧ (_ → _) ∧ (_ → _))))
  | .refreshStart _ => inferInstanceAs (Decidable (_ → _))
  | .refreshBlock _ _ => .isTrue trivial
  | .refreshFinish _ => .isTrue trivial

/-! ### The invariant -/

/-- What is protected is in front of the `MARK`, what an open cycle has touched is in front of its
token, every name in the list has its file, and a block's file holds what was last put. -/
structure GcInv (s : FSBlockStore Key) (h : List (Event Key)) : Prop where
  linked : Linked s
  file : ∀ n, s.files n ≠ none ↔ n ∈ s.names
  mark : (s.find .mark).isSome → .mark ∈ s.names
  data : ∀ k f, s.files (.block k) = some f → lastPut k h = some f.data
  front : ∀ k, Protected k h → .block k ∈ inFront s.names .mark
  since : ∀ rid k, .rid rid ∈ s.names → TouchedSince rid k h → .block k ∈ inFront s.names (.rid rid)

theorem gcInv_bsCreate (size : ℕ) : GcInv (bsCreate size : FSBlockStore Key) [] where
  linked := linked_bsCreate size
  file n := by simp [bsCreate, FSBlockStore.names]
  mark := by simp [bsCreate, FSBlockStore.find]
  data k f := by simp [bsCreate]
  front _ h := h.elim
  since _ _ _ h := h.elim

/-- A failed operation that changed nothing is not remembered. -/
theorem GcInv.failed {s : FSBlockStore Key} {h : List (Event Key)} (hi : GcInv s h) :
    GcInv s (.failed :: h) :=
  ⟨hi.linked, hi.file, hi.mark, hi.data, hi.front, hi.since⟩

/-- Every node of the list has its file. -/
theorem GcInv.lru_file {s : FSBlockStore Key} {h : List (Event Key)} (hi : GcInv s h) :
    ∀ x ∈ s.lru, s.files (s.entry x.2).name ≠ none :=
  fun x hx => (hi.file _).2 (mem_names.2 ⟨x, hx, rfl⟩)

/-- Purging behind the `MARK` takes nothing that the invariant speaks of. -/
theorem GcInv.purged {s : FSBlockStore Key} {h : List (Event Key)} (hi : GcInv s h)
    {l B : List (ℕ × ℕ)} (hl : s.lru = l ++ B) (hB : B <:+ s.past .mark) :
    GcInv (s.purged l B) h := by
  have hnames := names_of_purge hl
  have hsub : l.Sublist s.lru := hl ▸ List.sublist_append_left l B
  refine ⟨hi.linked.purged hsub B, file_iff_purged hi.linked hi.file hl, ?_, ?_, ?_, ?_⟩
  · intro hm
    exact mem_names_purged hi.linked hl hB (hi.mark hm)
  · intro k f hf
    refine hi.data k f ?_
    rw [files_purged] at hf
    split at hf
    · simp at hf
    · exact hf
  · intro k hk
    have := hi.front k hk
    by_cases hm : .mark ∈ s.names
    · rwa [hnames, inFront_append (mem_names_purged hi.linked hl hB hm)] at this
    · -- Without a mark there is nothing behind it.
      obtain ⟨-, -, -, hnil⟩ := past_spec hi.linked (y := .mark)
      obtain rfl : B = [] := by simpa [hnil hm] using hB
      simpa [hnames] using this
  · intro rid k hr hk
    have := hi.since rid k (by rw [hnames]; exact List.mem_append_left _ hr) hk
    rwa [hnames, inFront_append hr] at this

/-- The part of the invariant that a touch carries over, for every history. -/
theorem Touched.inFront {s s' : FSBlockStore Key} {n : Name Key} (ht : Touched n s s')
    {y m : Name Key} (hy : n ≠ y) : m ∈ inFront s'.names y ↔ m = n ∨ m ∈ FSBS.inFront s.names y := by
  rw [ht.names]
  exact mem_inFront_moved hy

/-- Touching a block whose file is there, after an event that says so. -/
theorem GcInv.touchedBlock {s s₁ s' : FSBlockStore Key} {h h' : List (Event Key)} {k : Key}
    {f : File} (hi : GcInv s h) (ht : Touched (.block k) s₁ s') (hnames : s₁.names = s.names)
    (hfind : s₁.find .mark = s.find .mark)
    (hfiles : s₁.files = Function.update s.files (.block k) (some f))
    (hprot : ∀ k', Protected k' h' → k' = k ∨ Protected k' h)
    (hsince : ∀ rid k', TouchedSince rid k' h' → k' = k ∨ TouchedSince rid k' h)
    (hput : lastPut k h' = some f.data) (hold : ∀ k', k' ≠ k → lastPut k' h' = lastPut k' h) :
    GcInv s' h' := by
  refine ⟨ht.linked, ht.file_iff hnames hfiles hi.file, ?_, ?_, ?_, ?_⟩
  · intro hm
    rw [ht.mem_names, hnames]
    refine .inr (hi.mark ?_)
    rw [← hfind]
    exact ht.table .mark (by simp) hm
  · intro k' f' hf'
    rw [ht.files, hfiles] at hf'
    by_cases hk : k' = k
    · subst hk
      obtain rfl : f = f' := by simpa using hf'
      exact hput
    · rw [Function.update_of_ne (by simpa using hk)] at hf'
      rw [hold k' hk]
      exact hi.data k' f' hf'
  · intro k' hk'
    rw [ht.inFront (by simp), hnames]
    rcases hprot k' hk' with rfl | hk'
    · exact .inl rfl
    · exact .inr (hi.front k' hk')
  · intro rid k' hr hk'
    rw [ht.inFront (by simp), hnames]
    rw [ht.mem_names, hnames] at hr
    rcases hsince rid k' hk' with rfl | hk'
    · exact .inl rfl
    · exact .inr (hi.since rid k' (hr.resolve_left (by simp)) hk')

/-! ### One lemma for each operation -/

/-- The result of the purges of a put, however they end. -/
theorem GcInv.purgeLoop {s : FSBlockStore Key} {h : List (Event Key)} (hi : GcInv s h) {k : Key}
    {data : List UInt8} (hfit : Fits s (.put k data)) (hspace : ¬ s.NoSpace k data) (fuel : ℕ) :
    wp (FSBS.purgeLoop (s.prevcommitted k) data.length fuel)
      (fun _ s' => ∃ l B, s.lru = l ++ B ∧ B <:+ s.past .mark ∧
        (s.files (.block k) ≠ none → B <:+ s.past (.block k)) ∧ s' = s.purged l B)
      (fun _ s' => ∃ l B, s.lru = l ++ B ∧ B <:+ s.past .mark ∧ s' = s.purged l B) s := by
  obtain ⟨hmark, hold, -⟩ := hfit.resolve_left hspace
  refine wp_mono (purgeLoop_dropped hi.linked hi.lru_file hmark fuel) ?_ ?_
  · rintro _ s' ⟨l, B, hl, hs', hB⟩
    exact ⟨l, B, hl, hB _ hmark, fun hf => hB _ (hold hf), hs'⟩
  · rintro _ s' ⟨l, B, hl, hs', hB⟩
    exact ⟨l, B, hl, hB _ hmark, hs'⟩

theorem GcInv.bsBlockPut {s : FSBlockStore Key} {h : List (Event Key)} (hi : GcInv s h) (now : ℕ)
    {k : Key} {data : List UInt8} (hfit : Fits s (.put k data)) :
    wp (FSBS.bsBlockPut now k data) (fun _ s' => GcInv s' (.put k data :: h))
      (fun _ s' => GcInv s' (.failed :: h)) s := by
  simp only [FSBS.bsBlockPut, wp_bind, wp_get]
  split
  case isTrue => exact hi.failed
  case isFalse hspace =>
    refine wp_seq (hi.purgeLoop hfit hspace _) ?_ ?_
    · rintro _ _ ⟨l, B, hl, hB, hBk, rfl⟩
      have hp := hi.purged hl hB
      have hhave : ((s.purged l B).find (.block k)).isSome → .block k ∈ (s.purged l B).names := by
        intro hsome
        by_cases hf : s.files (.block k) = none
        · rw [find_purged, (hfit.resolve_left hspace).2.2 hf] at hsome
          simp at hsome
        · exact mem_names_purged hi.linked hl (hBk hf) ((hi.file _).1 hf)
      simp only [wp_bind, wp_modify]
      have hs := sameIndex_booked (s.purged l B) now k data (s.prevsize k) (s.wascommitted k)
      refine wp_mono (touchEntry_spec (hs.linked hp.linked) (.block k) now data.length ?_) ?_
        (fun _ _ hF => hF.elim)
      · rw [hs.names, hs.find]
        exact hhave
      · intro _ s' ht
        refine hp.touchedBlock (f := ⟨data, now⟩) ht hs.names (hs.find _) (booked_files ..) ?_ ?_ ?_ ?_
        · exact fun k' hk' => hk'.imp Eq.symm id
        · exact fun rid k' hk' => hk'.imp Eq.symm id
        · simp [lastPut]
        · intro k' hk'
          simp [lastPut, Ne.symm hk']
    · rintro _ _ ⟨l, B, hl, hB, rfl⟩
      exact (hi.purged hl hB).failed

theorem GcInv.bsRefreshBlock {s : FSBlockStore Key} {h : List (Event Key)} (hi : GcInv s h)
    (now rid : ℕ) (k : Key) :
    wp (FSBS.bsRefreshBlock now rid k)
      (fun b s' => GcInv s' ((if b then .refreshBlock rid k else .failed) :: h))
      (fun _ s' => GcInv s' (.failed :: h)) s := by
  simp only [FSBS.bsRefreshBlock, wp_bind, wp_get]
  split
  case isTrue => exact hi.failed
  case isFalse =>
    cases hf : s.files (.block k) with
    | none => exact hi.failed
    | some f =>
        simp only [wp_bind, wp_set]
        have hs := sameIndex_setFile s (.block k) (some { f with mtime := now })
        refine wp_mono (touchEntry_spec (hs.linked hi.linked) (.block k) now f.data.length ?_) ?_
          (fun _ _ hF => hF.elim)
        · intro _
          rw [hs.names]
          exact (hi.file _).1 (by simp [hf])
        · intro _ s' ht
          refine hi.touchedBlock (f := { f with mtime := now }) ht hs.names (hs.find _) rfl ?_ ?_ ?_ ?_
          · exact fun k' hk' => hk'.imp Eq.symm id
          · exact fun rid k' hk' => hk'.imp Eq.symm id
          · exact hi.data k f hf
          · exact fun k' _ => rfl

theorem GcInv.bsRefreshStart {s : FSBlockStore Key} {h : List (Event Key)} (hi : GcInv s h)
    (now : ℕ) {rid : ℕ} (hfit : Fits s (.refreshStart rid)) :
    wp (FSBS.bsRefreshStart now rid) (fun _ s' => GcInv s' (.refreshStart rid :: h))
      (fun _ s' => GcInv s' (.failed :: h)) s := by
  simp only [FSBS.bsRefreshStart, wp_bind, wp_get]
  split
  case isTrue => exact hi.failed
  case isFalse hno =>
    have hnone : s.files (.rid rid) = none := by simpa using hno
    have hs := sameIndex_setFile s (.rid rid) (some ⟨[], now⟩)
    simp only [wp_bind, wp_set]
    refine wp_mono (touchEntry_spec (hs.linked hi.linked) (.rid rid) now 0 ?_) ?_
      (fun _ _ hF => hF.elim)
    · intro hsome
      rw [hs.find, hfit hnone] at hsome
      simp at hsome
    · intro _ s' ht
      refine ⟨ht.linked, ht.file_iff hs.names rfl hi.file, ?_, ?_, ?_, ?_⟩
      · intro hm
        rw [ht.mem_names, hs.names]
        refine .inr (hi.mark ?_)
        rw [← hs.find]
        exact ht.table .mark (by simp) hm
      · intro k f hf
        rw [ht.files] at hf
        exact hi.data k f (by simpa [FSBlockStore.setFile] using hf)
      · intro k hk
        rw [ht.inFront (by simp), hs.names]
        exact .inr (hi.front k hk)
      · intro r k hr hk
        -- Nothing has been touched yet since the start of this cycle.
        obtain ⟨hne, hk⟩ : rid ≠ r ∧ TouchedSince r k h := hk
        rw [ht.mem_names, hs.names] at hr
        rw [ht.inFront (by simpa using hne), hs.names]
        exact .inr (hi.since r k (hr.resolve_left (by simpa using Ne.symm hne)) hk)

theorem GcInv.bsRefreshFinish {s : FSBlockStore Key} {h : List (Event Key)} (hi : GcInv s h)
    (rid : ℕ) :
    wp (FSBS.bsRefreshFinish rid) (fun _ s' => GcInv s' (.refreshFinish rid :: h))
      (fun _ s' => GcInv s' (.failed :: h)) s := by
  by_cases hr : s.files (.rid rid) = none
  · simp only [FSBS.bsRefreshFinish, wp_bind, wp_get, hr]
    exact hi.failed
  refine wp_mono (bsRefreshFinish_spec hi.linked (fun h => (hi.file _).1 h) hi.mark) ?_ ?_
  · intro _ s' hfin
    have hrn : .rid rid ∈ s.names := (hi.file _).1 hr
    have hmem := hfin.mem_names
    refine ⟨hfin.linked, hfin.file_iff hr hi.file, ?_, ?_, ?_, ?_⟩
    · intro _
      exact (hmem _).2 ⟨.rid rid, hrn, by simp, by simp [renamed]⟩
    · intro k f hf
      rw [hfin.files] at hf
      exact hi.data k f (by simpa using hf)
    · intro k hk
      rw [hfin.names]
      have := mem_inFront_finished rid (by simp) (hi.since rid k hrn hk)
      simpa [renamed] using this
    · intro r k hrm hk
      obtain ⟨m, hm, hmm, heq⟩ := (hmem _).1 hrm
      have hmr : m = .rid r ∧ r ≠ rid := by
        unfold renamed at heq
        split at heq
        case isTrue => simp at heq
        case isFalse hne =>
          subst heq
          exact ⟨rfl, by simpa using hne⟩
      obtain ⟨rfl, hne⟩ := hmr
      rw [hfin.names]
      have := mem_inFront_finished rid (by simp) (hi.since r k hm hk)
      simpa [renamed, hne] using this
  · rintro _ _ rfl
    exact hi.failed

/-! ### Runs -/

/-- One step keeps the invariant, if it meets the condition. -/
theorem GcInv.stepEvent {s : FSBlockStore Key} {h : List (Event Key)} (hi : GcInv s h) (now : ℕ)
    {op : Op Key} (hfit : Fits s op) :
    GcInv (FSBS.stepEvent now op s).2 ((FSBS.stepEvent now op s).1 :: h) := by
  have key : wp (step now op) (fun ev s' => GcInv s' (ev :: h))
      (fun _ s' => GcInv s' (.failed :: h)) s := by
    cases op with
    | put k data => exact wp_seq (hi.bsBlockPut now hfit) (fun _ _ h' => h') (fun _ _ h' => h')
    | refreshStart rid =>
        exact wp_seq (hi.bsRefreshStart now hfit) (fun _ _ h' => h') (fun _ _ h' => h')
    | refreshBlock rid k =>
        refine wp_seq (hi.bsRefreshBlock now rid k) ?_ (fun _ _ h' => h')
        rintro (_ | _) s' h' <;> exact h'
    | refreshFinish rid =>
        exact wp_seq (hi.bsRefreshFinish rid) (fun _ _ h' => h') (fun _ _ h' => h')
  unfold FSBS.stepEvent
  cases hm : step now op s with
  | ok ev s' =>
      have hok := wp_ok key hm
      exact hok
  | error e s' =>
      have herr := wp_error key hm
      exact herr

/-- **The invariant holds along every run whose steps meet the condition.** -/
theorem gcInv_run {size : ℕ} {s : FSBlockStore Key} {t : ℕ} {h : List (Event Key)}
    (hr : RunWith Fits size s t h) : GcInv s h := by
  induction hr with
  | create => exact gcInv_bsCreate size
  | step now op _ _ hfit ih => exact ih.stepEvent _ hfit

/-- A protected block has its file, and the file holds what was last put. -/
theorem GcInv.get {s : FSBlockStore Key} {h : List (Event Key)} (hi : GcInv s h) {k : Key}
    (hk : Protected k h) : ∃ data, lastPut k h = some data ∧
      ∀ buffsize, data.length ≤ buffsize → bsBlockGet k buffsize s = .ok data s := by
  have hmem := (hi.file _).2 (mem_of_mem_inFront (hi.front k hk))
  obtain ⟨f, hf⟩ := Option.ne_none_iff_exists'.1 hmem
  refine ⟨f.data, hi.data k f hf, fun buffsize hb => ?_⟩
  have hgo : wp (bsBlockGet k buffsize) (fun d s' => d = f.data ∧ s' = s) (fun _ _ => False) s := by
    simp only [bsBlockGet, wp_bind, wp_get, hf, if_neg (not_lt.2 hb), wp_pure, and_self]
  cases hm : bsBlockGet k buffsize s with
  | ok d s' =>
      obtain ⟨rfl, rfl⟩ := wp_ok hgo hm
      rfl
  | error e s' => exact (wp_error hgo hm).elim

/-- What a put purges is behind the mark. -/
theorem GcInv.purge {s : FSBlockStore Key} {h : List (Event Key)} (hi : GcInv s h) {k : Key}
    {data : List UInt8} (hfit : Fits s (.put k data)) {n : Name Key} (hn : s.PurgedBy k data n) :
    n ∈ s.behindMark ∧ n ≠ .mark ∧ ∀ k', n = .block k' → ¬ Protected k' h := by
  obtain ⟨hspace, hfile, hgone⟩ := hn
  have hloop := hi.purgeLoop hfit hspace (s.lru.length + 1)
  obtain ⟨l, B, hl, hB, hs'⟩ : ∃ l B, s.lru = l ++ B ∧ B <:+ s.past .mark ∧
      s.afterPurge k data = s.purged l B := by
    unfold FSBlockStore.afterPurge
    cases hm : FSBS.purgeLoop (s.prevcommitted k) data.length (s.lru.length + 1) s with
    | ok _ s' =>
        obtain ⟨l, B, hl, hB, -, hs'⟩ := wp_ok hloop hm
        exact ⟨l, B, hl, hB, hs'⟩
    | error _ s' => exact wp_error hloop hm
  have hnB : n ∈ B.map fun x => (s.entry x.2).name := by
    rw [hs', files_purged] at hgone
    by_contra hnB
    exact hfile (by simpa only [hnB, if_false] using hgone)
  have hp := hi.purged hl hB
  have hout : n ∉ (s.purged l B).names := by
    rw [← hp.file, ← hs', hgone]
    simp
  refine ⟨(hB.sublist.map _).subset hnB, ?_, ?_⟩
  · rintro rfl
    exact hout (mem_names_purged hi.linked hl hB ((hi.file _).1 hfile))
  · rintro k' rfl hk'
    exact hout (mem_of_mem_inFront (hp.front k' hk'))

/-- **Garbage-collection safety.**  In a run whose steps meet the condition, every state reached
reads protected blocks back, and every put purges only what is behind the `MARK`. -/
theorem gcSafe_of_fits (size : ℕ) (s : FSBlockStore Key) (t : ℕ) (h : List (Event Key))
    (hr : RunWith Fits size s t h) (op : Op Key) (hfit : Fits s op) : GcSafe s h op where
  get _ hk := (gcInv_run hr).get hk
  purge := by
    rintro k data n rfl hn
    exact (gcInv_run hr).purge hfit hn

/-- A store of 30 bytes holds two blocks of 10; a cycle has kept the first of them, and a put of 15
bytes then purges the second. -/
theorem gcSafe_after_cycle :
    ∃ (s : FSBlockStore Key) (t : ℕ),
      RunWith Fits 30 s t [.refreshFinish 1, .refreshBlock 1 (key 0), .refreshStart 1,
        .put (key 1) (List.replicate 10 7), .put (key 0) (List.replicate 10 7)] ∧
      s.PurgedBy (key 2) (List.replicate 15 7) (.block (key 1)) ∧
      GcSafe s [.refreshFinish 1, .refreshBlock 1 (key 0), .refreshStart 1,
        .put (key 1) (List.replicate 10 7), .put (key 0) (List.replicate 10 7)]
        (.put (key 2) (List.replicate 15 7)) := by
  have r₀ : RunWith Fits 30 (bsCreate 30 : FSBlockStore Key) 0 [] := .create
  have r₁ := r₀.step 0 (.put (key 0) (List.replicate 10 7)) le_rfl (by decide)
  have r₂ := r₁.step 0 (.put (key 1) (List.replicate 10 7)) le_rfl (by decide)
  have r₃ := r₂.step 1 (.refreshStart 1) (by decide) (by decide)
  have r₄ := r₃.step 1 (.refreshBlock 1 (key 0)) le_rfl (by decide)
  have r₅ := r₄.step 1 (.refreshFinish 1) le_rfl (by decide)
  refine ⟨_, _, r₅, ?_, gcSafe_of_fits 30 _ _ _ r₅ _ (by decide)⟩
  exact ⟨by decide, by decide, by decide⟩

/-- **An open cycle breaks the promise.**  After the first cycle a second one has refreshed the other
block, which is now in front of the `MARK` although the counters still call its bytes uncommitted.
A put of 15 bytes purges the `MARK` and then the block that the finished cycle protects. -/
theorem not_gcSafe_open_cycle :
    ¬ ∀ (size : ℕ) (s : FSBlockStore Key) (t : ℕ) (h : List (Event Key)), Run size s t h →
      ∀ op : Op Key, GcSafe s h op := by
  intro hsafe
  have r₀ : Run 30 (bsCreate 30 : FSBlockStore Key) 0 [] := .create
  have r₁ := r₀.step 0 (.put (key 0) (List.replicate 10 7)) le_rfl trivial
  have r₂ := r₁.step 0 (.put (key 1) (List.replicate 10 7)) le_rfl trivial
  have r₃ := r₂.step 1 (.refreshStart 1) (by decide) trivial
  have r₄ := r₃.step 1 (.refreshBlock 1 (key 0)) le_rfl trivial
  have r₅ := r₄.step 1 (.refreshFinish 1) le_rfl trivial
  have r₆ := r₅.step 1 (.refreshStart 2) le_rfl trivial
  have r₇ := r₆.step 1 (.refreshBlock 2 (key 1)) le_rfl trivial
  have hs := hsafe 30 _ _ _ r₇ (.put (key 2) (List.replicate 15 7))
  have hpurged := hs.purge (key 2) (List.replicate 15 7) (.block (key 0)) rfl
    ⟨by decide, by decide, by decide⟩
  refine hpurged.2.2 (key 0) rfl ?_
  exact .inr (.inl rfl)

end FSBS

end Utopfs
