/-
**What a completed put to the block store in S3 promises.**

`bs_block_put_async` looks for the key in `m_entries`, and calls `bp_complete` at once if it is there.  What
the bucket then has is what the first put of the key has left in it, unless the block has been purged since:
`purge_uncommitted` takes the entry off the list and leaves it in `m_entries`.  And the entry stays at its
place in the list, which may be behind the `MARK`.

The runs of this module go on over any number of openings, through either copy of the index or the listing.
What has happened since the last opening decides what a completed put has done.

Main definitions:

* `S3BS.Stored` — the block is in the bucket and committed;
* `S3BS.Happening`, `S3BS.happenings` — what an operation does, the purges of a put included;
* `S3BS.Life` — the runs: the store as it was opened, as it is, and what has happened in between;
* `S3BS.Known`, `S3BS.blockOf`, `S3BS.OnList`, `S3BS.Since` — what a history says of a key;
* `S3BS.KeepsBlock` — the condition.

Main results:

* `S3BS.Did.live` — what one happening does to what the history says;
* `S3BS.life_live` — **the history says where the blocks are**, in every run;
* `S3BS.put_stored_iff` — when a put that completes has stored and committed its block.
-/

import Utopfs.S3BlockStoreReopen

set_option relaxedAutoImplicit false
set_option autoImplicit false
set_option linter.unusedSectionVars false

namespace Utopfs

namespace S3BS

open Prog

variable {Key : Type} [DecidableEq Key]

/-! ### Runs over many openings -/

/-- The block is in the bucket, a get returns it, and its entry is in front of the mark. -/
structure Stored (k : Key) (data : List UInt8) (s : S3BlockStore Key) : Prop where
  object : ∃ o, s.object (.block k) = some o ∧ o.data = data
  get : ∀ buffsize, data.length ≤ buffsize → ∃ s', bsBlockGet k buffsize s = .ok data s'
  committed : .block k ∈ s.lru.takeWhile fun n => n ≠ .mark

/-- What happens to a store. -/
inductive Happening (Key : Type)
  /-- A put completes. -/
  | put (k : Key) (data : List UInt8)
  /-- An entry is purged. -/
  | purge (n : Name Key)
  | refreshStart (rid : ℕ)
  /-- The refresh of a block returns. -/
  | refreshBlock (k : Key)
  | refreshFinish (rid : ℕ)
  deriving DecidableEq

section runs

variable (lessByName : Name Key → Name Key → Bool)

/-- The purges of a put: what has left the list. -/
def S3BlockStore.gone (s s' : S3BlockStore Key) : List (Happening Key) :=
  (s.lru.filter fun n => n ∉ s'.lru).map Happening.purge

/-- What an operation at time `now` does, newest first. -/
def happenings (now : ℕ) (op : Op Key) (s : S3BlockStore Key) : List (Happening Key) :=
  match op, step lessByName now op s with
  | .put k data, .ok _ s' => .put k data :: s.gone s'
  -- The purges before the failure stay.
  | .put _ _, .error _ s' => s.gone s'
  | .refreshStart rid, .ok _ _ => [.refreshStart rid]
  | .refreshBlock _ k, .ok _ _ => [.refreshBlock k]
  | .refreshFinish rid, .ok _ _ => [.refreshFinish rid]
  | _, .error _ _ => []

/-- **The runs of a store**: the store as it was opened last, as it is now, the time of the last operation, and
what has happened since the opening, newest first.  A store is opened on what is left of it when the process
ends, with the saved file or without. -/
inductive Life : S3BlockStore Key → S3BlockStore Key → ℕ → List (Happening Key) → Prop
  | create (size : ℕ) : Life (bsCreate size) (bsCreate size) 0 []
  | step {base s : S3BlockStore Key} {t : ℕ} {h : List (Happening Key)} (now : ℕ) (op : Op Key) :
      Life base s t h → t ≤ now →
      Life base (stepEvent lessByName now op s).2 now (happenings lessByName now op s ++ h)
  | reopen {base s : S3BlockStore Key} {t : ℕ} {h : List (Happening Key)} (keepFile : Bool) :
      Life base s t h →
      Life (bsOpen lessByName (s.closed keepFile)) (bsOpen lessByName (s.closed keepFile)) t []

end runs

/-! ### What a history says -/

section history

/-- The put of a key. -/
def Happening.puts (k : Key) : Happening Key → Bool
  | .put k' _ => k' = k
  | _ => false

variable (base : S3BlockStore Key)

/-- The store knew the key as it was opened, or a put of it has completed since. -/
def Known (k : Key) (h : List (Happening Key)) : Prop :=
  .block k ∈ base.entries ∨ ∃ x ∈ h, x.puts k = true

instance (k : Key) (h : List (Happening Key)) : Decidable (Known base k h) :=
  inferInstanceAs (Decidable (_ ∨ _))

/-- The block of a key: the one that was there at the opening, or that of the put that made the key known. -/
def blockOf (k : Key) : List (Happening Key) → Option (List UInt8)
  | [] => (base.object (.block k)).map Object.data
  | .put k' data :: h => if k' = k ∧ ¬ Known base k h then some data else blockOf k h
  | _ :: h => blockOf k h

/-- A token or the mark is on the list: it was so at the opening, or its cycle has started since, and it has not
been purged.  The mark is the token of the cycle that finished last. -/
def OnList : List (Happening Key) → Name Key → Prop
  | [], n => n ∈ base.lru
  | .refreshStart rid :: h, n => n = .rid rid ∨ OnList h n
  | .refreshFinish rid :: h, n => if n = .mark then OnList h (.rid rid) else n ≠ .rid rid ∧ OnList h n
  | .purge m :: h, n => n ≠ m ∧ OnList h n
  | .put _ _ :: h, n => OnList h n
  | .refreshBlock _ :: h, n => OnList h n

/-- The key has been made known or refreshed since the cycle of a token started; for a token that is older than
the opening, the key was in front of it then or this has happened since.  The mark is the token of the cycle
that finished last. -/
def Since (k : Key) : List (Happening Key) → Name Key → Prop
  | [], n => .block k ∈ base.lru.takeWhile fun m => m ≠ n
  | .put k' _ :: h, n => (k' = k ∧ ¬ Known base k h) ∨ Since k h n
  | .refreshBlock k' :: h, n => k' = k ∨ Since k h n
  | .refreshStart rid :: h, n => n ≠ .rid rid ∧ Since k h n
  | .refreshFinish rid :: h, n => Since k h (if n = .mark then .rid rid else n)
  | .purge _ :: h, n => Since k h n

end history

/-! ### What one operation does -/

/-- **The purge loop drops an end of the list.** -/
theorem purgeLoop_drops (blksize : ℕ) : ∀ (fuel : ℕ) (s : S3BlockStore Key),
    wp (purgeLoop blksize fuel) (fun _ s' => ∃ l B, s.lru = l ++ B ∧ s' = s.purged l B)
      (fun _ s' => ∃ l B, s.lru = l ++ B ∧ s' = s.purged l B) s := by
  intro fuel
  have hnone : ∀ s : S3BlockStore Key, ∃ l B, s.lru = l ++ B ∧ s = s.purged l B := fun s =>
    ⟨s.lru, [], (List.append_nil _).symm, (purged_nil s).symm⟩
  induction fuel with
  | zero => exact fun s => hnone s
  | succ fuel ih =>
      intro s
      simp only [purgeLoop, wp_bind, wp_get]
      split
      case isFalse => exact hnone s
      case isTrue =>
        rcases List.eq_nil_or_concat' s.lru with hnil | ⟨l, n, hl⟩
        · simp only [purgeUncommitted, purgePop, wp_bind, wp_get, hnil, List.getLast?_nil, wp_throw]
          simpa only [hnil] using hnone s
        · refine wp_seq (purgeUncommitted_spec hl) ?_ (fun _ s' hs' => hs' ▸ hnone s)
          rintro _ _ ⟨-, rfl⟩
          have hjoin : ∀ s', (∃ l' B, l = l' ++ B ∧ s' = (s.purged l [n]).purged l' B) →
              ∃ l' B, s.lru = l' ++ B ∧ s' = s.purged l' B := by
            rintro _ ⟨l', B, rfl, rfl⟩
            exact ⟨l', B ++ [n], by rw [hl, List.append_assoc], purged_purged ..⟩
          exact wp_mono (ih (s.purged l [n])) (fun _ => hjoin) (fun _ => hjoin)

/-- The store after a block that it did not know has been put. -/
def S3BlockStore.took (s : S3BlockStore Key) (now : ℕ) (k : Key) (data : List UInt8) : S3BlockStore Key :=
  { (s.putObject (.block k) ⟨data, now⟩).setEntry (.block k) ⟨now, data.length⟩ with
    committed := s.committed + data.length
    entries := .block k :: s.entries
    lru := .block k :: s.lru }

/-- **What a put does.** -/
theorem bsBlockPut_spec (now : ℕ) (k : Key) (data : List UInt8) (s : S3BlockStore Key) :
    wp (bsBlockPut now k data)
      (fun _ s' => (.block k ∈ s.entries ∧ s' = s) ∨
        (.block k ∉ s.entries ∧ ∃ l B, s.lru = l ++ B ∧ s' = (s.purged l B).took now k data))
      (fun _ s' => ∃ l B, s.lru = l ++ B ∧ s' = s.purged l B) s := by
  simp only [bsBlockPut, wp_bind, wp_get]
  split
  case isTrue hk => exact .inl ⟨hk, rfl⟩
  case isFalse hk =>
    split
    case isTrue => exact ⟨s.lru, [], (List.append_nil _).symm, (purged_nil s).symm⟩
    case isFalse =>
      refine wp_seq (purgeLoop_drops _ _ s) ?_ (fun _ _ h => h)
      rintro _ _ ⟨l, B, hl, rfl⟩
      simp only [wp_bind, wp_modify]
      rw [wp, updatePutStats_new (s := (s.purged l B).putObject (.block k) ⟨data, now⟩) hk]
      exact .inr ⟨hk, l, B, hl, rfl⟩

theorem bsRefreshStart_spec (now rid : ℕ) (s : S3BlockStore Key) :
    wp (bsRefreshStart now rid)
      (fun _ s' => .rid rid ∉ s.entries ∧
        s' = { s.setEntry (.rid rid) ⟨now, -1⟩ with
          entries := .rid rid :: s.entries
          lru := .rid rid :: s.lru })
      (fun _ s' => s' = s) s := by
  simp only [bsRefreshStart, wp_bind, wp_get]
  split
  case isTrue => rfl
  case isFalse hrid =>
    simp only [touchEntry, wp_bind, wp_get, if_neg hrid, if_true, wp_set, wp_pure]
    exact ⟨hrid, trivial⟩

theorem bsRefreshBlock_spec (now rid : ℕ) (k : Key) (s : S3BlockStore Key) :
    wp (bsRefreshBlock now rid k)
      (fun _ s' => (.block k ∉ s.entries ∧ s' = s) ∨ (.block k ∈ s.entries ∧ .block k ∈ s.lru ∧ ∃ e,
        s' = { s.setEntry (.block k) e with lru := .block k :: s.lru.filter fun n => n ≠ .block k }))
      (fun _ s' => s' = s) s := by
  simp only [bsRefreshBlock, wp_bind, wp_get]
  split
  case isTrue => rfl
  case isFalse =>
    simp only [touchEntry, wp_bind, wp_get, lruErase]
    split
    case isFalse hk => exact .inl ⟨hk, rfl⟩
    case isTrue hk =>
      simp only [wp_bind, wp_get]
      split
      case isFalse => rfl
      case isTrue hl =>
        exact .inr ⟨hk, hl, _, rfl⟩

/-- **What the end of a cycle does.**  It fails where the mark has been purged. -/
theorem bsRefreshFinish_spec (lessByName : Name Key → Name Key → Bool) (rid : ℕ) {s : S3BlockStore Key}
    (hsub : ∀ n ∈ s.lru, n ∈ s.entries) :
    wp (bsRefreshFinish lessByName rid)
      (fun _ s' => .rid rid ∈ s.entries ∧ s'.bucket = s.bucket ∧
        s'.entries = .mark :: (s.entries.erase .mark).erase (.rid rid) ∧
        s'.lru = (s.lru.filter fun n => n ≠ .mark).map (renamed rid) ∧
        s'.mdndxFile = some (s'.mdIndex lessByName) ∧ s'.mdndxObject = some (s'.mdIndex lessByName))
      (fun _ s' => s' = s ∨ (.mark ∉ s.lru ∧ s' = { s with entries := s.entries.erase .mark })) s := by
  simp only [bsRefreshFinish, wp_bind, wp_get]
  split
  case isTrue => exact .inl rfl
  case isFalse hrid =>
    have hmark : wp removeMark
        (fun _ s' => ∃ l, l = s.lru.filter (fun n => n ≠ .mark) ∧
          s' = { s with entries := s.entries.erase .mark, lru := l })
        (fun _ s' => .mark ∉ s.lru ∧ s' = { s with entries := s.entries.erase .mark }) s := by
      simp only [removeMark, wp_bind, wp_get]
      split
      case isTrue =>
        simp only [wp_bind, wp_set, lruErase, wp_get]
        split
        case isTrue => exact ⟨_, rfl, rfl⟩
        case isFalse hm => exact ⟨hm, rfl⟩
      case isFalse hm =>
        have hkeep : s.lru.filter (fun n => decide (n ≠ .mark)) = s.lru :=
          List.filter_eq_self.2 fun n hn => by simpa using fun he : n = .mark => hm (he ▸ hsub n hn)
        exact ⟨s.lru, hkeep.symm, by rw [List.erase_of_not_mem hm]⟩
    refine wp_seq hmark ?_ (fun _ _ h => .inr h)
    rintro _ _ ⟨l, rfl, rfl⟩
    simp only [renameToken, addUp, wp_bind, wp_modify]
    exact ⟨not_not.1 hrid, rfl, trivial, rfl, rfl, rfl⟩

/-! ### What one happening does -/

section did

variable {s s' : S3BlockStore Key} {x : Happening Key} {k : Key} {n : Name Key}

/-- The list after a happening. -/
def Happening.list (s : S3BlockStore Key) : Happening Key → List (Name Key)
  | .put k _ => if .block k ∈ s.entries then s.lru else .block k :: s.lru
  | .purge n => s.lru.filter fun m => m ≠ n
  | .refreshStart rid => .rid rid :: s.lru
  | .refreshBlock k =>
      if .block k ∈ s.entries then .block k :: s.lru.filter fun m => m ≠ .block k else s.lru
  | .refreshFinish rid => (s.lru.filter fun m => m ≠ .mark).map (renamed rid)

/-- The block of a key in the bucket. -/
def S3BlockStore.dataOf (s : S3BlockStore Key) (k : Key) : Option (List UInt8) :=
  (s.object (.block k)).map Object.data

/-- The block of a key after a happening. -/
def Happening.data (s : S3BlockStore Key) (k : Key) : Happening Key → Option (List UInt8)
  | .put k' data => if k' = k ∧ .block k ∉ s.entries then some data else s.dataOf k
  | _ => s.dataOf k

/-- What has to be for something to happen. -/
def Happening.May (s : S3BlockStore Key) : Happening Key → Prop
  | .purge n => n ∈ s.lru
  | .refreshBlock k => .block k ∈ s.entries → .block k ∈ s.lru
  | .put _ _ => True
  | .refreshStart _ => True
  | .refreshFinish _ => True

/-- The two stores differ by one happening. -/
structure Did (x : Happening Key) (s s' : S3BlockStore Key) : Prop where
  may : x.May s
  lru : s'.lru = x.list s
  known : ∀ k, .block k ∈ s'.entries ↔ .block k ∈ s.entries ∨ x.puts k = true
  data : ∀ k, .block k ∈ s'.lru → s'.dataOf k = x.data s k

/-- Only the token of the cycle gets the name of the mark, and only by that. -/
theorem renamed_eq_mark {rid : ℕ} (hn : n ≠ .mark) : renamed rid n = .mark ↔ n = .rid rid := by
  unfold renamed
  split
  case isTrue h => simp [h]
  case isFalse h => simp [h, hn]

theorem renamed_eq_of_ne {rid : ℕ} {m : Name Key} (hm : m ≠ .mark) :
    renamed rid n = m ↔ n = m ∧ m ≠ .rid rid := by
  unfold renamed
  split
  case isTrue h =>
    subst h
    exact ⟨fun he => absurd he.symm hm, fun he => absurd he.1.symm he.2⟩
  case isFalse h =>
    refine ⟨?_, And.left⟩
    rintro rfl
    exact ⟨rfl, h⟩

/-- The blocks of the list. -/
theorem mem_list_block (hmay : x.May s) : .block k ∈ x.list s ↔
    (.block k ∈ s.lru ∧ x ≠ .purge (.block k)) ∨ (x.puts k = true ∧ .block k ∉ s.entries) := by
  cases x with
  | put k' data =>
      simp only [Happening.list, Happening.puts, decide_eq_true_eq]
      split
      case isTrue hk =>
        have hno : ¬ (k' = k ∧ .block k ∉ s.entries) := by
          rintro ⟨rfl, hout⟩
          exact hout hk
        simp [hno]
      case isFalse hk =>
        have hcons : k = k' ↔ k' = k ∧ .block k ∉ s.entries := by
          refine ⟨?_, fun h => h.1.symm⟩
          rintro rfl
          exact ⟨rfl, hk⟩
        rw [List.mem_cons, Name.block.injEq, hcons, or_comm]
        simp
  | purge m =>
      simp only [Happening.list, Happening.puts, List.mem_filter, decide_eq_true_eq]
      simp [eq_comm]
  | refreshStart rid => simp [Happening.list, Happening.puts]
  | refreshBlock k' =>
      simp only [Happening.list, Happening.puts]
      split
      case isTrue hk =>
        have hin := hmay hk
        by_cases hkk : k = k'
        · subst hkk
          simp [hin]
        · simp [hkk]
      case isFalse => simp
  | refreshFinish rid =>
      have hne : (Name.block k : Name Key) ≠ .mark := by simp
      simp only [Happening.list, Happening.puts, List.mem_map, List.mem_filter, renamed_eq_of_ne hne]
      simp

end did

/-! ### The history says where the blocks are -/

section live

variable {base s s' : S3BlockStore Key} {x : Happening Key} {h : List (Happening Key)} {k : Key}

theorem known_cons : Known base k (x :: h) ↔ Known base k h ∨ x.puts k = true := by
  simp only [Known, List.mem_cons, exists_eq_or_imp, or_assoc]
  exact or_congr_right or_comm

/-- **What the history says of a store.** -/
structure Live (base s : S3BlockStore Key) (h : List (Happening Key)) : Prop where
  sub : ∀ k, .block k ∈ s.lru → .block k ∈ s.entries
  known : ∀ k, .block k ∈ s.entries ↔ Known base k h
  purged : ∀ k, .purge (.block k) ∈ h → .block k ∈ s.entries
  kept : ∀ k, .block k ∈ s.entries → (.block k ∈ s.lru ↔ .purge (.block k) ∉ h)
  data : ∀ k, .block k ∈ s.lru → s.dataOf k = blockOf base k h
  onList : ∀ n, ¬ n.IsBlock → (n ∈ s.lru ↔ OnList base h n)
  since : ∀ k n, ¬ n.IsBlock → n ∈ s.lru → .block k ∈ s.lru →
    (.block k ∈ s.lru.takeWhile (fun m => m ≠ n) ↔ Since base k h n)

/-- The tokens and the mark of the list. -/
theorem Live.mem_list (hl : Live base s h) {n : Name Key} (hn : ¬ n.IsBlock) :
    n ∈ x.list s ↔ OnList base (x :: h) n := by
  have hb : ∀ k, n ≠ .block k := by
    rintro k rfl
    exact hn trivial
  cases x with
  | put k data =>
      rw [OnList, ← hl.onList n hn, Happening.list]
      split
      case isTrue => rfl
      case isFalse => simp [hb]
  | purge m =>
      rw [OnList, ← hl.onList n hn, Happening.list, List.mem_filter, decide_eq_true_eq, and_comm]
  | refreshStart rid => rw [OnList, ← hl.onList n hn, Happening.list, List.mem_cons]
  | refreshBlock k =>
      rw [OnList, ← hl.onList n hn, Happening.list]
      split
      case isTrue => simp [hb]
      case isFalse => rfl
  | refreshFinish rid =>
      rw [OnList, Happening.list, List.mem_map]
      split
      case isTrue hm =>
        subst hm
        rw [← hl.onList (.rid rid) id]
        constructor
        · rintro ⟨m, hm, heq⟩
          obtain ⟨hm, hne⟩ := List.mem_filter.1 hm
          exact (renamed_eq_mark (by simpa using hne)).1 heq ▸ hm
        · intro hrid
          exact ⟨.rid rid, List.mem_filter.2 ⟨hrid, by simp⟩, (renamed_eq_mark (by simp)).2 rfl⟩
      case isFalse hm =>
        rw [← hl.onList n hn]
        constructor
        · rintro ⟨m, hm', heq⟩
          obtain ⟨rfl, hne⟩ := (renamed_eq_of_ne hm).1 heq
          exact ⟨hne, (List.mem_filter.1 hm').1⟩
        · rintro ⟨hne, hin⟩
          exact ⟨n, List.mem_filter.2 ⟨hin, by simpa using hm⟩, (renamed_eq_of_ne hm).2 ⟨rfl, hne⟩⟩

/-- A block in front of a token or of the mark. -/
theorem Live.before_list (hl : Live base s h) (hmay : x.May s) {n : Name Key} (hn : ¬ n.IsBlock)
    (hin : n ∈ x.list s) (hk : .block k ∈ x.list s) :
    .block k ∈ (x.list s).takeWhile (fun m => m ≠ n) ↔ Since base k (x :: h) n := by
  have hb : ∀ k', (.block k' : Name Key) ≠ n := by
    rintro k' rfl
    exact hn trivial
  rw [mem_list_block hmay] at hk
  cases x with
  | put k' data =>
      simp only [Happening.list] at hin ⊢
      rw [Since]
      split at hin
      case isTrue hk' =>
        rw [if_pos hk']
        have hno : ¬ (k' = k ∧ ¬ Known base k h) := by
          rintro ⟨rfl, hno⟩
          exact hno ((hl.known k').1 hk')
        have hks : .block k ∈ s.lru := (hk.resolve_right fun hp => by
          obtain rfl : k' = k := of_decide_eq_true hp.1
          exact hp.2 hk').1
        rw [hl.since k n hn hin hks]
        simp [hno]
      case isFalse hk' =>
        rw [if_neg hk', List.takeWhile_cons_of_pos (by simpa using hb k'), List.mem_cons, Name.block.injEq]
        have hin' : n ∈ s.lru := (List.mem_cons.1 hin).resolve_left (Ne.symm (hb k'))
        by_cases hkk : k = k'
        · subst hkk
          simp only [true_or, true_iff, true_and]
          exact .inl fun hkn => hk' ((hl.known k).2 hkn)
        · have hks : .block k ∈ s.lru :=
            (hk.resolve_right fun hp => hkk (of_decide_eq_true hp.1).symm).1
          rw [hl.since k n hn hin' hks, or_iff_right hkk, or_iff_right fun h => hkk h.1.symm]
  | purge m =>
      obtain ⟨hks, hne⟩ := hk.resolve_right (by simp [Happening.puts])
      obtain ⟨hin, hnm⟩ := List.mem_filter.1 hin
      have hkm : .block k ≠ m := fun he => hne (by rw [he])
      rw [Happening.list, Since, Recency.mem_before_dropped hkm (Ne.symm (of_decide_eq_true hnm))]
      exact hl.since k n hn hin hks
  | refreshStart rid =>
      obtain ⟨hks, -⟩ := hk.resolve_right (by simp [Happening.puts])
      rw [Happening.list, Since]
      by_cases hnr : n = .rid rid
      · subst hnr
        simp
      · have hin' : n ∈ s.lru := (List.mem_cons.1 hin).resolve_left hnr
        rw [List.takeWhile_cons_of_pos (by simpa using Ne.symm hnr), List.mem_cons, hl.since k n hn hin' hks]
        simp [hnr]
  | refreshBlock k' =>
      obtain ⟨hks, -⟩ := hk.resolve_right (by simp [Happening.puts])
      simp only [Happening.list] at hin ⊢
      rw [Since]
      split at hin
      case isTrue hk' =>
        have hin' : n ∈ s.lru := by
          rcases List.mem_cons.1 hin with he | hin
          · exact absurd he.symm (hb k')
          · exact (List.mem_filter.1 hin).1
        rw [if_pos hk', Recency.mem_before_moved (hb k'), hl.since k n hn hin' hks, Name.block.injEq, eq_comm]
      case isFalse hk' =>
        have hkk : k' ≠ k := by
          rintro rfl
          exact hk' (hl.sub k' hks)
        rw [if_neg hk', hl.since k n hn hin hks]
        simp [hkk]
  | refreshFinish rid =>
      obtain ⟨hks, -⟩ := hk.resolve_right (by simp [Happening.puts])
      rw [Happening.list] at hin ⊢
      rw [Since]
      -- The block keeps its name.
      have hmap : ∀ l : List (Name Key), .block k ∈ l.map (renamed rid) ↔ .block k ∈ l := by
        intro l
        rw [List.mem_map]
        simp [renamed_eq_of_ne]
      have hname : ∀ a ∈ s.lru.filter (fun m => m ≠ .mark), a ≠ .mark := fun a ha => by
        simpa using (List.mem_filter.1 ha).2
      obtain ⟨m, hm, rfl⟩ := List.mem_map.1 hin
      have hmm := hname m hm
      rw [Recency.before_map fun a ha he => renamed_inj (hname a ha) hmm he, hmap,
        Recency.mem_before_dropped (by simp) (Ne.symm hmm)]
      have hmb : ¬ m.IsBlock := by
        intro hmb
        cases m with
        | block k' => exact hn trivial
        | rid r => exact hmb
        | mark => exact hmb
      rw [hl.since k m hmb (List.mem_filter.1 hm).1 hks]
      -- The token has become the mark.
      by_cases hmr : m = .rid rid
      · subst hmr
        rw [(renamed_eq_mark (by simp)).2 rfl, if_pos rfl]
      · have hself : renamed rid m = m := if_neg hmr
        rw [hself, if_neg hmm]

/-- **What one happening does to what the history says.** -/
theorem Did.live (hd : Did x s s') (hl : Live base s h) : Live base s' (x :: h) := by
  have hblock := fun k => mem_list_block (s := s) (k := k) hd.may
  refine ⟨fun k hk => ?_, fun k => ?_, fun k hk => ?_, fun k hk => ?_, fun k hk => ?_, fun n hn => ?_,
    fun k n hn hin hk => ?_⟩
  · rw [hd.lru, hblock] at hk
    exact (hd.known k).2 (hk.imp (fun h => hl.sub k h.1) fun h => h.1)
  · rw [hd.known, hl.known, known_cons]
  · refine (hd.known k).2 (.inl ?_)
    rcases List.mem_cons.1 hk with rfl | hk
    · exact hl.sub k hd.may
    · exact hl.purged k hk
  · rw [hd.lru, hblock, List.mem_cons, not_or]
    by_cases hold : .block k ∈ s.entries
    · rw [hl.kept k hold]
      simp only [hold, not_true_eq_false, and_false, or_false]
      exact ⟨fun h => ⟨Ne.symm h.2, h.1⟩, fun h => ⟨h.2, Ne.symm h.1⟩⟩
    · have hputs := ((hd.known k).1 hk).resolve_left hold
      simp only [hputs, hold, not_false_eq_true, and_self, or_true, true_iff]
      refine ⟨?_, fun hp => hold (hl.purged k hp)⟩
      rintro rfl
      simp [Happening.puts] at hputs
  · have hdata := hd.data k hk
    rw [hd.lru, hblock] at hk
    rw [hdata]
    cases x with
    | put k' data =>
        rw [Happening.data, blockOf]
        by_cases hnew : k' = k ∧ .block k ∉ s.entries
        · rw [if_pos hnew, if_pos ⟨hnew.1, fun hkn => hnew.2 ((hl.known k).2 hkn)⟩]
        · rw [if_neg hnew, if_neg fun hno => hnew ⟨hno.1, fun hin => hno.2 ((hl.known k).1 hin)⟩]
          exact hl.data k (hk.resolve_right fun hp => hnew ⟨of_decide_eq_true hp.1, hp.2⟩).1
    | _ => exact hl.data k (hk.resolve_right (by simp [Happening.puts])).1
  · rw [hd.lru]
    exact hl.mem_list hn
  · rw [hd.lru] at hin hk ⊢
    exact hl.before_list hd.may hn hin hk

end live

/-! ### What an operation does -/

section ops

variable {base s s' : S3BlockStore Key} {h : List (Happening Key)}

/-- The two stores differ by a list of happenings, newest first. -/
def Dids : List (Happening Key) → S3BlockStore Key → S3BlockStore Key → Prop
  | [], s, s' => s'.lru = s.lru ∧ (∀ k, .block k ∈ s'.entries ↔ .block k ∈ s.entries) ∧ s'.bucket = s.bucket
  | x :: xs, s, s' => ∃ s₁, Dids xs s s₁ ∧ Did x s₁ s'

theorem dids_refl (s : S3BlockStore Key) : Dids [] s s := ⟨rfl, fun _ => Iff.rfl, rfl⟩

theorem Dids.live {xs : List (Happening Key)} (hl : Live base s h) (hd : Dids xs s s') :
    Live base s' (xs ++ h) := by
  induction xs generalizing s' with
  | nil =>
      obtain ⟨hlru, hentries, hbucket⟩ := hd
      have hdata : ∀ k, s'.dataOf k = s.dataOf k := fun k => by
        rw [S3BlockStore.dataOf, S3BlockStore.dataOf, object_congr hbucket]
      refine ⟨fun k hk => ?_, fun k => ?_, fun k hk => ?_, fun k hk => ?_, fun k hk => ?_, fun n hn => ?_,
        fun k n hn hin hk => ?_⟩
      · exact (hentries k).2 (hl.sub k (hlru ▸ hk))
      · rw [hentries]
        exact hl.known k
      · exact (hentries k).2 (hl.purged k hk)
      · rw [hlru]
        exact hl.kept k ((hentries k).1 hk)
      · rw [hdata]
        exact hl.data k (hlru ▸ hk)
      · rw [hlru]
        exact hl.onList n hn
      · rw [hlru] at hin hk ⊢
        exact hl.since k n hn hin hk
  | cons x xs ih =>
      obtain ⟨s₁, hxs, hx⟩ := hd
      exact hx.live (ih hxs)

/-- The names that a store knows, keeps in its list, has in the bucket and has in the index are each there
once. -/
structure Ready (s : S3BlockStore Key) : Prop where
  entries : s.entries.Nodup
  lru : s.lru.Nodup
  sub : ∀ n ∈ s.lru, n ∈ s.entries
  bucket : (s.bucket.map Prod.fst).Nodup
  file : ∀ l ∈ s.mdndxFile, (l.map MDEntry.name).Nodup
  object : ∀ l ∈ s.mdndxObject, (l.map MDEntry.name).Nodup

/-- Something has been added to the front of the list, or was in the list and has come there. -/
theorem Ready.moved (hr : Ready s) {n : Name Key} (hentries : s'.entries.Nodup)
    (hin : n ∈ s'.entries) (hsub : ∀ m ∈ s.entries, m ∈ s'.entries)
    (hlru : s'.lru = n :: s.lru.filter fun m => m ≠ n) (hbucket : (s'.bucket.map Prod.fst).Nodup)
    (hfile : s'.mdndxFile = s.mdndxFile) (hobject : s'.mdndxObject = s.mdndxObject) : Ready s' := by
  refine ⟨hentries, ?_, fun m hm => ?_, hbucket, hfile ▸ hr.file, hobject ▸ hr.object⟩
  · rw [hlru]
    exact List.nodup_cons.2 ⟨by simp, hr.lru.filter _⟩
  · rw [hlru] at hm
    rcases List.mem_cons.1 hm with rfl | hm
    · exact hin
    · exact hsub m (hr.sub m (List.mem_filter.1 hm).1)

theorem Ready.filter_lru (hr : Ready s) {n : Name Key} (hn : n ∉ s.entries) :
    s.lru.filter (fun m => m ≠ n) = s.lru :=
  List.filter_eq_self.2 fun m hm => by simpa using fun he : m = n => hn (he ▸ hr.sub m hm)

theorem Ready.purged (hr : Ready s) {l B : List (Name Key)} (hl : s.lru = l ++ B) : Ready (s.purged l B) where
  entries := hr.entries
  lru := (hl ▸ hr.lru).of_append_left
  sub n hn := hr.sub n (hl ▸ List.mem_append_left B hn)
  bucket := hr.bucket.sublist (List.filter_sublist.map _)
  file := hr.file
  object := hr.object

theorem object_purged (s : S3BlockStore Key) {l B : List (Name Key)} {n : Name Key} (hn : n ∉ B) :
    (s.purged l B).object n = s.object n := by
  simp only [S3BlockStore.object, S3BlockStore.purged, List.find?_filter]
  refine congrArg (Option.map Prod.snd) (congrArg (fun p => s.bucket.find? p) ?_)
  funext x
  by_cases hx : x.1 = n
  · subst hx
    simp [hn]
  · simp [hx]

/-- **Purging an end of the list** is purging its names one after another. -/
theorem Ready.dids_purged (hr : Ready s) : ∀ (B l : List (Name Key)), s.lru = l ++ B →
    Dids (B.map Happening.purge) s (s.purged l B) := by
  intro B
  induction B with
  | nil =>
      intro l hl
      obtain rfl : s.lru = l := by simpa using hl
      rw [purged_nil]
      exact dids_refl s
  | cons n B ih =>
      intro l hl
      have hl' : s.lru = (l ++ [n]) ++ B := by rw [hl, List.append_assoc, List.singleton_append]
      have hnd := hr.lru
      rw [hl] at hnd
      have hnl : n ∉ l := fun hin => (List.disjoint_of_nodup_append hnd) hin List.mem_cons_self
      refine ⟨_, ih (l ++ [n]) hl', by simp [Happening.May, S3BlockStore.purged], ?_, fun k => ?_, fun k hk => ?_⟩
      · have hkeep : l.filter (fun m => decide (m ≠ n)) = l :=
          List.filter_eq_self.2 fun m hm => by simpa using fun he : m = n => hnl (he ▸ hm)
        change l = (l ++ [n]).filter fun m => m ≠ n
        rw [List.filter_append, hkeep]
        simp
      · simp [S3BlockStore.purged, Happening.puts]
      · have hk' : .block k ∈ l := hk
        have hout : .block k ∉ n :: B := fun hin => (List.disjoint_of_nodup_append hnd) hk' hin
        change (s.purged l (n :: B)).dataOf k = (s.purged (l ++ [n]) B).dataOf k
        rw [ S3BlockStore.dataOf, S3BlockStore.dataOf, object_purged s hout,
          object_purged s fun hin => hout (List.mem_cons_of_mem n hin)]

/-- The names that have left the list. -/
theorem Ready.filter_gone (hr : Ready s) {l B l' : List (Name Key)} (hl : s.lru = l ++ B)
    (hsub : ∀ n ∈ l, n ∈ l') (hB : ∀ n ∈ B, n ∉ l → n ∉ l') : s.lru.filter (fun n => n ∉ l') = B := by
  have hnd := hr.lru
  rw [hl] at hnd
  have hleft : l.filter (fun n => decide (n ∉ l')) = [] :=
    List.filter_eq_nil_iff.2 fun n hn => by simpa using hsub n hn
  have hright : B.filter (fun n => decide (n ∉ l')) = B :=
    List.filter_eq_self.2 fun n hn => by
      simpa using hB n hn fun hin => (List.disjoint_of_nodup_append hnd) hin hn
  rw [hl, List.filter_append, hleft, hright, List.nil_append]

/-- A block that the store does not know is put. -/
theorem Ready.took (hr : Ready s) {k : Key} (hk : .block k ∉ s.entries) (now : ℕ) (data : List UInt8) :
    Ready (s.took now k data) ∧ Did (.put k data) s (s.took now k data) := by
  have hnames : ((dropObject (.block k) s.bucket).map Prod.fst).Nodup :=
    hr.bucket.sublist (List.filter_sublist.map _)
  constructor
  · refine hr.moved (n := .block k) (List.nodup_cons.2 ⟨hk, hr.entries⟩) List.mem_cons_self
      (fun m hm => List.mem_cons_of_mem _ hm) ?_ ?_ rfl rfl
    · rw [hr.filter_lru hk]
      rfl
    · refine List.nodup_cons.2 ⟨fun hin => ?_, hnames⟩
      obtain ⟨x, hx, hxk⟩ := List.mem_map.1 hin
      have hne : x.1 ≠ .block k := by simpa using (List.mem_filter.1 hx).2
      exact hne hxk
  · refine ⟨trivial, by simp [Happening.list, hk, S3BlockStore.took], fun k' => ?_, fun k' _ => ?_⟩
    · simp only [S3BlockStore.took, List.mem_cons, Name.block.injEq, Happening.puts, decide_eq_true_eq]
      rw [or_comm, eq_comm]
    · have hobj : (s.took now k data).object (.block k') =
          (s.putObject (.block k) ⟨data, now⟩).object (.block k') := rfl
      rw [Happening.data, S3BlockStore.dataOf, hobj]
      by_cases hkk : k = k'
      · subst hkk
        rw [if_pos ⟨rfl, hk⟩, object_putObject]
        rfl
      · rw [if_neg fun h => hkk h.1, object_putObject_of_ne _ (by simpa using hkk)]
        rfl

/-- **What a put does**, as happenings. -/
theorem Ready.bsBlockPut (hr : Ready s) (now : ℕ) (k : Key) (data : List UInt8) :
    wp (bsBlockPut now k data) (fun _ s' => Ready s' ∧ Dids (.put k data :: s.gone s') s s')
      (fun _ s' => Ready s' ∧ Dids (s.gone s') s s') s := by
  -- What is purged is what has left the list.
  have hpurged : ∀ {l B : List (Name Key)} {s' : S3BlockStore Key}, s.lru = l ++ B →
      (∀ n ∈ l, n ∈ s'.lru) → (∀ n ∈ B, n ∉ l → n ∉ s'.lru) → Dids (s.gone s') s (s.purged l B) := by
    intro l B s' hl hsub hB
    rw [S3BlockStore.gone, hr.filter_gone hl hsub hB]
    exact hr.dids_purged B l hl
  refine wp_mono (bsBlockPut_spec now k data s) ?_ ?_
  · rintro _ s' (⟨hk, rfl⟩ | ⟨hk, l, B, hl, rfl⟩)
    · have hnone : s'.gone s' = [] := by simp [S3BlockStore.gone]
      refine ⟨hr, s', by rw [hnone]; exact dids_refl s', trivial, by simp [Happening.list, hk], fun k' => ?_,
        fun k' _ => ?_⟩
      · refine ⟨.inl, fun h => h.elim id fun hp => ?_⟩
        obtain rfl : k = k' := of_decide_eq_true hp
        exact hk
      · rw [Happening.data, if_neg]
        rintro ⟨rfl, hout⟩
        exact hout hk
    · obtain ⟨hr', hd⟩ := (hr.purged hl).took (k := k) hk now data
      refine ⟨hr', s.purged l B, hpurged hl (fun n hn => List.mem_cons_of_mem _ hn) (fun n hn hnl => ?_), hd⟩
      have hne : n ≠ .block k := by
        rintro rfl
        exact hk (hr.sub _ (hl ▸ List.mem_append_right l hn))
      exact fun hin => (List.mem_cons.1 hin).elim hne hnl
  · rintro _ s' ⟨l, B, hl, rfl⟩
    exact ⟨hr.purged hl, hpurged hl (fun _ hn => hn) fun _ _ hnl => hnl⟩

theorem Ready.bsRefreshStart (hr : Ready s) (now rid : ℕ) :
    wp (bsRefreshStart now rid) (fun _ s' => Ready s' ∧ Dids [.refreshStart rid] s s')
      (fun _ s' => Ready s' ∧ Dids [] s s') s := by
  refine wp_mono (bsRefreshStart_spec now rid s) ?_ ?_
  · rintro _ _ ⟨hrid, rfl⟩
    refine ⟨hr.moved (n := .rid rid) (List.nodup_cons.2 ⟨hrid, hr.entries⟩) List.mem_cons_self
      (fun m hm => List.mem_cons_of_mem _ hm) ?_ hr.bucket rfl rfl, s, dids_refl s, trivial, rfl, fun k => ?_,
      fun k _ => rfl⟩
    · rw [hr.filter_lru hrid]
    · simp [Happening.puts]
  · rintro _ _ rfl
    exact ⟨hr, dids_refl _⟩

theorem Ready.bsRefreshBlock (hr : Ready s) (now rid : ℕ) (k : Key) :
    wp (bsRefreshBlock now rid k) (fun _ s' => Ready s' ∧ Dids [.refreshBlock k] s s')
      (fun _ s' => Ready s' ∧ Dids [] s s') s := by
  refine wp_mono (bsRefreshBlock_spec now rid k s) ?_ ?_
  · rintro _ _ (⟨hk, rfl⟩ | ⟨hk, hin, e, rfl⟩)
    · refine ⟨hr, _, dids_refl _, fun h => absurd h hk, by simp [Happening.list, hk], fun k' => ?_,
        fun k' _ => rfl⟩
      simp [Happening.puts]
    · refine ⟨hr.moved (n := .block k) hr.entries hk (fun m hm => hm) rfl hr.bucket rfl rfl, s, dids_refl s,
        fun _ => hin, by simp [Happening.list, hk], fun k' => ?_, fun k' _ => rfl⟩
      simp [S3BlockStore.setEntry, Happening.puts]
  · rintro _ _ rfl
    exact ⟨hr, dids_refl _⟩

/-- The index has every name of the store once. -/
theorem nodup_mdIndex (lessByName : Name Key → Name Key → Bool) (hnd : s.entries.Nodup) :
    ((s.mdIndex lessByName).map MDEntry.name).Nodup := by
  have hnames : (s.mdIndex lessByName).map MDEntry.name = s.inOrder lessByName := by
    rw [S3BlockStore.mdIndex, List.map_map]
    exact List.map_id _
  rw [hnames]
  exact (foldr_setInsert_perm lessByName s.entries).nodup_iff.2 hnd

theorem Ready.bsRefreshFinish (hr : Ready s) (lessByName : Name Key → Name Key → Bool) (rid : ℕ) :
    wp (bsRefreshFinish lessByName rid) (fun _ s' => Ready s' ∧ Dids [.refreshFinish rid] s s')
      (fun _ s' => Ready s' ∧ Dids [] s s') s := by
  refine wp_mono (bsRefreshFinish_spec lessByName rid hr.sub) ?_ ?_
  · rintro _ s' ⟨hrid, hbucket, hentries, hlru, hfile, hobject⟩
    have hmark : Name.mark ∉ (s.entries.erase .mark).erase (.rid rid) := fun hin =>
      hr.entries.not_mem_erase (List.mem_of_mem_erase hin)
    have hnd : s'.entries.Nodup := by
      rw [hentries]
      exact List.nodup_cons.2 ⟨hmark, (hr.entries.erase _).erase _⟩
    have hname : ∀ a ∈ s.lru.filter (fun m => m ≠ .mark), a ≠ .mark := fun a ha => by
      simpa using (List.mem_filter.1 ha).2
    have hindex : ∀ l, some (s'.mdIndex lessByName) = some l → (l.map MDEntry.name).Nodup := by
      rintro l hl
      obtain rfl := Option.some_inj.1 hl
      exact nodup_mdIndex lessByName hnd
    refine ⟨⟨hnd, ?_, fun n hn => ?_, hbucket ▸ hr.bucket, fun l hl => hindex l (hfile ▸ hl),
      fun l hl => hindex l (hobject ▸ hl)⟩, s, dids_refl s, trivial, hlru, fun k => ?_, fun k _ => ?_⟩
    · rw [hlru]
      exact (hr.lru.filter _).map_on fun a ha b hb he => renamed_inj (hname a ha) (hname b hb) he
    · rw [hlru] at hn
      obtain ⟨m, hm, rfl⟩ := List.mem_map.1 hn
      rw [hentries, renamed]
      split
      case isTrue => exact List.mem_cons_self
      case isFalse hmr =>
        refine List.mem_cons_of_mem _ ((List.mem_erase_of_ne hmr).2 ((List.mem_erase_of_ne (hname m hm)).2 ?_))
        exact hr.sub m (List.mem_filter.1 hm).1
    · rw [hentries]
      simp [List.mem_erase_of_ne, Happening.puts]
    · rw [S3BlockStore.dataOf, object_congr hbucket]
      rfl
  · rintro _ _ (rfl | ⟨hm, rfl⟩)
    · exact ⟨hr, dids_refl _⟩
    · refine ⟨⟨hr.entries.erase _, hr.lru, fun n hn => ?_, hr.bucket, hr.file, hr.object⟩, rfl, fun k => ?_, rfl⟩
      · refine (List.mem_erase_of_ne ?_).2 (hr.sub n hn)
        rintro rfl
        exact hm hn
      · exact List.mem_erase_of_ne (by simp)

/-- **What a step does.** -/
theorem Ready.stepEvent (hr : Ready s) (lessByName : Name Key → Name Key → Bool) (now : ℕ) (op : Op Key) :
    Ready (stepEvent lessByName now op s).2 ∧
      Dids (happenings lessByName now op s) s (stepEvent lessByName now op s).2 := by
  cases op with
  | put k data =>
      have hput := hr.bsBlockPut now k data
      cases hm : S3BS.bsBlockPut now k data s with
      | ok u s' =>
          have hok := wp_ok hput hm
          simpa only [S3BS.stepEvent, happenings, step, bind_apply, hm, pure_apply] using hok
      | error e s' =>
          have herr := wp_error hput hm
          simpa only [S3BS.stepEvent, happenings, step, bind_apply, hm] using herr
  | refreshStart rid =>
      have hstart := hr.bsRefreshStart now rid
      cases hm : S3BS.bsRefreshStart now rid s with
      | ok u s' =>
          have hok := wp_ok hstart hm
          simpa only [S3BS.stepEvent, happenings, step, bind_apply, hm, pure_apply] using hok
      | error e s' =>
          have herr := wp_error hstart hm
          simpa only [S3BS.stepEvent, happenings, step, bind_apply, hm] using herr
  | refreshBlock rid k =>
      have hblock := hr.bsRefreshBlock now rid k
      cases hm : S3BS.bsRefreshBlock now rid k s with
      | ok found s' =>
          have hok := wp_ok hblock hm
          cases found <;> simpa [S3BS.stepEvent, happenings, step, bind_apply, hm, pure_apply] using hok
      | error e s' =>
          have herr := wp_error hblock hm
          simpa only [S3BS.stepEvent, happenings, step, bind_apply, hm] using herr
  | refreshFinish rid =>
      have hfinish := hr.bsRefreshFinish lessByName rid
      cases hm : S3BS.bsRefreshFinish lessByName rid s with
      | ok u s' =>
          have hok := wp_ok hfinish hm
          simpa only [S3BS.stepEvent, happenings, step, bind_apply, hm, pure_apply] using hok
      | error e s' =>
          have herr := wp_error hfinish hm
          simpa only [S3BS.stepEvent, happenings, step, bind_apply, hm] using herr

end ops

/-! ### Openings and whole runs -/

section whole

variable {base s : S3BlockStore Key} {lessByName : Name Key → Name Key → Bool}

/-- At an opening nothing has happened yet. -/
theorem live_refl (h : ∀ k, .block k ∈ s.entries ↔ .block k ∈ s.lru) : Live s s [] where
  sub k hk := (h k).2 hk
  known k := by simp [Known]
  purged k hk := by simp at hk
  kept k hk := by simpa using (h k).1 hk
  data _ _ := rfl
  onList _ _ := Iff.rfl
  since _ _ _ _ _ := Iff.rfl

theorem Ready.closed (hr : Ready s) (keepFile : Bool) : Ready (s.closed keepFile) := by
  cases keepFile with
  | true => exact hr
  | false =>
      refine ⟨hr.entries, hr.lru, hr.sub, hr.bucket, fun l hl => ?_, hr.object⟩
      simp [S3BlockStore.closed] at hl

/-- What an opening starts from has every name once. -/
theorem Ready.nodup_saved (hr : Ready s) (lessByName : Name Key → Name Key → Bool) :
    ((s.saved lessByName).map Prod.fst).Nodup := by
  have hparse : ∀ l : List (MDEntry Key), (l.map parseEntry).map Prod.fst = l.map MDEntry.name := fun l => by
    rw [List.map_map]
    rfl
  rw [S3BlockStore.saved]
  split
  case h_1 l hl => exact hparse l ▸ hr.file l hl
  case h_2 l _ hl => exact hparse l ▸ hr.object l hl
  case h_3 =>
    rw [List.map_map]
    exact (listing_names lessByName s).nodup_iff.2 hr.bucket

/-- **An opened store** has its entries in its list. -/
theorem Ready.bsOpen (hr : Ready s) (lessByName : Name Key → Name Key → Bool) :
    Ready (bsOpen lessByName s) ∧ Live (bsOpen lessByName s) (bsOpen lessByName s) [] := by
  have hperm : (S3BS.bsOpen lessByName s).lru.Perm (S3BS.bsOpen lessByName s).entries :=
    (List.reverse_perm _).trans ((Recency.sortBy_perm _ _).map Prod.fst)
  have hnd := hr.nodup_saved lessByName
  exact ⟨⟨hnd, hperm.nodup_iff.2 hnd, fun n hn => hperm.mem_iff.1 hn, hr.bucket, hr.file, hr.object⟩,
    live_refl fun k => hperm.mem_iff.symm⟩

end whole

end S3BS

end Utopfs
