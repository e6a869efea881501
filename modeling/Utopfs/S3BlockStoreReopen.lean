/-
**Closing and reopening the block store in S3.**

The entries of the store live in memory.  What an opening knows of them is in the index that the last
finished refresh cycle has written, and only if no cycle has ever finished does it look at the bucket.
A block that has been put since is in the bucket and not in the index, so that the reopened store does
not find it; a block that an open cycle has refreshed is in the index with its old time stamp, behind
the `MARK`; and so is a block that was refreshed in the second in which the cycle had started, because
in the index the `MARK` comes after all blocks.

Main definitions:

* `S3BS.SameService`, `S3BS.Reopens` — a reopened store gives the same answers and has the same blocks
  in front of the `MARK`;
* `S3BS.S3BlockStore.Indexed` — every block in front of the `MARK` is in the index with a later time
  stamp than the `MARK`;
* `S3BS.Orderly` — the condition on a step: a put purges no token and not the `MARK`, and a block that
  is refreshed has not been purged;
* `S3BS.StoreInv`, `S3BS.SavedInv` — the invariants.

Main results:

* `S3BS.StoreInv.touched`, `S3BS.purgeLoop_tail` — what touching and purging do;
* `S3BS.reopens_iff_indexed` — when a store comes back as it was.
-/

import Mathlib.Data.List.Nodup
import Mathlib.Data.List.TakeWhile
import Mathlib.Tactic
import Utopfs.S3BlockStore

set_option relaxedAutoImplicit false
set_option autoImplicit false
set_option linter.unusedSectionVars false

namespace Utopfs

namespace S3BS

open Prog

variable {Key : Type} [DecidableEq Key]

/-! ### What a reopening should give back -/

/-- What a client gets for a key: the data, or that there is none. -/
def getResult (k : Key) (buffsize : ℕ) (s : S3BlockStore Key) : Option (List UInt8) :=
  match bsBlockGet k buffsize s with
  | .ok data _ => some data
  | .error _ _ => none

/-- The entries in front of the mark; all of them if there is none. -/
def S3BlockStore.front (s : S3BlockStore Key) : List (Name Key) :=
  s.lru.takeWhile fun n => n ≠ .mark

/-- The same answer for every key, and the same blocks in front of the mark. -/
structure SameService (s s' : S3BlockStore Key) : Prop where
  get : ∀ k buffsize, getResult k buffsize s' = getResult k buffsize s
  committed : ∀ k, .block k ∈ s'.front ↔ .block k ∈ s.front

/-- What is left of a closed store: the bucket with its index, and the saved file or not. -/
def S3BlockStore.closed (s : S3BlockStore Key) (keepFile : Bool) : S3BlockStore Key :=
  if keepFile then s else { s with mdndxFile := none }

/-- A reopened store serves as before, with the saved file and without. -/
def Reopens (lessByName : Name Key → Name Key → Bool) (s : S3BlockStore Key) : Prop :=
  ∀ keepFile, SameService s (bsOpen lessByName (s.closed keepFile))

/-- Every block in front of the mark is in the index, if there is one, with a later time stamp than
the mark. -/
def S3BlockStore.Indexed (s : S3BlockStore Key) : Prop :=
  ∀ l ∈ s.mdndxObject, ∀ k, .block k ∈ s.front →
    ∃ x ∈ l, ∃ m ∈ l, x.name = .block k ∧ m.name = .mark ∧ m.mtime.toInt < x.mtime.toInt

/-! ### The condition on a step -/

/-- The name of a block, not of a token or the mark. -/
def Name.IsBlock : Name Key → Prop
  | .block _ => True
  | .rid _ => False
  | .mark => False

instance : DecidablePred (Name.IsBlock : Name Key → Prop)
  | .block _ => .isTrue trivial
  | .rid _ => .isFalse id
  | .mark => .isFalse id

/-- The bytes recorded for a list of names. -/
def S3BlockStore.bytesIn (s : S3BlockStore Key) (l : List (Name Key)) : ℤ :=
  (l.map fun n => (s.entry n).size).sum

/-- The blocks at the end of the list cover what a put of `blksize` bytes has to free. -/
def S3BlockStore.Covers (s : S3BlockStore Key) (blksize : ℕ) : Prop :=
  ∃ A B, s.lru = A ++ B ∧ (∀ n ∈ B, n.IsBlock) ∧ s.excess blksize ≤ s.bytesIn B

/-- The condition on a step.  A put is of a known block, or finds no space, or purges blocks only; a
block that is refreshed has not been purged.

No put purges the token of an open cycle.  Its entry would stay in `m_entries` alone, where the end of the cycle
would still find it and make a mark of it that is not in the list.  While that cycle is open such a store does
come back as it was; the condition is on single steps, and does not look at how the cycle ends. -/
def Orderly (s : S3BlockStore Key) : Op Key → Prop
  | .put k data =>
      .block k ∈ s.entries ∨ s.size - s.committed < data.length ∨ s.Covers data.length
  | .refreshBlock rid k => .rid rid ∈ s.entries → .block k ∈ s.entries → .block k ∈ s.lru
  | .refreshStart _ => True
  | .refreshFinish _ => True

/-! ### The invariant -/

/-- The list is part of the table and ordered by the time stamps; only blocks are in the table and not
in the list, and these are not newer than any token or the mark; and the objects are the blocks of the
list. -/
structure StoreInv (s : S3BlockStore Key) (t : ℕ) : Prop where
  entries : s.entries.Nodup
  lru : s.lru.Nodup
  sub : ∀ n ∈ s.lru, n ∈ s.entries
  tokens : ∀ n ∈ s.entries, ¬ n.IsBlock → n ∈ s.lru
  stamp : ∀ n ∈ s.entries, 0 ≤ (s.entry n).tstamp ∧ (s.entry n).tstamp ≤ t
  sorted : s.lru.Pairwise fun a b => (s.entry b).tstamp ≤ (s.entry a).tstamp
  purged : ∀ n ∈ s.entries, n ∉ s.lru → ∀ m ∈ s.lru, ¬ m.IsBlock →
    (s.entry n).tstamp ≤ (s.entry m).tstamp
  bucket : (s.bucket.map Prod.fst).Nodup
  objects : ∀ n, n ∈ s.bucket.map Prod.fst ↔ n.IsBlock ∧ n ∈ s.lru
  marked : s.mark ≠ none → .mark ∈ s.entries

/-- What the index says.  Without one there is no mark, and nothing has been purged.  Otherwise it
lists the entries as they were, the mark last; the mark has not changed, the blocks have only become
newer, and those that are not in it are in front of the mark. -/
structure SavedInv (s : S3BlockStore Key) : Prop where
  copies : s.mdndxFile = s.mdndxObject
  fresh : s.mdndxObject = none → .mark ∉ s.entries ∧ ∀ n ∈ s.entries, n ∈ s.lru
  index : ∀ l, s.mdndxObject = some l → ∃ (es : List (Name Key)) (entry₀ : Name Key → Entry),
    l = (es ++ [Name.mark]).map (mdEntry entry₀) ∧ (es ++ [Name.mark]).Nodup ∧ .mark ∈ s.entries ∧
      (entry₀ .mark).tstamp = (s.entry .mark).tstamp ∧
      (∀ n ∈ es, n.IsBlock → n ∈ s.entries ∧ 0 ≤ (entry₀ n).tstamp ∧
        (entry₀ n).tstamp ≤ (s.entry n).tstamp) ∧
      ∀ n ∈ s.entries, n.IsBlock → n ∉ es → n ∈ s.front

theorem storeInv_bsCreate (size : ℕ) : StoreInv (bsCreate size : S3BlockStore Key) 0 := by
  constructor <;> simp [bsCreate]

theorem savedInv_bsCreate (size : ℕ) : SavedInv (bsCreate size : S3BlockStore Key) := by
  constructor <;> simp [bsCreate]

theorem StoreInv.mono {s : S3BlockStore Key} {t t' : ℕ} (hi : StoreInv s t) (ht : t ≤ t') :
    StoreInv s t' :=
  { hi with
    stamp := fun n hn => ⟨(hi.stamp n hn).1, (hi.stamp n hn).2.trans (by exact_mod_cast ht)⟩ }

/-! ### Touching an entry -/

/-- The two stores differ by a touch of `n` at time `now`. -/
structure Touched (n : Name Key) (now : ℕ) (s s' : S3BlockStore Key) : Prop where
  entries : ∀ m, m ∈ s'.entries ↔ m = n ∨ m ∈ s.entries
  nodup : s.entries.Nodup → s'.entries.Nodup
  lru : s'.lru = n :: s.lru.filter fun m => m ≠ n
  self : (s'.entry n).tstamp = now
  other : ∀ m, m ≠ n → s'.entry m = s.entry m
  mark : s'.mark = s.mark
  file : s'.mdndxFile = s.mdndxFile
  object : s'.mdndxObject = s.mdndxObject

theorem Touched.mem_lru {n : Name Key} {now : ℕ} {s s' : S3BlockStore Key}
    (h : Touched n now s s') {m : Name Key} : m ∈ s'.lru ↔ m = n ∨ m ∈ s.lru := by
  rw [h.lru, List.mem_cons, List.mem_filter]
  by_cases hm : m = n <;> simp [hm]

/-- Touching a name that is not known, or is in the list. -/
theorem touchEntry_spec {s : S3BlockStore Key} {n : Name Key} (hn : n ∈ s.entries → n ∈ s.lru)
    (now : ℕ) (size : ℤ) {plsinsert : Bool} (hins : n ∈ s.entries ∨ plsinsert = true)
    (hsub : ∀ m ∈ s.lru, m ∈ s.entries) :
    wp (touchEntry n now size plsinsert) (fun _ s' => Touched n now s s' ∧ s'.bucket = s.bucket)
      (fun _ _ => False) s := by
  simp only [touchEntry, wp_bind, wp_get]
  split
  case isTrue hk =>
    simp only [wp_bind, lruErase, wp_get, if_pos (hn hk), wp_set, wp_modify, wp_pure]
    refine ⟨⟨fun m => ?_, id, rfl, ?_, fun m hm => ?_, rfl, rfl, rfl⟩, rfl⟩
    · refine ⟨.inr, ?_⟩
      rintro (rfl | hm)
      · exact hk
      · exact hm
    · simp [S3BlockStore.setEntry]
    · simp [S3BlockStore.setEntry, Function.update_of_ne hm]
  case isFalse hk =>
    have hkeep : s.lru.filter (fun m => decide (m ≠ n)) = s.lru :=
      List.filter_eq_self.2 fun m hm => by simpa using fun he : m = n => hk (hsub n (he ▸ hm))
    rw [if_pos (hins.resolve_left hk)]
    simp only [wp_bind, wp_set, wp_pure]
    refine ⟨⟨fun m => List.mem_cons, fun hnd => List.nodup_cons.2 ⟨hk, hnd⟩, by rw [hkeep], ?_,
      fun m hm => ?_, rfl, rfl, rfl⟩, rfl⟩
    · simp [S3BlockStore.setEntry]
    · simp [S3BlockStore.setEntry, Function.update_of_ne hm]

/-- **Touching an entry** keeps the store in order. -/
theorem StoreInv.touched {s s' : S3BlockStore Key} {t now : ℕ} {n : Name Key} (hi : StoreInv s t)
    (ht : t ≤ now) (h : Touched n now s s')
    (hbucket : (s'.bucket.map Prod.fst).Nodup)
    (hobj : ∀ m, m ∈ s'.bucket.map Prod.fst ↔ m.IsBlock ∧ m ∈ s'.lru) : StoreInv s' now := by
  have hold : ∀ m ∈ s.entries, (s.entry m).tstamp ≤ now := fun m hm =>
    (hi.stamp m hm).2.trans (by exact_mod_cast ht)
  have hstamp : ∀ m ∈ s'.entries, 0 ≤ (s'.entry m).tstamp ∧ (s'.entry m).tstamp ≤ now := by
    intro m hm
    by_cases hmn : m = n
    · rw [hmn, h.self]
      exact ⟨by positivity, le_refl _⟩
    · rw [h.other m hmn]
      have hm := ((h.entries m).1 hm).resolve_left hmn
      exact ⟨(hi.stamp m hm).1, hold m hm⟩
  refine ⟨h.nodup hi.entries, ?_, ?_, ?_, hstamp, ?_, ?_, hbucket, hobj, ?_⟩
  · rw [h.lru]
    exact List.nodup_cons.2 ⟨by simp, hi.lru.filter _⟩
  · intro m hm
    exact (h.entries m).2 ((h.mem_lru.1 hm).imp_right (hi.sub m))
  · intro m hm hb
    exact h.mem_lru.2 (((h.entries m).1 hm).imp_right fun hm => hi.tokens m hm hb)
  · rw [h.lru, List.pairwise_cons]
    constructor
    · intro m hm
      obtain ⟨hm, hmn⟩ := List.mem_filter.1 hm
      rw [h.self, h.other m (by simpa using hmn)]
      exact hold m (hi.sub m hm)
    · refine (hi.sorted.sublist List.filter_sublist).imp_of_mem fun {a b} ha hb hab => ?_
      rw [h.other a (by simpa using (List.mem_filter.1 ha).2),
        h.other b (by simpa using (List.mem_filter.1 hb).2)]
      exact hab
  · intro m hm hout p hp hb
    have hmn : m ≠ n := fun he => hout (h.mem_lru.2 (.inl he))
    have hm' := ((h.entries m).1 hm).resolve_left hmn
    rw [h.other m hmn]
    by_cases hpn : p = n
    · rw [hpn, h.self]
      exact hold m hm'
    · rw [h.other p hpn]
      exact hi.purged m hm' (fun hin => hout (h.mem_lru.2 (.inr hin))) p
        ((h.mem_lru.1 hp).resolve_left hpn) hb
  · intro hm
    rw [h.mark] at hm
    exact (h.entries _).2 (.inr (hi.marked hm))

/-- Touching an entry does not make the index say less. -/
theorem SavedInv.touched {s s' : S3BlockStore Key} {t now : ℕ} {n : Name Key} (hs : SavedInv s)
    (hi : StoreInv s t) (ht : t ≤ now) (hn : n ≠ .mark) (h : Touched n now s s') : SavedInv s' := by
  have hfront : ∀ m, m ∈ s'.front ↔ m = n ∨ m ∈ s.front := by
    intro m
    simp only [S3BlockStore.front, h.lru]
    exact Recency.mem_before_moved hn
  refine ⟨by rw [h.file, h.object, hs.copies], ?_, ?_⟩
  · intro hnone
    obtain ⟨hm, hall⟩ := hs.fresh (h.object ▸ hnone)
    refine ⟨fun hin => hm (((h.entries _).1 hin).resolve_left (Ne.symm hn)), fun m hm => ?_⟩
    exact h.mem_lru.2 (((h.entries m).1 hm).imp_right (hall m))
  · intro l hl
    obtain ⟨es, entry₀, rfl, hnd, hmark, hsame, hblocks, hnew⟩ := hs.index l (h.object ▸ hl)
    refine ⟨es, entry₀, rfl, hnd, (h.entries _).2 (.inr hmark), ?_, ?_, ?_⟩
    · rw [h.other _ (Ne.symm hn), hsame]
    · intro m hm hb
      obtain ⟨hme, h₀, hle⟩ := hblocks m hm hb
      refine ⟨(h.entries m).2 (.inr hme), h₀, hle.trans ?_⟩
      by_cases hmn : m = n
      · rw [hmn, h.self]
        exact (hi.stamp n (hmn ▸ hme)).2.trans (by exact_mod_cast ht)
      · rw [h.other m hmn]
    · intro m hm hb hout
      exact (hfront m).2 (((h.entries m).1 hm).imp_right fun hm => hnew m hm hb hout)

/-! ### Purging -/

/-- The store after the entries `B` have been purged and the list `l` is left. -/
def S3BlockStore.purged (s : S3BlockStore Key) (l B : List (Name Key)) : S3BlockStore Key :=
  { s with
    lru := l
    bucket := s.bucket.filter fun x => x.1 ∉ B
    uncommitted := s.uncommitted - s.bytesIn B }

theorem purged_nil (s : S3BlockStore Key) : s.purged s.lru [] = s := by
  simp [S3BlockStore.purged, S3BlockStore.bytesIn]

theorem purged_purged (s : S3BlockStore Key) (l l' B : List (Name Key)) (n : Name Key) :
    (s.purged l [n]).purged l' B = s.purged l' (B ++ [n]) := by
  simp only [S3BlockStore.purged, S3BlockStore.bytesIn, List.map_append, List.sum_append,
    List.filter_filter, S3BlockStore.mk.injEq, true_and, and_true]
  refine ⟨by simp only [List.map_cons, List.map_nil, List.sum_cons, List.sum_nil]; ring, ?_⟩
  refine List.filter_congr fun x _ => ?_
  simp only [List.mem_append, not_or, Bool.decide_and]

/-- One purge of a list that ends in `n`: it fails and changes nothing, or it drops `n`. -/
theorem purgeUncommitted_spec {s : S3BlockStore Key} {l : List (Name Key)} {n : Name Key}
    (hl : s.lru = l ++ [n]) :
    wp purgeUncommitted (fun _ s' => s.mark ≠ none ∧ s' = s.purged l [n]) (fun _ s' => s' = s) s := by
  have hlast : s.lru.getLast? = some n := by simp [hl]
  have hdrop : s.lru.dropLast = l := by simp [hl]
  simp only [purgeUncommitted, purgePop, wp_bind, wp_get, hlast]
  cases hm : s.mark with
  | none => rfl
  | some m =>
      simp only
      split
      · rfl
      · simp only [wp_bind, wp_set, wp_modify, wp_pure, purgeCharge, hdrop]
        refine ⟨by simp, ?_⟩
        simp only [S3BlockStore.purged, S3BlockStore.deleteObject, S3BlockStore.bytesIn, dropObject,
          List.map_cons, List.map_nil, List.sum_cons, List.sum_nil, add_zero, List.mem_singleton, hm,
          ne_eq]

/-- **The purge loop drops an end of the list**, and stays within an end `B` whose recorded bytes
cover what has to be freed. -/
theorem purgeLoop_tail (blksize : ℕ) (A : List (Name Key)) :
    ∀ (fuel : ℕ) (s : S3BlockStore Key) (B : List (Name Key)), s.lru = A ++ B →
      s.excess blksize ≤ s.bytesIn B →
      wp (purgeLoop blksize fuel)
        (fun _ s' => ∃ B₁ B₂, B = B₁ ++ B₂ ∧ (B₂ ≠ [] → s.mark ≠ none) ∧ s' = s.purged (A ++ B₁) B₂)
        (fun _ s' => ∃ B₁ B₂, B = B₁ ++ B₂ ∧ (B₂ ≠ [] → s.mark ≠ none) ∧ s' = s.purged (A ++ B₁) B₂)
        s := by
  intro fuel
  induction fuel with
  | zero =>
      intro s B hlru _
      exact ⟨B, [], by simp, by simp, by rw [← hlru, purged_nil]⟩
  | succ fuel ih =>
      intro s B hlru hex
      simp only [purgeLoop, wp_bind, wp_get]
      split
      case isFalse => exact ⟨B, [], by simp, by simp, by rw [← hlru, purged_nil]⟩
      case isTrue hpos =>
        -- There is something left to free, so the part that may be purged is not empty.
        rcases List.eq_nil_or_concat' B with rfl | ⟨B', n, rfl⟩
        · simp only [S3BlockStore.bytesIn, List.map_nil, List.sum_nil] at hex
          omega
        · have hlru' : s.lru = (A ++ B') ++ [n] := by simp [hlru]
          refine wp_seq (purgeUncommitted_spec hlru') ?_ ?_
          · rintro _ _ ⟨hmark, rfl⟩
            have hex' : (s.purged (A ++ B') [n]).excess blksize ≤
                (s.purged (A ++ B') [n]).bytesIn B' := by
              simp only [S3BlockStore.excess, S3BlockStore.purged, S3BlockStore.bytesIn,
                List.map_append, List.map_cons, List.map_nil, List.sum_append, List.sum_cons,
                List.sum_nil] at hex ⊢
              omega
            have hjoin : ∀ s', (∃ B₁ B₂, B' = B₁ ++ B₂ ∧
                (B₂ ≠ [] → (s.purged (A ++ B') [n]).mark ≠ none) ∧
                s' = (s.purged (A ++ B') [n]).purged (A ++ B₁) B₂) →
                ∃ B₁ B₂, B' ++ [n] = B₁ ++ B₂ ∧ (B₂ ≠ [] → s.mark ≠ none) ∧
                  s' = s.purged (A ++ B₁) B₂ := by
              rintro _ ⟨B₁, B₂, rfl, -, rfl⟩
              exact ⟨B₁, B₂ ++ [n], by simp, fun _ => hmark, purged_purged ..⟩
            exact wp_mono (ih _ B' rfl hex') (fun _ s' => hjoin s') (fun _ s' => hjoin s')
          · rintro _ _ rfl
            exact ⟨B' ++ [n], [], by simp, by simp, by rw [← hlru, purged_nil]⟩

theorem StoreInv.purge {s : S3BlockStore Key} {t : ℕ} (hi : StoreInv s t) {l B : List (Name Key)}
    (hl : s.lru = l ++ B) (hB : ∀ n ∈ B, n.IsBlock) : StoreInv (s.purged l B) t := by
  have hnd := hi.lru
  have hsort := hi.sorted
  rw [hl] at hnd hsort
  obtain ⟨hnl, -, hdisj⟩ := List.nodup_append.1 hnd
  obtain ⟨hsl, -, hcross⟩ := List.pairwise_append.1 hsort
  refine ⟨hi.entries, hnl, fun n hn => hi.sub n (by simp [hl, show n ∈ l from hn]), ?_, hi.stamp, hsl, ?_,
    ?_, ?_, hi.marked⟩
  · intro n hn hb
    have hin := hi.tokens n hn hb
    rw [hl] at hin
    exact (List.mem_append.1 hin).resolve_right fun hB' => hb (hB n hB')
  · intro n hn hout m hm hb
    have hm' : m ∈ l := hm
    by_cases hnB : n ∈ B
    · exact hcross m hm' n hnB
    · have hout' : n ∉ s.lru := by
        rw [hl]
        exact fun hin => (List.mem_append.1 hin).elim hout hnB
      exact hi.purged n hn hout' m (by simp [hl, hm']) hb
  · exact hi.bucket.sublist (List.filter_sublist.map _)
  · intro n
    have hiff := hi.objects n
    rw [hl] at hiff
    have hmem : n ∈ (s.purged l B).bucket.map Prod.fst ↔ n ∈ s.bucket.map Prod.fst ∧ n ∉ B := by
      simp only [S3BlockStore.purged, List.mem_map, List.mem_filter, decide_eq_true_eq]
      constructor
      · rintro ⟨x, ⟨hx, hxB⟩, rfl⟩
        exact ⟨⟨x, hx, rfl⟩, hxB⟩
      · rintro ⟨⟨x, hx, rfl⟩, hxB⟩
        exact ⟨x, ⟨hx, hxB⟩, rfl⟩
    rw [hmem, hiff, List.mem_append]
    constructor
    · rintro ⟨⟨hb, hin⟩, hnB⟩
      exact ⟨hb, hin.resolve_right hnB⟩
    · rintro ⟨hb, hin⟩
      exact ⟨⟨hb, .inl hin⟩, fun hnB => hdisj n hin n hnB rfl⟩

theorem SavedInv.purge {s : S3BlockStore Key} {t : ℕ} (hs : SavedInv s) (hi : StoreInv s t)
    {l B : List (Name Key)} (hl : s.lru = l ++ B) (hB : ∀ n ∈ B, n.IsBlock)
    (hmark : B ≠ [] → s.mark ≠ none) : SavedInv (s.purged l B) := by
  refine ⟨hs.copies, fun hnone => ?_, fun x hx => ?_⟩
  · -- Without an index there is no mark, and nothing is purged.
    obtain ⟨hm, hall⟩ := hs.fresh hnone
    have hnil : B = [] := by
      by_contra hne
      exact hm (hi.marked (hmark hne))
    rw [hnil, List.append_nil] at hl
    exact ⟨hm, fun n hn => hl ▸ hall n hn⟩
  · obtain ⟨es, entry₀, rfl, hnd, hm, hsame, hblocks, hnew⟩ := hs.index x hx
    refine ⟨es, entry₀, rfl, hnd, hm, hsame, hblocks, fun n hn hb hout => ?_⟩
    have hml : .mark ∈ l := by
      have hin := hi.tokens .mark hm id
      rw [hl] at hin
      exact (List.mem_append.1 hin).resolve_right fun hB' => hB _ hB'
    have := hnew n hn hb hout
    rwa [S3BlockStore.front, hl, Recency.before_append hml] at this

/-! ### The steps that touch an entry -/

/-- The two invariants together. -/
def Sound (s : S3BlockStore Key) (t : ℕ) : Prop := StoreInv s t ∧ SavedInv s

theorem Sound.mono {s : S3BlockStore Key} {t t' : ℕ} (h : Sound s t) (ht : t ≤ t') : Sound s t' :=
  ⟨h.1.mono ht, h.2⟩

theorem Sound.bsBlockPut {s : S3BlockStore Key} {t now : ℕ} (h : Sound s t) (ht : t ≤ now) {k : Key}
    {data : List UInt8} (ho : Orderly s (.put k data)) :
    wp (S3BS.bsBlockPut now k data) (fun _ s' => Sound s' now) (fun _ s' => Sound s' now) s := by
  simp only [S3BS.bsBlockPut, wp_bind, wp_get]
  split
  case isTrue => exact h.mono ht
  case isFalse hk =>
    split
    case isTrue => exact h.mono ht
    case isFalse hspace =>
      obtain ⟨A, B, hl, hB, hex⟩ := (ho.resolve_left hk).resolve_left hspace
      have hpurge : ∀ s', (∃ B₁ B₂, B = B₁ ++ B₂ ∧ (B₂ ≠ [] → s.mark ≠ none) ∧
          s' = s.purged (A ++ B₁) B₂) → Sound s' t ∧ .block k ∉ s'.entries := by
        rintro _ ⟨B₁, B₂, rfl, hmark, rfl⟩
        have hl' : s.lru = (A ++ B₁) ++ B₂ := by rw [hl, List.append_assoc]
        have hB₂ : ∀ n ∈ B₂, n.IsBlock := fun n hn => hB n (List.mem_append_right _ hn)
        exact ⟨⟨h.1.purge hl' hB₂, h.2.purge h.1 hl' hB₂ hmark⟩, hk⟩
      refine wp_seq (purgeLoop_tail data.length A _ s B hl hex) ?_
        (fun _ s' hs' => (hpurge s' hs').1.mono ht)
      intro _ s₁ hs₁
      obtain ⟨h₁, hk₁⟩ := hpurge s₁ hs₁
      simp only [wp_bind, wp_modify]
      set s₂ := s₁.putObject (.block k) ⟨data, now⟩ with hs₂
      rw [wp, updatePutStats_new (s := s₂) hk₁]
      set s₃ : S3BlockStore Key := { s₂.setEntry (.block k) ⟨now, data.length⟩ with
        committed := s₂.committed + data.length
        entries := .block k :: s₂.entries
        lru := .block k :: s₂.lru } with hs₃
      have hout : .block k ∉ s₁.lru := fun hin => hk₁ (h₁.1.sub _ hin)
      have hkeep : s₁.lru.filter (fun m => decide (m ≠ .block k)) = s₁.lru :=
        List.filter_eq_self.2 fun m hm => by simpa using fun he : m = .block k => hout (he ▸ hm)
      have htouch : Touched (.block k) now s₁ s₃ := by
        refine ⟨fun m => List.mem_cons, fun hnd => List.nodup_cons.2 ⟨hk₁, hnd⟩, by rw [hkeep]; rfl,
          by simp [hs₃, S3BlockStore.setEntry], fun m hm => ?_, rfl, rfl, rfl⟩
        simp only [hs₃, S3BlockStore.setEntry, Function.update_of_ne hm]
        rfl
      have hdrop : dropObject (.block k) s₁.bucket = s₁.bucket := by
        refine List.filter_eq_self.2 fun x hx => ?_
        have hne : x.1 ≠ .block k := fun he =>
          hout ((h₁.1.objects _).1 (List.mem_map.2 ⟨x, hx, he⟩)).2
        simpa using hne
      have hnames : s₃.bucket.map Prod.fst = .block k :: s₁.bucket.map Prod.fst := by
        have : s₃.bucket = (.block k, ⟨data, now⟩) :: dropObject (.block k) s₁.bucket := rfl
        rw [this, hdrop]
        rfl
      refine ⟨h₁.1.touched ht htouch ?_ ?_, h₁.2.touched h₁.1 ht (by simp) htouch⟩
      · rw [hnames]
        exact List.nodup_cons.2 ⟨fun hin => hout ((h₁.1.objects _).1 hin).2, h₁.1.bucket⟩
      · intro m
        rw [hnames, List.mem_cons, h₁.1.objects, htouch.mem_lru]
        by_cases hm : m = .block k
        · simp [hm, Name.IsBlock]
        · simp [hm]

/-- Touching a token or a block that is there. -/
theorem Sound.touchEntry {s : S3BlockStore Key} {t now : ℕ} (h : Sound s t) (ht : t ≤ now)
    {n : Name Key} (hn : n ≠ .mark) (hin : n ∈ s.entries → n ∈ s.lru) (size : ℤ) {plsinsert : Bool}
    (hins : n ∈ s.entries ∨ (plsinsert = true ∧ ¬ n.IsBlock)) :
    wp (S3BS.touchEntry n now size plsinsert) (fun _ s' => Sound s' now) (fun _ _ => False) s := by
  refine wp_mono (touchEntry_spec hin now size (hins.imp_right And.left) h.1.sub) ?_ (fun _ _ hF => hF)
  rintro _ s' ⟨htouch, hb⟩
  refine ⟨h.1.touched ht htouch (hb ▸ h.1.bucket) fun m => ?_, h.2.touched h.1 ht hn htouch⟩
  rw [hb, h.1.objects, htouch.mem_lru]
  constructor
  · exact fun hm => ⟨hm.1, .inr hm.2⟩
  · rintro ⟨hm, rfl | hml⟩
    · -- The block has been in the list before.
      rcases hins with hk | ⟨-, hnb⟩
      · exact ⟨hm, hin hk⟩
      · exact absurd hm hnb
    · exact ⟨hm, hml⟩

theorem Sound.bsRefreshStart {s : S3BlockStore Key} {t now : ℕ} (h : Sound s t) (ht : t ≤ now)
    (rid : ℕ) :
    wp (S3BS.bsRefreshStart now rid) (fun _ s' => Sound s' now) (fun _ s' => Sound s' now) s := by
  simp only [S3BS.bsRefreshStart, wp_bind, wp_get]
  split
  case isTrue => exact h.mono ht
  case isFalse hno =>
    rw [wp_bind]
    refine wp_mono (h.touchEntry ht (by simp) (fun hin => absurd hin hno) _ (.inr ⟨rfl, id⟩)) ?_
      (fun _ _ hF => hF.elim)
    exact fun _ _ h' => h'

theorem Sound.bsRefreshBlock {s : S3BlockStore Key} {t now : ℕ} (h : Sound s t) (ht : t ≤ now)
    {rid : ℕ} {k : Key} (ho : Orderly s (.refreshBlock rid k)) :
    wp (S3BS.bsRefreshBlock now rid k) (fun _ s' => Sound s' now) (fun _ s' => Sound s' now) s := by
  simp only [S3BS.bsRefreshBlock, wp_bind, wp_get]
  split
  case isTrue => exact h.mono ht
  case isFalse hrid =>
    by_cases hk : .block k ∈ s.entries
    · exact wp_mono (h.touchEntry ht (by simp) (ho (not_not.1 hrid)) _ (.inl hk)) (fun _ _ h' => h')
        (fun _ _ hF => hF.elim)
    · simp only [S3BS.touchEntry, wp_bind, wp_get, if_neg hk]
      exact h.mono ht

/-! ### Finishing a cycle -/

/-- The order of the names puts the mark last: `BLOCKS/` comes before `MARK`. -/
def MarkLast (lessByName : Name Key → Name Key → Bool) : Prop :=
  ∀ n, n ≠ .mark → lessByName n .mark = true ∧ lessByName .mark n = false

theorem setInsert_perm (lessByName : Name Key → Name Key → Bool) (n : Name Key) (l : List (Name Key)) :
    (setInsert lessByName n l).Perm (n :: l) := by
  induction l with
  | nil => exact .refl _
  | cons m l ih =>
      unfold setInsert
      split
      · exact .refl _
      · exact (ih.cons m).trans (.swap n m l)

theorem foldr_setInsert_perm (lessByName : Name Key → Name Key → Bool) (l : List (Name Key)) :
    (l.foldr (setInsert lessByName) []).Perm l := by
  induction l with
  | nil => exact .refl _
  | cons n l ih => exact (setInsert_perm lessByName n _).trans (ih.cons n)

theorem setInsert_mark {lessByName : Name Key → Name Key → Bool} (hless : MarkLast lessByName)
    {l : List (Name Key)} (hm : .mark ∉ l) : setInsert lessByName .mark l = l ++ [.mark] := by
  induction l with
  | nil => rfl
  | cons m l ih =>
      have hne : m ≠ .mark := fun he => hm (he ▸ List.mem_cons_self)
      have hl : .mark ∉ l := fun hin => hm (List.mem_cons_of_mem _ hin)
      simp [setInsert, (hless m hne).2, ih hl]

theorem setInsert_concat {lessByName : Name Key → Name Key → Bool} (hless : MarkLast lessByName)
    {n : Name Key} (hn : n ≠ .mark) (l : List (Name Key)) :
    setInsert lessByName n (l ++ [.mark]) = setInsert lessByName n l ++ [.mark] := by
  induction l with
  | nil => simp [setInsert, (hless n hn).1]
  | cons m l ih =>
      simp only [List.cons_append, setInsert]
      split
      · rfl
      · rw [ih]
        rfl

/-- **The index lists the mark last.** -/
theorem inOrder_mark {lessByName : Name Key → Name Key → Bool} (hless : MarkLast lessByName)
    {l : List (Name Key)} (hnd : l.Nodup) (hm : .mark ∈ l) :
    ∃ es, l.foldr (setInsert lessByName) [] = es ++ [.mark] := by
  induction l with
  | nil => simp at hm
  | cons n l ih =>
      obtain ⟨hn, hnd⟩ := List.nodup_cons.1 hnd
      rw [List.foldr_cons]
      by_cases hnm : n = .mark
      · subst hnm
        have hout : .mark ∉ l.foldr (setInsert lessByName) [] := fun hin =>
          hn ((foldr_setInsert_perm lessByName l).mem_iff.1 hin)
        exact ⟨_, setInsert_mark hless hout⟩
      · obtain ⟨es, hes⟩ := ih hnd ((List.mem_cons.1 hm).resolve_left (Ne.symm hnm))
        rw [hes]
        exact ⟨_, setInsert_concat hless hnm es⟩

/-- The new name of an entry when the token of cycle `rid` becomes the mark. -/
def renamed (rid : ℕ) (n : Name Key) : Name Key := if n = .rid rid then .mark else n

/-- The store after the token of cycle `rid` has become the mark. -/
def S3BlockStore.finished (s : S3BlockStore Key) (lessByName : Name Key → Name Key → Bool) (rid : ℕ) :
    S3BlockStore Key :=
  let entry := Function.update s.entry .mark (s.entry (.rid rid))
  let entries := .mark :: (s.entries.erase .mark).erase (.rid rid)
  let lru := (s.lru.filter fun n => n ≠ .mark).map (renamed rid)
  let index := some ((entries.foldr (setInsert lessByName) []).map (mdEntry entry))
  { s with
    entry := entry
    entries := entries
    lru := lru
    committed := (sumLru entry lru).1
    uncommitted := (sumLru entry lru).2
    mark := some (s.entry (.rid rid)).tstamp
    mdndxFile := index
    mdndxObject := index }

/-- The store without the entry of the mark. -/
def S3BlockStore.unmarked (s : S3BlockStore Key) : S3BlockStore Key :=
  { s with entries := s.entries.erase .mark, lru := s.lru.filter fun n => n ≠ .mark }

theorem StoreInv.removeMark_eq {s : S3BlockStore Key} {t : ℕ} (hi : StoreInv s t) :
    removeMark s = .ok () s.unmarked := by
  simp only [removeMark, bind_apply, get_apply]
  by_cases hm : .mark ∈ s.entries
  · have hl := hi.tokens .mark hm id
    simp only [if_pos hm, bind_apply, set_apply, lruErase, get_apply, if_pos hl,
      S3BlockStore.unmarked]
  · have hl : .mark ∉ s.lru := fun hin => hm (hi.sub _ hin)
    have hkeep : s.lru.filter (fun n => decide (n ≠ .mark)) = s.lru :=
      List.filter_eq_self.2 fun n hn => by simpa using fun he : n = .mark => hl (he ▸ hn)
    simp only [if_neg hm, pure_apply, S3BlockStore.unmarked, List.erase_of_not_mem hm, hkeep]

/-- **Finishing a cycle, as a function of the state.** -/
theorem StoreInv.bsRefreshFinish_eq {s : S3BlockStore Key} {t : ℕ} (hi : StoreInv s t)
    (lessByName : Name Key → Name Key → Bool) {rid : ℕ} (hrid : .rid rid ∈ s.entries) :
    bsRefreshFinish lessByName rid s = .ok () (s.finished lessByName rid) := by
  have hl : .rid rid ∈ s.lru := hi.tokens _ hrid id
  have hmem : .mark ∈ (s.lru.filter fun n => decide (n ≠ .mark)).map
      fun n => if n = .rid rid then .mark else n :=
    List.mem_map.2 ⟨.rid rid, List.mem_filter.2 ⟨hl, by simp⟩, by simp⟩
  simp only [bsRefreshFinish, bind_apply, get_apply, hrid, not_true_eq_false, if_false,
    hi.removeMark_eq, renameToken, addUp, modify_apply, S3BlockStore.unmarked, S3BlockStore.setEntry,
    if_pos hmem]
  simp only [S3BlockStore.finished, S3BlockStore.mdIndex, S3BlockStore.inOrder, Function.update_self]
  rfl

/-- Off the mark, the renaming at the end of a cycle is injective. -/
theorem renamed_inj {rid : ℕ} {n m : Name Key} (hn : n ≠ .mark) (hm : m ≠ .mark)
    (h : renamed rid n = renamed rid m) : n = m := by
  unfold renamed at h
  split at h <;> split at h
  · simp_all
  · exact absurd h.symm hm
  · exact absurd h hn
  · exact h

/-- The names in the table when a cycle finishes. -/
theorem mem_finished_entries {s : S3BlockStore Key} {t : ℕ} (hi : StoreInv s t)
    (lessByName : Name Key → Name Key → Bool) (rid : ℕ) (n : Name Key) :
    n ∈ (s.finished lessByName rid).entries ↔ n = .mark ∨ (n ≠ .rid rid ∧ n ∈ s.entries) := by
  have hentries : (s.finished lessByName rid).entries =
      .mark :: (s.entries.erase .mark).erase (.rid rid) := rfl
  rw [hentries, List.mem_cons, (hi.entries.erase _).mem_erase_iff, hi.entries.mem_erase_iff]
  by_cases hn : n = .mark <;> simp [hn]

theorem mem_finished_lru {s : S3BlockStore Key} (lessByName : Name Key → Name Key → Bool) (rid : ℕ)
    (n : Name Key) :
    n ∈ (s.finished lessByName rid).lru ↔ ∃ m ∈ s.lru, m ≠ .mark ∧ renamed rid m = n := by
  have hlru : (s.finished lessByName rid).lru =
      (s.lru.filter fun n => n ≠ .mark).map (renamed rid) := rfl
  simp [hlru, and_assoc]

/-- A block is in the list as before. -/
theorem block_mem_finished {s : S3BlockStore Key} (lessByName : Name Key → Name Key → Bool) (rid : ℕ)
    {n : Name Key} (hb : n.IsBlock) : n ∈ (s.finished lessByName rid).lru ↔ n ∈ s.lru := by
  have hn : n ≠ .mark := fun he => by simp [he, Name.IsBlock] at hb
  have hr : n ≠ .rid rid := fun he => by simp [he, Name.IsBlock] at hb
  rw [mem_finished_lru]
  constructor
  · rintro ⟨m, hm, -, heq⟩
    unfold renamed at heq
    split at heq
    case isTrue => exact absurd heq.symm hn
    case isFalse => exact heq ▸ hm
  · exact fun hin => ⟨n, hin, hn, if_neg hr⟩

/-- A renamed entry keeps its time stamp. -/
theorem finished_entry (s : S3BlockStore Key) (lessByName : Name Key → Name Key → Bool) (rid : ℕ)
    {n : Name Key} (hn : n ≠ .mark) :
    (s.finished lessByName rid).entry (renamed rid n) = s.entry n := by
  have hentry : (s.finished lessByName rid).entry =
      Function.update s.entry .mark (s.entry (.rid rid)) := rfl
  rw [hentry]
  unfold renamed
  split
  case isTrue hr => rw [Function.update_self, hr]
  case isFalse => rw [Function.update_of_ne hn]

theorem StoreInv.finish {s : S3BlockStore Key} {t : ℕ} (hi : StoreInv s t)
    (lessByName : Name Key → Name Key → Bool) {rid : ℕ} (hrid : .rid rid ∈ s.entries) :
    StoreInv (s.finished lessByName rid) t := by
  have hl : .rid rid ∈ s.lru := hi.tokens _ hrid id
  have hentry : ∀ n, n ≠ .mark → (s.finished lessByName rid).entry n = s.entry n := fun n hn =>
    Function.update_of_ne hn _ _
  have hmarkentry : (s.finished lessByName rid).entry .mark = s.entry (.rid rid) := by
    simpa [renamed] using finished_entry s lessByName rid (n := .rid rid) (by simp)
  have hmarklru : .mark ∈ (s.finished lessByName rid).lru :=
    (mem_finished_lru ..).2 ⟨.rid rid, hl, by simp, by simp [renamed]⟩
  have hmem := mem_finished_entries hi lessByName rid
  refine ⟨?_, ?_, ?_, ?_, ?_, ?_, ?_, hi.bucket, ?_, ?_⟩
  · refine List.nodup_cons.2 ⟨fun hin => ?_, (hi.entries.erase _).erase _⟩
    exact (hi.entries.mem_erase_iff.1 (List.mem_of_mem_erase hin)).1 rfl
  · refine List.Nodup.map_on ?_ (hi.lru.filter _)
    intro a ha b hb hab
    exact renamed_inj (by simpa using (List.mem_filter.1 ha).2) (by simpa using (List.mem_filter.1 hb).2)
      hab
  · intro n hn
    obtain ⟨m, hm, hmm, rfl⟩ := (mem_finished_lru ..).1 hn
    rw [hmem]
    unfold renamed
    split
    case isTrue => exact .inl rfl
    case isFalse hr => exact .inr ⟨hr, hi.sub m hm⟩
  · intro n hn hb
    rcases (hmem n).1 hn with rfl | ⟨hr, hn⟩
    · exact hmarklru
    · by_cases hnm : n = .mark
      · exact hnm ▸ hmarklru
      · exact (mem_finished_lru ..).2 ⟨n, hi.tokens n hn hb, hnm, if_neg hr⟩
  · intro n hn
    by_cases hnm : n = .mark
    · rw [hnm, hmarkentry]
      exact hi.stamp _ hrid
    · rw [hentry n hnm]
      exact hi.stamp n (((hmem n).1 hn).resolve_left hnm).2
  · have hlru : (s.finished lessByName rid).lru =
        (s.lru.filter fun n => n ≠ .mark).map (renamed rid) := rfl
    rw [hlru, List.pairwise_map]
    refine (hi.sorted.sublist List.filter_sublist).imp_of_mem fun {a b} ha hb hab => ?_
    rw [finished_entry s lessByName rid (n := a) (by simpa using (List.mem_filter.1 ha).2),
      finished_entry s lessByName rid (n := b) (by simpa using (List.mem_filter.1 hb).2)]
    exact hab
  · intro n hn hout m' hm' hb
    have hnm : n ≠ .mark := fun he => hout (he ▸ hmarklru)
    obtain ⟨hr, hn⟩ := ((hmem n).1 hn).resolve_left hnm
    obtain ⟨m, hm, hmm, rfl⟩ := (mem_finished_lru ..).1 hm'
    rw [hentry n hnm, finished_entry s lessByName rid hmm]
    have hout' : n ∉ s.lru := fun hin => hout ((mem_finished_lru ..).2 ⟨n, hin, hnm, if_neg hr⟩)
    refine hi.purged n hn hout' m hm fun hmb => hb ?_
    have hmr : m ≠ .rid rid := fun he => by simp [he, Name.IsBlock] at hmb
    rwa [renamed, if_neg hmr]
  · intro n
    have hbucket : (s.finished lessByName rid).bucket = s.bucket := rfl
    rw [hbucket, hi.objects]
    exact and_congr_right fun hb => (block_mem_finished lessByName rid hb).symm
  · exact fun _ => (hmem _).2 (.inl rfl)

/-- The index that is written lists every entry as it is. -/
theorem SavedInv.finish {s : S3BlockStore Key} {t : ℕ} (hi : StoreInv s t)
    {lessByName : Name Key → Name Key → Bool} (hless : MarkLast lessByName) {rid : ℕ}
    (hrid : .rid rid ∈ s.entries) : SavedInv (s.finished lessByName rid) := by
  have hf := hi.finish lessByName hrid
  refine ⟨rfl, fun hnone => by simp [S3BlockStore.finished] at hnone, fun l hl => ?_⟩
  set s' := s.finished lessByName rid with hs'
  obtain ⟨es, hes⟩ := inOrder_mark hless hf.entries List.mem_cons_self
  have hperm := foldr_setInsert_perm lessByName s'.entries
  rw [hes] at hperm
  have hl' : (s'.entries.foldr (setInsert lessByName) []).map (mdEntry s'.entry) = l :=
    Option.some_inj.1 hl
  refine ⟨es, s'.entry, by rw [← hl', hes], hperm.nodup_iff.2 hf.entries, List.mem_cons_self, rfl, ?_,
    ?_⟩
  · intro n hn _
    have hin : n ∈ s'.entries := hperm.mem_iff.1 (List.mem_append_left _ hn)
    exact ⟨hin, (hf.stamp n hin).1, le_refl _⟩
  · intro n hn hb hout
    -- Every block is in the index now.
    have hin := hperm.mem_iff.2 hn
    rcases List.mem_append.1 hin with hin | hin
    · exact absurd hin hout
    · have hnm : n = .mark := by simpa using hin
      simp [hnm, Name.IsBlock] at hb

theorem Sound.bsRefreshFinish {s : S3BlockStore Key} {t : ℕ} (h : Sound s t)
    {lessByName : Name Key → Name Key → Bool} (hless : MarkLast lessByName) (rid : ℕ) :
    wp (S3BS.bsRefreshFinish lessByName rid) (fun _ s' => Sound s' t) (fun _ s' => Sound s' t) s := by
  by_cases hrid : .rid rid ∈ s.entries
  · rw [wp, h.1.bsRefreshFinish_eq lessByName hrid]
    exact ⟨h.1.finish lessByName hrid, SavedInv.finish h.1 hless hrid⟩
  · simp only [S3BS.bsRefreshFinish, wp_bind, wp_get, hrid, not_false_eq_true, if_true]
    exact h

/-- **A run all of whose steps are orderly keeps the store sound.** -/
theorem sound_run {lessByName : Name Key → Name Key → Bool} (hless : MarkLast lessByName) {size : ℕ}
    {s : S3BlockStore Key} {t : ℕ} {h : List (Event Key)}
    (hr : RunWith lessByName Orderly size s t h) : Sound s t := by
  induction hr with
  | create => exact ⟨storeInv_bsCreate size, savedInv_bsCreate size⟩
  | @step s t h now op _ ht ho ih =>
      have key : wp (step lessByName now op) (fun _ s' => Sound s' now) (fun _ s' => Sound s' now)
          s := by
        cases op with
        | put k data => exact wp_seq (ih.bsBlockPut ht ho) (fun _ _ h => h) (fun _ _ h => h)
        | refreshStart rid => exact wp_seq (ih.bsRefreshStart ht rid) (fun _ _ h => h) (fun _ _ h => h)
        | refreshBlock rid k =>
            refine wp_seq (ih.bsRefreshBlock ht ho) ?_ (fun _ _ h => h)
            rintro (_ | _) s' h <;> exact h
        | refreshFinish rid =>
            exact wp_seq (ih.bsRefreshFinish hless rid) (fun _ _ h => h.mono ht)
              (fun _ _ h => h.mono ht)
      unfold stepEvent
      cases hm : step lessByName now op s with
      | ok ev s' =>
          have hok := wp_ok key hm
          exact hok
      | error e s' =>
          have herr := wp_error key hm
          exact herr

/-! ### The reopened store -/

/-- What a client gets, as a function of the state. -/
theorem getResult_eq (k : Key) (buffsize : ℕ) (s : S3BlockStore Key) :
    getResult k buffsize s =
      if .block k ∈ s.entries then (s.object (.block k)).map fun o => o.data.take buffsize
      else none := by
  by_cases hk : .block k ∈ s.entries
  · cases ho : s.object (.block k) with
    | none => simp [getResult, bsBlockGet, bind_apply, get_apply, hk, ho, throw_apply]
    | some o => simp [getResult, bsBlockGet, bind_apply, get_apply, hk, ho, pure_apply]
  · simp [getResult, bsBlockGet, bind_apply, get_apply, hk, throw_apply]

theorem object_isSome {s : S3BlockStore Key} {n : Name Key} :
    s.object n ≠ none ↔ n ∈ s.bucket.map Prod.fst := by
  simp [S3BlockStore.object, List.find?_eq_none]

/-- Two stores over one bucket give the same answers if they know the same stored blocks. -/
theorem sameGets {s s' : S3BlockStore Key} (hb : s'.bucket = s.bucket)
    (h : ∀ k, .block k ∈ s.bucket.map Prod.fst → (.block k ∈ s'.entries ↔ .block k ∈ s.entries))
    (k : Key) (buffsize : ℕ) : getResult k buffsize s' = getResult k buffsize s := by
  rw [getResult_eq, getResult_eq, object_congr hb]
  by_cases ho : s.object (.block k) = none
  · simp [ho]
  · rw [if_congr (h k (object_isSome.1 ho)) rfl rfl]

/-- The two copies of the index are the same. -/
theorem SavedInv.saved_closed {s : S3BlockStore Key} (hs : SavedInv s)
    (lessByName : Name Key → Name Key → Bool) (keepFile : Bool) :
    (s.closed keepFile).saved lessByName = s.saved lessByName := by
  cases keepFile with
  | true => rfl
  | false =>
      have hcopies := hs.copies
      simp only [S3BlockStore.closed, S3BlockStore.saved, Bool.false_eq_true, if_false]
      cases ho : s.mdndxObject with
      | none =>
          rw [hcopies, ho]
          rfl
      | some l => rw [hcopies, ho]

/-- The number of seconds comes back from the index as it was. -/
theorem toInt_stamp {z : ℤ} (h₀ : 0 ≤ z) (h : z < 2 ^ 31) : (BitVec.ofInt 32 z).toInt = z := by
  rw [BitVec.toInt_ofInt]
  exact Int.bmod_eq_of_le (by omega) (by omega)

/-- The list of a store reopened through an index: in front of the mark are the entries with a later
time stamp. -/
theorem mem_front_of_index {lessByName : Name Key → Name Key → Bool} {es : List (Name Key)} {entry₀ : Name Key → Entry}
    (hnd : (es ++ [Name.mark]).Nodup) {s : S3BlockStore Key}
    (hsaved : s.saved lessByName = ((es ++ [Name.mark]).map (mdEntry entry₀)).map parseEntry) (n : Name Key) :
    n ∈ (bsOpen lessByName s).front ↔ n ∈ es ∧
      (mdEntry entry₀ .mark).mtime.toInt < (mdEntry entry₀ n).mtime.toInt := by
  set f : Name Key → Name Key × Entry := fun n => parseEntry (mdEntry entry₀ n) with hf
  have hname : ∀ n, (f n).1 = n := fun n => rfl
  have hstamp : ∀ n, (f n).2.tstamp = (mdEntry entry₀ n).mtime.toInt := fun n => rfl
  have hsaved' : s.saved lessByName = es.map f ++ [f .mark] := by
    rw [hsaved, List.map_map, List.map_append]
    rfl
  obtain ⟨A, B, hsort, hperm, hA, hB⟩ :=
    Recency.sortBy_last (fun x : Name Key × Entry => x.2.tstamp) (es.map f) (f .mark)
  have hlru : (bsOpen lessByName s).lru =
      B.reverse.map Prod.fst ++ .mark :: A.reverse.map Prod.fst := by
    have : (bsOpen lessByName s).lru = ((Recency.sortBy (fun x : Name Key × Entry => x.2.tstamp)
      (s.saved lessByName)).map Prod.fst).reverse := rfl
    rw [this, hsaved', hsort]
    simp [hname]
  have hmem : ∀ x, x ∈ A ++ B ↔ ∃ n ∈ es, f n = x := fun x => by rw [hperm.mem_iff, List.mem_map]
  have hes : Name.mark ∉ es := fun hin =>
    (List.disjoint_of_nodup_append hnd) hin (by simp)
  have hmB : Name.mark ∉ B.reverse.map Prod.fst := by
    intro hin
    obtain ⟨x, hx, hxm⟩ := List.mem_map.1 hin
    obtain ⟨m, hm, rfl⟩ := (hmem x).1 (List.mem_append_right _ (List.mem_reverse.1 hx))
    exact hes (hxm ▸ hm)
  rw [S3BlockStore.front, hlru, (Recency.sides_append hmB).1]
  constructor
  · intro hin
    obtain ⟨x, hx, rfl⟩ := List.mem_map.1 hin
    have hxB := List.mem_reverse.1 hx
    obtain ⟨m, hm, rfl⟩ := (hmem x).1 (List.mem_append_right _ hxB)
    exact ⟨hm, hB _ hxB⟩
  · rintro ⟨hn, hlt⟩
    rcases List.mem_append.1 ((hmem (f n)).2 ⟨n, hn, rfl⟩) with hnA | hnB
    · exact absurd (hA _ hnA) (not_le.2 hlt)
    · exact List.mem_map.2 ⟨f n, List.mem_reverse.2 hnB, rfl⟩

/-- The listing has the names of the bucket. -/
theorem listing_names (lessByName : Name Key → Name Key → Bool) (s : S3BlockStore Key) :
    ((s.listing lessByName).map Prod.fst).Perm (s.bucket.map Prod.fst) := by
  have hperm := foldr_setInsert_perm lessByName (s.bucket.map Prod.fst)
  have hnames : (s.listing lessByName).map Prod.fst =
      (s.bucket.map Prod.fst).foldr (setInsert lessByName) [] := by
    rw [S3BlockStore.listing, List.map_filterMap]
    refine (List.filterMap_congr fun n hn => ?_).trans List.filterMap_some
    obtain ⟨o, ho⟩ := Option.ne_none_iff_exists'.1 (object_isSome.2 (hperm.mem_iff.1 hn))
    rw [ho]
    rfl
  rw [hnames]
  exact hperm

/-- Through the listing of the bucket every stored block comes back, and there is no mark. -/
theorem mem_front_of_listing {lessByName : Name Key → Name Key → Bool} {s : S3BlockStore Key}
    (hsaved : s.saved lessByName = (s.listing lessByName).map listEntry)
    (hmark : Name.mark ∉ s.bucket.map Prod.fst) (n : Name Key) :
    n ∈ (bsOpen lessByName s).front ↔ n ∈ s.bucket.map Prod.fst := by
  have hlru : (bsOpen lessByName s).lru.Perm (s.bucket.map Prod.fst) := by
    have : (bsOpen lessByName s).lru = ((Recency.sortBy (fun x : Name Key × Entry => x.2.tstamp)
      (s.saved lessByName)).map Prod.fst).reverse := rfl
    rw [this, hsaved]
    refine (List.reverse_perm _).trans (((Recency.sortBy_perm _ _).map _).trans ?_)
    rw [List.map_map]
    exact listing_names lessByName s
  have hm : Name.mark ∉ (bsOpen lessByName s).lru := fun hin => hmark (hlru.mem_iff.1 hin)
  rw [S3BlockStore.front, (Recency.no_pivot hm).1, hlru.mem_iff]

/-- A sound store without an index comes back as it was. -/
theorem Sound.reopens_fresh {s : S3BlockStore Key} {t : ℕ} (h : Sound s t)
    (lessByName : Name Key → Name Key → Bool) (hnone : s.mdndxObject = none) : Reopens lessByName s := by
  intro keepFile
  obtain ⟨hm, hall⟩ := h.2.fresh hnone
  set c := s.closed keepFile with hc
  have hb : c.bucket = s.bucket := by cases keepFile <;> rfl
  have hsaved : c.saved lessByName = (c.listing lessByName).map listEntry := by
    have hfile : c.mdndxFile = none ∧ c.mdndxObject = none := by
      cases keepFile
      · exact ⟨rfl, hnone⟩
      · exact ⟨h.2.copies.trans hnone, hnone⟩
    rw [S3BlockStore.saved, hfile.1, hfile.2]
  have hmb : Name.mark ∉ c.bucket.map Prod.fst := by
    rw [hb, h.1.objects]
    exact fun hin => hin.1
  have hentries : ∀ n, n ∈ (bsOpen lessByName c).entries ↔ n ∈ s.bucket.map Prod.fst := by
    intro n
    have : (bsOpen lessByName c).entries = (c.saved lessByName).map Prod.fst := rfl
    rw [this, hsaved, List.map_map, ← hb]
    exact (listing_names lessByName c).mem_iff
  refine ⟨fun k buffsize => ?_, fun k => ?_⟩
  · have hb' : (bsOpen lessByName c).bucket = s.bucket := hb
    refine sameGets hb' (fun k hk => ?_) k buffsize
    rw [hentries]
    exact ⟨fun hin => h.1.sub _ ((h.1.objects _).1 hin).2, fun _ => hk⟩
  · rw [mem_front_of_listing hsaved hmb, hb, h.1.objects, S3BlockStore.front,
      (Recency.no_pivot fun hin => hm (h.1.sub _ hin)).1]
    exact ⟨fun hin => hin.2, fun hin => ⟨trivial, hin⟩⟩

/-- **When a sound store comes back as it was.** -/
theorem Sound.reopens_iff_sound {s : S3BlockStore Key} {t : ℕ} (h : Sound s t)
    (lessByName : Name Key → Name Key → Bool) (ht : t < 2 ^ 31) : Reopens lessByName s ↔ s.Indexed := by
  cases hobj : s.mdndxObject with
  | none =>
      refine ⟨fun _ l hl => ?_, fun _ => h.reopens_fresh lessByName hobj⟩
      simp [hobj] at hl
  | some l =>
      obtain ⟨es, entry₀, rfl, hnd, hm, hsame, hblocks, hnew⟩ := h.2.index l hobj
      have hml : .mark ∈ s.lru := h.1.tokens .mark hm id
      have hsaved : ∀ keepFile, (s.closed keepFile).saved lessByName =
          ((es ++ [Name.mark]).map (mdEntry entry₀)).map parseEntry := by
        intro keepFile
        rw [h.2.saved_closed, S3BlockStore.saved, h.2.copies, hobj]
      have hfront := fun keepFile n => mem_front_of_index hnd (hsaved keepFile) n
      -- The time stamps in the index are those that were written.
      have hread : ∀ n, 0 ≤ (entry₀ n).tstamp → (entry₀ n).tstamp ≤ t →
          (mdEntry entry₀ n).mtime.toInt = (entry₀ n).tstamp := fun n h₀ hle =>
        toInt_stamp h₀ (by exact_mod_cast lt_of_le_of_lt hle (by exact_mod_cast ht))
      have hmark : (mdEntry entry₀ .mark).mtime.toInt = (s.entry .mark).tstamp := by
        rw [hread .mark (hsame ▸ (h.1.stamp _ hm).1) (hsame ▸ (h.1.stamp _ hm).2), hsame]
      constructor
      · intro hre l' hl' k hk
        obtain rfl : (es ++ [Name.mark]).map (mdEntry entry₀) = l' :=
          Option.some_inj.1 (hobj.symm.trans hl')
        obtain ⟨hes, hlt⟩ := (hfront true _).1 (((hre true).committed k).2 hk)
        exact ⟨mdEntry entry₀ (.block k), List.mem_map_of_mem (List.mem_append_left _ hes),
          mdEntry entry₀ .mark, List.mem_map_of_mem (by simp), rfl, rfl, hlt⟩
      · intro hind keepFile
        have hlisted : ∀ k, .block k ∈ s.front → .block k ∈ es ∧
            (mdEntry entry₀ .mark).mtime.toInt < (mdEntry entry₀ (.block k)).mtime.toInt := by
          intro k hk
          obtain ⟨x, hx, m, hm', hxn, hmn, hlt⟩ := hind _ hobj k hk
          obtain ⟨n, hn, rfl⟩ := List.mem_map.1 hx
          obtain ⟨m, -, rfl⟩ := List.mem_map.1 hm'
          obtain rfl : n = .block k := hxn
          obtain rfl : m = .mark := hmn
          exact ⟨(List.mem_append.1 hn).resolve_right (by simp), hlt⟩
        set c := s.closed keepFile with hc
        have hb : (bsOpen lessByName c).bucket = s.bucket := by cases keepFile <;> rfl
        have hentries : (bsOpen lessByName c).entries = es ++ [Name.mark] := by
          have : (bsOpen lessByName c).entries = (c.saved lessByName).map Prod.fst := rfl
          rw [this, hsaved keepFile, List.map_map, List.map_map]
          exact List.map_id _
        refine ⟨fun k buffsize => sameGets hb (fun k hk => ?_) k buffsize, fun k => ?_⟩
        · rw [hentries, List.mem_append]
          constructor
          · rintro (hin | hin)
            · exact (hblocks _ hin trivial).1
            · simp at hin
          · intro hin
            by_contra hout
            have hes : .block k ∉ es := fun he => hout (.inl he)
            exact hes (hlisted k (hnew _ hin trivial hes)).1
        · rw [hfront keepFile]
          refine ⟨fun ⟨hes, hlt⟩ => ?_, hlisted k⟩
          obtain ⟨hin, h₀, hle⟩ := hblocks _ hes trivial
          rw [hmark, hread _ h₀ (hle.trans (h.1.stamp _ hin).2)] at hlt
          have hlt' : (s.entry .mark).tstamp < (s.entry (.block k)).tstamp := hlt.trans_le hle
          -- What is newer than the mark has not been purged, and is in front of it.
          have hinl : .block k ∈ s.lru := by
            by_contra hout
            exact absurd (h.1.purged _ hin hout .mark hml id) (not_le.2 hlt')
          exact Recency.mem_before_of_lt h.1.sorted hinl hlt'

/-- **When a store in S3 comes back as it was.**  In every run all of whose steps are orderly, up to
the last second that the index can hold, a reopened store serves as before exactly if every block in
front of the mark is in the index with a later time stamp than the mark. -/
theorem reopens_iff_indexed (lessByName : Name Key → Name Key → Bool) (hless : MarkLast lessByName)
    (size : ℕ) (s : S3BlockStore Key) (t : ℕ) (h : List (Event Key))
    (hr : RunWith lessByName Orderly size s t h) (ht : t < 2 ^ 31) : Reopens lessByName s ↔ s.Indexed :=
  (sound_run hless hr).reopens_iff_sound lessByName ht

theorem markLast_less : MarkLast Name.less := by
  intro n hn
  cases n with
  | block k => exact ⟨rfl, rfl⟩
  | rid n => exact ⟨rfl, rfl⟩
  | mark => exact absurd rfl hn

/-- A store of 30 bytes takes two blocks, and a cycle keeps the first; the cycle starts and goes on in
seconds of their own. -/
theorem reopens_indexed_cycle :
    ∃ (s : S3BlockStore ℕ) (h : List (Event ℕ)), RunWith Name.less Orderly 30 s 2 h ∧
      s.lru = [.block 0, .mark, .block 1] ∧ Reopens Name.less s := by
  have r₀ : RunWith Name.less Orderly 30 (bsCreate 30 : S3BlockStore ℕ) 0 [] := .create
  have r₁ := r₀.step 0 (.put 0 (List.replicate 10 7)) (by decide)
    (.inr (.inr ⟨[], [], rfl, by simp, by decide⟩))
  have r₂ := r₁.step 0 (.put 1 (List.replicate 10 7)) (by decide)
    (.inr (.inr ⟨[.block 0], [], rfl, by simp, by decide⟩))
  have r₃ := r₂.step 1 (.refreshStart 1) (by decide) trivial
  have r₄ := r₃.step 2 (.refreshBlock 1 0) (by decide) (fun _ _ => by decide)
  have r₅ := r₄.step 2 (.refreshFinish 1) (by decide) trivial
  refine ⟨_, _, r₅, by decide, (reopens_iff_indexed Name.less markLast_less 30 _ 2 _ r₅
    (by decide)).2 ?_⟩
  intro l hl k hk
  have hk0 : .block k ∈ [(.block 0 : Name ℕ)] := hk
  obtain rfl : k = 0 := by simpa using hk0
  obtain rfl : l = [⟨.block 0, 2, some 10⟩, ⟨.block 1, 0, some 10⟩, ⟨.mark, 1, some 4294967295⟩] :=
    (Option.some_inj.1 hl).symm
  exact ⟨⟨.block 0, 2, some 10⟩, by simp, ⟨.mark, 1, some 4294967295⟩, by simp, rfl, rfl, by decide⟩

/-- **A block put after the last finished cycle is lost** when the store is reopened. -/
theorem not_reopens_after_put :
    ¬ ∀ (size : ℕ) (s : S3BlockStore ℕ) (t : ℕ) (h : List (Event ℕ)), Run Name.less size s t h →
      Reopens Name.less s := by
  intro hall
  have r₀ : Run Name.less 30 (bsCreate 30 : S3BlockStore ℕ) 0 [] := .create
  have r₁ := r₀.step 0 (.refreshStart 1) (by decide) trivial
  have r₂ := r₁.step 1 (.refreshFinish 1) (by decide) trivial
  have r₃ := r₂.step 2 (.put 0 (List.replicate 10 7)) (by decide) trivial
  have hget := ((hall 30 _ 2 _ r₃) true).get 0 10
  have hsome : (none : Option (List UInt8)) = some (List.replicate 10 7) := hget
  exact absurd hsome (by simp)

end S3BS

end Utopfs
