/-
**The metadata index of the S3 block store.**

`bs_refresh_finish` writes an index of all entries, and `parse_mdndx_entries` reads it back when the
store is opened.  The sizes and times of the entries are signed numbers of 64 bits; in the index they are
of type `uint32`, and a size that is absent stands for zero.  The entry of a refresh cycle in progress has
the size -1, which comes back as 4294967295.  Entries that have been purged from the LRU list are in the
index as well, and are counted again when the store is opened.

Main definitions:

* `S3BS.MDIndex`, `S3BS.parseMdndxEntries` — the index, and reading it;
* `S3BS.RoundTrips` — the entries come back as they were, and so do the sums;
* `S3BS.Fits` — the entries that do;
* `S3BS.Kept` — the invariant of all runs.

Main results:

* `S3BS.parseMdndxEntries_eq` — what is read from an index without repetitions;
* `S3BS.kept_run` — the invariant holds in every run;
* `S3BS.roundTrips_iff` — **when the index brings back the entries and the sums**.
-/

import Mathlib
import Utopfs.S3BlockStoreReopen

set_option relaxedAutoImplicit false
set_option autoImplicit false
set_option linter.unusedSectionVars false

namespace Utopfs

namespace S3BS

open Prog

variable {Key : Type} [DecidableEq Key]

/-! ### Reading the index -/

/-- The index; no time offset is written. -/
structure MDIndex (Key : Type) where
  timeoff : Option (BitVec 32)
  mdentry : List (MDEntry Key)
  deriving DecidableEq

/-- `m_entries` with the entry objects, and the time ordered set `o_ets`. -/
structure Parsed (Key : Type) where
  entries : List (Name Key)
  entry : Name Key → Entry
  ets : List (Name Key)

/-- An empty store. -/
def Parsed.empty : Parsed Key := ⟨[], fun _ => ⟨0, 0⟩, []⟩

/-- One iteration of `parse_mdndx_entries`. -/
def parseMdndxEntry (timeoff : BitVec 32) (p : Parsed Key) (x : MDEntry Key) : Parsed Key :=
  let mtime := (timeoff + x.mtime).toInt
  let size : ℤ := (x.size.getD 0).toNat
  if x.name ∈ p.entries then
    -- It's an existing entry, just update the time.
    let size := if size ≠ 0 then size else (p.entry x.name).size
    { p with entry := Function.update p.entry x.name ⟨mtime, size⟩ }
  else
    -- If this is the MARK insert it special.
    let e : Entry := if x.name = .mark then ⟨mtime, 0⟩ else ⟨mtime, size⟩
    let entry := Function.update p.entry x.name e
    { entries := p.entries ++ [x.name]
      entry := entry
      ets := Recency.insertBy (fun n => (entry n).tstamp) x.name p.ets }

/-- `parse_mdndx_entries`. -/
def parseMdndxEntries (mdndx : MDIndex Key) (p : Parsed Key) : Parsed Key :=
  mdndx.mdentry.foldl (parseMdndxEntry (mdndx.timeoff.getD 0)) p

theorem map_insertBy {α β τ : Type} [LinearOrder τ] (stamp : α → τ) (g : β → α) (e : β) (l : List β) :
    (Recency.insertBy (stamp ∘ g) e l).map g = Recency.insertBy stamp (g e) (l.map g) := by
  induction l with
  | nil => rfl
  | cons x l ih =>
      simp only [Recency.insertBy, List.map_cons, Function.comp_apply]
      split
      · rfl
      · rw [List.map_cons, ih]

/-- What has been read of an index without repetitions: the entries, their objects and their order by
time. -/
structure Reads (p : Parsed Key) (l : List (Name Key × Entry)) : Prop where
  entries : p.entries = l.map Prod.fst
  entry : ∀ x ∈ l, p.entry x.1 = x.2
  ets : p.ets.map (fun n => (n, p.entry n)) = Recency.sortBy (fun x => x.2.tstamp) l

theorem Reads.mem_ets {p : Parsed Key} {l : List (Name Key × Entry)} (h : Reads p l) {n : Name Key}
    (hn : n ∈ p.ets) : n ∈ l.map Prod.fst := by
  have hmem : (n, p.entry n) ∈ Recency.sortBy (fun x : Name Key × Entry => x.2.tstamp) l := by
    rw [← h.ets]
    exact List.mem_map_of_mem hn
  exact List.mem_map.2 ⟨_, (Recency.sortBy_perm _ l).mem_iff.1 hmem, rfl⟩

/-- One more entry is read. -/
theorem Reads.concat {p : Parsed Key} {l : List (Name Key × Entry)} (h : Reads p l) {x : MDEntry Key}
    (hx : x.name ∉ l.map Prod.fst) : Reads (parseMdndxEntry 0 p x) (l ++ [parseEntry x]) := by
  have hnew : x.name ∉ p.entries := by
    rw [h.entries]
    exact hx
  generalize he : (if x.name = .mark then ⟨((0 : BitVec 32) + x.mtime).toInt, 0⟩
    else ⟨((0 : BitVec 32) + x.mtime).toInt, ((x.size.getD 0).toNat : ℤ)⟩ : Entry) = e
  have hparse : parseEntry x = (x.name, e) := by
    rw [← he, parseEntry, zero_add]
    split <;> rfl
  have hp : parseMdndxEntry 0 p x =
      { entries := p.entries ++ [x.name]
        entry := Function.update p.entry x.name e
        ets := Recency.insertBy (fun n => (Function.update p.entry x.name e n).tstamp) x.name p.ets } := by
    simp only [parseMdndxEntry, if_neg hnew, he]
  have hold : ∀ n, n ∈ l.map Prod.fst → Function.update p.entry x.name e n = p.entry n := by
    intro n hn
    refine Function.update_of_ne ?_ e p.entry
    rintro rfl
    exact hx hn
  rw [hp, hparse]
  refine ⟨by simp [h.entries], ?_, ?_⟩
  · intro y hy
    rcases List.mem_append.1 hy with hy | hy
    · exact (hold y.1 (List.mem_map_of_mem hy)).trans (h.entry y hy)
    · obtain rfl := List.mem_singleton.1 hy
      exact Function.update_self ..
  · have hkeep : p.ets.map (fun n => (n, Function.update p.entry x.name e n)) =
        p.ets.map fun n => (n, p.entry n) :=
      List.map_congr_left fun n hn => by rw [hold n (h.mem_ets hn)]
    have hsort : Recency.sortBy (fun x : Name Key × Entry => x.2.tstamp) (l ++ [(x.name, e)]) =
        Recency.insertBy (fun x => x.2.tstamp) (x.name, e) (Recency.sortBy (fun x => x.2.tstamp) l) := by
      rw [Recency.sortBy, List.foldl_append]
      rfl
    have hmap := map_insertBy (fun x : Name Key × Entry => x.2.tstamp)
      (fun n => (n, Function.update p.entry x.name e n)) x.name p.ets
    rw [hsort, ← h.ets, ← hkeep]
    simp only [Function.update_self] at hmap
    exact hmap

/-- **What is read from an index without repetitions.** -/
theorem parseMdndxEntries_eq {ms : List (MDEntry Key)} (hms : (ms.map MDEntry.name).Nodup) :
    Reads (parseMdndxEntries ⟨none, ms⟩ .empty) (ms.map parseEntry) := by
  induction ms using List.reverseRecOn with
  | nil => exact ⟨rfl, by simp, rfl⟩
  | append_singleton ms x ih =>
      rw [List.map_append, List.nodup_append] at hms
      obtain ⟨hnd, -, hdisj⟩ := hms
      have hx : x.name ∉ (ms.map parseEntry).map Prod.fst := by
        rw [List.map_map]
        intro hin
        exact hdisj x.name hin x.name (by simp) rfl
      have hstep := (ih hnd).concat hx
      rw [parseMdndxEntries, List.foldl_append, List.map_append]
      exact hstep

/-! ### Round trips -/

section roundtrip

variable (lessByName : Name Key → Name Key → Bool)

/-- The store with its index, as `bs_refresh_finish` writes it. -/
def S3BlockStore.indexed (s : S3BlockStore Key) : S3BlockStore Key :=
  { s with
    mdndxFile := some (s.mdIndex lessByName)
    mdndxObject := some (s.mdIndex lessByName) }

/-- No two entries have the same time stamp. -/
def S3BlockStore.Distinct (s : S3BlockStore Key) : Prop :=
  ∀ n ∈ s.entries, ∀ m ∈ s.entries, (s.entry n).tstamp = (s.entry m).tstamp → n = m

/-- **The index brings back the entries**, except that the size of the mark counts as zero, and an
opening computes the sums that `bs_refresh_finish` has added up if the time stamps are distinct. -/
structure RoundTrips (s : S3BlockStore Key) : Prop where
  names : ∀ n, n ∈ (parseMdndxEntries ⟨none, s.mdIndex lessByName⟩ .empty).entries ↔ n ∈ s.entries
  entry : ∀ n ∈ s.entries, (parseMdndxEntries ⟨none, s.mdIndex lessByName⟩ .empty).entry n =
    ⟨(s.entry n).tstamp, if n = .mark then 0 else (s.entry n).size⟩
  sums : s.Distinct → ∀ s₁, addUp s = .ok () s₁ →
    (bsOpen lessByName (s.indexed lessByName)).committed = s₁.committed ∧
      (bsOpen lessByName (s.indexed lessByName)).uncommitted = s₁.uncommitted

/-- The entries that the index can hold: the time stamps fit a signed number of 32 bits, no refresh
cycle is in progress, the sizes of the blocks fit an unsigned number of 32 bits; and if the time stamps
are distinct then every block that has been purged from the list is empty. -/
structure Fits (s : S3BlockStore Key) : Prop where
  stamp : ∀ n ∈ s.entries, (s.entry n).tstamp < 2 ^ 31
  rid : ∀ rid, .rid rid ∉ s.entries
  block : ∀ k, .block k ∈ s.entries → (s.entry (.block k)).size < 2 ^ 32
  purged : s.Distinct → ∀ k, .block k ∈ s.entries → .block k ∉ s.lru → (s.entry (.block k)).size = 0

end roundtrip

/-! ### The invariant of all runs -/

/-- The list is part of the table and ordered by the time stamps, and what has left it is not newer
than what is in it.  Tokens have the size -1. -/
structure Kept (s : S3BlockStore Key) (t : ℕ) : Prop where
  entries : s.entries.Nodup
  lru : s.lru.Nodup
  sub : ∀ n ∈ s.lru, n ∈ s.entries
  stamp : ∀ n ∈ s.entries, 0 ≤ (s.entry n).tstamp ∧ (s.entry n).tstamp ≤ t
  sorted : s.lru.Pairwise fun a b => (s.entry b).tstamp ≤ (s.entry a).tstamp
  older : ∀ n ∈ s.entries, n ∉ s.lru → ∀ m ∈ s.lru, (s.entry n).tstamp ≤ (s.entry m).tstamp
  block : ∀ k, .block k ∈ s.entries → 0 ≤ (s.entry (.block k)).size
  rid : ∀ rid, .rid rid ∈ s.entries → (s.entry (.rid rid)).size = -1

section kept

variable {s s' : S3BlockStore Key} {t now : ℕ}

theorem kept_bsCreate (size : ℕ) : Kept (bsCreate size : S3BlockStore Key) 0 := by
  constructor <;> simp [bsCreate]

theorem Kept.mono (h : Kept s t) (ht : t ≤ now) : Kept s now :=
  { h with stamp := fun n hn => ⟨(h.stamp n hn).1, (h.stamp n hn).2.trans (by exact_mod_cast ht)⟩ }

/-- The invariant is about the table and the list. -/
theorem Kept.congr (h : Kept s t) (hentries : s'.entries = s.entries) (hentry : s'.entry = s.entry)
    (hlru : s'.lru = s.lru) : Kept s' t := by
  constructor <;> simp only [hentries, hentry, hlru]
  exacts [h.entries, h.lru, h.sub, h.stamp, h.sorted, h.older, h.block, h.rid]

/-- An entry is touched. -/
theorem Kept.touched (h : Kept s t) (ht : t ≤ now) {n : Name Key} (htouch : Touched n now s s')
    (hblock : ∀ k, n = .block k → 0 ≤ (s'.entry n).size)
    (hrid : ∀ rid, n = .rid rid → (s'.entry n).size = -1) : Kept s' now := by
  have hold : ∀ m ∈ s.entries, (s.entry m).tstamp ≤ now := fun m hm =>
    (h.stamp m hm).2.trans (by exact_mod_cast ht)
  have hother : ∀ m, m ∈ s'.entries → m ≠ n → m ∈ s.entries ∧ s'.entry m = s.entry m := fun m hm hmn =>
    ⟨((htouch.entries m).1 hm).resolve_left hmn, htouch.other m hmn⟩
  refine ⟨htouch.nodup h.entries, ?_, ?_, ?_, ?_, ?_, ?_, ?_⟩
  · rw [htouch.lru]
    exact List.nodup_cons.2 ⟨by simp, h.lru.filter _⟩
  · intro m hm
    exact (htouch.entries m).2 ((htouch.mem_lru.1 hm).imp_right (h.sub m))
  · intro m hm
    by_cases hmn : m = n
    · rw [hmn, htouch.self]
      exact ⟨by positivity, le_refl _⟩
    · obtain ⟨hm', heq⟩ := hother m hm hmn
      rw [heq]
      exact ⟨(h.stamp m hm').1, hold m hm'⟩
  · rw [htouch.lru, List.pairwise_cons]
    constructor
    · intro m hm
      obtain ⟨hm, hmn⟩ := List.mem_filter.1 hm
      rw [htouch.self, htouch.other m (by simpa using hmn)]
      exact hold m (h.sub m hm)
    · refine (h.sorted.sublist List.filter_sublist).imp_of_mem fun {a b} ha hb hab => ?_
      rw [htouch.other a (by simpa using (List.mem_filter.1 ha).2),
        htouch.other b (by simpa using (List.mem_filter.1 hb).2)]
      exact hab
  · intro m hm hout p hp
    have hmn : m ≠ n := fun he => hout (htouch.mem_lru.2 (.inl he))
    obtain ⟨hm', heq⟩ := hother m hm hmn
    rw [heq]
    by_cases hpn : p = n
    · rw [hpn, htouch.self]
      exact hold m hm'
    · rw [htouch.other p hpn]
      exact h.older m hm' (fun hin => hout (htouch.mem_lru.2 (.inr hin))) p
        ((htouch.mem_lru.1 hp).resolve_left hpn)
  · intro k hk
    by_cases hkn : .block k = n
    · rw [hkn]
      exact hblock k hkn.symm
    · obtain ⟨hk', heq⟩ := hother _ hk hkn
      rw [heq]
      exact h.block k hk'
  · intro rid hr
    by_cases hrn : .rid rid = n
    · rw [hrn]
      exact hrid rid hrn.symm
    · obtain ⟨hr', heq⟩ := hother _ hr hrn
      rw [heq]
      exact h.rid rid hr'

/-- Both ways out of a program keep the invariant. -/
def Keeps {α : Type} (m : M Key α) (t now : ℕ) : Prop :=
  ∀ s, Kept s t → wp m (fun _ s' => Kept s' now) (fun _ s' => Kept s' now) s

theorem Keeps.bind {α β : Type} {m : M Key α} {f : α → M Key β} {t₁ t₂ t₃ : ℕ} (hm : Keeps m t₁ t₂)
    (hf : ∀ a, Keeps (f a) t₂ t₃) (ht : t₂ ≤ t₃) : Keeps (m >>= f) t₁ t₃ := fun s h =>
  wp_seq (hm s h) (fun a s' h' => hf a s' h') fun _ _ h' => h'.mono ht

theorem Keeps.ret {α : Type} (a : α) : Keeps (pure a : M Key α) t t := fun _ h => h

theorem Keeps.modify {g : S3BlockStore Key → S3BlockStore Key} (hentries : ∀ s, (g s).entries = s.entries)
    (hentry : ∀ s, (g s).entry = s.entry) (hlru : ∀ s, (g s).lru = s.lru) : Keeps (modify g) t t :=
  fun s h => h.congr (hentries s) (hentry s) (hlru s)

theorem keeps_touchEntry (ht : t ≤ now) {n : Name Key} {size : ℤ} (plsinsert : Bool)
    (hblock : ∀ k, n = .block k → 0 ≤ size) (hrid : ∀ rid, n = .rid rid → size = -1) :
    Keeps (touchEntry n now size plsinsert) t now := by
  intro s h
  by_cases hk : n ∈ s.entries
  · by_cases hl : n ∈ s.lru
    · have hsize : wp (touchEntry n now size plsinsert)
          (fun _ s' => (s'.entry n).size = if size ≠ 0 then size else (s.entry n).size) (fun _ _ => False) s := by
        simp only [touchEntry, wp_bind, wp_get, if_pos hk, lruErase, if_pos hl, wp_set, wp_modify, wp_pure,
          S3BlockStore.setEntry, Function.update_self]
      refine wp_mono (wp_and (touchEntry_spec (fun _ => hl) now size (.inl hk) h.sub) hsize) ?_
        fun _ _ hF => hF.2.elim
      rintro - s' ⟨⟨htouch, -⟩, hs'⟩
      refine h.touched ht htouch (fun k hn => ?_) fun rid hn => ?_
      · rw [hs']
        split
        · exact hblock k hn
        · rw [hn]
          exact h.block k (hn ▸ hk)
      · rw [hs', hrid rid hn]
        rfl
    · simp only [touchEntry, wp_bind, wp_get, if_pos hk, lruErase, if_neg hl]
      exact h.mono ht
  · cases plsinsert with
    | true =>
        have hsize : wp (touchEntry n now size true) (fun _ s' => (s'.entry n).size = size)
            (fun _ _ => False) s := by
          simp only [touchEntry, wp_bind, wp_get, if_neg hk, if_true, wp_set, wp_pure, S3BlockStore.setEntry,
            Function.update_self]
        refine wp_mono (wp_and (touchEntry_spec (fun hin => absurd hin hk) now size (.inr rfl) h.sub) hsize) ?_
          fun _ _ hF => hF.2.elim
        rintro - s' ⟨⟨htouch, -⟩, hs'⟩
        refine h.touched ht htouch (fun k hn => ?_) fun rid hn => ?_
        · rw [hs']
          exact hblock k hn
        · rw [hs']
          exact hrid rid hn
    | false =>
        simp only [touchEntry, wp_bind, wp_get, if_neg hk, Bool.false_eq_true, if_false]
        exact h.mono ht

/-- The oldest entry leaves the list. -/
theorem Kept.pop (h : Kept s t) {n : Name Key} (hn : s.lru.getLast? = some n)
    (hentries : s'.entries = s.entries) (hentry : s'.entry = s.entry) (hlru : s'.lru = s.lru.dropLast) :
    Kept s' t := by
  have hsplit : s.lru = s.lru.dropLast ++ [n] := (List.dropLast_append_getLast? n hn).symm
  have hsorted := h.sorted
  rw [hsplit] at hsorted
  obtain ⟨hfront, -, hlast⟩ := List.pairwise_append.1 hsorted
  constructor <;> simp only [hentries, hentry, hlru]
  · exact h.entries
  · exact h.lru.sublist (List.dropLast_sublist _)
  · exact fun m hm => h.sub m (List.mem_of_mem_dropLast hm)
  · exact h.stamp
  · exact hfront
  · intro m hm hout p hp
    by_cases hmn : m = n
    · rw [hmn]
      exact hlast p hp n (by simp)
    · refine h.older m hm (fun hin => ?_) p (List.mem_of_mem_dropLast hp)
      rw [hsplit] at hin
      rcases List.mem_append.1 hin with hin | hin
      · exact hout hin
      · exact hmn (List.mem_singleton.1 hin)
  · exact h.block
  · exact h.rid

theorem keeps_purgeUncommitted : Keeps (purgeUncommitted : M Key Unit) t t := by
  intro s h
  simp only [purgeUncommitted, purgePop, wp_bind, wp_get]
  cases hn : s.lru.getLast? with
  | none => exact h
  | some n =>
      cases hm : s.mark with
      | none => exact h
      | some m =>
          dsimp only
          split
          case isTrue => exact h
          case isFalse => exact h.pop hn rfl rfl rfl

theorem keeps_purgeLoop (blksize fuel : ℕ) : Keeps (purgeLoop blksize fuel : M Key Unit) t t := by
  induction fuel with
  | zero => exact fun s h => h
  | succ fuel ih =>
      intro s h
      rw [purgeLoop, wp_bind, wp_get]
      split
      · exact Keeps.bind keeps_purgeUncommitted (fun _ => ih) (le_refl t) s h
      · exact h

theorem keeps_bsBlockPut (ht : t ≤ now) (k : Key) (data : List UInt8) :
    Keeps (bsBlockPut now k data) t now := by
  intro s h
  rw [bsBlockPut, wp_bind, wp_get]
  split
  case isTrue => exact h.mono ht
  case isFalse =>
    split
    case isTrue => exact h.mono ht
    case isFalse =>
      refine Keeps.bind (keeps_purgeLoop data.length _) (fun _ => ?_) ht s h
      refine Keeps.bind (.modify (fun _ => rfl) (fun _ => rfl) fun _ => rfl) (fun _ => ?_) ht
      refine Keeps.bind (.modify (fun _ => rfl) (fun _ => rfl) fun _ => rfl) (fun _ => ?_) ht
      refine Keeps.bind (keeps_touchEntry ht true ?_ ?_) (fun _ => .ret _) (le_refl now)
      · exact fun _ _ => by positivity
      · exact fun _ hr => by simp at hr

theorem keeps_bsRefreshStart (ht : t ≤ now) (rid : ℕ) : Keeps (bsRefreshStart now rid : M Key Unit) t now := by
  intro s h
  rw [bsRefreshStart, wp_bind, wp_get]
  split
  case isTrue => exact h.mono ht
  case isFalse =>
    refine Keeps.bind (keeps_touchEntry ht true ?_ ?_) (fun _ => .ret _) (le_refl now) s h
    · exact fun _ hk => by simp at hk
    · exact fun _ _ => rfl

theorem keeps_bsRefreshBlock (ht : t ≤ now) (rid : ℕ) (k : Key) : Keeps (bsRefreshBlock now rid k) t now := by
  intro s h
  rw [bsRefreshBlock, wp_bind, wp_get]
  split
  case isTrue => exact h.mono ht
  case isFalse =>
    refine keeps_touchEntry ht false ?_ ?_ s h
    · exact fun _ _ => le_refl 0
    · exact fun _ hr => by simp at hr

/-- The entry of the mark is removed. -/
theorem keeps_removeMark : Keeps (removeMark : M Key Unit) t t := by
  intro s h
  -- The table first; then the list, unless the mark has been purged from it.
  have herase : Kept { s with entries := s.entries.erase .mark, lru := s.lru.filter fun n => n ≠ .mark } t := by
    refine ⟨h.entries.erase _, h.lru.filter _, ?_, ?_, h.sorted.sublist List.filter_sublist, ?_, ?_, ?_⟩
    · intro n hn
      obtain ⟨hn, hne⟩ := List.mem_filter.1 hn
      exact (List.mem_erase_of_ne (by simpa using hne)).2 (h.sub n hn)
    · exact fun n hn => h.stamp n (List.mem_of_mem_erase hn)
    · intro n hn hout m hm
      have hne : n ≠ .mark := fun he => by
        rw [he] at hn
        exact h.entries.not_mem_erase hn
      refine h.older n (List.mem_of_mem_erase hn) (fun hin => hout ?_) m (List.mem_filter.1 hm).1
      exact List.mem_filter.2 ⟨hin, by simpa using hne⟩
    · exact fun k hk => h.block k (List.mem_of_mem_erase hk)
    · exact fun rid hr => h.rid rid (List.mem_of_mem_erase hr)
  rw [removeMark, wp_bind, wp_get]
  split
  case isTrue =>
    by_cases hl : .mark ∈ s.lru
    · simp only [wp_bind, wp_set, lruErase, wp_get, if_pos hl]
      exact herase
    · simp only [wp_bind, wp_set, lruErase, wp_get, if_neg hl]
      have hkeep : s.lru.filter (fun n => decide (n ≠ .mark)) = s.lru :=
        List.filter_eq_self.2 fun n hn => by simpa using fun he : n = .mark => hl (he ▸ hn)
      exact herase.congr rfl rfl hkeep.symm
  case isFalse => exact h

/-- The token becomes the mark. -/
theorem Kept.rename (h : Kept s t) {rid : ℕ} (hrid : .rid rid ∈ s.entries) (hmark : .mark ∉ s.entries)
    (hentries : s'.entries = .mark :: s.entries.erase (.rid rid))
    (hlru : s'.lru = s.lru.map (renamed rid))
    (hentry : s'.entry = Function.update s.entry .mark (s.entry (.rid rid))) : Kept s' t := by
  have hne : ∀ n ∈ s.entries, n ≠ .mark := fun n hn he => hmark (he ▸ hn)
  have hsame : ∀ n ∈ s.entries, s'.entry (renamed rid n) = s.entry n := by
    intro n hn
    rw [hentry, renamed]
    split
    case isTrue he => rw [he, Function.update_self]
    case isFalse => rw [Function.update_of_ne (hne n hn)]
  -- Every name in the table is the new name of an old one.
  have hold : ∀ m ∈ s'.entries, ∃ n ∈ s.entries, m = renamed rid n := by
    intro m hm
    rw [hentries] at hm
    rcases List.mem_cons.1 hm with rfl | hm
    · exact ⟨.rid rid, hrid, by simp [renamed]⟩
    · have hmr : m ≠ .rid rid := fun he => h.entries.not_mem_erase (he ▸ hm)
      exact ⟨m, List.mem_of_mem_erase hm, by simp [renamed, hmr]⟩
  have holdLru : ∀ m ∈ s'.lru, ∃ n ∈ s.lru, m = renamed rid n := by
    intro m hm
    rw [hlru] at hm
    obtain ⟨n, hn, rfl⟩ := List.mem_map.1 hm
    exact ⟨n, hn, rfl⟩
  refine ⟨?_, ?_, ?_, ?_, ?_, ?_, ?_, ?_⟩
  · rw [hentries]
    exact List.nodup_cons.2 ⟨fun hin => hmark (List.mem_of_mem_erase hin), h.entries.erase _⟩
  · rw [hlru]
    exact h.lru.map_on fun n hn m hm => renamed_inj (hne n (h.sub n hn)) (hne m (h.sub m hm))
  · intro m hm
    obtain ⟨n, hn, rfl⟩ := holdLru m hm
    rw [hentries, renamed]
    split
    case isTrue => exact List.mem_cons_self
    case isFalse hnr => exact List.mem_cons_of_mem _ ((List.mem_erase_of_ne hnr).2 (h.sub n hn))
  · intro m hm
    obtain ⟨n, hn, rfl⟩ := hold m hm
    rw [hsame n hn]
    exact h.stamp n hn
  · rw [hlru, List.pairwise_map]
    refine h.sorted.imp_of_mem fun {a b} ha hb hab => ?_
    rw [hsame a (h.sub a ha), hsame b (h.sub b hb)]
    exact hab
  · intro m hm hout p hp
    obtain ⟨n, hn, rfl⟩ := hold m hm
    obtain ⟨q, hq, rfl⟩ := holdLru p hp
    rw [hsame n hn, hsame q (h.sub q hq)]
    refine h.older n hn (fun hin => hout ?_) q hq
    rw [hlru]
    exact List.mem_map_of_mem hin
  · intro k hk
    obtain ⟨n, hn, hkn⟩ := hold _ hk
    have hnk : n = .block k := by
      rw [renamed] at hkn
      split at hkn
      · simp at hkn
      · exact hkn.symm
    rw [hkn, hsame n hn, hnk]
    exact h.block k (hnk ▸ hn)
  · intro r hr
    obtain ⟨n, hn, hrn⟩ := hold _ hr
    have hnr : n = .rid r := by
      rw [renamed] at hrn
      split at hrn
      · simp at hrn
      · exact hrn.symm
    rw [hrn, hsame n hn, hnr]
    exact h.rid r (hnr ▸ hn)

theorem keeps_bsRefreshFinish (lessByName : Name Key → Name Key → Bool) (rid : ℕ) :
    Keeps (bsRefreshFinish lessByName rid) t t := by
  intro s h
  rw [bsRefreshFinish, wp_bind, wp_get]
  split
  case isTrue => exact h
  case isFalse hrid =>
    have htable : wp (removeMark : M Key Unit)
        (fun _ s' => .mark ∉ s'.entries ∧ .rid rid ∈ s'.entries) (fun _ _ => True) s := by
      rw [removeMark, wp_bind, wp_get]
      split
      case isTrue =>
        by_cases hl : .mark ∈ s.lru
        · simp only [wp_bind, wp_set, lruErase, wp_get, if_pos hl]
          exact ⟨h.entries.not_mem_erase, (List.mem_erase_of_ne (by simp)).2 (not_not.1 hrid)⟩
        · simp only [wp_bind, wp_set, lruErase, wp_get, if_neg hl]
          trivial
      case isFalse hm => exact ⟨hm, not_not.1 hrid⟩
    refine wp_seq (wp_and (keeps_removeMark s h) htable) ?_ fun _ _ hF => hF.1
    rintro - s₁ ⟨h₁, hmark, hrid₁⟩
    exact h₁.rename hrid₁ hmark rfl rfl rfl

/-- **The invariant holds in every run.** -/
theorem kept_run {lessByName : Name Key → Name Key → Bool} {size : ℕ} {h : List (Event Key)}
    (hr : Run lessByName size s t h) : Kept s t := by
  induction hr with
  | create => exact kept_bsCreate size
  | @step s t h now op _ ht _ ih =>
      have hstep : Keeps (step lessByName now op) t now := by
        cases op with
        | put k data => exact (keeps_bsBlockPut ht k data).bind (fun _ => .ret _) (le_refl now)
        | refreshStart rid => exact (keeps_bsRefreshStart ht rid).bind (fun _ => .ret _) (le_refl now)
        | refreshBlock rid k =>
            refine (keeps_bsRefreshBlock ht rid k).bind (fun b => ?_) (le_refl now)
            cases b <;> exact .ret _
        | refreshFinish rid =>
            intro s h
            exact (keeps_bsRefreshFinish lessByName rid).bind (fun _ => .ret _) (le_refl now) s (h.mono ht)
      have hwp := hstep s ih
      unfold stepEvent
      cases hm : step lessByName now op s with
      | ok ev s' =>
          have hok := wp_ok hwp hm
          exact hok
      | error e s' =>
          have herr := wp_error hwp hm
          exact herr

end kept

/-! ### The sums -/

section sums

variable {e e' : Name Key → Entry}

theorem sum_sizes_eq_zero {l : List (Name Key)} (h : ∀ n ∈ l, 0 ≤ (e n).size) :
    0 ≤ (l.map fun n => (e n).size).sum ∧
      ((l.map fun n => (e n).size).sum = 0 ↔ ∀ n ∈ l, (e n).size = 0) := by
  induction l with
  | nil => simp
  | cons n l ih =>
      obtain ⟨hpos, hiff⟩ := ih fun m hm => h m (List.mem_cons_of_mem n hm)
      have hn := h n List.mem_cons_self
      rw [List.map_cons, List.sum_cons, List.forall_mem_cons, ← hiff]
      omega

/-- The sizes of the entries other than the mark are added up. -/
theorem sumLru_congr {l : List (Name Key)} (hl : l.Nodup)
    (h : ∀ n ∈ l, n ≠ .mark → (e n).size = (e' n).size) : sumLru e l = sumLru e' l := by
  induction l with
  | nil => rfl
  | cons n l ih =>
      obtain ⟨hn, hl⟩ := List.nodup_cons.1 hl
      rw [sumLru, sumLru]
      split
      case isTrue hm =>
        congr 2
        refine List.map_congr_left fun m hml => h m (List.mem_cons_of_mem n hml) ?_
        rintro rfl
        exact hn (hm ▸ hml)
      case isFalse hm =>
        rw [h n List.mem_cons_self hm, ih hl fun m hml => h m (List.mem_cons_of_mem n hml)]

/-- Behind the mark everything counts alike. -/
theorem sumLru_append (A B : List (Name Key)) : sumLru e (A ++ B) =
    if .mark ∈ A then ((sumLru e A).1, (sumLru e A).2 + (B.map fun n => (e n).size).sum)
    else ((sumLru e A).1 + (sumLru e B).1, (sumLru e A).2 + (sumLru e B).2) := by
  induction A with
  | nil => simp [sumLru]
  | cons n A ih =>
      rw [List.cons_append, sumLru, sumLru]
      by_cases hn : n = .mark
      · simp [hn]
      · rw [if_neg hn, if_neg hn, ih]
        by_cases hA : .mark ∈ A
        · simp [hA]
        · simp [hA, Ne.symm hn, add_assoc]

/-- No sizes are added up exactly if there are none. -/
theorem sumLru_eq_zero {l : List (Name Key)} (hl : l.Nodup) (h : ∀ n ∈ l, n ≠ .mark → 0 ≤ (e n).size) :
    0 ≤ (sumLru e l).1 ∧ 0 ≤ (sumLru e l).2 ∧
      (sumLru e l = (0, 0) ↔ ∀ n ∈ l, n ≠ .mark → (e n).size = 0) := by
  induction l with
  | nil => simp [sumLru]
  | cons n l ih =>
      obtain ⟨hn, hl⟩ := List.nodup_cons.1 hl
      rw [sumLru, List.forall_mem_cons]
      split
      case isTrue hm =>
        subst hm
        have hne : ∀ m ∈ l, m ≠ .mark := fun m hm he => hn (he ▸ hm)
        obtain ⟨hpos, hiff⟩ := sum_sizes_eq_zero fun m hm => h m (List.mem_cons_of_mem _ hm) (hne m hm)
        refine ⟨le_refl _, hpos, ?_⟩
        rw [Prod.mk.injEq, hiff]
        refine ⟨fun hz => ⟨fun hm => absurd rfl hm, fun m hm _ => hz.2 m hm⟩, fun hz => ⟨rfl, fun m hm => ?_⟩⟩
        exact hz.2 m hm (hne m hm)
      case isFalse hm =>
        obtain ⟨h₁, h₂, hiff⟩ := ih hl fun m hml => h m (List.mem_cons_of_mem n hml)
        have hpos := h n List.mem_cons_self hm
        refine ⟨by positivity, h₂, ?_⟩
        rw [← hiff, Prod.mk.injEq, Prod.ext_iff]
        simp only [ne_eq, hm, not_false_eq_true, forall_const]
        omega

/-- Entries behind the others change the sums exactly if they have a size. -/
theorem sumLru_append_eq {A B : List (Name Key)} (hnd : (A ++ B).Nodup)
    (h : ∀ n ∈ B, n ≠ .mark → 0 ≤ (e n).size) :
    sumLru e (A ++ B) = sumLru e A ↔ ∀ n ∈ B, n ≠ .mark → (e n).size = 0 := by
  obtain ⟨-, hB, hdisj⟩ := List.nodup_append.1 hnd
  rw [sumLru_append]
  split
  case isTrue hA =>
    have hne : ∀ m ∈ B, m ≠ .mark := fun m hm he => hdisj .mark hA m hm he.symm
    obtain ⟨-, hiff⟩ := sum_sizes_eq_zero fun m hm => h m hm (hne m hm)
    rw [Prod.ext_iff]
    simp only [true_and, add_eq_left, hiff]
    exact ⟨fun hz m hm _ => hz m hm, fun hz m hm => hz m hm (hne m hm)⟩
  case isFalse =>
    obtain ⟨-, -, hiff⟩ := sumLru_eq_zero hB h
    rw [← hiff, Prod.ext_iff, Prod.ext_iff]
    simp only [add_eq_left]

end sums

/-! ### What the index brings back -/

theorem toInt_ofInt_eq {z : ℤ} (hz : 0 ≤ z) : (BitVec.ofInt 32 z).toInt = z ↔ z < 2 ^ 31 := by
  rw [BitVec.toInt_ofInt]
  constructor
  · intro h
    have hlt := Int.bmod_lt (x := z) (m := 2 ^ 32) (by decide)
    rw [h] at hlt
    simpa using hlt
  · intro h
    exact Int.bmod_eq_of_le (by omega) (by omega)

theorem toNat_ofInt_eq {z : ℤ} : ((BitVec.ofInt 32 z).toNat : ℤ) = z ↔ 0 ≤ z ∧ z < 2 ^ 32 := by
  rw [BitVec.toNat_ofInt]
  omega

section iff

variable {lessByName : Name Key → Name Key → Bool} {s : S3BlockStore Key} {t : ℕ}

/-- The entry that comes back for a name. -/
def returned (entry : Name Key → Entry) (n : Name Key) : Entry :=
  (parseEntry (mdEntry entry n)).2

theorem returned_eq_iff {entry : Name Key → Entry} {n : Name Key} (h : 0 ≤ (entry n).tstamp) :
    returned entry n = ⟨(entry n).tstamp, if n = .mark then 0 else (entry n).size⟩ ↔
      (entry n).tstamp < 2 ^ 31 ∧ (n ≠ .mark → 0 ≤ (entry n).size ∧ (entry n).size < 2 ^ 32) := by
  have hsize : (((if (entry n).size ≠ 0 then some (BitVec.ofInt 32 (entry n).size) else none).getD
      0).toNat : ℤ) = (BitVec.ofInt 32 (entry n).size).toNat := by
    by_cases h0 : (entry n).size = 0
    · simp [h0]
    · simp [h0]
  simp only [returned, parseEntry, mdEntry, Entry.mk.injEq, toInt_ofInt_eq h, hsize]
  refine and_congr_right fun _ => ?_
  by_cases hm : n = .mark
  · simp [hm]
  · simp only [hm, if_false, ne_eq, not_false_eq_true, forall_const, toNat_ofInt_eq]

theorem inOrder_perm (s : S3BlockStore Key) : (s.inOrder lessByName).Perm s.entries :=
  foldr_setInsert_perm lessByName s.entries

/-- What `parse_mdndx_entries` reads. -/
theorem Kept.reads (h : Kept s t) :
    Reads (parseMdndxEntries ⟨none, s.mdIndex lessByName⟩ .empty)
      ((s.mdIndex lessByName).map parseEntry) := by
  refine parseMdndxEntries_eq ?_
  rw [S3BlockStore.mdIndex, List.map_map]
  have hnames : (s.inOrder lessByName).map (MDEntry.name ∘ mdEntry s.entry) = s.inOrder lessByName :=
    List.map_id'' (fun _ => rfl) _
  rw [hnames]
  exact (inOrder_perm s).nodup_iff.2 h.entries

theorem map_fst_index (s : S3BlockStore Key) :
    ((s.mdIndex lessByName).map parseEntry).map Prod.fst = s.inOrder lessByName := by
  rw [S3BlockStore.mdIndex, List.map_map, List.map_map]
  exact List.map_id'' (fun _ => rfl) _

theorem Kept.parse_entries (h : Kept s t) (n : Name Key) :
    n ∈ (parseMdndxEntries ⟨none, s.mdIndex lessByName⟩ .empty).entries ↔ n ∈ s.entries := by
  have hreads : Reads (parseMdndxEntries ⟨none, s.mdIndex lessByName⟩ .empty) _ := h.reads
  rw [hreads.entries, map_fst_index]
  exact (inOrder_perm s).mem_iff

theorem Kept.parse_entry (h : Kept s t) {n : Name Key} (hn : n ∈ s.entries) :
    (parseMdndxEntries ⟨none, s.mdIndex lessByName⟩ .empty).entry n = returned s.entry n := by
  refine h.reads.entry (parseEntry (mdEntry s.entry n)) (List.mem_map_of_mem (List.mem_map_of_mem ?_))
  exact (inOrder_perm s).mem_iff.2 hn

theorem Kept.ets_eq (h : Kept s t) :
    (parseMdndxEntries ⟨none, s.mdIndex lessByName⟩ .empty).ets =
      (Recency.sortBy (fun x : Name Key × Entry => x.2.tstamp)
        ((s.mdIndex lessByName).map parseEntry)).map Prod.fst := by
  have hreads : Reads (parseMdndxEntries ⟨none, s.mdIndex lessByName⟩ .empty) _ := h.reads
  rw [← hreads.ets, List.map_map]
  exact (List.map_id'' (fun _ => rfl) _).symm

theorem Kept.ets_perm (h : Kept s t) :
    (parseMdndxEntries ⟨none, s.mdIndex lessByName⟩ .empty).ets.Perm s.entries := by
  rw [h.ets_eq]
  refine ((Recency.sortBy_perm _ _).map Prod.fst).trans ?_
  rw [map_fst_index]
  exact inOrder_perm s

/-- The list of a reopened store, and the sums. -/
theorem Kept.bsOpen_sums (h : Kept s t) :
    ((bsOpen lessByName (s.indexed lessByName)).committed, (bsOpen lessByName (s.indexed lessByName)).uncommitted) =
      sumLru (returned s.entry) (parseMdndxEntries ⟨none, s.mdIndex lessByName⟩ .empty).ets.reverse := by
  have hsaved : (s.indexed lessByName).saved lessByName = (s.mdIndex lessByName).map parseEntry := rfl
  have hmap : ∀ n ∈ s.entries, entryMap ((s.mdIndex lessByName).map parseEntry) n = returned s.entry n := by
    intro n hn
    have hin : parseEntry (mdEntry s.entry n) ∈ (s.mdIndex lessByName).map parseEntry :=
      List.mem_map_of_mem (List.mem_map_of_mem ((inOrder_perm s).mem_iff.2 hn))
    rw [entryMap]
    cases hf : ((s.mdIndex lessByName).map parseEntry).find? fun x => decide (x.1 = n) with
    | none =>
        have hno := List.find?_eq_none.1 hf _ hin
        simp [parseEntry, mdEntry] at hno
    | some x =>
        obtain ⟨y, hy, rfl⟩ := List.mem_map.1 (List.mem_of_find?_eq_some hf)
        obtain ⟨m, -, rfl⟩ := List.mem_map.1 hy
        have hfound := List.find?_some hf
        have hmn : m = n := by simpa [parseEntry, mdEntry] using hfound
        rw [hmn]
        rfl
  simp only [bsOpen, hsaved, ← h.ets_eq]
  refine sumLru_congr ?_ fun n hn _ => ?_
  · exact List.nodup_reverse.2 (h.ets_perm.nodup_iff.2 h.entries)
  · rw [hmap n (h.ets_perm.mem_iff.1 (List.mem_reverse.1 hn))]

/-- With distinct time stamps the entries come back in the order of the list, those that were purged
behind it. -/
theorem Kept.ets_reverse (h : Kept s t) (hd : s.Distinct) (hs : ∀ n ∈ s.entries, (s.entry n).tstamp < 2 ^ 31) :
    ∃ P, (parseMdndxEntries ⟨none, s.mdIndex lessByName⟩ .empty).ets.reverse = s.lru ++ P ∧
      (s.lru ++ P).Perm s.entries := by
  -- The time stamps come back as they were.
  have hstamp : ∀ x ∈ Recency.sortBy (fun x : Name Key × Entry => x.2.tstamp)
      ((s.mdIndex lessByName).map parseEntry), x.2.tstamp = (s.entry x.1).tstamp := by
    intro x hx
    obtain ⟨y, hy, rfl⟩ := List.mem_map.1 ((Recency.sortBy_perm _ _).mem_iff.1 hx)
    obtain ⟨n, hn, rfl⟩ := List.mem_map.1 hy
    have hn' := (inOrder_perm s).mem_iff.1 hn
    exact (toInt_ofInt_eq (h.stamp n hn').1).2 (hs n hn')
  generalize hL : (parseMdndxEntries ⟨none, s.mdIndex lessByName⟩ .empty).ets.reverse = L
  have hperm : L.Perm s.entries := hL ▸ (List.reverse_perm _).trans h.ets_perm
  have hnd : L.Nodup := hperm.nodup_iff.2 h.entries
  have hsorted : L.Pairwise fun a b => (s.entry b).tstamp ≤ (s.entry a).tstamp := by
    rw [← hL, List.pairwise_reverse, h.ets_eq, List.pairwise_map]
    refine (Recency.sortBy_sorted _ _).imp_of_mem fun {x y} hx hy hxy => ?_
    rwa [hstamp x hx, hstamp y hy] at hxy
  have hmem : ∀ n, n ∈ s.lru ++ L.filter (fun n => n ∉ s.lru) ↔ n ∈ L := by
    intro n
    rw [List.mem_append, List.mem_filter]
    by_cases hn : n ∈ s.lru
    · simp [hn, hperm.mem_iff, h.sub n hn]
    · simp [hn]
  have hnd' : (s.lru ++ L.filter fun n => n ∉ s.lru).Nodup := by
    refine List.nodup_append.2 ⟨h.lru, hnd.filter _, ?_⟩
    rintro n hn m hm rfl
    simpa [hn] using (List.mem_filter.1 hm).2
  have hp : L.Perm (s.lru ++ L.filter fun n => n ∉ s.lru) :=
    (List.perm_ext_iff_of_nodup hnd hnd').2 fun n => (hmem n).symm
  refine ⟨L.filter fun n => n ∉ s.lru, ?_, hp.symm.trans hperm⟩
  refine hp.eq_of_pairwise ?_ hsorted ?_
  · intro a b ha hb hab hba
    exact hd a (hperm.mem_iff.1 ha) b (hperm.mem_iff.1 ((hmem b).1 hb)) (le_antisymm hba hab)
  · refine List.pairwise_append.2 ⟨h.sorted, hsorted.sublist List.filter_sublist, ?_⟩
    intro m hm n hn
    obtain ⟨hn, hout⟩ := List.mem_filter.1 hn
    exact h.older n (hperm.mem_iff.1 hn) (by simpa using hout) m hm

/-- **When the index brings back the entries and the sums.**  In every run, it does so exactly if the
time stamps are below 2^31, no refresh cycle is in progress, the blocks are smaller than 2^32 bytes and,
if the time stamps are distinct, no block that has a size has been purged from the list. -/
theorem roundTrips_iff (lessByName : Name Key → Name Key → Bool) (size : ℕ) (s : S3BlockStore Key) (t : ℕ)
    (h : List (Event Key)) (hr : Run lessByName size s t h) : RoundTrips lessByName s ↔ Fits s := by
  have hk := kept_run hr
  have hentry : (∀ n ∈ s.entries, (parseMdndxEntries ⟨none, s.mdIndex lessByName⟩ .empty).entry n =
      ⟨(s.entry n).tstamp, if n = .mark then 0 else (s.entry n).size⟩) ↔
      ∀ n ∈ s.entries, (s.entry n).tstamp < 2 ^ 31 ∧
        (n ≠ .mark → 0 ≤ (s.entry n).size ∧ (s.entry n).size < 2 ^ 32) := by
    refine forall₂_congr fun n hn => ?_
    rw [hk.parse_entry hn, returned_eq_iff (hk.stamp n hn).1]
  -- With sizes that come back, the sums differ by the blocks that were purged.
  have hsums : s.Distinct → (∀ n ∈ s.entries, (s.entry n).tstamp < 2 ^ 31 ∧
        (n ≠ .mark → 0 ≤ (s.entry n).size ∧ (s.entry n).size < 2 ^ 32)) →
      (((bsOpen lessByName (s.indexed lessByName)).committed, (bsOpen lessByName (s.indexed lessByName)).uncommitted) =
        sumLru s.entry s.lru ↔ ∀ n ∈ s.entries, n ≠ .mark → n ∉ s.lru → (s.entry n).size = 0) := by
    intro hd hfit
    obtain ⟨P, hP, hperm⟩ : ∃ P, (parseMdndxEntries ⟨none, s.mdIndex lessByName⟩ .empty).ets.reverse =
        s.lru ++ P ∧ (s.lru ++ P).Perm s.entries := hk.ets_reverse hd fun n hn => (hfit n hn).1
    have hnd := hperm.nodup_iff.2 hk.entries
    have hin : ∀ n, n ∈ P ↔ n ∈ s.entries ∧ n ∉ s.lru := by
      intro n
      rw [← hperm.mem_iff, List.mem_append]
      refine ⟨fun hn => ⟨.inr hn, fun hl => ?_⟩, fun hn => hn.1.resolve_left hn.2⟩
      exact (List.nodup_append.1 hnd).2.2 n hl n hn rfl
    have hback : sumLru (returned s.entry) (s.lru ++ P) = sumLru s.entry (s.lru ++ P) := by
      refine sumLru_congr hnd fun n hn hm => ?_
      have hn' := hperm.mem_iff.1 hn
      rw [(returned_eq_iff (hk.stamp n hn').1).2 (hfit n hn'), if_neg hm]
    rw [hk.bsOpen_sums, hP, hback,
      sumLru_append_eq hnd fun n hn hm => ((hfit n ((hin n).1 hn).1).2 hm).1]
    refine ⟨fun hz n hn hm hl => hz n ((hin n).2 ⟨hn, hl⟩) hm, fun hz n hn hm => ?_⟩
    exact hz n ((hin n).1 hn).1 hm ((hin n).1 hn).2
  constructor
  · intro hrt
    have hfit := hentry.1 hrt.entry
    refine ⟨fun n hn => (hfit n hn).1, fun rid hin => ?_, fun k hin => ((hfit _ hin).2 (by simp)).2, ?_⟩
    · have hneg := hk.rid rid hin
      have hpos := ((hfit _ hin).2 (by simp)).1
      omega
    · intro hd k hin hout
      have hsum := hrt.sums hd _ rfl
      exact (hsums hd hfit).1 (Prod.ext hsum.1 hsum.2) _ hin (by simp) hout
  · intro hf
    have hfit : ∀ n ∈ s.entries, (s.entry n).tstamp < 2 ^ 31 ∧
        (n ≠ .mark → 0 ≤ (s.entry n).size ∧ (s.entry n).size < 2 ^ 32) := by
      intro n hn
      refine ⟨hf.stamp n hn, fun hm => ?_⟩
      cases n with
      | block k => exact ⟨hk.block k hn, hf.block k hn⟩
      | rid rid => exact absurd hn (hf.rid rid)
      | mark => exact absurd rfl hm
    refine ⟨hk.parse_entries, hentry.2 hfit, fun hd s₁ hs₁ => ?_⟩
    have heq := (hsums hd hfit).2 fun n hn hm hl => ?_
    · obtain rfl : _ = s₁ := by
        injection hs₁
      exact ⟨congrArg Prod.fst heq, congrArg Prod.snd heq⟩
    · cases n with
      | block k => exact hf.purged hd k hn hl
      | rid rid => exact absurd hn (hf.rid rid)
      | mark => exact absurd rfl hm

end iff

/-! ### Two stores -/

/-- A block and a finished cycle. -/
theorem roundTrips_cycle :
    ∃ (s : S3BlockStore ℕ) (h : List (Event ℕ)), Run Name.less 30 s 3 h ∧
      s.entries = [.mark, .block 0] ∧ RoundTrips Name.less s := by
  have r₀ : Run Name.less 30 (bsCreate 30 : S3BlockStore ℕ) 0 [] := .create
  have r₁ := r₀.step 1 (.put 0 (List.replicate 10 7)) (by decide) trivial
  have r₂ := r₁.step 2 (.refreshStart 1) (by decide) trivial
  have r₃ := r₂.step 3 (.refreshFinish 1) (by decide) trivial
  refine ⟨_, _, r₃, by decide, (roundTrips_iff Name.less 30 _ 3 _ r₃).2 ⟨by decide, ?_, ?_, ?_⟩⟩
  · intro rid hin
    have hin' : .rid rid ∈ [(.mark : Name ℕ), .block 0] := hin
    simp at hin'
  · intro k hin
    have hin' : .block k ∈ [(.mark : Name ℕ), .block 0] := hin
    obtain rfl : k = 0 := by simpa using hin'
    decide
  · intro _ k hin hout
    have hin' : .block k ∈ [(.mark : Name ℕ), .block 0] := hin
    obtain rfl : k = 0 := by simpa using hin'
    exact absurd (by decide) hout

/-- **The token of a cycle in progress does not come back.**  A cycle finishes while another is in
progress; the token of the other has the size -1 and comes back with 4294967295, which is what the
reopened store takes for committed bytes. -/
theorem not_roundTrips_token :
    ∃ (s : S3BlockStore ℕ) (h : List (Event ℕ)), Run Name.less 30 s 4 h ∧ s.Distinct ∧
      s.entries = [.mark, .rid 2, .block 0] ∧ s.entry (.rid 2) = ⟨3, -1⟩ ∧ s.committed = -1 ∧
      (parseMdndxEntries ⟨none, s.mdIndex Name.less⟩ .empty).entry (.rid 2) = ⟨3, 4294967295⟩ ∧
      (bsOpen Name.less s).committed = 4294967295 ∧ ¬ RoundTrips Name.less s := by
  have r₀ : Run Name.less 30 (bsCreate 30 : S3BlockStore ℕ) 0 [] := .create
  have r₁ := r₀.step 1 (.put 0 (List.replicate 10 7)) (by decide) trivial
  have r₂ := r₁.step 2 (.refreshStart 1) (by decide) trivial
  have r₃ := r₂.step 3 (.refreshStart 2) (by decide) trivial
  have r₄ := r₃.step 4 (.refreshFinish 1) (by decide) trivial
  refine ⟨_, _, r₄, by unfold S3BlockStore.Distinct; decide, by decide, by decide, by decide, by decide,
    by decide, fun hrt => ?_⟩
  exact absurd (hrt.entry (.rid 2) (by decide)) (by decide)

end S3BS

end Utopfs
