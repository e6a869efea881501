/-
**Space accounting in the directory block store.**

The store keeps the bytes of its blocks three times over: in the files, in the sizes recorded in the
entries, and in the two counters `m_committed` and `m_uncommitted`, which split them at the `MARK` of
the LRU list.  A put changes all three, each by a different route: the counters by the size and the
time stamp of the old file, the entry by `touch_entry`, the list by position.

The routes part in three places.  `touch_entry` leaves the recorded size of an entry alone, so that
replacing a block by one of another size makes it wrong.  A put takes the old copy for uncommitted if
its file is older than the `MARK`, while an entry can be behind the `MARK` with the same time stamp.
And a block that an open cycle refreshes moves in front of the `MARK` without the counters' knowing;
that is repaired when the cycle finishes, but not if a purge takes its token away first.

Main definitions:

* `FSBS.bsStat` — the figures reported to the client;
* `FSBS.Accounted` — the three representations agree;
* `FSBS.Tallies` — the condition on the state before a step;
* `FSBS.SpaceInv` — the invariant: the recorded sizes are those of the files, and the counters are
  the sums over the list unless a cycle is open.

Main results:

* `FSBS.sums_without` — what taking a record out of the list does to the two sums;
* `FSBS.accounted_of_tallies` — the accounting is right in every state, with no cycle open, whose
  steps since the last opening meet the condition.
-/

import Mathlib.Data.List.Nodup
import Mathlib.Tactic
import Utopfs.FSBlockStoreGc
import Utopfs.FSBlockStoreOpen

set_option relaxedAutoImplicit false
set_option autoImplicit false

namespace Utopfs

namespace FSBS

open Prog

/-! ### The sums over the list -/

/-- The bytes in front of and behind the mark of a list of names with their recorded sizes. -/
def sums : List (Name Key × ℕ) → ℕ × ℕ
  | [] => (0, 0)
  | r :: l =>
      if r.1 = .mark then (0, (l.map Prod.snd).sum) else (r.2 + (sums l).1, (sums l).2)

theorem sumLru_eq (l : List (Entry Key)) : sumLru l = sums (l.map fun e => (e.name, e.size)) := by
  induction l with
  | nil => rfl
  | cons e l ih =>
      simp only [sumLru, List.map_cons, sums, ih, List.map_map]
      rfl

/-- What is appended behind the mark counts as uncommitted. -/
theorem sums_append {R B : List (Name Key × ℕ)} (hm : .mark ∈ R.map Prod.fst) :
    sums (R ++ B) = ((sums R).1, (sums R).2 + (B.map Prod.snd).sum) := by
  induction R with
  | nil => simp at hm
  | cons r R ih =>
      simp only [List.cons_append, sums]
      split
      case isTrue => simp
      case isFalse hr =>
        have hm' : .mark ∈ R.map Prod.fst := by simpa [Ne.symm hr] using hm
        simp [ih hm']

/-- The records of the other names. -/
def without (n : Name Key) (L : List (Name Key × ℕ)) : List (Name Key × ℕ) :=
  L.filter fun r => r.1 ≠ n

theorem without_cons_of_ne {n : Name Key} {r : Name Key × ℕ} (L : List (Name Key × ℕ))
    (h : r.1 ≠ n) : without n (r :: L) = r :: without n L := by
  simp [without, h]

theorem without_cons_self (n : Name Key) (z : ℕ) (L : List (Name Key × ℕ)) :
    without n ((n, z) :: L) = without n L := by
  simp [without]

theorem without_eq_self {n : Name Key} {L : List (Name Key × ℕ)} (h : n ∉ L.map Prod.fst) :
    without n L = L := by
  refine List.filter_eq_self.2 fun r hr => ?_
  have hne : r.1 ≠ n := fun he => h (List.mem_map.2 ⟨r, hr, he⟩)
  simpa using hne

/-- Taking out the one record of a name takes its size out of the total. -/
theorem sum_without {L : List (Name Key × ℕ)} (hnd : (L.map Prod.fst).Nodup) {n : Name Key}
    {z : ℕ} (h : (n, z) ∈ L) :
    ((without n L).map Prod.snd).sum + z = (L.map Prod.snd).sum := by
  induction L with
  | nil => simp at h
  | cons r L ih =>
      rw [List.map_cons, List.nodup_cons] at hnd
      obtain ⟨hr, hnd⟩ := hnd
      rcases List.mem_cons.1 h with rfl | h
      · rw [without_cons_self, without_eq_self hr, List.map_cons, List.sum_cons, Nat.add_comm]
      · have hne : r.1 ≠ n := fun he => hr (List.mem_map.2 ⟨(n, z), h, he.symm⟩)
        have := ih hnd h
        rw [without_cons_of_ne L hne, List.map_cons, List.map_cons, List.sum_cons, List.sum_cons]
        omega

theorem sums_cons_mark {r : Name Key × ℕ} (L : List (Name Key × ℕ)) (h : r.1 = .mark) :
    sums (r :: L) = (0, (L.map Prod.snd).sum) := by
  simp [sums, h]

theorem sums_cons {r : Name Key × ℕ} (L : List (Name Key × ℕ)) (h : r.1 ≠ .mark) :
    sums (r :: L) = (r.2 + (sums L).1, (sums L).2) := by
  simp [sums, h]

/-- **Taking a record out of the list** takes its size out of the sum of its side of the mark. -/
theorem sums_without {L : List (Name Key × ℕ)} (hnd : (L.map Prod.fst).Nodup) {n : Name Key} {z : ℕ}
    (h : (n, z) ∈ L) (hn : n ≠ .mark) :
    (n ∈ inFront (L.map Prod.fst) .mark →
      (sums (without n L)).1 + z = (sums L).1 ∧ (sums (without n L)).2 = (sums L).2) ∧
    (n ∉ inFront (L.map Prod.fst) .mark →
      (sums (without n L)).1 = (sums L).1 ∧ (sums (without n L)).2 + z = (sums L).2) := by
  induction L with
  | nil => simp at h
  | cons r L ih =>
      rw [List.map_cons, List.nodup_cons] at hnd
      obtain ⟨hr, hnd⟩ := hnd
      by_cases hrm : r.1 = .mark
      · -- Everything that follows is behind the mark.
        have hne : r.1 ≠ n := fun he => hn (he ▸ hrm)
        have hL : (n, z) ∈ L := (List.mem_cons.1 h).resolve_left fun he => hne (by rw [← he])
        have hfront : inFront ((r :: L).map Prod.fst) .mark = [] := by simp [inFront, hrm]
        rw [hfront, without_cons_of_ne L hne, sums_cons_mark _ hrm, sums_cons_mark _ hrm]
        exact ⟨fun h => by simp at h, fun _ => ⟨rfl, sum_without hnd hL⟩⟩
      · have hcons : n ∈ inFront ((r :: L).map Prod.fst) .mark ↔
            n = r.1 ∨ n ∈ inFront (L.map Prod.fst) .mark := by
          simp [inFront, hrm]
        rw [hcons, sums_cons L hrm]
        rcases List.mem_cons.1 h with rfl | hL
        · rw [without_cons_self, without_eq_self hr]
          exact ⟨fun _ => ⟨Nat.add_comm _ _, rfl⟩, fun hno => absurd (.inl rfl) hno⟩
        · have hne : r.1 ≠ n := fun he => hr (List.mem_map.2 ⟨(n, z), hL, he.symm⟩)
          obtain ⟨ih₁, ih₂⟩ := ih hnd hL
          rw [without_cons_of_ne L hne, sums_cons _ hrm]
          constructor
          · intro hin
            obtain ⟨h₁, h₂⟩ := ih₁ (hin.resolve_left (Ne.symm hne))
            exact ⟨by rw [← h₁, Nat.add_assoc], h₂⟩
          · intro hin
            obtain ⟨h₁, h₂⟩ := ih₂ fun h => hin (.inr h)
            exact ⟨by rw [← h₁], h₂⟩

/-! ### What the client is told -/

/-- `bs_stat`: `bss_size` and `bss_free`. -/
def bsStat (s : FSBlockStore Key) : ℤ × ℤ := (s.size, s.size - s.committed)

/-- The size of the stored file of a block; a token or the mark holds no block. -/
def FSBlockStore.blockBytes (s : FSBlockStore Key) : Name Key → ℕ
  | .block k => s.prevsize k
  | .rid _ => 0
  | .mark => 0

/-- The bytes of the stored blocks in front of the mark, or of all blocks if there is no mark. -/
def FSBlockStore.committedBytes (s : FSBlockStore Key) : ℕ :=
  ((inFront s.names .mark).map s.blockBytes).sum

/-- The bytes of the stored blocks behind the mark. -/
def FSBlockStore.uncommittedBytes (s : FSBlockStore Key) : ℕ :=
  (s.behindMark.map s.blockBytes).sum

/-- **The accounting is right**: the counters are the bytes of the stored blocks on either side of
the mark, the recorded sizes are those of the files, and the client is told what is free. -/
structure Accounted (s : FSBlockStore Key) : Prop where
  committed : s.committed = s.committedBytes
  uncommitted : s.uncommitted = s.uncommittedBytes
  sizes : ∀ x ∈ s.lru, ∃ f, s.files (s.entry x.2).name = some f ∧
    (s.entry x.2).size = f.data.length
  free : (bsStat s).2 = s.size - s.committedBytes

/-- No refresh cycle is open. -/
def FSBlockStore.NoCycle (s : FSBlockStore Key) : Prop := ∀ rid, s.files (.rid rid) = none

/-- The counters are the sums of the recorded sizes, as the end of a cycle computes them. -/
def FSBlockStore.Counted (s : FSBlockStore Key) : Prop :=
  s.committed = (sumLru (s.lru.map fun x => s.entry x.2)).1 ∧
    s.uncommitted = (sumLru (s.lru.map fun x => s.entry x.2)).2

instance (s : FSBlockStore Key) : Decidable s.Counted := inferInstanceAs (Decidable (_ ∧ _))

/-- The condition on a step.  Beyond `Fits`, a put replaces a block by one of the same size; and
unless the token of an open cycle stays in the list, the counters are the sums over the list and the
old copy's file is older than the mark exactly if its entry is behind the mark. -/
def Tallies (s : FSBlockStore Key) : Op Key → Prop
  | .put k data =>
      s.NoSpace k data ∨
        (Fits s (.put k data) ∧
          (∀ f ∈ s.files (.block k), f.data.length = data.length) ∧
          ((∃ rid, .rid rid ∈ s.names ∧
              s.excess (s.prevcommitted k) data.length ≤ s.behind (.rid rid)) ∨
            (s.Counted ∧ ∀ f ∈ s.files (.block k), f.data = [] ∨
              ((∃ m ∈ s.mark, f.mtime < (s.entry m).tstamp) ↔ .block k ∈ s.behindMark))))
  | .refreshStart rid => s.files (.rid rid) = none → s.find (.rid rid) = none
  | .refreshBlock _ _ => True
  | .refreshFinish _ => True

/-! ### The invariant -/

/-- The names in the list with their recorded sizes. -/
def FSBlockStore.recs (s : FSBlockStore Key) : List (Name Key × ℕ) :=
  s.lru.map fun x => ((s.entry x.2).name, (s.entry x.2).size)

theorem recs_names (s : FSBlockStore Key) : s.recs.map Prod.fst = s.names := by
  simp [FSBlockStore.recs, FSBlockStore.names]

theorem counted_iff (s : FSBlockStore Key) :
    s.Counted ↔ s.committed = (sums s.recs).1 ∧ s.uncommitted = (sums s.recs).2 := by
  simp only [FSBlockStore.Counted, sumLru_eq, List.map_map]
  rfl

/-- A token or the mark has an empty file. -/
def TokensEmpty (files : Name Key → Option File) : Prop :=
  ∀ n f, files n = some f → (∀ k, n ≠ .block k) → f.data = []

/-- The recorded sizes are those of the files, and the counters are the sums over the list unless a
cycle is open. -/
structure SpaceInv (s : FSBlockStore Key) : Prop where
  linked : Linked s
  file : ∀ n, s.files n ≠ none ↔ n ∈ s.names
  mark : (s.find .mark).isSome → .mark ∈ s.names
  sizes : ∀ r ∈ s.recs, ∃ f, s.files r.1 = some f ∧ r.2 = f.data.length
  tokens : TokensEmpty s.files
  counted : s.NoCycle → s.Counted

/-- Under the invariant a recorded size is the size of the stored block. -/
theorem SpaceInv.blockBytes {s : FSBlockStore Key} (hi : SpaceInv s) {r : Name Key × ℕ}
    (hr : r ∈ s.recs) : r.2 = s.blockBytes r.1 := by
  obtain ⟨f, hf, hz⟩ := hi.sizes r hr
  cases hn : r.1 with
  | block k =>
      rw [hn] at hf
      simp [FSBlockStore.blockBytes, FSBlockStore.prevsize, hf, hz]
  | rid n => simp [FSBlockStore.blockBytes, hz, hi.tokens r.1 f hf (by simp [hn])]
  | mark => simp [FSBlockStore.blockBytes, hz, hi.tokens r.1 f hf (by simp [hn])]

/-- The names behind the mark, as a part of the list of names. -/
theorem behindMark_eq (s : FSBlockStore Key) :
    s.behindMark = (s.names.dropWhile fun n => n ≠ .mark).drop 1 := by
  simp only [FSBlockStore.behindMark, FSBlockStore.past, FSBlockStore.names, List.dropWhile_map,
    List.map_drop]
  rfl

/-- The two sums, when each recorded size is given by the name. -/
theorem sums_eq {g : Name Key → ℕ} {L : List (Name Key × ℕ)} (h : ∀ r ∈ L, r.2 = g r.1) :
    (sums L).1 = ((inFront (L.map Prod.fst) .mark).map g).sum ∧
      (sums L).2 = ((((L.map Prod.fst).dropWhile fun n => n ≠ .mark).drop 1).map g).sum := by
  induction L with
  | nil => simp [sums, inFront]
  | cons r L ih =>
      obtain ⟨ih₁, ih₂⟩ := ih fun r' hr' => h r' (List.mem_cons_of_mem _ hr')
      by_cases hrm : r.1 = .mark
      · have hsum : (L.map Prod.snd).sum = ((L.map Prod.fst).map g).sum := by
          rw [List.map_map]
          exact congrArg List.sum (List.map_congr_left fun r' hr' => h r' (List.mem_cons_of_mem _ hr'))
        simp [sums_cons_mark L hrm, inFront, hrm, hsum]
      · have hr := h r List.mem_cons_self
        rw [sums_cons L hrm, ih₁, ih₂]
        simp [inFront, hrm, hr]

/-- **The invariant says that the accounting is right** when no cycle is open. -/
theorem SpaceInv.accounted {s : FSBlockStore Key} (hi : SpaceInv s) (hno : s.NoCycle) :
    Accounted s := by
  obtain ⟨hc, hu⟩ := (counted_iff s).1 (hi.counted hno)
  obtain ⟨h₁, h₂⟩ := sums_eq fun r hr => hi.blockBytes hr
  rw [recs_names] at h₁ h₂
  have hc' : s.committed = s.committedBytes := by
    rw [hc, h₁]
    rfl
  refine ⟨hc', ?_, ?_, ?_⟩
  · rw [hu, h₂, FSBlockStore.uncommittedBytes, behindMark_eq]
  · exact fun x hx => hi.sizes _ (List.mem_map.2 ⟨x, hx, rfl⟩)
  · simp only [bsStat, hc']

/-! ### What each routine does to the records -/

theorem SameIndex.recs {s s' : FSBlockStore Key} (h : SameIndex s s') : s'.recs = s.recs := by
  simp only [FSBlockStore.recs, h.lru, h.entry]

theorem recs_pushed (s : FSBlockStore Key) (e : ℕ) :
    (s.pushed e).recs = ((s.entry e).name, (s.entry e).size) :: s.recs := by
  have hsize : ∀ e', ((s.pushed e).entry e').size = (s.entry e').size := by
    intro e'
    by_cases he : e' = e
    · subst he; simp [FSBlockStore.pushed]
    · simp [FSBlockStore.pushed, Function.update_of_ne he]
  simp only [FSBlockStore.recs, pushed_name, hsize]
  rfl

/-- Touching a new name. -/
theorem recs_touched_new {s : FSBlockStore Key} (h : Linked s) {n : Name Key}
    (hf : s.find n = none) (mtime size : ℕ) :
    (s.touched n mtime size).recs = (n, size) :: s.recs := by
  simp only [FSBlockStore.touched, hf]
  have hold : (s.newEntry ⟨n, mtime, size, none⟩).recs = s.recs := by
    refine List.map_congr_left fun x hx => ?_
    simp [FSBlockStore.newEntry, FSBlockStore.setEntry,
      Function.update_of_ne (h.lt _ (h.mem x hx)).ne]
  rw [recs_pushed, hold]
  simp [FSBlockStore.newEntry, FSBlockStore.setEntry]

theorem recs_setEntry (s : FSBlockStore Key) {e : ℕ} {x : Entry Key}
    (hname : x.name = (s.entry e).name) (hsize : x.size = (s.entry e).size) :
    (s.setEntry e x).recs = s.recs := by
  refine List.map_congr_left fun y _ => ?_
  by_cases hy : y.2 = e
  · simp [FSBlockStore.setEntry, hy, hname, hsize]
  · simp [FSBlockStore.setEntry, Function.update_of_ne hy]

/-- Touching a name that has an entry: the recorded size stays. -/
theorem recs_touched_old {s : FSBlockStore Key} {n : Name Key} {e : ℕ} (hf : s.find n = some e)
    (mtime size : ℕ) :
    (s.touched n mtime size).recs = (n, (s.entry e).size) :: without n s.recs := by
  obtain ⟨-, hname⟩ := find_eq_some hf
  set s₁ : FSBlockStore Key := { s with lru := s.lru.filter fun x => (s.entry x.2).name ≠ n } with hs₁
  have hset : (s₁.setEntry e { s.entry e with tstamp := mtime }).recs = s₁.recs :=
    recs_setEntry s₁ rfl rfl
  have hrest : s₁.recs = without n s.recs := by
    simp only [hs₁, FSBlockStore.recs, without, List.filter_map]
    rfl
  simp only [FSBlockStore.touched, hf]
  rw [recs_pushed, ← hs₁, hset, hrest]
  simp [FSBlockStore.setEntry, hname]

theorem recs_purged {s : FSBlockStore Key} {l B : List (ℕ × ℕ)} (hl : s.lru = l ++ B) :
    s.recs = (s.purged l B).recs ++
      B.map fun x => ((s.entry x.2).name, (s.entry x.2).size) := by
  simp only [FSBlockStore.recs, hl, List.map_append]
  rfl

/-- The touched name's record is at the front. -/
theorem SpaceInv.mem_recs {s : FSBlockStore Key} (hi : SpaceInv s) {n : Name Key} {f : File}
    (hf : s.files n = some f) : ∃ e, s.find n = some e ∧ (s.entry e).size = f.data.length ∧
      (n, f.data.length) ∈ s.recs := by
  obtain ⟨x, hx, rfl⟩ := mem_names.1 ((hi.file n).1 (by simp [hf]))
  have hmem : ((s.entry x.2).name, (s.entry x.2).size) ∈ s.recs := List.mem_map.2 ⟨x, hx, rfl⟩
  obtain ⟨f', hf', hz⟩ := hi.sizes _ hmem
  obtain rfl : f = f' := by simpa [hf] using hf'
  refine ⟨x.2, hi.linked.find_mem hx, hz, ?_⟩
  exact hz ▸ hmem

/-! ### One lemma for each operation -/

/-- A touch of a name whose file has just been written.  If the name had a file before, the new one
has the same size. -/
theorem SpaceInv.touchEntry {s s₁ : FSBlockStore Key} (hi : SpaceInv s) (hs : SameIndex s s₁)
    {n : Name Key} {f : File} (hfiles : s₁.files = Function.update s.files n (some f))
    (hempty : (∀ k, n ≠ .block k) → f.data = [])
    (hold : ∀ f₀, s.files n = some f₀ → f₀.data.length = f.data.length)
    (hnew : s.files n = none → s.find n = none) (mtime : ℕ)
    (hcount : (s₁.touched n mtime f.data.length).NoCycle →
      (s₁.touched n mtime f.data.length).Counted) :
    wp (FSBS.touchEntry n mtime f.data.length) (fun _ s' => SpaceInv s') (fun _ _ => False) s₁ := by
  have hl := hs.linked hi.linked
  have hhave : (s₁.find n).isSome → n ∈ s₁.names := by
    rw [hs.find, hs.names, ← hi.file]
    intro hsome hnone
    simp [hnew hnone] at hsome
  have heq := touchEntry_eq hl n mtime f.data.length hhave
  have ht := wp_ok (touchEntry_spec hl n mtime f.data.length hhave) heq
  simp only [wp, heq]
  have hrecs : (s₁.touched n mtime f.data.length).recs = (n, f.data.length) :: without n s.recs := by
    cases hf : s.files n with
    | none =>
        have hno : n ∉ s.recs.map Prod.fst := by
          rw [recs_names, ← hi.file]
          simp [hf]
        rw [recs_touched_new hl ((hs.find n).trans (hnew hf)), hs.recs, without_eq_self hno]
    | some f₀ =>
        obtain ⟨e, he, hz, -⟩ := hi.mem_recs hf
        rw [recs_touched_old ((hs.find n).trans he), hs.recs, hs.entry, hz, hold f₀ hf]
  refine ⟨ht.linked, ht.file_iff hs.names hfiles hi.file, ?_, ?_, ?_, hcount⟩
  · intro hm
    rw [ht.mem_names, hs.names, or_iff_not_imp_left]
    intro hne
    have := ht.table .mark hne hm
    rw [hs.find] at this
    exact hi.mark this
  · intro r hr
    rw [hrecs] at hr
    rw [ht.files, hfiles]
    rcases List.mem_cons.1 hr with rfl | hr
    · exact ⟨f, by simp, rfl⟩
    · obtain ⟨hr, hne⟩ := List.mem_filter.1 hr
      have hne : r.1 ≠ n := by simpa using hne
      rw [Function.update_of_ne hne]
      exact hi.sizes r hr
  · intro m f' hf' hm
    rw [ht.files, hfiles] at hf'
    by_cases hmn : m = n
    · subst hmn
      obtain rfl : f = f' := by simpa using hf'
      exact hempty hm
    · rw [Function.update_of_ne hmn] at hf'
      exact hi.tokens m f' hf' hm

/-! ### Putting a block -/

/-- A purge behind the mark keeps the counters right. -/
theorem counted_purged {s : FSBlockStore Key} (h : Linked s) {l B : List (ℕ × ℕ)}
    (hl : s.lru = l ++ B) (hB : B <:+ s.past .mark) (hc : s.Counted) : (s.purged l B).Counted := by
  obtain ⟨hc, hu⟩ := (counted_iff s).1 hc
  refine (counted_iff _).2 ?_
  have hrecs := recs_purged hl
  by_cases hm : .mark ∈ s.names
  · have hm' : .mark ∈ (s.purged l B).recs.map Prod.fst := by
      rw [recs_names]
      exact mem_names_purged h hl hB hm
    have hsum : s.bytesIn B =
        ((B.map fun x => ((s.entry x.2).name, (s.entry x.2).size)).map Prod.snd).sum := by
      simp [FSBlockStore.bytesIn, Function.comp_def]
    rw [hrecs, sums_append hm'] at hc hu
    refine ⟨hc, ?_⟩
    have hpu : (s.purged l B).uncommitted = s.uncommitted - s.bytesIn B := rfl
    rw [hpu, hu, ← hsum]
    push_cast
    exact add_sub_cancel_right _ _
  · -- Without a mark there is nothing behind it.
    obtain ⟨-, -, -, hnil⟩ := past_spec h (y := .mark)
    obtain rfl : B = [] := by simpa [hnil hm] using hB
    simp only [List.map_nil, List.append_nil] at hrecs
    rw [hrecs] at hc hu
    exact ⟨hc, by simpa [FSBlockStore.purged, FSBlockStore.bytesIn] using hu⟩

theorem SpaceInv.purged {s : FSBlockStore Key} (hi : SpaceInv s) {l B : List (ℕ × ℕ)}
    (hl : s.lru = l ++ B) (hB : B <:+ s.past .mark)
    (hc : (s.purged l B).NoCycle → s.Counted) : SpaceInv (s.purged l B) := by
  have hfile := file_iff_purged hi.linked hi.file hl
  have hkeep : ∀ n ∈ (s.purged l B).names, (s.purged l B).files n = s.files n := by
    intro n hn
    have := (hfile n).2 hn
    rw [files_purged] at this ⊢
    split
    case isTrue hnB => simp [hnB] at this
    case isFalse => rfl
  refine ⟨hi.linked.purged (hl ▸ List.sublist_append_left l B) B, hfile, ?_, ?_, ?_, ?_⟩
  · exact fun hm => mem_names_purged hi.linked hl hB (hi.mark hm)
  · intro r hr
    rw [hkeep r.1 (recs_names (s.purged l B) ▸ List.mem_map_of_mem hr)]
    exact hi.sizes r (by rw [recs_purged hl]; exact List.mem_append_left _ hr)
  · intro n f hf
    refine hi.tokens n f ?_
    rw [files_purged] at hf
    split at hf
    · simp at hf
    · exact hf
  · exact fun hno => counted_purged hi.linked hl hB (hc hno)

/-- A purge behind the old copy of a block leaves it alone. -/
theorem SpaceInv.file_purged {s : FSBlockStore Key} (hi : SpaceInv s) {l B : List (ℕ × ℕ)}
    (hl : s.lru = l ++ B) {n : Name Key} (hB : s.files n ≠ none → B <:+ s.past n) :
    (s.purged l B).files n = s.files n := by
  by_cases hf : s.files n = none
  · rw [files_purged, hf, ite_self]
  · have hstay := mem_names_purged hi.linked hl (hB hf) ((hi.file _).1 hf)
    have := (file_iff_purged hi.linked hi.file hl n).2 hstay
    rw [files_purged] at this ⊢
    split
    case isTrue hin => simp [hin] at this
    case isFalse => rfl

theorem touched_counters (s : FSBlockStore Key) (n : Name Key) (mtime size : ℕ) :
    (s.touched n mtime size).committed = s.committed ∧
      (s.touched n mtime size).uncommitted = s.uncommitted := by
  unfold FSBlockStore.touched
  split <;> exact ⟨rfl, rfl⟩

theorem touched_files (s : FSBlockStore Key) (n : Name Key) (mtime size : ℕ) :
    (s.touched n mtime size).files = s.files := by
  unfold FSBlockStore.touched
  split <;> rfl

/-- A put of a new key counts its bytes as committed. -/
theorem counted_put_new {s : FSBlockStore Key} (h : Linked s) (hc : s.Counted) {k : Key}
    (hf : s.find (.block k) = none) (now : ℕ) (data : List UInt8) :
    ((s.booked now k data 0 true).touched (.block k) now data.length).Counted := by
  obtain ⟨hc, hu⟩ := (counted_iff s).1 hc
  have hs := sameIndex_booked s now k data 0 true
  refine (counted_iff _).2 ?_
  obtain ⟨h₁, h₂⟩ := touched_counters (s.booked now k data 0 true) (.block k) now data.length
  rw [h₁, h₂, recs_touched_new (hs.linked h) ((hs.find _).trans hf), hs.recs,
    sums_cons _ (by simp)]
  refine ⟨?_, hu⟩
  simp only [FSBlockStore.booked, if_true, FSBlockStore.setFile, hc]
  push_cast
  omega

/-- A put that replaces a block by one of the same size keeps the counters right, if it knows on
which side of the mark the old copy is, or if the block is empty. -/
theorem SpaceInv.counted_put_old {s : FSBlockStore Key} (hi : SpaceInv s) (hc : s.Counted) {k : Key}
    {f : File} (hf : s.files (.block k) = some f) (now : ℕ) {data : List UInt8}
    (hlen : f.data.length = data.length) {wascommitted : Bool}
    (hside : f.data = [] ∨ (wascommitted = true ↔ .block k ∈ inFront s.names .mark)) :
    ((s.booked now k data f.data.length wascommitted).touched (.block k) now data.length).Counted := by
  obtain ⟨hc, hu⟩ := (counted_iff s).1 hc
  set s₁ := s.booked now k data f.data.length wascommitted with hs₁
  have hs : SameIndex s s₁ := sameIndex_booked ..
  obtain ⟨e, he, hz, hmem⟩ := hi.mem_recs hf
  obtain ⟨h₁, h₂⟩ := touched_counters s₁ (.block k) now data.length
  have hnd : (s.recs.map Prod.fst).Nodup := recs_names s ▸ hi.linked.names_nodup
  obtain ⟨hfront, hback⟩ := sums_without hnd hmem (by simp)
  rw [recs_names] at hfront hback
  refine (counted_iff _).2 ?_
  rw [h₁, h₂, recs_touched_old ((hs.find _).trans he), hs.recs, hs.entry, hz, sums_cons _ (by simp)]
  have hbook : s₁.committed = s.committed - (if wascommitted then f.data.length else 0) +
      data.length ∧ s₁.uncommitted = s.uncommitted - (if wascommitted then 0 else f.data.length) := by
    cases wascommitted <;> simp [hs₁, FSBlockStore.booked, FSBlockStore.setFile]
  rw [hbook.1, hbook.2, hc, hu, ← hlen]
  by_cases hin : .block k ∈ inFront s.names .mark
  · obtain ⟨h₁, h₂⟩ := hfront hin
    rcases hside with hnil | hside
    · simp only [hnil, List.length_nil] at h₁ ⊢
      constructor <;> split <;> omega
    · rw [hside.2 hin]
      constructor <;> simp only [if_true] <;> omega
  · obtain ⟨h₁, h₂⟩ := hback hin
    rcases hside with hnil | hside
    · simp only [hnil, List.length_nil] at h₂ ⊢
      constructor <;> split <;> omega
    · have hw : wascommitted = false := by
        cases wascommitted
        · rfl
        · exact absurd (hside.1 rfl) hin
      rw [hw]
      constructor <;> simp only [Bool.false_eq_true, if_false] <;> omega

/-- The old copy counts as committed unless its file is older than the mark. -/
theorem wascommitted_iff {s : FSBlockStore Key} {k : Key} {f : File}
    (hf : s.files (.block k) = some f) :
    s.wascommitted k = true ↔ ¬ ∃ m ∈ s.mark, f.mtime < (s.entry m).tstamp := by
  unfold FSBlockStore.wascommitted
  cases hm : s.mark with
  | none => simp [hf]
  | some m => simp [hf]

/-- A name in the list is in front of the mark or behind it. -/
theorem mem_behindMark_iff {s : FSBlockStore Key} (h : Linked s) {n : Name Key} (hn : n ∈ s.names)
    (hm : n ≠ .mark) : n ∈ s.behindMark ↔ n ∉ inFront s.names .mark := by
  rw [behindMark_eq]
  have hnd := h.names_nodup
  revert hn hnd
  generalize s.names = L
  intro hn hnd
  induction L with
  | nil => simp at hn
  | cons a L ih =>
      obtain ⟨ha, hnd⟩ := List.nodup_cons.1 hnd
      by_cases ham : a = .mark
      · have hL : n ∈ L := (List.mem_cons.1 hn).resolve_left fun he => hm (he.trans ham)
        simpa [inFront, ham] using hL
      · rcases List.mem_cons.1 hn with rfl | hL
        · -- The name is in front, and occurs once.
          have hout : n ∉ (L.dropWhile fun x => decide (x ≠ .mark)).drop 1 := fun hin =>
            ha ((List.dropWhile_suffix _).subset (List.mem_of_mem_drop hin))
          simpa [inFront, ham] using hout
        · have hne : n ≠ a := fun he => ha (he ▸ hL)
          have := ih hL hnd
          simpa [inFront, ham, hne] using this

/-- A name that a purge behind it leaves alone is on the side of the mark where it was. -/
theorem mem_inFront_purged {s : FSBlockStore Key} (h : Linked s) {l B : List (ℕ × ℕ)}
    (hl : s.lru = l ++ B) (hB : B <:+ s.past .mark) (n : Name Key) :
    n ∈ inFront (s.purged l B).names .mark ↔ n ∈ inFront s.names .mark := by
  by_cases hm : .mark ∈ s.names
  · rw [names_of_purge hl, inFront_append (mem_names_purged h hl hB hm)]
  · obtain ⟨-, -, -, hnil⟩ := past_spec h (y := .mark)
    obtain rfl : B = [] := by simpa [hnil hm] using hB
    rw [names_of_purge hl, List.map_nil, List.append_nil]

theorem SpaceInv.bsBlockPut {s : FSBlockStore Key} (hi : SpaceInv s) (now : ℕ) {k : Key}
    {data : List UInt8} (ht : Tallies s (.put k data)) :
    wp (FSBS.bsBlockPut now k data) (fun _ s' => SpaceInv s') (fun _ s' => SpaceInv s') s := by
  simp only [FSBS.bsBlockPut, wp_bind, wp_get]
  split
  case isTrue => exact hi
  case isFalse hspace =>
    obtain ⟨hfit, hlen, hcycle⟩ := ht.resolve_left hspace
    obtain ⟨hmark, hold, hnew⟩ := hfit.resolve_left hspace
    have hlru : ∀ x ∈ s.lru, s.files (s.entry x.2).name ≠ none := fun x hx =>
      (hi.file _).2 (mem_names.2 ⟨x, hx, rfl⟩)
    -- If no cycle is open after the purges, the counters were right before them.
    have hcount : ∀ l B, s.lru = l ++ B →
        (∀ y, s.excess (s.prevcommitted k) data.length ≤ s.behind y → B <:+ s.past y) →
        (s.purged l B).NoCycle → s.Counted ∧ ∀ f ∈ s.files (.block k), f.data = [] ∨
          ((∃ m ∈ s.mark, f.mtime < (s.entry m).tstamp) ↔ .block k ∈ s.behindMark) := by
      intro l B hl hB hno
      refine hcycle.resolve_left ?_
      rintro ⟨rid, hrid, hex⟩
      have hstay := mem_names_purged hi.linked hl (hB _ hex) hrid
      exact (file_iff_purged hi.linked hi.file hl _).2 hstay (hno rid)
    refine wp_seq (purgeLoop_dropped hi.linked hlru hmark _) ?_ ?_
    · rintro _ _ ⟨l, B, hl, rfl, hB⟩
      have hp : SpaceInv (s.purged l B) :=
        hi.purged hl (hB _ hmark) fun hno => (hcount l B hl hB hno).1
      have hsame := hi.file_purged hl fun hf => hB _ (hold hf)
      simp only [wp_bind, wp_modify]
      refine wp_mono (hp.touchEntry (f := ⟨data, now⟩) (sameIndex_booked _ now k data _ _)
        (booked_files ..) (fun h => absurd rfl (h k)) ?_ ?_ now ?_) (fun _ _ h => h)
        (fun _ _ hF => hF.elim)
      · exact fun f₀ hf₀ => hlen f₀ (hsame.symm.trans hf₀)
      · intro hnone
        rw [find_purged]
        exact hnew (hsame.symm.trans hnone)
      · intro hno
        have hno' : (s.purged l B).NoCycle := by
          intro rid
          have hrid := hno rid
          rw [touched_files] at hrid
          have hb := booked_files (s.purged l B) now k data (s.prevsize k) (s.wascommitted k)
          simpa using (congrFun hb (.rid rid)).symm.trans hrid
        obtain ⟨hc, hside⟩ := hcount l B hl hB hno'
        have hc' := counted_purged hi.linked hl (hB _ hmark) hc
        cases hf : s.files (.block k) with
        | none =>
            have hprev : s.prevsize k = 0 := by simp [FSBlockStore.prevsize, hf]
            have hwas : s.wascommitted k = true := by simp [FSBlockStore.wascommitted, hf]
            rw [hprev, hwas]
            exact counted_put_new hp.linked hc' ((find_purged ..).trans (hnew hf)) now data
        | some f =>
            have hprev : s.prevsize k = f.data.length := by simp [FSBlockStore.prevsize, hf]
            rw [hprev]
            refine hp.counted_put_old hc' (hsame.trans hf) now (hlen f hf) ?_
            refine (hside f hf).imp_right fun hiff => ?_
            have hn : .block k ∈ s.names := (hi.file _).1 (by simp [hf])
            rw [mem_inFront_purged hi.linked hl (hB _ hmark), wascommitted_iff hf, hiff,
              mem_behindMark_iff hi.linked hn (by simp), not_not]
    · rintro _ _ ⟨l, B, hl, rfl, hB⟩
      exact hi.purged hl (hB _ hmark) fun hno => (hcount l B hl hB hno).1

/-! ### Refresh cycles -/

theorem SpaceInv.bsRefreshStart {s : FSBlockStore Key} (hi : SpaceInv s) (now : ℕ) {rid : ℕ}
    (hfit : Fits s (.refreshStart rid)) :
    wp (FSBS.bsRefreshStart now rid) (fun _ s' => SpaceInv s') (fun _ s' => SpaceInv s') s := by
  simp only [FSBS.bsRefreshStart, wp_bind, wp_get]
  split
  case isTrue => exact hi
  case isFalse hno =>
    have hnone : s.files (.rid rid) = none := by simpa using hno
    simp only [wp_bind, wp_set]
    refine wp_mono (hi.touchEntry (f := ⟨[], now⟩) (sameIndex_setFile s _ _) rfl (fun _ => rfl) ?_
      hfit now ?_) (fun _ _ h => h) (fun _ _ hF => hF.elim)
    · intro f₀ hf₀
      simp [hnone] at hf₀
    · -- The cycle that has just started is open.
      intro hcycle
      have := hcycle rid
      rw [touched_files] at this
      simp [FSBlockStore.setFile] at this

theorem SpaceInv.bsRefreshBlock {s : FSBlockStore Key} (hi : SpaceInv s) (now rid : ℕ) (k : Key) :
    wp (FSBS.bsRefreshBlock now rid k) (fun _ s' => SpaceInv s') (fun _ s' => SpaceInv s') s := by
  simp only [FSBS.bsRefreshBlock, wp_bind, wp_get]
  split
  case isTrue => exact hi
  case isFalse hrid =>
    cases hf : s.files (.block k) with
    | none => exact hi
    | some f =>
        simp only [wp_bind, wp_set]
        refine wp_mono (hi.touchEntry (f := { f with mtime := now }) (sameIndex_setFile s _ _) rfl
          (fun h => absurd rfl (h k)) ?_ ?_ now ?_) (fun _ _ h => h) (fun _ _ hF => hF.elim)
        · intro f₀ hf₀
          obtain rfl : f = f₀ := by simpa [hf] using hf₀
          rfl
        · intro hnone
          simp [hf] at hnone
        · intro hcycle
          have := hcycle rid
          rw [touched_files] at this
          exact absurd (by simpa [FSBlockStore.setFile] using this) hrid

theorem SpaceInv.bsRefreshFinish {s : FSBlockStore Key} (hi : SpaceInv s) (rid : ℕ) :
    wp (FSBS.bsRefreshFinish rid) (fun _ s' => SpaceInv s') (fun _ s' => SpaceInv s') s := by
  cases hf : s.files (.rid rid) with
  | none =>
      simp only [FSBS.bsRefreshFinish, wp_bind, wp_get, hf]
      exact hi
  | some f =>
      have hne : s.files (.rid rid) ≠ none := by simp [hf]
      obtain ⟨r, hr, hz, -⟩ := hi.mem_recs hf
      obtain ⟨hrm, hrn⟩ := find_eq_some hr
      have heq := bsRefreshFinish_eq hi.linked hf hr hi.mark
      have hfin := wp_ok (bsRefreshFinish_spec hi.linked (fun h => (hi.file _).1 h) hi.mark) heq
      simp only [wp, heq]
      refine ⟨hfin.linked, hfin.file_iff hne hi.file, ?_, ?_, ?_, fun _ => ⟨rfl, rfl⟩⟩
      · intro _
        refine (hfin.mem_names _).2 ⟨.rid rid, (hi.file _).1 hne, by simp, by simp [renamed]⟩
      · intro z hzmem
        obtain ⟨x, hx, rfl⟩ := List.mem_map.1 hzmem
        obtain ⟨hx, hxm⟩ := List.mem_filter.1 hx
        have hxm : (s.entry x.2).name ≠ .mark := by simpa using hxm
        simp only [FSBlockStore.finished]
        by_cases hxr : x.2 = r
        · -- The token's entry is the mark's now, and so is its file.
          subst hxr
          exact ⟨f, by simp, by simpa using hz⟩
        · have hxn : (s.entry x.2).name ≠ .rid rid := fun hn =>
            hxr (hi.linked.nameInj _ (hi.linked.mem x hx) _ hrm (hn.trans hrn.symm))
          simp only [Function.update_of_ne hxr, Function.update_of_ne hxm, Function.update_of_ne hxn]
          exact hi.sizes _ (List.mem_map.2 ⟨x, hx, rfl⟩)
      · intro n f' hf' hn
        rw [hfin.files] at hf'
        by_cases hnm : n = .mark
        · subst hnm
          rw [Function.update_self] at hf'
          exact hi.tokens _ f' hf' (by simp)
        · rw [Function.update_of_ne hnm] at hf'
          by_cases hnr : n = .rid rid
          · simp [hnr] at hf'
          · rw [Function.update_of_ne hnr] at hf'
            exact hi.tokens n f' hf' hn

/-! ### The files of tokens -/

/-- A program after which the tokens are empty files, if they were before. -/
def KeepsTokens {α : Type} (m : M Key α) : Prop :=
  ∀ s, TokensEmpty s.files →
    wp m (fun _ s' => TokensEmpty s'.files) (fun _ s' => TokensEmpty s'.files) s

theorem KeepsTokens.bind {α β : Type} {m : M Key α} {f : α → M Key β} (hm : KeepsTokens m)
    (hf : ∀ a, KeepsTokens (f a)) : KeepsTokens (m >>= f) := fun s h =>
  wp_seq (hm s h) (fun a s' h' => hf a s' h') (fun _ _ h' => h')

/-- Writing a file keeps the tokens empty, if it is a block's or empty. -/
theorem TokensEmpty.update {files : Name Key → Option File} (h : TokensEmpty files) {n : Name Key}
    {f : File} (hf : (∀ k, n ≠ .block k) → f.data = []) :
    TokensEmpty (Function.update files n (some f)) := by
  intro m f' hf' hm
  by_cases hmn : m = n
  · subst hmn
    obtain rfl : f = f' := by simpa using hf'
    exact hf hm
  · rw [Function.update_of_ne hmn] at hf'
    exact h m f' hf' hm

/-- Removing a file keeps the tokens empty. -/
theorem TokensEmpty.remove {files : Name Key → Option File} (h : TokensEmpty files) (n : Name Key) :
    TokensEmpty (Function.update files n none) := by
  intro m f hf hm
  by_cases hmn : m = n
  · simp [hmn] at hf
  · rw [Function.update_of_ne hmn] at hf
    exact h m f hf hm

theorem keepsTokens_lruErase (it : Option ℕ) : KeepsTokens (lruErase it : M Key Unit) := by
  intro s h
  simp only [lruErase, wp_bind, wp_get]
  cases it with
  | none => exact h
  | some p =>
      simp only
      split <;> exact h

theorem keepsTokens_touchEntry (n : Name Key) (mtime size : ℕ) :
    KeepsTokens (touchEntry n mtime size) := by
  intro s h
  simp only [touchEntry, wp_bind, wp_get]
  cases s.find n with
  | none => exact h
  | some e => exact wp_seq (keepsTokens_lruErase _ s h) (fun _ _ h' => h') (fun _ _ h' => h')

theorem keepsTokens_purgeUncommitted : KeepsTokens (purgeUncommitted : M Key Unit) := by
  intro s h
  simp only [purgeUncommitted, wp_bind, wp_get]
  cases s.lru.getLast? with
  | none => exact h
  | some y =>
      cases s.mark with
      | none => exact h
      | some m =>
          simp only
          split
          · exact h
          · simp only [wp_bind, wp_set]
            split
            · exact h
            · exact h.remove _

theorem keepsTokens_purgeLoop (prevcommitted : ℤ) (blksize fuel : ℕ) :
    KeepsTokens (purgeLoop prevcommitted blksize fuel : M Key Unit) := by
  induction fuel with
  | zero => exact fun _ h => h
  | succ fuel ih =>
      intro s h
      simp only [purgeLoop, wp_bind, wp_get]
      split
      · exact keepsTokens_purgeUncommitted.bind (fun _ => ih) s h
      · exact h

theorem keepsTokens_bsBlockPut (now : ℕ) (k : Key) (data : List UInt8) :
    KeepsTokens (bsBlockPut now k data) := by
  intro s h
  simp only [bsBlockPut, wp_bind, wp_get]
  split
  · exact h
  · refine wp_seq (keepsTokens_purgeLoop _ _ _ s h) (fun _ s' hs' => ?_) (fun _ _ h' => h')
    simp only [wp_bind, wp_modify]
    refine keepsTokens_touchEntry _ _ _ _ ?_
    have hb := booked_files s' now k data (s.prevsize k) (s.wascommitted k)
    exact hb ▸ hs'.update fun hk => absurd rfl (hk k)

theorem keepsTokens_bsRefreshStart (now rid : ℕ) :
    KeepsTokens (bsRefreshStart now rid : M Key Unit) := by
  intro s h
  simp only [bsRefreshStart, wp_bind, wp_get]
  split
  · exact h
  · exact keepsTokens_touchEntry _ _ _ _ (h.update fun _ => rfl)

theorem keepsTokens_bsRefreshBlock (now rid : ℕ) (k : Key) :
    KeepsTokens (bsRefreshBlock now rid k) := by
  intro s h
  simp only [bsRefreshBlock, wp_bind, wp_get]
  split
  · exact h
  · cases hf : s.files (.block k) with
    | none => exact h
    | some f =>
        simp only [wp_bind, wp_set]
        exact wp_mono (keepsTokens_touchEntry _ _ _ _ (h.update fun hk => absurd rfl (hk k)))
          (fun _ _ h' => h') (fun _ _ h' => h')

theorem keepsTokens_removeMark : KeepsTokens (removeMark : M Key Unit) := by
  intro s h
  simp only [removeMark, wp_bind, wp_get]
  cases s.find .mark with
  | none => exact h
  | some m =>
      simp only [wp_bind, wp_set]
      exact keepsTokens_lruErase _ _ h

theorem keepsTokens_renameToken (rid : ℕ) : KeepsTokens (renameToken rid : M Key Unit) := by
  intro s h
  simp only [renameToken, wp_bind, wp_get]
  cases s.find (.rid rid) <;> exact h

theorem keepsTokens_bsRefreshFinish (rid : ℕ) : KeepsTokens (bsRefreshFinish rid : M Key Unit) := by
  intro s h
  simp only [bsRefreshFinish, wp_bind, wp_get]
  cases hf : s.files (.rid rid) with
  | none => exact h
  | some f =>
      rw [wp_bind, wp_set]
      have h₁ := (h.remove (.rid rid)).update (n := .mark) fun _ => h _ f hf (by simp)
      have hadd : KeepsTokens (addUp : M Key Unit) := fun _ h' => h'
      exact keepsTokens_removeMark.bind
        (fun _ => (keepsTokens_renameToken rid).bind fun _ => hadd) _ h₁

/-- **Tokens are empty files** in every state of a store, whatever its index has become. -/
theorem tokensEmpty_reached {size : ℕ} {s : FSBlockStore Key} (hr : Reached size s) :
    TokensEmpty s.files := by
  induction hr with
  | create => simp [TokensEmpty, bsCreate]
  | @step s now op _ ih =>
      have key : KeepsTokens (step now op) := by
        cases op with
        | put k data => exact (keepsTokens_bsBlockPut now k data).bind fun _ _ h => h
        | refreshStart rid => exact (keepsTokens_bsRefreshStart now rid).bind fun _ _ h => h
        | refreshBlock rid k =>
            refine (keepsTokens_bsRefreshBlock now rid k).bind fun b _ h => ?_
            cases b <;> exact h
        | refreshFinish rid => exact (keepsTokens_bsRefreshFinish rid).bind fun _ _ h => h
      exact stepEvent_of_wp (key s ih)
  | reopen dir _ hl ho ih =>
      obtain ⟨l, rfl, -⟩ := bsOpen_spec hl ho
      exact ih

/-! ### The life of a store -/

theorem spaceInv_bsCreate (size : ℕ) : SpaceInv (bsCreate size : FSBlockStore Key) where
  linked := linked_bsCreate size
  file := by simp [bsCreate, FSBlockStore.names]
  mark := by simp [bsCreate, FSBlockStore.find]
  sizes := by simp [bsCreate, FSBlockStore.recs]
  tokens := by simp [TokensEmpty, bsCreate]
  counted _ := ⟨rfl, rfl⟩

theorem recs_unrolled (size : ℤ) (files : Name Key → Option File) (l : List (Entry Key)) :
    (unrolled size files l).recs = l.map fun e => (e.name, e.size) := by
  refine List.ext_getElem (by simp [unrolled, FSBlockStore.recs]) fun i h₁ h₂ => ?_
  have hil : i < l.length := by simpa using h₂
  have hx : (unrolled size files l).lru[i]? = some (i, i) := by simp [unrolled, hil]
  simp only [FSBlockStore.recs, List.getElem_map]
  rw [(List.getElem_eq_iff _).2 hx, unrolled_entry _ _ hil]
  rfl

theorem counted_unrolled (size : ℤ) (files : Name Key → Option File) (l : List (Entry Key)) :
    (unrolled size files l).Counted := by
  rw [counted_iff, recs_unrolled, ← sumLru_eq]
  exact ⟨rfl, rfl⟩

/-- An opening records the sizes of the files and adds them up. -/
theorem spaceInv_unrolled (size : ℤ) {files : Name Key → Option File} {l : List (Entry Key)}
    (hnd : (l.map Entry.name).Nodup) (hmem : ∀ n, n ∈ l.map Entry.name ↔ files n ≠ none)
    (hfile : ∀ e ∈ l, ∃ f, files e.name = some f ∧ e.tstamp = f.mtime ∧ e.size = f.data.length)
    (htok : TokensEmpty files) : SpaceInv (unrolled size files l) := by
  have hi := indexInv_unrolled size hnd hmem
  refine ⟨hi.linked, hi.file, hi.mem_names, ?_, htok, fun _ => counted_unrolled size files l⟩
  intro r hr
  rw [recs_unrolled] at hr
  obtain ⟨e, he, rfl⟩ := List.mem_map.1 hr
  obtain ⟨f, hf, -, hz⟩ := hfile e he
  exact ⟨f, hf, hz⟩

theorem SpaceInv.stepEvent {s : FSBlockStore Key} (hi : SpaceInv s) (now : ℕ) {op : Op Key}
    (ht : Tallies s op) : SpaceInv (FSBS.stepEvent now op s).2 := by
  refine stepEvent_of_wp ?_
  cases op with
  | put k data => exact wp_seq (hi.bsBlockPut now ht) (fun _ _ h => h) (fun _ _ h => h)
  | refreshStart rid => exact wp_seq (hi.bsRefreshStart now ht) (fun _ _ h => h) (fun _ _ h => h)
  | refreshBlock rid k =>
      refine wp_seq (hi.bsRefreshBlock now rid k) ?_ (fun _ _ h => h)
      rintro (_ | _) s' h <;> exact h
  | refreshFinish rid => exact wp_seq (hi.bsRefreshFinish rid) (fun _ _ h => h) (fun _ _ h => h)

theorem spaceInv_reached {size : ℕ} {s : FSBlockStore Key} (hr : ReachedWith Tallies size s) :
    SpaceInv s := by
  refine hr.induction (spaceInv_bsCreate size) ?_ fun s now op hi ht => hi.stepEvent now ht
  intro s s' dir hreach hl ho
  obtain ⟨l, rfl, hnd, hmem, hfile⟩ := bsOpen_spec hl ho
  exact spaceInv_unrolled _ hnd hmem hfile (tokensEmpty_reached hreach)

/-- No cycle is open if no token is in the list. -/
theorem noCycle_of_names {s : FSBlockStore Key} (hfile : ∀ n, s.files n ≠ none ↔ n ∈ s.names)
    {L : List (Name Key)} (hnames : s.names = L) (hL : ∀ rid, .rid rid ∉ L) : s.NoCycle := by
  intro rid
  by_contra hrid
  exact hL rid (hnames ▸ (hfile _).1 hrid)

theorem SpaceInv.noCycle {s : FSBlockStore Key} (hi : SpaceInv s) {L : List (Name Key)}
    (hnames : s.names = L) (hL : ∀ rid, .rid rid ∉ L) : s.NoCycle :=
  noCycle_of_names hi.file hnames hL

/-- **The accounting is right** in every state, with no refresh cycle open, whose steps since the
last opening meet the condition. -/
theorem accounted_of_tallies (size : ℕ) (s : FSBlockStore Key) (hr : ReachedWith Tallies size s)
    (hno : s.NoCycle) : Accounted s :=
  (spaceInv_reached hr).accounted hno

/-- A store of 30 bytes holds two blocks of 10; a cycle has kept the first of them, and a put of 15
bytes has then purged the second. -/
theorem accounted_after_purge :
    ∃ s : FSBlockStore Key, ReachedWith Tallies 30 s ∧ s.NoCycle ∧
      s.names = [.block (key 2), .block (key 0), .mark] ∧ Accounted s := by
  have r₀ : ReachedWith Tallies 30 (bsCreate 30 : FSBlockStore Key) := .create
  have r₁ := r₀.step 0 (.put (key 0) (List.replicate 10 7))
    (.inr ⟨by decide, by decide, .inr ⟨by decide, by decide⟩⟩)
  have r₂ := r₁.step 0 (.put (key 1) (List.replicate 10 7))
    (.inr ⟨by decide, by decide, .inr ⟨by decide, by decide⟩⟩)
  have r₃ := r₂.step 1 (.refreshStart 1) (fun _ => rfl)
  have r₄ := r₃.step 1 (.refreshBlock 1 (key 0)) trivial
  have r₅ := r₄.step 1 (.refreshFinish 1) trivial
  have r₆ := r₅.step 1 (.put (key 2) (List.replicate 15 7))
    (.inr ⟨by decide, by decide, .inr ⟨by decide, by decide⟩⟩)
  have hno := (spaceInv_reached r₆).noCycle (L := [.block (key 2), .block (key 0), .mark]) (by decide) (by simp)
  exact ⟨_, r₆, hno, by decide, accounted_of_tallies 30 _ r₆ hno⟩

/-- **Replacing a block by a longer one breaks the accounting**: the entry keeps the size it was made
with. -/
theorem not_accounted_after_overwrite :
    ¬ ∀ (size : ℕ) (s : FSBlockStore Key), Reached size s → s.NoCycle → Accounted s := by
  intro hacc
  have r₀ : Reached 30 (bsCreate 30 : FSBlockStore Key) := .create
  have r₁ := r₀.step 0 (.put (key 0) (List.replicate 10 7))
  have r₂ := r₁.step 0 (.put (key 0) (List.replicate 15 7))
  have h := hacc 30 _ r₂ (fun rid => rfl)
  obtain ⟨f, hf, hz⟩ := h.sizes (1, 0) (by decide)
  have hf' : some (⟨List.replicate 15 7, 0⟩ : File) = some f := hf
  obtain rfl := Option.some_inj.1 hf'
  exact absurd hz (by decide)

end FSBS

end Utopfs
