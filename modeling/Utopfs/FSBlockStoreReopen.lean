/-
**Closing and reopening the directory block store.**

`bs_close` writes nothing: what an opening can recover is in the files.  The recency order of the
entries is then their modification times, which are whole seconds, and files of one second come in
the order in which the directory happens to list them.

While a store runs, its list is ordered by the time stamps, so that an entry is behind the `MARK`
exactly if it is older, as long as it is not of the same second.  Under that proviso the order of the
listing does not matter.  The other differences are not a matter of order: an entry whose block was
replaced by one of another size, counters that a refresh has left behind, and entries that a purge has
left in the table.

Main definitions:

* `FSBS.Same` — two stores with the same entries, mark, entries behind the mark, and counters;
* `FSBS.Reopens` — the store comes back as it was, however the directory is listed;
* `FSBS.FSBlockStore.Sized`, `FSBS.FSBlockStore.Apart` — the recorded sizes are those of the files, and
  no other file is of the second of the mark;
* `FSBS.StampInv` — the invariant: the list is ordered by the time stamps, which are those of the files.

Main results:

* `FSBS.InOrder.sides` — the order of the files of one second does not matter;
* `FSBS.reopens_iff` — when a store comes back as it was.
-/

import Mathlib.Data.List.Nodup
import Mathlib.Tactic
import Utopfs.FSBlockStoreSpace
import Utopfs.Recency

set_option relaxedAutoImplicit false
set_option autoImplicit false

namespace Utopfs

namespace FSBS

open Prog

/-! ### What a reopening should give back -/

/-- The names of the entries in the table with their recorded sizes. -/
def FSBlockStore.table (s : FSBlockStore Key) : List (Name Key × ℕ) :=
  s.entries.map fun e => ((s.entry e).name, (s.entry e).size)

/-- What `m_mark` says. -/
def FSBlockStore.markStamp (s : FSBlockStore Key) : Option (Name Key × ℕ) :=
  s.mark.map fun m => ((s.entry m).name, (s.entry m).tstamp)

/-- The same entries with the same sizes, the same mark, the same entries behind the mark, and the
same counters. -/
structure Same (s s' : FSBlockStore Key) : Prop where
  entries : ∀ r, r ∈ s'.table ↔ r ∈ s.table
  mark : s'.markStamp = s.markStamp
  behind : ∀ n, n ∈ s'.behindMark ↔ n ∈ s.behindMark
  committed : s'.committed = s.committed
  uncommitted : s'.uncommitted = s.uncommitted

/-- `bs_close` followed by `bs_open` gives the store back as it was, in whatever order the directory
is listed.  The close itself writes nothing. -/
def Reopens (size : ℕ) (s : FSBlockStore Key) : Prop :=
  ∀ dir, Listing s.files dir → ∃ s', bsOpen size s.files dir = .ok s' ∧ Same s s'

/-- The recorded sizes are those of the files. -/
def FSBlockStore.Sized (s : FSBlockStore Key) : Prop :=
  ∀ r ∈ s.table, ∀ f ∈ s.files r.1, r.2 = f.data.length

/-- No other file has the modification time of the mark. -/
def FSBlockStore.Apart (s : FSBlockStore Key) : Prop :=
  ∀ g ∈ s.files .mark, ∀ n, n ≠ .mark → ∀ f ∈ s.files n, f.mtime ≠ g.mtime

/-- The modification time of a file. -/
def mtimeOf (files : Name Key → Option File) (n : Name Key) : ℕ :=
  match files n with
  | some f => f.mtime
  | none => 0

/-- The size of a file. -/
def sizeOf (files : Name Key → Option File) (n : Name Key) : ℕ :=
  match files n with
  | some f => f.data.length
  | none => 0

theorem mtimeOf_eq {files : Name Key → Option File} {n : Name Key} {f : File}
    (h : files n = some f) : mtimeOf files n = f.mtime := by
  simp [mtimeOf, h]

theorem sizeOf_eq {files : Name Key → Option File} {n : Name Key} {f : File}
    (h : files n = some f) : sizeOf files n = f.data.length := by
  simp [sizeOf, h]

/-! ### The order in which an opening unrolls the entries -/

theorem etsInsert_eq (e : Entry Key) (l : List (Entry Key)) :
    etsInsert e l = Recency.insertBy Entry.tstamp e l := by
  induction l with
  | nil => rfl
  | cons x l ih => simp only [etsInsert, Recency.insertBy, ih]

/-- The multiset sorts the entries by their time stamps. -/
theorem ets_eq (es : List (Entry Key)) :
    es.foldl (fun ets e => etsInsert e ets) [] = Recency.sortBy Entry.tstamp es := by
  simp only [etsInsert_eq]
  rfl

/-- The entry of a file. -/
def entryOf (files : Name Key → Option File) (n : Name Key) : Entry Key :=
  ⟨n, mtimeOf files n, sizeOf files n, none⟩

/-- The entries that an opening reads for a listing. -/
theorem mapM_statEntry_eq {files : Name Key → Option File} {dir : List (Name Key)}
    (h : ∀ n ∈ dir, files n ≠ none) :
    dir.mapM (statEntry files) =
      .ok (dir.map (entryOf files)) := by
  induction dir with
  | nil => rfl
  | cons n dir ih =>
      obtain ⟨f, hf⟩ := Option.ne_none_iff_exists'.1 (h n List.mem_cons_self)
      have := ih fun m hm => h m (List.mem_cons_of_mem _ hm)
      simp [List.mapM_cons, statEntry, hf, this, entryOf, mtimeOf, sizeOf, bind, Except.bind, pure, Except.pure]

/-- The entries of a listing, as they are unrolled. -/
def unrolling (files : Name Key → Option File) (dir : List (Name Key)) : List (Entry Key) :=
  (Recency.sortBy Entry.tstamp (dir.map (entryOf files))).reverse

theorem bsOpen_eq {files : Name Key → Option File} {dir : List (Name Key)} (size : ℤ)
    (hl : Listing files dir) :
    bsOpen size files dir = .ok (unrolled size files (unrolling files dir)) := by
  unfold bsOpen
  rw [mapM_statEntry_eq fun n hn => (hl.mem n).1 hn, unrolling, ← ets_eq]
  rfl

theorem mem_unrolling {files : Name Key → Option File} {dir : List (Name Key)} {e : Entry Key} :
    e ∈ unrolling files dir ↔ ∃ n ∈ dir, entryOf files n = e := by
  rw [unrolling, List.mem_reverse, (Recency.sortBy_perm _ _).mem_iff, List.mem_map]

theorem unrolling_names (files : Name Key → Option File) (dir : List (Name Key)) :
    ((unrolling files dir).map Entry.name).Perm dir := by
  have hp := ((List.reverse_perm _).trans
    (Recency.sortBy_perm Entry.tstamp (dir.map (entryOf files)))).map Entry.name
  simpa [unrolling, entryOf, Function.comp_def] using hp

/-- The names of the unrolled entries are ordered by the modification times. -/
theorem unrolling_sorted (files : Name Key → Option File) (dir : List (Name Key)) :
    ((unrolling files dir).map Entry.name).Pairwise fun a b => mtimeOf files b ≤ mtimeOf files a := by
  rw [List.pairwise_map]
  have hs : (unrolling files dir).Pairwise fun a b => b.tstamp ≤ a.tstamp :=
    List.pairwise_reverse.2 (Recency.sortBy_sorted _ _)
  refine hs.imp_of_mem fun {a b} ha hb hab => ?_
  obtain ⟨n, -, rfl⟩ := mem_unrolling.1 ha
  obtain ⟨m, -, rfl⟩ := mem_unrolling.1 hb
  exact hab

theorem unrolling_sizes (files : Name Key → Option File) (dir : List (Name Key)) :
    ∀ e ∈ unrolling files dir, e.size = sizeOf files e.name ∧ e.tstamp = mtimeOf files e.name := by
  intro e he
  obtain ⟨n, -, rfl⟩ := mem_unrolling.1 he
  exact ⟨rfl, rfl⟩

/-! ### Stores that are in order -/

/-- A store whose list has the names of the files, ordered by the modification times, whose table has
entries of these names, and whose mark is what the file says. -/
structure InOrder (s : FSBlockStore Key) : Prop where
  nodup : s.names.Nodup
  mem : ∀ n, n ∈ s.names ↔ s.files n ≠ none
  sorted : s.names.Pairwise fun a b => mtimeOf s.files b ≤ mtimeOf s.files a
  table : ∀ n, n ∈ s.table.map Prod.fst ↔ s.files n ≠ none
  mark : s.markStamp = (s.files .mark).map fun f => (.mark, f.mtime)

/-- The counters are the bytes of the files on either side of the mark. -/
structure Adds (s : FSBlockStore Key) : Prop where
  committed : s.committed = ((inFront s.names .mark).map (sizeOf s.files)).sum
  uncommitted : s.uncommitted = (s.behindMark.map (sizeOf s.files)).sum

/-- With the recorded sizes right, the table is a function of the files. -/
theorem InOrder.mem_table {s : FSBlockStore Key} (hi : InOrder s) (hz : s.Sized)
    {r : Name Key × ℕ} : r ∈ s.table ↔ s.files r.1 ≠ none ∧ r.2 = sizeOf s.files r.1 := by
  have hsize : ∀ r ∈ s.table, r.2 = sizeOf s.files r.1 := by
    intro r hr
    obtain ⟨f, hf⟩ := Option.ne_none_iff_exists'.1 ((hi.table r.1).1 (List.mem_map_of_mem hr))
    rw [sizeOf_eq hf]
    exact hz r hr f hf
  constructor
  · exact fun hr => ⟨(hi.table r.1).1 (List.mem_map_of_mem hr), hsize r hr⟩
  · rintro ⟨hf, hr⟩
    obtain ⟨r', hr', hn⟩ := List.mem_map.1 ((hi.table r.1).2 hf)
    have : r' = r := Prod.ext hn (by rw [hsize r' hr', hr, hn])
    exact this ▸ hr'

theorem InOrder.apart {s : FSBlockStore Key} (hi : InOrder s) (ha : s.Apart)
    (hm : .mark ∈ s.names) :
    ∀ n ∈ s.names, n ≠ .mark → mtimeOf s.files n ≠ mtimeOf s.files .mark := by
  intro n hn hne
  obtain ⟨g, hg⟩ := Option.ne_none_iff_exists'.1 ((hi.mem _).1 hm)
  obtain ⟨f, hf⟩ := Option.ne_none_iff_exists'.1 ((hi.mem n).1 hn)
  rw [mtimeOf_eq hf, mtimeOf_eq hg]
  exact ha g hg n hne f hf

/-- **The order of the files of one second does not matter.**  Two stores in order over the same files
have the same names on either side of the mark, if no other file is of its second. -/
theorem InOrder.sides {s s' : FSBlockStore Key} (hi : InOrder s) (hi' : InOrder s')
    (hfiles : s'.files = s.files) (ha : s.Apart) :
    (inFront s'.names .mark).Perm (inFront s.names .mark) ∧ s'.behindMark.Perm s.behindMark := by
  have hperm : s'.names.Perm s.names := by
    refine (List.perm_ext_iff_of_nodup hi'.nodup hi.nodup).2 fun n => ?_
    rw [hi'.mem, hi.mem, hfiles]
  rw [behindMark_eq, behindMark_eq]
  by_cases hm : .mark ∈ s.names
  · have hapart := hi.apart ha hm
    have hapart' : ∀ n ∈ s'.names, n ≠ .mark → mtimeOf s.files n ≠ mtimeOf s.files .mark :=
      fun n hn => hapart n (hperm.mem_iff.1 hn)
    have hsort' := hi'.sorted
    rw [hfiles] at hsort'
    rw [inFront, inFront, Recency.before_pivot hi.sorted hm hapart,
      Recency.behind_pivot hi.sorted hi.nodup hm hapart,
      Recency.before_pivot hsort' (hperm.mem_iff.2 hm) hapart',
      Recency.behind_pivot hsort' hi'.nodup (hperm.mem_iff.2 hm) hapart']
    exact ⟨hperm.filter _, hperm.filter _⟩
  · have hm' : .mark ∉ s'.names := fun h => hm (hperm.mem_iff.1 h)
    rw [inFront, inFront, (Recency.no_pivot hm).1, (Recency.no_pivot hm').1, (Recency.no_pivot hm).2,
      (Recency.no_pivot hm').2]
    exact ⟨hperm, .refl _⟩

/-- The sums over the two sides agree. -/
theorem InOrder.same_sums {s s' : FSBlockStore Key} (hi : InOrder s) (hi' : InOrder s')
    (hfiles : s'.files = s.files) (ha : s.Apart) :
    ((inFront s'.names .mark).map (sizeOf s'.files)).sum =
        ((inFront s.names .mark).map (sizeOf s.files)).sum ∧
      (s'.behindMark.map (sizeOf s'.files)).sum = (s.behindMark.map (sizeOf s.files)).sum := by
  obtain ⟨hfront, hback⟩ := hi.sides hi' hfiles ha
  rw [hfiles]
  exact ⟨(hfront.map _).sum_eq, (hback.map _).sum_eq⟩

theorem InOrder.same {s s' : FSBlockStore Key} (hi : InOrder s) (hi' : InOrder s')
    (hfiles : s'.files = s.files) (ha : s.Apart) (hz : s.Sized) (hz' : s'.Sized) (hc : Adds s)
    (hc' : Adds s') : Same s s' := by
  obtain ⟨hfront, hback⟩ := hi.same_sums hi' hfiles ha
  refine ⟨fun r => ?_, ?_, fun n => (hi.sides hi' hfiles ha).2.mem_iff, ?_, ?_⟩
  · rw [hi.mem_table hz, hi'.mem_table hz', hfiles]
  · rw [hi.mark, hi'.mark, hfiles]
  · rw [hc.committed, hc'.committed, hfront]
  · rw [hc.uncommitted, hc'.uncommitted, hback]

/-! ### The reopened store -/

/-- The table of an unrolled list. -/
theorem table_unrolled (size : ℤ) (files : Name Key → Option File) (l : List (Entry Key)) :
    (unrolled size files l).table = l.map fun e => (e.name, e.size) := by
  refine List.ext_getElem (by simp [unrolled, FSBlockStore.table]) fun i h₁ h₂ => ?_
  have hi : i < l.length := by simpa using h₂
  have hx : (unrolled size files l).entries[i]? = some i := by simp [unrolled, hi]
  simp only [FSBlockStore.table, List.getElem_map]
  rw [(List.getElem_eq_iff _).2 hx, unrolled_entry _ _ hi]
  rfl

theorem inOrder_unrolled (size : ℤ) {files : Name Key → Option File} {dir : List (Name Key)}
    (hl : Listing files dir) : InOrder (unrolled size files (unrolling files dir)) := by
  set l := unrolling files dir with hdef
  have hnames : (unrolled size files l).names = l.map Entry.name := names_unrolled ..
  have hperm : (l.map Entry.name).Perm dir := unrolling_names files dir
  have hmem : ∀ n, n ∈ l.map Entry.name ↔ files n ≠ none := fun n => by
    rw [hperm.mem_iff, hl.mem]
  refine ⟨?_, fun n => ?_, ?_, fun n => ?_, ?_⟩
  · rw [hnames]
    exact hperm.nodup_iff.2 hl.nodup
  · rw [hnames, hmem]
    rfl
  · rw [hnames]
    exact unrolling_sorted files dir
  · rw [table_unrolled, List.map_map]
    exact hmem n
  · have hmark : (unrolled size files l).mark = l.findIdx? fun e => e.name = .mark := rfl
    have hfiles : (unrolled size files l).files = files := rfl
    rw [FSBlockStore.markStamp, hmark, hfiles]
    cases hf : l.findIdx? fun e => decide (e.name = .mark) with
    | none =>
        have hno : .mark ∉ l.map Entry.name := by
          intro hin
          obtain ⟨e, he, hen⟩ := List.mem_map.1 hin
          simpa [hen] using List.findIdx?_eq_none_iff.1 hf e he
        rw [hmem, not_not] at hno
        simp [hno]
    | some m =>
        obtain ⟨hlt, hp, -⟩ := List.findIdx?_eq_some_iff_getElem.1 hf
        have hn : (l[m]).name = .mark := by simpa using hp
        have hin : .mark ∈ l.map Entry.name := List.mem_map.2 ⟨_, List.getElem_mem hlt, hn⟩
        obtain ⟨f, hfile⟩ := Option.ne_none_iff_exists'.1 ((hmem _).1 hin)
        have hstamp := (unrolling_sizes files dir _ (List.getElem_mem hlt)).2
        rw [hn, mtimeOf_eq hfile] at hstamp
        simp only [Option.map_some, unrolled_entry size files hlt, hfile, List.get_eq_getElem]
        rw [hn, hstamp]

theorem sized_unrolled (size : ℤ) (files : Name Key → Option File) (dir : List (Name Key)) :
    (unrolled size files (unrolling files dir)).Sized := by
  intro r hr f hf
  rw [table_unrolled] at hr
  obtain ⟨e, he, rfl⟩ := List.mem_map.1 hr
  exact (unrolling_sizes files dir e he).1.trans (sizeOf_eq hf)

theorem adds_unrolled (size : ℤ) (files : Name Key → Option File) (dir : List (Name Key)) :
    Adds (unrolled size files (unrolling files dir)) := by
  set l := unrolling files dir with hdef
  have hg : ∀ r ∈ l.map fun e => (e.name, e.size), r.2 = sizeOf files r.1 := by
    intro r hr
    obtain ⟨e, he, rfl⟩ := List.mem_map.1 hr
    exact (unrolling_sizes files dir e he).1
  obtain ⟨h₁, h₂⟩ := sums_eq hg
  have hnames : (l.map fun e => (e.name, e.size)).map Prod.fst = (unrolled size files l).names := by
    rw [names_unrolled, List.map_map]
    rfl
  rw [hnames] at h₁ h₂
  refine ⟨?_, ?_⟩
  · have : (unrolled size files l).committed = (sumLru l).1 := rfl
    rw [this, sumLru_eq, h₁]
    rfl
  · have : (unrolled size files l).uncommitted = (sumLru l).2 := rfl
    rw [this, sumLru_eq, h₂, behindMark_eq]
    rfl

/-! ### Files of one second -/

/-- A listing that names the mark first puts no file of its second behind it. -/
theorem not_behind_of_mark_first (size : ℤ) {files : Name Key → Option File} {rest : List (Name Key)}
    (hl : Listing files (.mark :: rest)) {n : Name Key}
    (hn : mtimeOf files .mark ≤ mtimeOf files n) :
    n ∉ (unrolled size files (unrolling files (.mark :: rest))).behindMark := by
  have hnd := (inOrder_unrolled size hl).nodup
  rw [behindMark_eq]
  rw [names_unrolled] at hnd ⊢
  obtain ⟨A, B, hsort, hA⟩ :=
    Recency.sortBy_first Entry.tstamp (entryOf files .mark) (rest.map (entryOf files))
  have hun : unrolling files (.mark :: rest) = B.reverse ++ entryOf files .mark :: A.reverse := by
    rw [unrolling, List.map_cons, hsort]
    simp
  have hnames : (unrolling files (.mark :: rest)).map Entry.name =
      B.reverse.map Entry.name ++ .mark :: A.reverse.map Entry.name := by
    rw [hun]
    simp [entryOf]
  rw [hnames] at hnd ⊢
  have hmB : .mark ∉ B.reverse.map Entry.name := fun hin =>
    (List.disjoint_of_nodup_append hnd) hin List.mem_cons_self
  rw [(Recency.sides_append hmB).2]
  intro hin
  obtain ⟨e, he, rfl⟩ := List.mem_map.1 hin
  have hlt := hA e (List.mem_reverse.1 he)
  have hstamp := (unrolling_sizes files (.mark :: rest) e (by rw [hun]; simp [List.mem_reverse.1 he])).2
  rw [hstamp] at hlt
  exact absurd hn (not_le.2 hlt)

/-- A listing that names the mark last puts every file of its second behind it. -/
theorem behind_of_mark_last (size : ℤ) {files : Name Key → Option File} {rest : List (Name Key)}
    (hl : Listing files (rest ++ [.mark])) {n : Name Key} (hmem : n ∈ rest)
    (hn : mtimeOf files n ≤ mtimeOf files .mark) :
    n ∈ (unrolled size files (unrolling files (rest ++ [.mark]))).behindMark := by
  have hnd := (inOrder_unrolled size hl).nodup
  rw [behindMark_eq]
  rw [names_unrolled] at hnd ⊢
  obtain ⟨A, B, hsort, hperm, -, hB⟩ :=
    Recency.sortBy_last Entry.tstamp (rest.map (entryOf files)) (entryOf files .mark)
  have hun : unrolling files (rest ++ [.mark]) = B.reverse ++ entryOf files .mark :: A.reverse := by
    rw [unrolling, List.map_append, List.map_singleton, hsort]
    simp
  have hnames : (unrolling files (rest ++ [.mark])).map Entry.name =
      B.reverse.map Entry.name ++ .mark :: A.reverse.map Entry.name := by
    rw [hun]
    simp [entryOf]
  rw [hnames] at hnd ⊢
  have hmB : .mark ∉ B.reverse.map Entry.name := fun hin =>
    (List.disjoint_of_nodup_append hnd) hin List.mem_cons_self
  rw [(Recency.sides_append hmB).2]
  have hin : entryOf files n ∈ A ++ B := hperm.mem_iff.2 (List.mem_map_of_mem hmem)
  rcases List.mem_append.1 hin with hA | hBin
  · exact List.mem_map.2 ⟨_, List.mem_reverse.2 hA, rfl⟩
  · exact absurd hn (not_le.2 (hB _ hBin))

/-- **When a store in order reopens.** -/
theorem InOrder.reopens_iff_apart {s : FSBlockStore Key} (hi : InOrder s) (size : ℕ) :
    Reopens size s ↔ s.Sized ∧ Adds s ∧ s.Apart := by
  constructor
  · intro hr
    have hl₀ : Listing s.files s.names := ⟨hi.nodup, hi.mem⟩
    obtain ⟨s₀, ho₀, hsame₀⟩ := hr _ hl₀
    rw [bsOpen_eq size hl₀] at ho₀
    obtain rfl := Except.ok.inj ho₀
    have hz : s.Sized := by
      intro r hrt
      exact sized_unrolled size s.files s.names r ((hsame₀.entries r).2 hrt)
    have ha : s.Apart := by
      intro g hg n hne f hf heq
      -- The mark and another file of its second: list the mark first, and then last.
      have hm : .mark ∈ s.names := (hi.mem _).2 (by simp [Option.mem_def.1 hg])
      have hn : n ∈ s.names.erase .mark :=
        (List.mem_erase_of_ne hne).2 ((hi.mem n).2 (by simp [Option.mem_def.1 hf]))
      have hstamp : mtimeOf s.files n = mtimeOf s.files .mark := by
        rw [mtimeOf_eq hf, mtimeOf_eq hg, heq]
      have hp := List.perm_cons_erase hm
      have hl₁ : Listing s.files (.mark :: s.names.erase .mark) :=
        ⟨hp.nodup_iff.1 hi.nodup, fun n => by rw [← hi.mem, hp.mem_iff]⟩
      have hp₂ := hp.trans (List.perm_append_singleton .mark (s.names.erase .mark)).symm
      have hl₂ : Listing s.files (s.names.erase .mark ++ [.mark]) :=
        ⟨hp₂.nodup_iff.1 hi.nodup, fun n => by rw [← hi.mem, hp₂.mem_iff]⟩
      obtain ⟨s₁, ho₁, hsame₁⟩ := hr _ hl₁
      obtain ⟨s₂, ho₂, hsame₂⟩ := hr _ hl₂
      rw [bsOpen_eq size hl₁] at ho₁
      rw [bsOpen_eq size hl₂] at ho₂
      obtain rfl := Except.ok.inj ho₁
      obtain rfl := Except.ok.inj ho₂
      refine not_behind_of_mark_first size hl₁ hstamp.ge ((hsame₁.behind n).2 ?_)
      exact (hsame₂.behind n).1 (behind_of_mark_last size hl₂ hn hstamp.le)
    have hadds := adds_unrolled size s.files s.names
    obtain ⟨hfront, hback⟩ := hi.same_sums (inOrder_unrolled size hl₀) rfl ha
    refine ⟨hz, ⟨?_, ?_⟩, ha⟩
    · rw [← hsame₀.committed, hadds.committed, hfront]
    · rw [← hsame₀.uncommitted, hadds.uncommitted, hback]
  · rintro ⟨hz, hc, ha⟩ dir hl
    exact ⟨_, bsOpen_eq size hl, hi.same (inOrder_unrolled size hl) rfl ha hz
      (sized_unrolled size s.files dir) hc (adds_unrolled size s.files dir)⟩

/-! ### Runs keep the list in order -/

/-- The time stamps of the entries in the list are those of the files, the list is ordered by them, and
none is in the future. -/
structure Dated (s : FSBlockStore Key) (t : ℕ) : Prop where
  stamp : ∀ x ∈ s.lru, (s.entry x.2).tstamp = mtimeOf s.files (s.entry x.2).name
  sorted : s.names.Pairwise fun a b => mtimeOf s.files b ≤ mtimeOf s.files a
  past : ∀ n ∈ s.names, mtimeOf s.files n ≤ t

theorem Dated.mono {s : FSBlockStore Key} {t t' : ℕ} (hi : Dated s t) (ht : t ≤ t') : Dated s t' :=
  ⟨hi.stamp, hi.sorted, fun n hn => (hi.past n hn).trans ht⟩

/-- The stamp of the entry of a node after a touch. -/
theorem touched_tstamp (s : FSBlockStore Key) (n : Name Key) (mtime size : ℕ)
    (h : Linked s) {x : ℕ × ℕ} (hx : x ∈ (s.touched n mtime size).lru) :
    let s' := s.touched n mtime size
    ((s'.entry x.2).name = n ∧ (s'.entry x.2).tstamp = mtime) ∨
      (x ∈ s.lru ∧ (s.entry x.2).name ≠ n ∧ (s'.entry x.2).name = (s.entry x.2).name ∧
        (s'.entry x.2).tstamp = (s.entry x.2).tstamp) := by
  intro s'
  cases hf : s.find n with
  | none =>
      have hs' : s' = (s.newEntry ⟨n, mtime, size, none⟩).pushed s.nentry := by
        simp only [s', FSBlockStore.touched, hf]
      have hlru : s'.lru = (s.npos, s.nentry) :: s.lru := by rw [hs']; rfl
      have hx' : x ∈ s'.lru := hx
      rw [hlru] at hx'
      rcases List.mem_cons.1 hx' with rfl | hx'
      · refine .inl ?_
        rw [hs']
        simp [FSBlockStore.pushed, FSBlockStore.newEntry, FSBlockStore.setEntry]
      · have hne : x.2 ≠ s.nentry := (h.lt _ (h.mem x hx')).ne
        have hentry : s'.entry x.2 = s.entry x.2 := by
          rw [hs']
          simp [FSBlockStore.pushed, FSBlockStore.newEntry, FSBlockStore.setEntry,
            Function.update_of_ne hne]
        exact .inr ⟨hx', find_eq_none hf _ (h.mem x hx'), by rw [hentry], by rw [hentry]⟩
  | some e =>
      obtain ⟨hmem, hname⟩ := find_eq_some hf
      set s₁ : FSBlockStore Key :=
        { s with lru := s.lru.filter fun x => (s.entry x.2).name ≠ n } with hs₁
      have hs' : s' = (s₁.setEntry e { s.entry e with tstamp := mtime }).pushed e := by
        simp only [s', FSBlockStore.touched, hf, hs₁]
      have hlru : s'.lru = (s.npos, e) :: s.lru.filter fun x => (s.entry x.2).name ≠ n := by
        rw [hs']
        rfl
      have hx' : x ∈ s'.lru := hx
      rw [hlru] at hx'
      rcases List.mem_cons.1 hx' with rfl | hx'
      · refine .inl ?_
        rw [hs']
        simp [FSBlockStore.pushed, FSBlockStore.setEntry, hname]
      · obtain ⟨hx', hxn⟩ := List.mem_filter.1 hx'
        have hxn : (s.entry x.2).name ≠ n := by simpa using hxn
        have hne : x.2 ≠ e := fun he => hxn (he ▸ hname)
        have hentry : s'.entry x.2 = s.entry x.2 := by
          rw [hs']
          simp [FSBlockStore.pushed, FSBlockStore.setEntry, Function.update_of_ne hne, hs₁]
        exact .inr ⟨hx', hxn, by rw [hentry], by rw [hentry]⟩

theorem mtimeOf_update_of_ne {files : Name Key → Option File} {n m : Name Key} (h : m ≠ n)
    (f : Option File) : mtimeOf (Function.update files n f) m = mtimeOf files m := by
  simp [mtimeOf, Function.update_of_ne h]

/-- Touching a name whose file has just been written. -/
theorem Dated.touched {s s₁ : FSBlockStore Key} {t now : ℕ} (hi : Dated s t) (ht : t ≤ now)
    (hs : SameIndex s s₁) (hl : Linked s₁) {n : Name Key} {f : File} (hnow : f.mtime = now)
    (hfiles : s₁.files = Function.update s.files n (some f)) {size : ℕ}
    (htouch : Touched n s₁ (s₁.touched n now size)) : Dated (s₁.touched n now size) now := by
  set s' := s₁.touched n now size with hs'
  have hself : mtimeOf s'.files n = now := by
    rw [htouch.files, hfiles, ← hnow]
    exact mtimeOf_eq (Function.update_self ..)
  have hother : ∀ m, m ≠ n → mtimeOf s'.files m = mtimeOf s.files m := by
    intro m hmn
    rw [htouch.files, hfiles, mtimeOf_update_of_ne hmn]
  refine ⟨?_, ?_, ?_⟩
  · intro x hx
    rcases touched_tstamp s₁ n now size hl hx with ⟨hxn, hxt⟩ | ⟨hx', hxn, hname, hxt⟩
    · rw [hxn, hself]
      exact hxt
    · rw [hs.entry] at hxn hname hxt
      rw [hs.lru] at hx'
      rw [hname, hother _ hxn, ← hi.stamp x hx']
      exact hxt
  · rw [htouch.names, hs.names, List.pairwise_cons]
    constructor
    · intro m hmem
      obtain ⟨hmem, hmn⟩ := List.mem_filter.1 hmem
      rw [hself, hother m (by simpa using hmn)]
      exact (hi.past m hmem).trans ht
    · refine (hi.sorted.sublist List.filter_sublist).imp_of_mem fun {a b} ha hb hab => ?_
      rw [hother a (by simpa using (List.mem_filter.1 ha).2),
        hother b (by simpa using (List.mem_filter.1 hb).2)]
      exact hab
  · intro m hmem
    by_cases hmn : m = n
    · rw [hmn, hself]
    · rw [hother m hmn]
      have := (htouch.mem_names.1 hmem).resolve_left hmn
      exact (hi.past m (hs.names ▸ this)).trans ht

/-- When a cycle finishes, the file of a new name is that of the old one. -/
theorem Finished.file {s s' : FSBlockStore Key} {rid : ℕ} (hfin : Finished rid s s') {n : Name Key}
    (hn : n ≠ .mark) : s'.files (renamed rid n) = s.files n := by
  rw [hfin.files]
  unfold renamed
  split
  case isTrue hnr => simp [hnr]
  case isFalse hnr => rw [Function.update_of_ne hn, Function.update_of_ne hnr]

/-- The token's entry takes the name of the mark with its stamp, and so does its file. -/
theorem Dated.finished {s : FSBlockStore Key} {t rid r : ℕ} {f : File} (hi : Dated s t)
    (h : Linked s) (hr : s.find (.rid rid) = some r) (hfin : Finished rid s (s.finished rid r f)) :
    Dated (s.finished rid r f) t := by
  set s' := s.finished rid r f with hs'
  obtain ⟨hrm, hrn⟩ := find_eq_some hr
  have hmtime : ∀ n, n ≠ .mark → mtimeOf s'.files (renamed rid n) = mtimeOf s.files n := by
    intro n hn
    simp only [mtimeOf, hfin.file hn]
  refine ⟨?_, ?_, ?_⟩
  · intro x hx
    obtain ⟨hx, hxm⟩ := List.mem_filter.1 hx
    have hxm : (s.entry x.2).name ≠ .mark := by simpa using hxm
    have hstamp := hi.stamp x hx
    by_cases hxy : x.2 = r
    · have hname : (s'.entry x.2).name = renamed rid (s.entry x.2).name := by
        simp [hs', FSBlockStore.finished, hxy, hrn, renamed]
      have hts : (s'.entry x.2).tstamp = (s.entry x.2).tstamp := by
        simp [hs', FSBlockStore.finished, hxy]
      rw [hname, hmtime _ hxm, ← hstamp, hts]
    · have hentry : s'.entry x.2 = s.entry x.2 := by
        simp [hs', FSBlockStore.finished, Function.update_of_ne hxy]
      have hxr : (s.entry x.2).name ≠ .rid rid := fun hn =>
        hxy (h.nameInj _ (h.mem x hx) _ hrm (hn.trans hrn.symm))
      have := hmtime _ hxm
      rw [renamed, if_neg hxr] at this
      rw [hentry, this, hstamp]
  · rw [hfin.names, List.pairwise_map]
    refine (hi.sorted.sublist List.filter_sublist).imp_of_mem fun {a b} ha hb hab => ?_
    rw [hmtime a (by simpa using (List.mem_filter.1 ha).2),
      hmtime b (by simpa using (List.mem_filter.1 hb).2)]
    exact hab
  · intro n hn
    obtain ⟨m, hm, hmm, rfl⟩ := (hfin.mem_names n).1 hn
    rw [hmtime m hmm]
    exact hi.past m hm

/-- The time stamps of the entries in the list are those of the files, the list is ordered by them,
none is in the future, and there is a mark if there is a file of it. -/
structure StampInv (s : FSBlockStore Key) (t : ℕ) : Prop where
  index : IndexInv s
  stamp : ∀ x ∈ s.lru, (s.entry x.2).tstamp = mtimeOf s.files (s.entry x.2).name
  sorted : s.names.Pairwise fun a b => mtimeOf s.files b ≤ mtimeOf s.files a
  past : ∀ n ∈ s.names, mtimeOf s.files n ≤ t
  marked : s.files .mark ≠ none → s.mark ≠ none

theorem stampInv_bsCreate (size : ℕ) : StampInv (bsCreate size : FSBlockStore Key) 0 where
  index := indexInv_bsCreate size
  stamp := by simp [bsCreate]
  sorted := by simp [bsCreate, FSBlockStore.names]
  past := by simp [bsCreate, FSBlockStore.names]
  marked := by simp [bsCreate]

theorem StampInv.mono {s : FSBlockStore Key} {t t' : ℕ} (hi : StampInv s t) (ht : t ≤ t') :
    StampInv s t' :=
  ⟨hi.index, hi.stamp, hi.sorted, fun n hn => (hi.past n hn).trans ht, hi.marked⟩

theorem StampInv.dated {s : FSBlockStore Key} {t : ℕ} (hi : StampInv s t) : Dated s t :=
  ⟨hi.stamp, hi.sorted, hi.past⟩

/-- A touch of a name whose file has just been written. -/
theorem StampInv.touchEntry {s s₁ : FSBlockStore Key} {t now : ℕ} (hi : StampInv s t) (ht : t ≤ now)
    (hs : SameIndex s s₁) (hm : s₁.mark = s.mark) {n : Name Key} (hn : n ≠ .mark) {f : File}
    (hnow : f.mtime = now) (hfiles : s₁.files = Function.update s.files n (some f)) (size : ℕ) :
    wp (FSBS.touchEntry n now size) (fun _ s' => StampInv s' now) (fun _ _ => False) s₁ := by
  have hl := hs.linked hi.index.linked
  have hhave : (s₁.find n).isSome → n ∈ s₁.names := by
    rw [hs.find, hs.names]
    exact hi.index.mem_names
  have heq := touchEntry_eq hl n now size hhave
  have htouch := wp_ok (touchEntry_spec hl n now size hhave) heq
  have hindex := wp_ok (hi.index.touchEntry hs hm hfiles now size) heq
  simp only [wp, heq]
  obtain ⟨hstamp, hsorted, hpast⟩ := hi.dated.touched ht hs hl hnow hfiles htouch
  refine ⟨hindex, hstamp, hsorted, hpast, ?_⟩
  intro hfile
  rw [htouch.mark, hm]
  refine hi.marked ?_
  rwa [htouch.files, hfiles, Function.update_of_ne hn.symm] at hfile

theorem StampInv.bsBlockPut {s : FSBlockStore Key} {t now : ℕ} (hi : StampInv s t) (ht : t ≤ now)
    {k : Key} {data : List UInt8} (hk : ¬ s.Purges k data) :
    wp (FSBS.bsBlockPut now k data) (fun _ s' => StampInv s' now) (fun _ s' => StampInv s' now) s := by
  simp only [FSBS.bsBlockPut, wp_bind, wp_get]
  split
  case isTrue => exact hi.mono ht
  case isFalse hspace =>
    refine wp_seq (purgeLoop_keeps hspace hk _) ?_ ?_
    · rintro _ _ rfl
      simp only [wp_bind, wp_modify]
      exact wp_mono (hi.touchEntry (f := ⟨data, now⟩) ht (sameIndex_booked _ now k data _ _)
        (booked_mark ..) (by simp) rfl (booked_files ..) data.length) (fun _ _ h => h)
        (fun _ _ hF => hF.elim)
    · rintro _ _ ⟨rfl, -⟩
      exact hi.mono ht

theorem StampInv.bsRefreshStart {s : FSBlockStore Key} {t now : ℕ} (hi : StampInv s t) (ht : t ≤ now)
    (rid : ℕ) :
    wp (FSBS.bsRefreshStart now rid) (fun _ s' => StampInv s' now) (fun _ s' => StampInv s' now) s := by
  simp only [FSBS.bsRefreshStart, wp_bind, wp_get]
  split
  case isTrue => exact hi.mono ht
  case isFalse =>
    simp only [wp_bind, wp_set]
    exact wp_mono (hi.touchEntry (f := ⟨[], now⟩) ht (sameIndex_setFile s _ _) rfl (by simp) rfl rfl 0)
      (fun _ _ h => h) (fun _ _ hF => hF.elim)

theorem StampInv.bsRefreshBlock {s : FSBlockStore Key} {t now : ℕ} (hi : StampInv s t) (ht : t ≤ now)
    (rid : ℕ) (k : Key) :
    wp (FSBS.bsRefreshBlock now rid k) (fun _ s' => StampInv s' now) (fun _ s' => StampInv s' now)
      s := by
  simp only [FSBS.bsRefreshBlock, wp_bind, wp_get]
  split
  case isTrue => exact hi.mono ht
  case isFalse =>
    cases hf : s.files (.block k) with
    | none => exact hi.mono ht
    | some f =>
        simp only [wp_bind, wp_set]
        exact wp_mono (hi.touchEntry (f := { f with mtime := now }) ht (sameIndex_setFile s _ _) rfl
          (by simp) rfl rfl _) (fun _ _ h => h) (fun _ _ hF => hF.elim)

theorem StampInv.bsRefreshFinish {s : FSBlockStore Key} {t : ℕ} (hi : StampInv s t) (rid : ℕ) :
    wp (FSBS.bsRefreshFinish rid) (fun _ s' => StampInv s' t) (fun _ s' => StampInv s' t) s := by
  cases hf : s.files (.rid rid) with
  | none =>
      simp only [FSBS.bsRefreshFinish, wp_bind, wp_get, hf]
      exact hi
  | some f =>
      have hne : s.files (.rid rid) ≠ none := by simp [hf]
      obtain ⟨y, hy, hyn⟩ := FSBS.mem_names.1 ((hi.index.file _).1 hne)
      have hr : s.find (.rid rid) = some y.2 := hyn ▸ hi.index.linked.find_mem hy
      have heq := bsRefreshFinish_eq hi.index.linked hf hr hi.index.mem_names
      have hfin := wp_ok (bsRefreshFinish_spec hi.index.linked (fun h => (hi.index.file _).1 h)
        hi.index.mem_names) heq
      have hindex := wp_ok (hi.index.bsRefreshFinish rid) heq
      simp only [wp, heq]
      obtain ⟨hstamp, hsorted, hpast⟩ := hi.dated.finished hi.index.linked hr hfin
      exact ⟨hindex, hstamp, hsorted, hpast, fun _ => by simp [FSBlockStore.finished]⟩

theorem StampInv.stepEvent {s : FSBlockStore Key} {t now : ℕ} (hi : StampInv s t) (ht : t ≤ now)
    {op : Op Key} (hk : Keeps s op) : StampInv (FSBS.stepEvent now op s).2 now := by
  refine stepEvent_of_wp (I := fun s' => StampInv s' now) ?_
  cases op with
  | put k data => exact wp_seq (hi.bsBlockPut ht hk) (fun _ _ h => h) (fun _ _ h => h)
  | refreshStart rid => exact wp_seq (hi.bsRefreshStart ht rid) (fun _ _ h => h) (fun _ _ h => h)
  | refreshBlock rid k =>
      refine wp_seq (hi.bsRefreshBlock ht rid k) ?_ (fun _ _ h => h)
      rintro (_ | _) s' h <;> exact h
  | refreshFinish rid =>
      exact wp_seq (hi.bsRefreshFinish rid) (fun _ _ h => h.mono ht) (fun _ _ h => h.mono ht)

theorem stampInv_run {size : ℕ} {s : FSBlockStore Key} {t : ℕ} {h : List (Event Key)}
    (hr : RunWith Keeps size s t h) : StampInv s t := by
  induction hr with
  | create => exact stampInv_bsCreate size
  | step now op _ ht hk ih => exact ih.stepEvent ht hk

theorem StampInv.inOrder {s : FSBlockStore Key} {t : ℕ} (hi : StampInv s t) : InOrder s where
  nodup := hi.index.linked.names_nodup
  mem n := (hi.index.file n).symm
  sorted := hi.sorted
  table n := by
    rw [← hi.index.indexOk.files, FSBlockStore.table, List.map_map]
    simp
  mark := by
    cases hm : s.mark with
    | none =>
        have hno : s.files .mark = none := by
          by_contra hfile
          exact hi.marked hfile hm
        simp [FSBlockStore.markStamp, hm, hno]
    | some m =>
        obtain ⟨hme, hmn⟩ := hi.index.mark m hm
        obtain ⟨x, hx, rfl⟩ := List.mem_map.1 (hi.index.total m hme)
        have hfile : s.files .mark ≠ none := (hi.index.file _).2 (FSBS.mem_names.2 ⟨x, hx, hmn⟩)
        obtain ⟨f, hf⟩ := Option.ne_none_iff_exists'.1 hfile
        have hstamp := hi.stamp x hx
        rw [hmn, mtimeOf_eq hf] at hstamp
        simp [FSBlockStore.markStamp, hm, hmn, hstamp, hf]

/-- With the recorded sizes right, the sums over the list are those over the files. -/
theorem IndexInv.adds_iff {s : FSBlockStore Key} (hi : IndexInv s) (hz : s.Sized) :
    Adds s ↔ s.Counted := by
  have hg : ∀ r ∈ s.recs, r.2 = sizeOf s.files r.1 := by
    intro r hr
    obtain ⟨x, hx, rfl⟩ := List.mem_map.1 hr
    obtain ⟨f, hf⟩ := Option.ne_none_iff_exists'.1 ((hi.file _).2 (FSBS.mem_names.2 ⟨x, hx, rfl⟩))
    rw [sizeOf_eq hf]
    exact hz _ (List.mem_map.2 ⟨x.2, hi.linked.mem x hx, rfl⟩) f hf
  obtain ⟨h₁, h₂⟩ := sums_eq hg
  rw [recs_names] at h₁ h₂
  rw [← behindMark_eq] at h₂
  rw [counted_iff, h₁, h₂]
  exact ⟨fun h => ⟨h.committed, h.uncommitted⟩, fun h => ⟨h.1, h.2⟩⟩

/-! ### A put that purges -/

/-- An entry of the table has lost its file; there are finitely many files. -/
structure Lost (s : FSBlockStore Key) : Prop where
  finite : ∃ L : List (Name Key), ∀ n, s.files n ≠ none → n ∈ L
  entry : ∃ e ∈ s.entries, s.files (s.entry e).name = none

/-- Such a store does not come back as it was. -/
theorem Lost.not_reopens {s : FSBlockStore Key} (h : Lost s) (size : ℕ) : ¬ Reopens size s := by
  intro hr
  obtain ⟨L, hL⟩ := h.finite
  obtain ⟨e, he, hnone⟩ := h.entry
  have hl : Listing s.files (L.dedup.filter fun n => (s.files n).isSome) := by
    refine ⟨(List.nodup_dedup L).filter _, fun n => ?_⟩
    rw [List.mem_filter, List.mem_dedup, Option.isSome_iff_ne_none]
    exact ⟨fun hn => hn.2, fun hn => ⟨hL n hn, hn⟩⟩
  obtain ⟨s', ho, hsame⟩ := hr _ hl
  rw [bsOpen_eq size hl] at ho
  obtain rfl := Except.ok.inj ho
  have hin := (hsame.entries _).2 (List.mem_map.2 ⟨e, he, rfl⟩)
  have hfile := ((inOrder_unrolled size hl).table _).1 (List.mem_map_of_mem hin)
  exact hfile hnone

/-- However the purge loop ends, it has dropped the end of the list. -/
theorem purgeLoop_purged (prevcommitted : ℤ) (blksize : ℕ) :
    ∀ (fuel : ℕ) (s : FSBlockStore Key), Linked s → (∀ n, s.files n ≠ none ↔ n ∈ s.names) →
      wp (purgeLoop prevcommitted blksize fuel)
        (fun _ s' => ∃ l B, s.lru = l ++ B ∧ s' = s.purged l B)
        (fun _ s' => ∃ l B, s.lru = l ++ B ∧ s' = s.purged l B) s := by
  intro fuel
  induction fuel with
  | zero => exact fun s _ _ => ⟨s.lru, [], by simp, (purged_nil s).symm⟩
  | succ fuel ih =>
      intro s h hfile
      simp only [purgeLoop, wp_bind, wp_get]
      split
      case isFalse => exact ⟨s.lru, [], by simp, (purged_nil s).symm⟩
      case isTrue =>
        rw [wp_bind]
        rcases List.eq_nil_or_concat' s.lru with hnil | ⟨l, y, hl⟩
        · simp only [purgeUncommitted, wp_bind, wp_get, hnil, List.getLast?_nil]
          exact ⟨s.lru, [], by simp [hnil], (purged_nil s).symm⟩
        · have hy : s.files (s.entry y.2).name ≠ none :=
            (hfile _).2 (mem_names.2 ⟨y, by simp [hl], rfl⟩)
          refine wp_mono (purgeUncommitted_spec hl hy) ?_ ?_
          · rintro _ _ rfl
            have hsub : l.Sublist s.lru := by rw [hl]; exact List.sublist_append_left _ _
            have hjoin : ∀ s', (∃ l' B, (s.purged l [y]).lru = l' ++ B ∧
                s' = (s.purged l [y]).purged l' B) → ∃ l' B, s.lru = l' ++ B ∧ s' = s.purged l' B := by
              rintro _ ⟨l', B, hl', rfl⟩
              refine ⟨l', B ++ [y], ?_, purged_purged ..⟩
              rw [hl, ← List.append_assoc]
              exact congrArg (· ++ [y]) hl'
            exact wp_mono (ih _ (h.purged hsub [y]) (file_iff_purged h hfile hl))
              (fun _ s' => hjoin s') (fun _ s' => hjoin s')
          · rintro _ _ rfl
            exact ⟨_, [], by simp, (purged_nil _).symm⟩

/-- A put that purges drops at least the oldest entry. -/
theorem IndexInv.purgeLoop_drops {s : FSBlockStore Key} (hi : IndexInv s) {k : Key}
    {data : List UInt8} (hk : s.Purges k data) (fuel : ℕ) :
    ∃ y, wp (purgeLoop (s.prevcommitted k) data.length (fuel + 1))
      (fun _ s' => ∃ l B, s.lru = l ++ B ∧ y ∈ B ∧ s' = s.purged l B)
      (fun _ s' => ∃ l B, s.lru = l ++ B ∧ y ∈ B ∧ s' = s.purged l B) s := by
  obtain ⟨-, hpos, m, hm, y, hy, hle⟩ := hk
  obtain ⟨l, hl⟩ := List.getLast?_eq_some_iff.1 hy
  have hfile : s.files (s.entry y.2).name ≠ none :=
    (hi.file _).2 (FSBS.mem_names.2 ⟨y, by simp [hl], rfl⟩)
  have hfirst : purgeUncommitted s = .ok () (s.purged l [y]) := by
    have hspec := purgeUncommitted_spec hl hfile
    have hok : wp (purgeUncommitted : M Key Unit) (fun _ _ => True) (fun _ _ => False) s := by
      simp only [purgeUncommitted, wp_bind, wp_get, Option.mem_def.1 hy, Option.mem_def.1 hm,
        if_neg (not_lt.2 hle), wp_set, if_neg hfile, wp_modify]
    cases hrun : purgeUncommitted s with
    | ok a s' =>
        have := wp_ok hspec hrun
        rw [this]
    | error e s' => exact (wp_error hok hrun).elim
  have hsub : l.Sublist s.lru := by rw [hl]; exact List.sublist_append_left _ _
  have hjoin : ∀ s', (∃ l' B, (s.purged l [y]).lru = l' ++ B ∧
      s' = (s.purged l [y]).purged l' B) → ∃ l' B, s.lru = l' ++ B ∧ y ∈ B ∧ s' = s.purged l' B := by
    rintro _ ⟨l', B, hl', rfl⟩
    refine ⟨l', B ++ [y], ?_, by simp, purged_purged ..⟩
    rw [hl, ← List.append_assoc]
    exact congrArg (· ++ [y]) hl'
  refine ⟨y, ?_⟩
  simp only [purgeLoop, wp_bind, wp_get, if_pos hpos]
  rw [wp, hfirst]
  exact wp_mono (purgeLoop_purged _ _ fuel _ (hi.linked.purged hsub [y])
    (file_iff_purged hi.linked hi.file hl)) (fun _ s' => hjoin s') (fun _ s' => hjoin s')

/-- Touching a name keeps the files and the names in the table, or erases through an invalid
iterator. -/
theorem touchEntry_table {s : FSBlockStore Key} (hlt : ∀ e ∈ s.entries, e < s.nentry) (n : Name Key)
    (mtime size : ℕ) :
    wp (touchEntry n mtime size)
      (fun _ s' => s'.files = s.files ∧
        ∀ e ∈ s.entries, e ∈ s'.entries ∧ (s'.entry e).name = (s.entry e).name)
      (fun e _ => ∃ what, e = .undefined what) s := by
  simp only [touchEntry, wp_bind, wp_get]
  cases hf : s.find n with
  | none =>
      simp only [wp_bind, wp_set, lruPushFront, wp_modify]
      refine ⟨rfl, fun e he => ⟨List.mem_cons_of_mem _ he, ?_⟩⟩
      have := pushed_name (s.newEntry ⟨n, mtime, size, none⟩) s.nentry e
      refine this.trans ?_
      simp [FSBlockStore.newEntry, FSBlockStore.setEntry, Function.update_of_ne (hlt e he).ne]
  | some e' =>
      simp only [wp_bind, lruErase, wp_get]
      cases (s.entry e').listpos with
      | none => exact ⟨_, rfl⟩
      | some p =>
          simp only
          split
          case isFalse => exact ⟨_, rfl⟩
          case isTrue =>
            simp only [wp_set, wp_bind, wp_modify, lruPushFront]
            refine ⟨rfl, fun e he => ⟨he, ?_⟩⟩
            refine (pushed_name _ e' e).trans ?_
            by_cases hee : e = e'
            · subst hee; simp [FSBlockStore.setEntry]
            · simp [FSBlockStore.setEntry, Function.update_of_ne hee]

/-- Touching an entry whose node is gone. -/
theorem touchEntry_dangling {s : FSBlockStore Key} {n : Name Key} {e p : ℕ} (hf : s.find n = some e)
    (hpos : (s.entry e).listpos = some p) (hout : p ∉ s.lru.map Prod.fst) (mtime size : ℕ) :
    wp (touchEntry n mtime size) (fun _ _ => False) (fun e _ => ∃ what, e = .undefined what) s := by
  simp only [touchEntry, wp_bind, wp_get, hf, lruErase, hpos, if_neg hout]
  exact ⟨_, rfl⟩

/-- **A put that purges** leaves an entry without a file, or erases through an invalid iterator. -/
theorem IndexInv.lost_of_purges {s : FSBlockStore Key} (hi : IndexInv s) (now : ℕ) {k : Key}
    {data : List UInt8} (hk : s.Purges k data) :
    Lost (FSBS.stepEvent now (.put k data) s).2 ∨ ¬ Defined now s (.put k data) := by
  obtain ⟨y, hloop⟩ := hi.purgeLoop_drops hk s.lru.length
  have hput : wp (FSBS.step now (.put k data)) (fun _ s' => Lost s')
      (fun e s' => Lost s' ∨ ∃ what, e = .undefined what) s := by
    simp only [FSBS.step, FSBS.bsBlockPut, wp_bind, wp_get, if_neg hk.1]
    refine wp_mono hloop ?_ ?_
    · rintro _ _ ⟨l, B, hl, hyB, rfl⟩
      have hy : y ∈ s.lru := by simp [hl, hyB]
      have hgone : (s.purged l B).files (s.entry y.2).name = none := by
        rw [files_purged, if_pos (List.mem_map.2 ⟨y, hyB, rfl⟩)]
      set s₁ := (s.purged l B).booked now k data (s.prevsize k) (s.wascommitted k) with hs₁
      have hsame : SameIndex (s.purged l B) s₁ := sameIndex_booked ..
      have hfiles : s₁.files = Function.update (s.purged l B).files (.block k) (some ⟨data, now⟩) :=
        booked_files ..
      by_cases hname : (s.entry y.2).name = .block k
      · -- The block's own entry has been purged.
        have hfind : s₁.find (.block k) = some y.2 := by
          rw [hsame.find, find_purged, ← hname]
          exact hi.linked.find_mem hy
        have hpos : (s₁.entry y.2).listpos = some y.1 := by
          rw [hsame.entry]
          exact hi.linked.listpos y hy
        have hout : y.1 ∉ s₁.lru.map Prod.fst := by
          rw [hsame.lru]
          have hnd := hi.linked.posNodup
          rw [hl, List.map_append] at hnd
          exact fun hin => (List.disjoint_of_nodup_append hnd) hin (List.mem_map.2 ⟨y, hyB, rfl⟩)
        exact wp_mono (touchEntry_dangling hfind hpos hout now data.length) (fun _ _ h => h.elim)
          (fun _ _ h => .inr h)
      · refine wp_mono (touchEntry_table (hsame.linked (hi.linked.purged ?_ B)).lt _ _ _) ?_
          (fun _ _ h => .inr h)
        · rw [hl]
          exact List.sublist_append_left _ _
        · rintro _ s' ⟨hf', htable⟩
          have hmem : y.2 ∈ s₁.entries := by
            rw [hsame.entries]
            exact hi.linked.mem y hy
          obtain ⟨h₁, h₂⟩ := htable y.2 hmem
          refine ⟨⟨.block k :: s.names, fun n hn => ?_⟩, y.2, h₁, ?_⟩
          · by_cases hnk : n = .block k
            · simp [hnk]
            · rw [hf', hfiles, Function.update_of_ne hnk, files_purged] at hn
              refine List.mem_cons_of_mem _ ((hi.file n).1 fun hnone => hn ?_)
              rw [hnone, ite_self]
          · rw [h₂, hsame.entry, hf', hfiles]
            exact (Function.update_of_ne hname _ _).trans hgone
    · rintro _ _ ⟨l, B, hl, hyB, rfl⟩
      refine .inl ⟨⟨s.names, fun n hn => (hi.file n).1 fun hnone => hn ?_⟩, y.2, ?_, ?_⟩
      · rw [files_purged, hnone, ite_self]
      · exact hi.linked.mem y (by simp [hl, hyB])
      · exact (files_purged ..).trans (if_pos (List.mem_map.2 ⟨y, hyB, rfl⟩))
  unfold FSBS.stepEvent
  cases hm : FSBS.step now (.put k data) s with
  | ok ev s' => exact .inl (wp_ok hput hm)
  | error e s' =>
      rcases wp_error hput hm with hlost | ⟨what, rfl⟩
      · exact .inl hlost
      · exact .inr fun hdef => hdef what s' hm

/-! ### When a store comes back as it was -/

/-- A run is a life without openings. -/
theorem RunWith.reached {P : FSBlockStore Key → Op Key → Prop} {size : ℕ} {s : FSBlockStore Key}
    {t : ℕ} {h : List (Event Key)} (hr : RunWith P size s t h) : ReachedWith P size s := by
  induction hr with
  | create => exact .create
  | step now op _ _ hP ih => exact ih.step now op hP

theorem RunWith.mono {P Q : FSBlockStore Key → Op Key → Prop} (hPQ : ∀ s op, P s op → Q s op)
    {size : ℕ} {s : FSBlockStore Key} {t : ℕ} {h : List (Event Key)} (hr : RunWith P size s t h) :
    RunWith Q size s t h := by
  induction hr with
  | create => exact .create
  | step now op _ ht hP ih => exact ih.step now op ht (hPQ _ _ hP)

/-- The files are those of the list, so that only its names can be of the second of the mark. -/
theorem IndexInv.apart_of_names {s : FSBlockStore Key} (hi : IndexInv s)
    (h : ∀ n ∈ s.names, n ≠ .mark → mtimeOf s.files n ≠ mtimeOf s.files .mark) : s.Apart := by
  intro g hg n hne f hf
  have hn : n ∈ s.names := (hi.file n).1 (by simp [Option.mem_def.1 hf])
  have := h n hn hne
  rwa [mtimeOf_eq hf, mtimeOf_eq hg] at this

/-- **When a store comes back as it was.**  In every run in which no put has purged, the store comes
back as it was exactly if the recorded sizes are those of the files, the counters are the sums over
the list, and no other file is of the second of the mark.  The first two hold when no cycle is open
and every step has met the condition under which the accounting is right.  The next put that purges
makes a reopening lose an entry. -/
theorem reopens_iff (size : ℕ) (s : FSBlockStore Key) (t : ℕ) (h : List (Event Key))
    (hr : RunWith Keeps size s t h) :
    (Reopens size s ↔ s.Sized ∧ s.Counted ∧ s.Apart) ∧
      (RunWith Tallies size s t h → s.NoCycle → (Reopens size s ↔ s.Apart)) ∧
      ∀ now k data, s.Purges k data → Defined now s (.put k data) →
        ¬ Reopens size (stepEvent now (.put k data) s).2 := by
  have hi := stampInv_run hr
  have hiff : Reopens size s ↔ s.Sized ∧ s.Counted ∧ s.Apart := by
    rw [hi.inOrder.reopens_iff_apart]
    constructor
    · exact fun ⟨hz, hc, ha⟩ => ⟨hz, (hi.index.adds_iff hz).1 hc, ha⟩
    · exact fun ⟨hz, hc, ha⟩ => ⟨hz, (hi.index.adds_iff hz).2 hc, ha⟩
  refine ⟨hiff, fun ht hno => ?_, fun now k data hp hdef => ?_⟩
  · have hspace := spaceInv_reached ht.reached
    have hz : s.Sized := by
      intro r hrt f hf
      obtain ⟨e, he, rfl⟩ := List.mem_map.1 hrt
      obtain ⟨x, hx, rfl⟩ := List.mem_map.1 (hi.index.total e he)
      obtain ⟨f', hf', hz⟩ := hspace.sizes _ (List.mem_map.2 ⟨x, hx, rfl⟩)
      obtain rfl : f' = f := Option.some_inj.1 (hf'.symm.trans hf)
      exact hz
    exact hiff.trans ⟨fun ⟨_, _, ha⟩ => ha, fun ha => ⟨hz, hspace.counted hno, ha⟩⟩
  · rcases hi.index.lost_of_purges now hp with hlost | hundef
    · exact hlost.not_reopens size
    · exact absurd hdef hundef

/-- A store of 30 bytes takes two blocks, and a cycle keeps the first; the cycle starts and goes on in
seconds of their own. -/
theorem reopens_after_cycle :
    ∃ (s : FSBlockStore Key) (h : List (Event Key)), RunWith Keeps 30 s 2 h ∧
      s.names = [.block (key 0), .mark, .block (key 1)] ∧ Reopens 30 s := by
  have r₀ : RunWith Keeps 30 (bsCreate 30 : FSBlockStore Key) 0 [] := .create
  have r₁ := r₀.step 0 (.put (key 0) (List.replicate 10 7)) (by decide) (by decide)
  have r₂ := r₁.step 0 (.put (key 1) (List.replicate 10 7)) (by decide) (by decide)
  have r₃ := r₂.step 1 (.refreshStart 1) (by decide) (by decide)
  have r₄ := r₃.step 2 (.refreshBlock 1 (key 0)) (by decide) (by decide)
  have r₅ := r₄.step 2 (.refreshFinish 1) (by decide) (by decide)
  have t₀ : RunWith Tallies 30 (bsCreate 30 : FSBlockStore Key) 0 [] := .create
  have t₁ := t₀.step 0 (.put (key 0) (List.replicate 10 7)) (by decide)
    (.inr ⟨by decide, by decide, .inr ⟨by decide, by decide⟩⟩)
  have t₂ := t₁.step 0 (.put (key 1) (List.replicate 10 7)) (by decide)
    (.inr ⟨by decide, by decide, .inr ⟨by decide, by decide⟩⟩)
  have t₃ := t₂.step 1 (.refreshStart 1) (by decide) (fun _ => rfl)
  have t₄ := t₃.step 2 (.refreshBlock 1 (key 0)) (by decide) trivial
  have t₅ := t₄.step 2 (.refreshFinish 1) (by decide) trivial
  have hno := (spaceInv_reached t₅.reached).noCycle (L := [.block (key 0), .mark, .block (key 1)]) (by decide)
    (by simp)
  refine ⟨_, _, r₅, by decide, ((reopens_iff 30 _ 2 _ r₅).2.1 t₅ hno).2 ?_⟩
  exact (stampInv_run r₅).index.apart_of_names (by decide)

/-- **A store does not come back as it was** if a cycle starts in the second in which it refreshes a
block. -/
theorem not_reopens_same_second :
    ¬ ∀ (size : ℕ) (s : FSBlockStore Key) (t : ℕ) (h : List (Event Key)), Run size s t h →
      Reopens size s := by
  intro hall
  have r₀ : RunWith Keeps 30 (bsCreate 30 : FSBlockStore Key) 0 [] := .create
  have r₁ := r₀.step 0 (.put (key 0) (List.replicate 10 7)) (by decide) (by decide)
  have r₂ := r₁.step 1 (.refreshStart 1) (by decide) (by decide)
  have r₃ := r₂.step 1 (.refreshBlock 1 (key 0)) (by decide) (by decide)
  have r₄ := r₃.step 1 (.refreshFinish 1) (by decide) (by decide)
  have hre := hall 30 _ 1 _ (r₄.mono fun _ _ _ => trivial)
  obtain ⟨-, -, hapart⟩ := ((stampInv_run r₄).inOrder.reopens_iff_apart 30).1 hre
  exact hapart ⟨[], 1⟩ rfl (.block (key 0)) (by simp) ⟨List.replicate 10 7, 1⟩ rfl rfl

end FSBS

end Utopfs
