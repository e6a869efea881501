/-
**Opening the directory block store, and its index.**

`bs_open` rebuilds the index from the files: it makes an entry for each file of `BLOCKS`, sorts the
entries by the time stamps of the files and unrolls them into the LRU list, newest first.  A store
lives through any number of openings, and an opening forgets whatever the index had become.

The index is consistent when the table and the list hold the same entries, each entry knows its
place in the list, and the names are those of the files.  Every routine keeps it so but one:
`purge_uncommitted` takes an entry out of the list and leaves it in the table.  The next put of that
key then erases through the iterator of a node that is gone.

Main definitions:

* `FSBS.bsOpen`, `FSBS.Listing` — the opening of a store whose directory is listed in some order;
* `FSBS.Reached`, `FSBS.ReachedWith` — the states of a store over its life, and those in which all
  steps since the last opening meet a condition;
* `FSBS.IndexOk`, `FSBS.Defined` — the consistency of the index, and a step that erases through no
  invalid iterator;
* `FSBS.FSBlockStore.Purges`, `FSBS.Keeps` — a put that purges, and the condition that none does.

Main results:

* `FSBS.touchEntry_eq`, `FSBS.bsRefreshFinish_eq` — the two routines as functions of the state;
* `FSBS.indexOk_of_keeps` — the index is consistent as long as no put purges.
-/

import Mathlib.Data.List.Nodup
import Mathlib.Tactic
import Utopfs.FSBlockStoreIndex

set_option relaxedAutoImplicit false
set_option autoImplicit false

namespace Utopfs

namespace FSBS

open Prog

/-! ### Opening a store -/

/-- `ets.insert(eh)`: behind the entries that are not newer. -/
def etsInsert (e : Entry Key) : List (Entry Key) → List (Entry Key)
  | [] => [e]
  | x :: l => if e.tstamp < x.tstamp then e :: x :: l else x :: etsInsert e l

/-- The entry that `bs_open` makes for a file. -/
def statEntry (files : Name Key → Option File) (n : Name Key) : Except Exn (Entry Key) :=
  match files n with
  | some f => .ok ⟨n, f.mtime, f.data.length, none⟩
  | none => .error (.internalError "trouble w/ stat")

/-- The store with the entries `l` in its table and, in this order, in its LRU list.  The counters
are the sums over the list, and the mark is the first entry of that name. -/
def unrolled (size : ℤ) (files : Name Key → Option File) (l : List (Entry Key)) :
    FSBlockStore Key where
  size := size
  committed := (sumLru l).1
  uncommitted := (sumLru l).2
  files := files
  entry := fun e => { l.getD e ⟨.mark, 0, 0, none⟩ with listpos := some e }
  nentry := l.length
  entries := List.range l.length
  lru := (List.range l.length).map fun e => (e, e)
  npos := l.length
  mark := l.findIdx? fun e => e.name = .mark

/-- `bs_open` of a store whose `SIZE` file says `size`, when `BLOCKS` is listed as `dir`. -/
def bsOpen (size : ℤ) (files : Name Key → Option File) (dir : List (Name Key)) :
    Except Exn (FSBlockStore Key) := do
  let es ← dir.mapM (statEntry files)
  -- Unroll the ordered set into the LRU list from recent to oldest.
  return unrolled size files (es.foldl (fun ets e => etsInsert e ets) []).reverse

/-- A listing of the directory names each file once, in any order. -/
structure Listing (files : Name Key → Option File) (dir : List (Name Key)) : Prop where
  nodup : dir.Nodup
  mem : ∀ n, n ∈ dir ↔ files n ≠ none

/-- The states of a store over its life: it is created, it takes steps at any times, and it is
closed and opened again. -/
inductive Reached (size : ℕ) : FSBlockStore Key → Prop
  | create : Reached size (bsCreate size)
  | step {s : FSBlockStore Key} (now : ℕ) (op : Op Key) :
      Reached size s → Reached size (stepEvent now op s).2
  | reopen {s s' : FSBlockStore Key} (dir : List (Name Key)) :
      Reached size s → Listing s.files dir → bsOpen size s.files dir = .ok s' → Reached size s'

/-- The states in which every step since the creation or the last opening met the condition `P` on
the state before the step and the operation. -/
inductive ReachedWith (P : FSBlockStore Key → Op Key → Prop) (size : ℕ) : FSBlockStore Key → Prop
  | create : ReachedWith P size (bsCreate size)
  | reopen {s s' : FSBlockStore Key} (dir : List (Name Key)) :
      Reached size s → Listing s.files dir → bsOpen size s.files dir = .ok s' →
      ReachedWith P size s'
  | step {s : FSBlockStore Key} (now : ℕ) (op : Op Key) :
      ReachedWith P size s → P s op → ReachedWith P size (stepEvent now op s).2

/-- What holds of the store however a step ends holds after the step. -/
theorem stepEvent_of_wp {I : FSBlockStore Key → Prop} {now : ℕ} {op : Op Key} {s : FSBlockStore Key}
    (h : wp (step now op) (fun _ s' => I s') (fun _ s' => I s') s) : I (stepEvent now op s).2 := by
  unfold stepEvent
  cases hm : step now op s with
  | ok ev s' =>
      have hok := wp_ok h hm
      exact hok
  | error e s' =>
      have herr := wp_error h hm
      exact herr

/-- A condition that a step keeps and an opening establishes holds along the life of a store. -/
theorem ReachedWith.induction {P : FSBlockStore Key → Op Key → Prop} {size : ℕ}
    {I : FSBlockStore Key → Prop} (hcreate : I (bsCreate size))
    (hopen : ∀ s s' dir, Reached size s → Listing s.files dir → bsOpen size s.files dir = .ok s' →
      I s')
    (hstep : ∀ s now op, I s → P s op → I (stepEvent now op s).2) {s : FSBlockStore Key}
    (h : ReachedWith P size s) : I s := by
  induction h with
  | create => exact hcreate
  | reopen dir hr hl ho => exact hopen _ _ dir hr hl ho
  | step now op _ hP ih => exact hstep _ now op ih hP

/-! ### What an opening makes of the files -/

theorem etsInsert_perm (e : Entry Key) (l : List (Entry Key)) : (etsInsert e l).Perm (e :: l) := by
  induction l with
  | nil => exact .refl _
  | cons x l ih =>
      unfold etsInsert
      split
      · exact .refl _
      · exact (ih.cons x).trans (.swap e x l)

theorem ets_perm (es ets : List (Entry Key)) :
    (es.foldl (fun ets e => etsInsert e ets) ets).Perm (es ++ ets) := by
  induction es generalizing ets with
  | nil => exact .refl _
  | cons e es ih =>
      refine (ih (etsInsert e ets)).trans ?_
      exact ((etsInsert_perm e ets).append_left es).trans List.perm_middle

theorem mapM_statEntry {files : Name Key → Option File} {dir : List (Name Key)}
    {es : List (Entry Key)} (h : dir.mapM (statEntry files) = .ok es) :
    es.map Entry.name = dir ∧
      ∀ e ∈ es, ∃ f, files e.name = some f ∧ e.tstamp = f.mtime ∧ e.size = f.data.length := by
  induction dir generalizing es with
  | nil =>
      obtain rfl : [] = es := by simpa [pure, Except.pure] using h
      simp
  | cons n dir ih =>
      rw [List.mapM_cons] at h
      cases hf : files n with
      | none => simp [statEntry, hf, bind, Except.bind] at h
      | some f =>
          cases hm : dir.mapM (statEntry files) with
          | error e => simp [statEntry, hf, hm, bind, Except.bind] at h
          | ok es' =>
              obtain ⟨hnames, hfile⟩ := ih hm
              obtain rfl : ⟨n, f.mtime, f.data.length, none⟩ :: es' = es := by
                simpa [statEntry, hf, hm, bind, Except.bind, pure, Except.pure] using h
              refine ⟨by simp [hnames], fun e he => ?_⟩
              rcases List.mem_cons.1 he with rfl | he
              · exact ⟨f, hf, rfl, rfl⟩
              · exact hfile e he

/-- **An opening unrolls a list with one entry for each file**, which carries the file's time stamp
and size. -/
theorem bsOpen_spec {size : ℤ} {files : Name Key → Option File} {dir : List (Name Key)}
    {s : FSBlockStore Key} (hl : Listing files dir) (h : bsOpen size files dir = .ok s) :
    ∃ l : List (Entry Key), s = unrolled size files l ∧ (l.map Entry.name).Nodup ∧
      (∀ n, n ∈ l.map Entry.name ↔ files n ≠ none) ∧
      ∀ e ∈ l, ∃ f, files e.name = some f ∧ e.tstamp = f.mtime ∧ e.size = f.data.length := by
  unfold bsOpen at h
  cases hm : dir.mapM (statEntry files) with
  | error e => simp [hm, bind, Except.bind] at h
  | ok es =>
      obtain ⟨hnames, hfile⟩ := mapM_statEntry hm
      have hs : unrolled size files (es.foldl (fun ets e => etsInsert e ets) []).reverse = s := by
        simpa [hm, bind, Except.bind, pure, Except.pure] using h
      have hperm : (es.foldl (fun ets e => etsInsert e ets) []).reverse.Perm es :=
        (List.reverse_perm _).trans (by simpa using ets_perm es [])
      have hpn : ((es.foldl (fun ets e => etsInsert e ets) []).reverse.map Entry.name).Perm dir :=
        hnames ▸ hperm.map _
      refine ⟨_, hs.symm, hpn.nodup_iff.2 hl.nodup, fun n => ?_, fun e he => ?_⟩
      · rw [hpn.mem_iff, hl.mem]
      · exact hfile e (hperm.mem_iff.1 he)

/-! ### The routines as functions of the state -/

/-- The store after `n` has been touched. -/
def FSBlockStore.touched (s : FSBlockStore Key) (n : Name Key) (mtime size : ℕ) :
    FSBlockStore Key :=
  match s.find n with
  | none => (s.newEntry ⟨n, mtime, size, none⟩).pushed s.nentry
  | some e =>
      ({ s with lru := s.lru.filter fun x => (s.entry x.2).name ≠ n }.setEntry e
        { s.entry e with tstamp := mtime }).pushed e

theorem lruErase_apply {s : FSBlockStore Key} {p : ℕ} (hp : p ∈ s.lru.map Prod.fst) :
    lruErase (some p) s = .ok () { s with lru := s.lru.filter fun x => x.1 ≠ p } := by
  simp only [lruErase, bind_apply, get_apply, if_pos hp, set_apply]

theorem touchEntry_eq {s : FSBlockStore Key} (h : Linked s) (n : Name Key) (mtime size : ℕ)
    (hn : (s.find n).isSome → n ∈ s.names) :
    touchEntry n mtime size s = .ok () (s.touched n mtime size) := by
  simp only [touchEntry, bind_apply, get_apply]
  cases hf : s.find n with
  | none => simp only [bind_apply, set_apply, FSBlockStore.touched, hf]; rfl
  | some e =>
      obtain ⟨p, hp⟩ := h.of_find hf (hn (by simp [hf]))
      have hname := (find_eq_some hf).2
      have hmem : p ∈ s.lru.map Prod.fst := List.mem_map.2 ⟨_, hp, rfl⟩
      simp only [bind_apply, h.listpos _ hp, lruErase_apply hmem, modify_apply,
        FSBlockStore.touched, hf]
      rw [h.filter_node hp, hname]
      rfl

/-- The store after the token `r` of cycle `rid`, with the file `f`, has become the mark. -/
def FSBlockStore.finished (s : FSBlockStore Key) (rid r : ℕ) (f : File) : FSBlockStore Key :=
  let entry := Function.update s.entry r { s.entry r with name := .mark }
  let lru := s.lru.filter fun x => (s.entry x.2).name ≠ .mark
  { s with
    files := Function.update (Function.update s.files (.rid rid) none) .mark (some f)
    entry := entry
    entries := s.entries.filter fun e => (s.entry e).name ≠ .mark
    lru := lru
    mark := some r
    committed := (sumLru (lru.map fun x => entry x.2)).1
    uncommitted := (sumLru (lru.map fun x => entry x.2)).2 }

/-- The store without the entry of the mark. -/
def FSBlockStore.unmarked (s : FSBlockStore Key) : FSBlockStore Key :=
  { s with
    entries := s.entries.filter fun e => (s.entry e).name ≠ .mark
    lru := s.lru.filter fun x => (s.entry x.2).name ≠ .mark }

theorem removeMark_eq {s : FSBlockStore Key} (h : Linked s)
    (hmark : (s.find .mark).isSome → .mark ∈ s.names) :
    removeMark s = .ok () s.unmarked := by
  simp only [removeMark, bind_apply, get_apply]
  cases hm : s.find .mark with
  | none =>
      have hno := find_eq_none hm
      have h₁ : s.entries.filter (fun e => decide ((s.entry e).name ≠ .mark)) = s.entries :=
        List.filter_eq_self.2 fun e he => by simpa using hno e he
      have h₂ : s.lru.filter (fun x => decide ((s.entry x.2).name ≠ .mark)) = s.lru :=
        List.filter_eq_self.2 fun x hx => by simpa using hno _ (h.mem x hx)
      simp only [FSBlockStore.unmarked, h₁, h₂, pure_apply]
  | some m =>
      obtain ⟨p, hp⟩ := h.of_find hm (hmark (by simp [hm]))
      have hname := (find_eq_some hm).2
      have hmem : p ∈ { s with entries := s.entries.erase m }.lru.map Prod.fst :=
        List.mem_map.2 ⟨_, hp, rfl⟩
      have herase : s.entries.erase m = s.entries.filter fun e => (s.entry e).name ≠ .mark := by
        rw [h.nodup.erase_eq_filter]
        refine List.filter_congr fun e he => ?_
        have : e = m ↔ (s.entry e).name = .mark :=
          ⟨fun hem => hem ▸ hname, fun hen => h.nameInj e he m (h.mem _ hp) (hen.trans hname.symm)⟩
        by_cases hem : e = m <;> simp_all
      simp only [bind_apply, set_apply, h.listpos _ hp, lruErase_apply hmem, FSBlockStore.unmarked]
      rw [h.filter_node hp, hname, herase]

/-- **Finishing a cycle, as a function of the state.** -/
theorem bsRefreshFinish_eq {s : FSBlockStore Key} (h : Linked s) {rid r : ℕ} {f : File}
    (hf : s.files (.rid rid) = some f) (hr : s.find (.rid rid) = some r)
    (hmark : (s.find .mark).isSome → .mark ∈ s.names) :
    bsRefreshFinish rid s = .ok () (s.finished rid r f) := by
  set s₁ := (s.setFile (.rid rid) none).setFile .mark (some f) with hs₁
  have h₁ : Linked s₁ := (sameIndex_setFile _ _ _).linked ((sameIndex_setFile _ _ _).linked h)
  have hr₁ : s₁.unmarked.find (.rid rid) = some r := by
    refine Eq.trans (List.find?_filter ..) (Eq.trans ?_ hr)
    refine congrArg (fun p => s.entries.find? p) (funext fun e => ?_)
    -- The token is not the mark, so the search does not notice that the mark is gone.
    have hname : s₁.unmarked.entry e = s.entry e := rfl
    rw [hname]
    by_cases he : (s.entry e).name = .rid rid <;> simp [he, hs₁, FSBlockStore.setFile]
  simp only [bsRefreshFinish, bind_apply, get_apply, hf, set_apply]
  rw [← hs₁, removeMark_eq h₁ hmark]
  simp only [renameToken, bind_apply, get_apply, hr₁, set_apply, addUp, modify_apply]
  rfl

/-! ### The consistency of the index -/

/-- **A consistent index.**  The table and the list hold the same entries, each once; every entry's
iterator is its node of the list; `m_mark` is null or the entry named `MARK` in both; and the names
in the table are those of the files. -/
structure IndexOk (s : FSBlockStore Key) : Prop where
  entries : s.entries.Nodup
  lru : (s.lru.map Prod.snd).Nodup
  same : ∀ e, e ∈ s.entries ↔ e ∈ s.lru.map Prod.snd
  nodes : (s.lru.map Prod.fst).Nodup
  listpos : ∀ x ∈ s.lru, (s.entry x.2).listpos = some x.1
  names : ∀ e ∈ s.entries, ∀ e' ∈ s.entries, (s.entry e).name = (s.entry e').name → e = e'
  mark : ∀ m, s.mark = some m →
    m ∈ s.entries ∧ m ∈ s.lru.map Prod.snd ∧ (s.entry m).name = .mark
  files : ∀ n, (∃ e ∈ s.entries, (s.entry e).name = n) ↔ s.files n ≠ none

/-- A step that erases through no invalid iterator. -/
def Defined (now : ℕ) (s : FSBlockStore Key) (op : Op Key) : Prop :=
  ∀ what s', step now op s ≠ .error (.undefined what) s'

/-- The purge loop of a put drops an entry: the block does not fit by the counters, there is a mark,
and the oldest entry is not newer than the mark. -/
def FSBlockStore.Purges (s : FSBlockStore Key) (k : Key) (data : List UInt8) : Prop :=
  ¬ s.size - s.committed + s.prevcommitted k < data.length ∧
    0 < s.excess (s.prevcommitted k) data.length ∧
    ∃ m ∈ s.mark, ∃ y ∈ s.lru.getLast?, (s.entry y.2).tstamp ≤ (s.entry m).tstamp

/-- The condition on a step: a put purges nothing. -/
def Keeps (s : FSBlockStore Key) : Op Key → Prop
  | .put k data => ¬ s.Purges k data
  | _ => True

instance Keeps.decidable (s : FSBlockStore Key) : DecidablePred (Keeps s)
  | .put _ _ => inferInstanceAs (Decidable (¬ (¬ _ < _ ∧ _ < _ ∧ ∃ _ ∈ _, ∃ _ ∈ _, _ ≤ _)))
  | .refreshStart _ => .isTrue trivial
  | .refreshBlock _ _ => .isTrue trivial
  | .refreshFinish _ => .isTrue trivial

/-- The consistency of the index together with what the allocation of entries and nodes needs. -/
structure IndexInv (s : FSBlockStore Key) : Prop where
  linked : Linked s
  total : ∀ e ∈ s.entries, e ∈ s.lru.map Prod.snd
  mark : ∀ m, s.mark = some m → m ∈ s.entries ∧ (s.entry m).name = .mark
  file : ∀ n, s.files n ≠ none ↔ n ∈ s.names

/-- A name in the table is in the list. -/
theorem IndexInv.mem_names {s : FSBlockStore Key} (hi : IndexInv s) {n : Name Key}
    (hn : (s.find n).isSome) : n ∈ s.names := by
  obtain ⟨e, he, hen⟩ := find_isSome_iff.1 hn
  obtain ⟨x, hx, rfl⟩ := List.mem_map.1 (hi.total e he)
  exact FSBS.mem_names.2 ⟨x, hx, hen⟩

theorem IndexInv.indexOk {s : FSBlockStore Key} (hi : IndexInv s) : IndexOk s where
  entries := hi.linked.nodup
  lru := by
    refine List.Nodup.map_on (fun x hx y hy hxy => hi.linked.handle_inj hx hy hxy) ?_
    exact List.Nodup.of_map _ hi.linked.posNodup
  same e := by
    refine ⟨hi.total e, fun he => ?_⟩
    obtain ⟨x, hx, rfl⟩ := List.mem_map.1 he
    exact hi.linked.mem x hx
  nodes := hi.linked.posNodup
  listpos := hi.linked.listpos
  names := hi.linked.nameInj
  mark m hm := ⟨(hi.mark m hm).1, hi.total m (hi.mark m hm).1, (hi.mark m hm).2⟩
  files n := by
    rw [hi.file, ← find_isSome_iff]
    constructor
    · exact hi.mem_names
    · intro hn
      obtain ⟨x, hx, rfl⟩ := FSBS.mem_names.1 hn
      exact find_isSome_iff.2 ⟨_, hi.linked.mem x hx, rfl⟩

theorem indexInv_bsCreate (size : ℕ) : IndexInv (bsCreate size : FSBlockStore Key) where
  linked := linked_bsCreate size
  total := by simp [bsCreate]
  mark := by simp [bsCreate]
  file := by simp [bsCreate, FSBlockStore.names]

/-- The entry of a handle of an unrolled list. -/
theorem unrolled_entry (size : ℤ) (files : Name Key → Option File) {l : List (Entry Key)} {e : ℕ}
    (he : e < l.length) :
    (unrolled size files l).entry e = { l.get ⟨e, he⟩ with listpos := some e } := by
  simp [unrolled, List.getD_eq_getElem?_getD, List.getElem?_eq_getElem he]

theorem names_unrolled (size : ℤ) (files : Name Key → Option File) (l : List (Entry Key)) :
    (unrolled size files l).names = l.map Entry.name := by
  refine List.ext_getElem (by simp [unrolled, FSBlockStore.names]) fun i h₁ h₂ => ?_
  have hi : i < l.length := by simpa using h₂
  have hx : (unrolled size files l).lru[i]? = some (i, i) := by
    simp [unrolled, hi]
  have := unrolled_entry size files hi
  simp only [FSBlockStore.names, List.getElem_map]
  rw [(List.getElem_eq_iff _).2 hx, this]
  rfl

/-- An opened store has a consistent index. -/
theorem indexInv_unrolled (size : ℤ) {files : Name Key → Option File} {l : List (Entry Key)}
    (hnd : (l.map Entry.name).Nodup) (hmem : ∀ n, n ∈ l.map Entry.name ↔ files n ≠ none) :
    IndexInv (unrolled size files l) := by
  have hname : ∀ e, (he : e < l.length) →
      ((unrolled size files l).entry e).name = (l.get ⟨e, he⟩).name := by
    intro e he
    rw [unrolled_entry _ _ he]
  have hinj : ∀ e, e < l.length → ∀ e', e' < l.length →
      ((unrolled size files l).entry e).name = ((unrolled size files l).entry e').name →
      e = e' := by
    intro e he e' he' heq
    rw [hname e he, hname e' he'] at heq
    have h := List.nodup_iff_injective_get.1 hnd
    have := @h ⟨e, by simpa using he⟩ ⟨e', by simpa using he'⟩ (by simpa using heq)
    simpa using this
  refine ⟨⟨?_, ?_, ?_, ?_, ?_, ?_, ?_⟩, ?_, ?_, ?_⟩
  · simp only [unrolled, List.map_map]
    exact (List.nodup_range).map fun _ _ h => h
  · simp [unrolled]
  · simp [unrolled]
  · simp [unrolled]
  · simp [unrolled]
  · exact List.nodup_range
  · intro e he e' he' heq
    exact hinj e (by simpa [unrolled] using he) e' (by simpa [unrolled] using he') heq
  · simp [unrolled]
  · intro m hm
    obtain ⟨hlt, hp, -⟩ := List.findIdx?_eq_some_iff_getElem.1 hm
    refine ⟨by simpa [unrolled] using hlt, ?_⟩
    rw [hname m hlt]
    simpa using hp
  · intro n
    rw [names_unrolled, hmem]
    rfl

/-! ### One lemma for each operation -/

/-- Touching keeps the entries of the table, with their names. -/
theorem touched_table (s : FSBlockStore Key) (n : Name Key) (mtime size : ℕ) {e : ℕ}
    (hlt : ∀ e ∈ s.entries, e < s.nentry) (he : e ∈ s.entries) :
    e ∈ (s.touched n mtime size).entries ∧
      ((s.touched n mtime size).entry e).name = (s.entry e).name := by
  unfold FSBlockStore.touched
  cases hf : s.find n with
  | none =>
      refine ⟨List.mem_cons_of_mem _ he, (pushed_name _ _ _).trans ?_⟩
      simp [FSBlockStore.newEntry, FSBlockStore.setEntry, Function.update_of_ne (hlt e he).ne]
  | some e' =>
      refine ⟨he, (pushed_name _ _ _).trans ?_⟩
      by_cases hee : e = e'
      · subst hee; simp [FSBlockStore.setEntry]
      · simp [FSBlockStore.setEntry, Function.update_of_ne hee]

/-- The store that a touch is given: the index is that of `s`, and the file of the name is there. -/
theorem IndexInv.touchEntry {s s₁ : FSBlockStore Key} (hi : IndexInv s) (hs : SameIndex s s₁)
    (hm : s₁.mark = s.mark) {n : Name Key} {f : File}
    (hfiles : s₁.files = Function.update s.files n (some f)) (mtime size : ℕ) :
    wp (FSBS.touchEntry n mtime size) (fun _ s' => IndexInv s') (fun _ _ => False) s₁ := by
  have hl := hs.linked hi.linked
  have hhave : (s₁.find n).isSome → n ∈ s₁.names := by
    rw [hs.find, hs.names]
    exact hi.mem_names
  have hspec := touchEntry_spec hl n mtime size hhave
  have heq := touchEntry_eq hl n mtime size hhave
  have ht := wp_ok hspec heq
  simp only [wp, heq]
  refine ⟨ht.linked, ?_, ?_, ht.file_iff hs.names hfiles hi.file⟩
  · intro e he
    set s' := s₁.touched n mtime size
    have hsome : (s'.find (s'.entry e).name).isSome := find_isSome_iff.2 ⟨e, he, rfl⟩
    have hin : (s'.entry e).name ∈ s'.names := by
      rw [ht.mem_names, or_iff_not_imp_left]
      intro hne
      have := ht.table _ hne hsome
      rw [hs.names]
      rw [hs.find] at this
      exact hi.mem_names this
    obtain ⟨x, hx, hxn⟩ := FSBS.mem_names.1 hin
    have := ht.linked.nameInj _ (ht.linked.mem x hx) e he hxn
    exact List.mem_map.2 ⟨x, hx, this⟩
  · intro m hm'
    rw [ht.mark, hm] at hm'
    obtain ⟨hme, hmn⟩ := hi.mark m hm'
    have hme₁ : m ∈ s₁.entries := hs.entries ▸ hme
    obtain ⟨h₁, h₂⟩ := touched_table s₁ n mtime size hl.lt hme₁
    exact ⟨h₁, by rw [h₂, hs.entry, hmn]⟩

/-- A put whose loop has nothing to purge leaves the store as it is, or gives up. -/
theorem purgeLoop_keeps {s : FSBlockStore Key} {k : Key} {data : List UInt8}
    (hspace : ¬ s.size - s.committed + s.prevcommitted k < data.length)
    (hk : ¬ s.Purges k data) (fuel : ℕ) :
    wp (purgeLoop (s.prevcommitted k) data.length fuel) (fun _ s' => s' = s)
      (fun e s' => s' = s ∧ ∀ what, e ≠ .undefined what) s := by
  cases fuel with
  | zero => rfl
  | succ fuel =>
      simp only [purgeLoop, wp_bind, wp_get]
      split
      case isFalse => rfl
      case isTrue hpos =>
        have hnew : ∀ m ∈ s.mark, ∀ y ∈ s.lru.getLast?, (s.entry m).tstamp < (s.entry y.2).tstamp := by
          intro m hm y hy
          by_contra hle
          exact hk ⟨hspace, hpos, m, hm, y, hy, not_lt.1 hle⟩
        rw [wp_bind]
        simp only [purgeUncommitted, wp_bind, wp_get]
        cases hy : s.lru.getLast? with
        | none => exact ⟨rfl, by simp⟩
        | some y =>
            cases hm : s.mark with
            | none => exact ⟨rfl, by simp⟩
            | some m =>
                simp only [if_pos (hnew m (by simp [hm]) y (by simp [hy]))]
                exact ⟨rfl, by simp⟩

/-- What an operation of a store with a consistent index ends in. -/
def Ends (e : Exn) (s : FSBlockStore Key) : Prop := IndexInv s ∧ ∀ what, e ≠ .undefined what

theorem IndexInv.bsBlockPut {s : FSBlockStore Key} (hi : IndexInv s) (now : ℕ) {k : Key}
    {data : List UInt8} (hk : ¬ s.Purges k data) :
    wp (FSBS.bsBlockPut now k data) (fun _ s' => IndexInv s') Ends s := by
  simp only [FSBS.bsBlockPut, wp_bind, wp_get]
  split
  case isTrue => exact ⟨hi, by simp⟩
  case isFalse hspace =>
    refine wp_seq (purgeLoop_keeps hspace hk _) ?_ ?_
    · rintro _ _ rfl
      simp only [wp_bind, wp_modify]
      refine wp_mono (hi.touchEntry (sameIndex_booked _ now k data _ _) (booked_mark ..)
        (booked_files ..) now data.length) (fun _ _ h => h) (fun _ _ hF => hF.elim)
    · rintro _ _ ⟨rfl, he⟩
      exact ⟨hi, he⟩

theorem IndexInv.bsRefreshStart {s : FSBlockStore Key} (hi : IndexInv s) (now rid : ℕ) :
    wp (FSBS.bsRefreshStart now rid) (fun _ s' => IndexInv s') Ends s := by
  simp only [FSBS.bsRefreshStart, wp_bind, wp_get]
  split
  case isTrue => exact ⟨hi, by simp⟩
  case isFalse =>
    simp only [wp_bind, wp_set]
    exact wp_mono (hi.touchEntry (sameIndex_setFile s _ _) rfl rfl _ _) (fun _ _ h => h)
      (fun _ _ hF => hF.elim)

theorem IndexInv.bsRefreshBlock {s : FSBlockStore Key} (hi : IndexInv s) (now rid : ℕ) (k : Key) :
    wp (FSBS.bsRefreshBlock now rid k) (fun _ s' => IndexInv s') Ends s := by
  simp only [FSBS.bsRefreshBlock, wp_bind, wp_get]
  split
  case isTrue => exact ⟨hi, by simp⟩
  case isFalse =>
    cases hf : s.files (.block k) with
    | none => exact hi
    | some f =>
        simp only [wp_bind, wp_set]
        exact wp_mono (hi.touchEntry (sameIndex_setFile s _ _) rfl rfl _ _) (fun _ _ h => h)
          (fun _ _ hF => hF.elim)

theorem IndexInv.bsRefreshFinish {s : FSBlockStore Key} (hi : IndexInv s) (rid : ℕ) :
    wp (FSBS.bsRefreshFinish rid) (fun _ s' => IndexInv s') Ends s := by
  cases hf : s.files (.rid rid) with
  | none =>
      simp only [FSBS.bsRefreshFinish, wp_bind, wp_get, hf]
      exact ⟨hi, by simp⟩
  | some f =>
      have hne : s.files (.rid rid) ≠ none := by simp [hf]
      obtain ⟨x, hx, hxn⟩ := FSBS.mem_names.1 ((hi.file _).1 hne)
      have hr : s.find (.rid rid) = some x.2 := hxn ▸ hi.linked.find_mem hx
      have heq := bsRefreshFinish_eq hi.linked hf hr hi.mem_names
      have hfin := wp_ok (bsRefreshFinish_spec hi.linked (fun h => (hi.file _).1 h) hi.mem_names) heq
      simp only [wp, heq]
      refine ⟨hfin.linked, ?_, ?_, hfin.file_iff hne hi.file⟩
      · intro e he
        obtain ⟨he, hen⟩ := List.mem_filter.1 he
        obtain ⟨y, hy, rfl⟩ := List.mem_map.1 (hi.total e he)
        exact List.mem_map.2 ⟨y, List.mem_filter.2 ⟨hy, hen⟩, rfl⟩
      · intro m hm
        obtain rfl : x.2 = m := by simpa [FSBlockStore.finished] using hm
        refine ⟨List.mem_filter.2 ⟨hi.linked.mem x hx, by simp [hxn]⟩, ?_⟩
        simp [FSBlockStore.finished]

/-- One step keeps the index consistent and erases through no invalid iterator, if it purges
nothing. -/
theorem IndexInv.step {s : FSBlockStore Key} (hi : IndexInv s) (now : ℕ) {op : Op Key}
    (hk : Keeps s op) : wp (FSBS.step now op) (fun _ s' => IndexInv s') Ends s := by
  cases op with
  | put k data => exact wp_seq (hi.bsBlockPut now hk) (fun _ _ h => h) (fun _ _ h => h)
  | refreshStart rid => exact wp_seq (hi.bsRefreshStart now rid) (fun _ _ h => h) (fun _ _ h => h)
  | refreshBlock rid k =>
      refine wp_seq (hi.bsRefreshBlock now rid k) ?_ (fun _ _ h => h)
      rintro (_ | _) s' h <;> exact h
  | refreshFinish rid => exact wp_seq (hi.bsRefreshFinish rid) (fun _ _ h => h) (fun _ _ h => h)

theorem IndexInv.stepEvent {s : FSBlockStore Key} (hi : IndexInv s) (now : ℕ) {op : Op Key}
    (hk : Keeps s op) : IndexInv (FSBS.stepEvent now op s).2 ∧ Defined now s op := by
  have hstep := hi.step now hk
  refine ⟨stepEvent_of_wp ?_, fun what s' h => (wp_error hstep h).2 what rfl⟩
  exact wp_mono hstep (fun _ _ h => h) (fun _ _ h => h.1)

/-! ### A put that purges -/

/-- The entry `y` is in the table, its node is gone, and it remembers the node. -/
structure Stranded (y : ℕ × ℕ) (s : FSBlockStore Key) : Prop where
  mem : y.2 ∈ s.entries
  lt : y.2 < s.nentry
  listpos : (s.entry y.2).listpos = some y.1
  node : y.1 ∉ s.lru.map Prod.fst
  handle : y.2 ∉ s.lru.map Prod.snd

theorem Stranded.not_indexOk {y : ℕ × ℕ} {s : FSBlockStore Key} (h : Stranded y s) :
    ¬ IndexOk s :=
  fun hok => h.handle ((hok.same _).1 h.mem)

/-- The list may lose more nodes. -/
theorem Stranded.sublist {y : ℕ × ℕ} {s s' : FSBlockStore Key} (h : Stranded y s)
    (hentries : s'.entries = s.entries) (hentry : s'.entry = s.entry)
    (hnentry : s'.nentry = s.nentry) (hlru : s'.lru.Sublist s.lru) : Stranded y s' where
  mem := hentries ▸ h.mem
  lt := hnentry ▸ h.lt
  listpos := hentry ▸ h.listpos
  node hn := h.node ((hlru.map _).subset hn)
  handle hn := h.handle ((hlru.map _).subset hn)

theorem Stranded.purgeUncommitted {y : ℕ × ℕ} {s : FSBlockStore Key} (h : Stranded y s) :
    wp purgeUncommitted (fun _ s' => Stranded y s') (fun _ s' => Stranded y s') s := by
  simp only [FSBS.purgeUncommitted, wp_bind, wp_get]
  cases hy : s.lru.getLast? with
  | none => exact h
  | some z =>
      cases hm : s.mark with
      | none => exact h
      | some m =>
          simp only
          split
          · exact h
          · simp only [wp_bind, wp_set]
            split <;> exact h.sublist rfl rfl rfl (List.dropLast_sublist _)

theorem Stranded.purgeLoop {y : ℕ × ℕ} (prevcommitted : ℤ) (blksize : ℕ) :
    ∀ (fuel : ℕ) (s : FSBlockStore Key), Stranded y s →
      wp (purgeLoop prevcommitted blksize fuel) (fun _ s' => Stranded y s')
        (fun _ s' => Stranded y s') s := by
  intro fuel
  induction fuel with
  | zero => exact fun s h => h
  | succ fuel ih =>
      intro s h
      simp only [FSBS.purgeLoop, wp_bind, wp_get]
      split
      · exact wp_seq h.purgeUncommitted (fun _ s' h' => ih s' h') (fun _ _ h' => h')
      · exact h

/-- Touching a name leaves the entry where it is, or erases through its iterator. -/
theorem Stranded.touchEntry {y : ℕ × ℕ} {s : FSBlockStore Key} (h : Stranded y s) (n : Name Key)
    (mtime size : ℕ) :
    wp (touchEntry n mtime size) (fun _ s' => ¬ IndexOk s')
      (fun e _ => ∃ what, e = .undefined what) s := by
  simp only [FSBS.touchEntry, wp_bind, wp_get]
  cases hf : s.find n with
  | none =>
      simp only [wp_bind, wp_set, lruPushFront, wp_modify]
      intro hok
      have hin := (hok.same y.2).1 (List.mem_cons_of_mem _ h.mem)
      rcases List.mem_cons.1 hin with heq | hin
      · exact absurd heq h.lt.ne
      · exact h.handle hin
  | some e =>
      simp only [wp_bind, lruErase, wp_get]
      cases hp : (s.entry e).listpos with
      | none => exact ⟨_, rfl⟩
      | some p =>
          simp only
          split
          case isFalse => exact ⟨_, rfl⟩
          case isTrue hmem =>
            simp only [wp_set, wp_bind, wp_modify, lruPushFront]
            intro hok
            have hin := (hok.same y.2).1 h.mem
            rcases List.mem_cons.1 hin with heq | hin
            · -- The entry that was touched is `y` itself, whose node is gone.
              subst heq
              rw [h.listpos] at hp
              obtain rfl : y.1 = p := by simpa using hp
              exact h.node hmem
            · obtain ⟨x, hx, hxy⟩ := List.mem_map.1 hin
              exact h.handle (List.mem_map.2 ⟨x, List.mem_of_mem_filter hx, hxy⟩)

/-- The first purge of a put strands the oldest entry. -/
theorem IndexInv.strands {s : FSBlockStore Key} (hi : IndexInv s) {k : Key} {data : List UInt8}
    (hk : s.Purges k data) (fuel : ℕ) : ∃ y,
      wp (purgeLoop (s.prevcommitted k) data.length (fuel + 1)) (fun _ s' => Stranded y s')
        (fun _ s' => Stranded y s') s := by
  obtain ⟨-, hpos, m, hm, y, hy, hle⟩ := hk
  obtain ⟨l, hl⟩ := List.getLast?_eq_some_iff.1 hy
  have hmem : y ∈ s.lru := by simp [hl]
  have hpos' := hi.linked.posNodup
  have hsnd := hi.indexOk.lru
  rw [hl, List.map_append] at hpos' hsnd
  have hd : Stranded y { s with lru := s.lru.dropLast } := by
    refine ⟨hi.linked.mem y hmem, hi.linked.lt _ (hi.linked.mem y hmem), hi.linked.listpos y hmem,
      ?_, ?_⟩
    · simp only [hl, List.dropLast_concat]
      exact fun h => (List.disjoint_of_nodup_append hpos') h (by simp)
    · simp only [hl, List.dropLast_concat]
      exact fun h => (List.disjoint_of_nodup_append hsnd) h (by simp)
  have hfirst : wp FSBS.purgeUncommitted (fun _ s' => Stranded y s') (fun _ s' => Stranded y s') s := by
    simp only [purgeUncommitted, wp_bind, wp_get, Option.mem_def.1 hy, Option.mem_def.1 hm,
      if_neg (not_lt.2 hle), wp_set]
    split <;> exact hd.sublist rfl rfl rfl (List.Sublist.refl _)
  refine ⟨y, ?_⟩
  simp only [purgeLoop, wp_bind, wp_get, if_pos hpos]
  exact wp_mono hfirst (fun _ s' h => Stranded.purgeLoop _ _ fuel s' h) (fun _ _ h => h)

/-- **A put that purges breaks the index or erases through an invalid iterator.** -/
theorem IndexInv.not_of_purges {s : FSBlockStore Key} (hi : IndexInv s) (now : ℕ) {k : Key}
    {data : List UInt8} (hk : s.Purges k data) :
    ¬ (IndexOk (FSBS.stepEvent now (.put k data) s).2 ∧ Defined now s (.put k data)) := by
  obtain ⟨y, hloop⟩ := hi.strands hk s.lru.length
  have hput : wp (FSBS.step now (.put k data)) (fun _ s' => ¬ IndexOk s')
      (fun e s' => ¬ IndexOk s' ∨ ∃ what, e = .undefined what) s := by
    simp only [FSBS.step, FSBS.bsBlockPut, wp_bind, wp_get, if_neg hk.1]
    refine wp_mono hloop ?_ fun _ _ h => .inl h.not_indexOk
    intro _ s' h
    have hb : Stranded y (s'.booked now k data (s.prevsize k) (s.wascommitted k)) := by
      have hs := sameIndex_booked s' now k data (s.prevsize k) (s.wascommitted k)
      exact h.sublist hs.entries hs.entry hs.nentry (hs.lru ▸ List.Sublist.refl _)
    exact wp_mono (hb.touchEntry (.block k) now data.length) (fun _ _ h => h) (fun _ _ h => .inr h)
  rintro ⟨hok, hdef⟩
  unfold FSBS.stepEvent at hok
  cases hm : FSBS.step now (.put k data) s with
  | ok ev s' =>
      rw [hm] at hok
      exact (wp_ok hput hm) hok
  | error e s' =>
      rw [hm] at hok
      rcases wp_error hput hm with hno | ⟨what, rfl⟩
      · exact hno hok
      · exact hdef what s' hm

/-! ### The life of a store -/

theorem indexInv_reached {size : ℕ} {s : FSBlockStore Key} (hr : ReachedWith Keeps size s) :
    IndexInv s := by
  refine hr.induction (indexInv_bsCreate size) ?_ ?_
  · intro s s' dir _ hl ho
    obtain ⟨l, rfl, hnd, hmem, -⟩ := bsOpen_spec hl ho
    exact indexInv_unrolled _ hnd hmem
  · exact fun s now op hi hk => (hi.stepEvent now hk).1

/-- **The index is consistent as long as nothing is purged.**  In every state in which no put since
the last opening has purged, the index is consistent; and a next step leaves it consistent, and
erases through no invalid iterator, exactly if it purges nothing. -/
theorem indexOk_of_keeps (size : ℕ) (s : FSBlockStore Key) (hr : ReachedWith Keeps size s) :
    IndexOk s ∧ ∀ now op, Keeps s op ↔ IndexOk (stepEvent now op s).2 ∧ Defined now s op := by
  have hi := indexInv_reached hr
  refine ⟨hi.indexOk, fun now op => ⟨fun hk => ?_, fun hafter => ?_⟩⟩
  · exact ⟨(hi.stepEvent now hk).1.indexOk, (hi.stepEvent now hk).2⟩
  · cases op with
    | put k data => exact fun hp => hi.not_of_purges now hp hafter
    | refreshStart rid => trivial
    | refreshBlock rid k => trivial
    | refreshFinish rid => trivial

/-- A store of 30 bytes is created and opened, takes two blocks and finishes a cycle. -/
theorem indexOk_after_cycle :
    ∃ s : FSBlockStore Key, ReachedWith Keeps 30 s ∧ s.names = [.block (key 0), .mark, .block (key 1)] ∧
      IndexOk s ∧ ∀ now op, Keeps s op ↔ IndexOk (stepEvent now op s).2 ∧ Defined now s op := by
  have hl : Listing (bsCreate 30 : FSBlockStore Key).files [] := ⟨.nil, by simp [bsCreate]⟩
  have r₀ : ReachedWith Keeps 30 (unrolled 30 (bsCreate 30 : FSBlockStore Key).files []) :=
    .reopen [] .create hl rfl
  have r₁ := r₀.step 0 (.put (key 0) (List.replicate 10 7)) (by decide)
  have r₂ := r₁.step 0 (.put (key 1) (List.replicate 10 7)) (by decide)
  have r₃ := r₂.step 1 (.refreshStart 1) (by decide)
  have r₄ := r₃.step 1 (.refreshBlock 1 (key 0)) (by decide)
  have r₅ := r₄.step 1 (.refreshFinish 1) (by decide)
  exact ⟨_, r₅, by decide, indexOk_of_keeps 30 _ r₅⟩

/-- **A purge breaks the index.**  A cycle has kept the first of two blocks; a put of 15 bytes then
purges the second, whose entry stays in the table. -/
theorem not_indexOk_after_purge :
    ¬ ∀ (size : ℕ) (s : FSBlockStore Key), Reached size s →
      IndexOk s ∧ ∀ now op, Defined now s op := by
  intro hok
  have r₀ : Reached 30 (bsCreate 30 : FSBlockStore Key) := .create
  have r₁ := r₀.step 0 (.put (key 0) (List.replicate 10 7))
  have r₂ := r₁.step 0 (.put (key 1) (List.replicate 10 7))
  have r₃ := r₂.step 1 (.refreshStart 1)
  have r₄ := r₃.step 1 (.refreshBlock 1 (key 0))
  have r₅ := r₄.step 1 (.refreshFinish 1)
  have r₆ := r₅.step 1 (.put (key 2) (List.replicate 15 7))
  have h := (hok 30 _ r₆).1.same 1
  exact absurd h (by decide)

end FSBS

end Utopfs
