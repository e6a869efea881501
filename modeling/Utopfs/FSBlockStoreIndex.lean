/-
**The index of the directory block store.**

The store of `Utopfs/FSBlockStore.lean` keeps its entries in two collections, and each entry knows
its node of the LRU list.  This module states when the two agree and what each routine does to the
order of the names.

Main definitions:

* `FSBS.FSBlockStore.names` — the names in the LRU list, newest first;
* `FSBS.Linked` — every node of the list carries an entry of the table, which points back at it,
  and no two entries have one name.  Entries that are in the table but not in the list are allowed:
  `purge_uncommitted` leaves such entries behind;
* `FSBS.inFront`, `FSBS.FSBlockStore.behind` — the names in front of a name in the list, and the
  bytes recorded behind it.

Main results, one specification for each routine that moves or drops entries:

* `FSBS.touchEntry_spec` — touching a name moves it to the front and keeps the rest in order;
* `FSBS.purgeLoop_spec` — the purge loop drops a suffix of the list, and no more of it than is
  needed to free the bytes asked for;
* `FSBS.bsRefreshFinish_spec` — finishing a cycle puts the mark in the place of its token.
-/

import Mathlib.Algebra.BigOperators.Group.List.Basic
import Mathlib.Data.List.Nodup
import Mathlib.Tactic
import Utopfs.FSBlockStore

set_option relaxedAutoImplicit false
set_option autoImplicit false

namespace Utopfs

namespace FSBS

open Prog

/-! ### The list and the table agree -/

/-- The names in the LRU list, newest first. -/
def FSBlockStore.names (s : FSBlockStore Key) : List (Name Key) :=
  s.lru.map fun x => (s.entry x.2).name

theorem mem_names {s : FSBlockStore Key} {n : Name Key} :
    n ∈ s.names ↔ ∃ x ∈ s.lru, (s.entry x.2).name = n := by
  simp [FSBlockStore.names]

/-- The list nodes are distinct and older than the next one, every node carries an entry of the
table whose iterator is that node, and the names in the table are distinct. -/
structure Linked (s : FSBlockStore Key) : Prop where
  posNodup : (s.lru.map Prod.fst).Nodup
  posLt : ∀ x ∈ s.lru, x.1 < s.npos
  mem : ∀ x ∈ s.lru, x.2 ∈ s.entries
  listpos : ∀ x ∈ s.lru, (s.entry x.2).listpos = some x.1
  lt : ∀ e ∈ s.entries, e < s.nentry
  nodup : s.entries.Nodup
  nameInj : ∀ e ∈ s.entries, ∀ e' ∈ s.entries, (s.entry e).name = (s.entry e').name → e = e'

theorem linked_bsCreate (size : ℕ) : Linked (bsCreate size : FSBlockStore Key) := by
  constructor <;> simp [bsCreate]

/-- An entry has one node. -/
theorem Linked.handle_inj {s : FSBlockStore Key} (h : Linked s) {x y : ℕ × ℕ} (hx : x ∈ s.lru)
    (hy : y ∈ s.lru) (hxy : x.2 = y.2) : x = y := by
  have h₁ := h.listpos x hx
  have h₂ := h.listpos y hy
  rw [hxy, h₂] at h₁
  exact Prod.ext (by simpa using h₁.symm) hxy

theorem Linked.names_nodup {s : FSBlockStore Key} (h : Linked s) : s.names.Nodup := by
  refine List.Nodup.map_on ?_ (List.Nodup.of_map _ h.posNodup)
  intro x hx y hy hxy
  exact h.handle_inj hx hy (h.nameInj _ (h.mem x hx) _ (h.mem y hy) hxy)

theorem find_eq_some {s : FSBlockStore Key} {n : Name Key} {e : ℕ} (h : s.find n = some e) :
    e ∈ s.entries ∧ (s.entry e).name = n := by
  refine ⟨List.mem_of_find?_eq_some h, ?_⟩
  simpa using List.find?_some h

theorem find_eq_none {s : FSBlockStore Key} {n : Name Key} (h : s.find n = none) :
    ∀ e ∈ s.entries, (s.entry e).name ≠ n := by
  intro e he
  simpa using List.find?_eq_none.1 h e he

theorem find_isSome_iff {s : FSBlockStore Key} {n : Name Key} :
    (s.find n).isSome ↔ ∃ e ∈ s.entries, (s.entry e).name = n := by
  simp [FSBlockStore.find, List.find?_isSome]

theorem Linked.find_mem {s : FSBlockStore Key} (h : Linked s) {x : ℕ × ℕ} (hx : x ∈ s.lru) :
    s.find (s.entry x.2).name = some x.2 := by
  cases hf : s.find (s.entry x.2).name with
  | none => exact absurd rfl (find_eq_none hf _ (h.mem x hx))
  | some e =>
      obtain ⟨he, hn⟩ := find_eq_some hf
      rw [h.nameInj e he _ (h.mem x hx) hn]

/-- A name in the list is found in the table, at an entry that is in the list. -/
theorem Linked.of_find {s : FSBlockStore Key} (h : Linked s) {n : Name Key} {e : ℕ}
    (hf : s.find n = some e) (hn : n ∈ s.names) : ∃ p, (p, e) ∈ s.lru := by
  obtain ⟨x, hx, hxn⟩ := mem_names.1 hn
  have := h.find_mem hx
  rw [hxn, hf] at this
  obtain rfl : e = x.2 := by simpa using this
  exact ⟨x.1, hx⟩

/-- The two stores differ in their files and counters only. -/
structure SameIndex (s s' : FSBlockStore Key) : Prop where
  entry : s'.entry = s.entry
  nentry : s'.nentry = s.nentry
  entries : s'.entries = s.entries
  lru : s'.lru = s.lru
  npos : s'.npos = s.npos

theorem SameIndex.linked {s s' : FSBlockStore Key} (h : SameIndex s s') (hl : Linked s) :
    Linked s' := by
  obtain ⟨h₁, h₂, h₃, h₄, h₅⟩ := h
  constructor <;> simp only [h₁, h₂, h₃, h₄, h₅]
  · exact hl.posNodup
  · exact hl.posLt
  · exact hl.mem
  · exact hl.listpos
  · exact hl.lt
  · exact hl.nodup
  · exact hl.nameInj

theorem SameIndex.names {s s' : FSBlockStore Key} (h : SameIndex s s') : s'.names = s.names := by
  simp only [FSBlockStore.names, h.lru, h.entry]

theorem SameIndex.find {s s' : FSBlockStore Key} (h : SameIndex s s') (n : Name Key) :
    s'.find n = s.find n := by
  simp only [FSBlockStore.find, h.entries, h.entry]

theorem sameIndex_setFile (s : FSBlockStore Key) (n : Name Key) (f : Option File) :
    SameIndex s (s.setFile n f) :=
  ⟨rfl, rfl, rfl, rfl, rfl⟩

/-- The store after a put has written the block and brought the counters up to date, before it
touches the entry; `prevsize` and `wascommitted` describe the copy that was there. -/
def FSBlockStore.booked (s : FSBlockStore Key) (now : ℕ) (k : Key) (data : List UInt8)
    (prevsize : ℕ) (wascommitted : Bool) : FSBlockStore Key :=
  let s₁ := s.setFile (.block k) (some ⟨data, now⟩)
  let s₂ := if wascommitted then { s₁ with committed := s₁.committed - prevsize }
    else { s₁ with uncommitted := s₁.uncommitted - prevsize }
  { s₂ with committed := s₂.committed + data.length }

theorem sameIndex_booked (s : FSBlockStore Key) (now : ℕ) (k : Key) (data : List UInt8)
    (prevsize : ℕ) (wascommitted : Bool) :
    SameIndex s (s.booked now k data prevsize wascommitted) := by
  cases wascommitted <;> exact ⟨rfl, rfl, rfl, rfl, rfl⟩

theorem booked_files (s : FSBlockStore Key) (now : ℕ) (k : Key) (data : List UInt8)
    (prevsize : ℕ) (wascommitted : Bool) :
    (s.booked now k data prevsize wascommitted).files =
      Function.update s.files (.block k) (some ⟨data, now⟩) := by
  cases wascommitted <;> rfl

theorem booked_mark (s : FSBlockStore Key) (now : ℕ) (k : Key) (data : List UInt8)
    (prevsize : ℕ) (wascommitted : Bool) :
    (s.booked now k data prevsize wascommitted).mark = s.mark := by
  cases wascommitted <;> rfl

/-! ### Moving an entry -/

/-- The nodes other than the one of an entry are those of other names. -/
theorem Linked.filter_node {s : FSBlockStore Key} (h : Linked s) {p e : ℕ} (hx : (p, e) ∈ s.lru) :
    (s.lru.filter fun x => x.1 ≠ p) =
      s.lru.filter fun x => (s.entry x.2).name ≠ (s.entry e).name := by
  refine List.filter_congr fun x hx' => ?_
  have key : x.1 = p ↔ (s.entry x.2).name = (s.entry e).name := by
    constructor
    · intro hp
      rw [List.inj_on_of_nodup_map h.posNodup hx' hx hp]
    · intro hn
      rw [h.handle_inj hx' hx (h.nameInj _ (h.mem x hx') _ (h.mem _ hx) hn)]
  simp [key]

/-- Taking the node of an entry out of the list takes its name out. -/
theorem Linked.filter_names {s : FSBlockStore Key} (h : Linked s) {p e : ℕ} (hx : (p, e) ∈ s.lru) :
    (s.lru.filter fun x => x.1 ≠ p).map (fun x => (s.entry x.2).name) =
      s.names.filter fun n => n ≠ (s.entry e).name := by
  rw [h.filter_node hx, FSBlockStore.names, List.filter_map]
  rfl

/-- The list may lose nodes. -/
theorem Linked.sublist {s : FSBlockStore Key} (h : Linked s) {l : List (ℕ × ℕ)}
    (hl : l.Sublist s.lru) : Linked { s with lru := l } where
  posNodup := h.posNodup.sublist (hl.map _)
  posLt x hx := h.posLt x (hl.subset hx)
  mem x hx := h.mem x (hl.subset hx)
  listpos x hx := h.listpos x (hl.subset hx)
  lt := h.lt
  nodup := h.nodup
  nameInj := h.nameInj

/-- Only the names and the iterators of the entries matter. -/
theorem Linked.setEntry {s : FSBlockStore Key} (h : Linked s) {e : ℕ} {x : Entry Key}
    (hname : x.name = (s.entry e).name) (hpos : x.listpos = (s.entry e).listpos) :
    Linked (s.setEntry e x) := by
  have hn : ∀ e', ((s.setEntry e x).entry e').name = (s.entry e').name := by
    intro e'
    by_cases he : e' = e
    · subst he; simpa [FSBlockStore.setEntry] using hname
    · simp [FSBlockStore.setEntry, Function.update_of_ne he]
  have hp : ∀ e', ((s.setEntry e x).entry e').listpos = (s.entry e').listpos := by
    intro e'
    by_cases he : e' = e
    · subst he; simpa [FSBlockStore.setEntry] using hpos
    · simp [FSBlockStore.setEntry, Function.update_of_ne he]
  constructor
  · exact h.posNodup
  · exact h.posLt
  · exact h.mem
  · intro y hy; rw [hp]; exact h.listpos y hy
  · exact h.lt
  · exact h.nodup
  · intro a ha b hb hab
    rw [hn, hn] at hab
    exact h.nameInj a ha b hb hab

/-- A new entry object, in the table but not yet in the list. -/
def FSBlockStore.newEntry (s : FSBlockStore Key) (x : Entry Key) : FSBlockStore Key :=
  { s.setEntry s.nentry x with nentry := s.nentry + 1, entries := s.nentry :: s.entries }

theorem Linked.newEntry {s : FSBlockStore Key} (h : Linked s) {x : Entry Key}
    (hno : ∀ e ∈ s.entries, (s.entry e).name ≠ x.name) : Linked (s.newEntry x) := by
  have hne : ∀ e ∈ s.entries, e ≠ s.nentry := fun e he => (h.lt e he).ne
  have hold : ∀ e ∈ s.entries, (s.newEntry x).entry e = s.entry e := fun e he =>
    Function.update_of_ne (hne e he) _ _
  have hnew : (s.newEntry x).entry s.nentry = x := Function.update_self _ _ _
  constructor
  · exact h.posNodup
  · exact h.posLt
  · exact fun y hy => List.mem_cons_of_mem _ (h.mem y hy)
  · intro y hy; rw [hold _ (h.mem y hy)]; exact h.listpos y hy
  · intro e he
    rcases List.mem_cons.1 he with rfl | he
    · exact Nat.lt_succ_self _
    · exact Nat.lt_succ_of_lt (h.lt e he)
  · exact List.nodup_cons.2 ⟨fun he => hne _ he rfl, h.nodup⟩
  · intro a ha b hb hab
    rcases List.mem_cons.1 ha with rfl | ha <;> rcases List.mem_cons.1 hb with rfl | hb
    · rfl
    · rw [hnew, hold b hb] at hab
      exact absurd hab.symm (hno b hb)
    · rw [hnew, hold a ha] at hab
      exact absurd hab (hno a ha)
    · rw [hold a ha, hold b hb] at hab
      exact h.nameInj a ha b hb hab

/-- The effect of `push_front`. -/
def FSBlockStore.pushed (s : FSBlockStore Key) (e : ℕ) : FSBlockStore Key :=
  { s with
    lru := (s.npos, e) :: s.lru
    npos := s.npos + 1
    entry := Function.update s.entry e { s.entry e with listpos := some s.npos } }

theorem pushed_name (s : FSBlockStore Key) (e e' : ℕ) :
    ((s.pushed e).entry e').name = (s.entry e').name := by
  by_cases he : e' = e
  · subst he; simp [FSBlockStore.pushed]
  · simp [FSBlockStore.pushed, Function.update_of_ne he]

theorem names_pushed (s : FSBlockStore Key) (e : ℕ) :
    (s.pushed e).names = (s.entry e).name :: s.names := by
  simp only [FSBlockStore.names, pushed_name]
  rfl

theorem Linked.pushed {s : FSBlockStore Key} (h : Linked s) {e : ℕ} (he : e ∈ s.entries)
    (hout : ∀ x ∈ s.lru, x.2 ≠ e) : Linked (s.pushed e) := by
  constructor
  · refine List.nodup_cons.2 ⟨?_, h.posNodup⟩
    intro hmem
    obtain ⟨x, hx, hx'⟩ := List.mem_map.1 hmem
    exact absurd hx' (h.posLt x hx).ne
  · intro x hx
    rcases List.mem_cons.1 hx with rfl | hx
    · exact Nat.lt_succ_self _
    · exact Nat.lt_succ_of_lt (h.posLt x hx)
  · intro x hx
    rcases List.mem_cons.1 hx with rfl | hx
    · exact he
    · exact h.mem x hx
  · intro x hx
    rcases List.mem_cons.1 hx with rfl | hx
    · simp [FSBlockStore.pushed]
    · simpa [FSBlockStore.pushed, Function.update_of_ne (hout x hx)] using h.listpos x hx
  · exact h.lt
  · exact h.nodup
  · intro a ha b hb hab
    rw [pushed_name, pushed_name] at hab
    exact h.nameInj a ha b hb hab

/-- Removing the node of an entry that is in the list. -/
theorem lruErase_spec {s : FSBlockStore Key} {p : ℕ} (hp : p ∈ s.lru.map Prod.fst)
    {Q : Unit → FSBlockStore Key → Prop} {E : Exn → FSBlockStore Key → Prop}
    (hQ : Q () { s with lru := s.lru.filter fun x => x.1 ≠ p }) :
    wp (lruErase (some p)) Q E s := by
  simp only [lruErase, wp_bind, wp_get, if_pos hp, wp_set]
  exact hQ

/-- What touching a name does: the name is at the recent end, the others keep their order, and the
files, the mark and the other names of the table are what they were. -/
structure Touched (n : Name Key) (s s' : FSBlockStore Key) : Prop where
  linked : Linked s'
  names : s'.names = n :: s.names.filter fun m => m ≠ n
  files : s'.files = s.files
  mark : s'.mark = s.mark
  table : ∀ m, m ≠ n → (s'.find m).isSome → (s.find m).isSome

/-- **`touch_entry` moves one name to the recent end**, provided an entry of that name in the table
is still in the list. -/
theorem touchEntry_spec {s : FSBlockStore Key} (h : Linked s) (n : Name Key) (mtime size : ℕ)
    (hn : (s.find n).isSome → n ∈ s.names) :
    wp (touchEntry n mtime size) (fun _ s' => Touched n s s') (fun _ _ => False) s := by
  simp only [touchEntry, wp_bind, wp_get]
  cases hf : s.find n with
  | none =>
      have hno := find_eq_none hf
      set x : Entry Key := ⟨n, mtime, size, none⟩ with hx
      have h₁ : Linked (s.newEntry x) := h.newEntry hno
      have hkeep : s.names.filter (fun m => decide (m ≠ n)) = s.names := by
        refine List.filter_eq_self.2 fun m hm => ?_
        obtain ⟨y, hy, rfl⟩ := mem_names.1 hm
        simpa using hno _ (h.mem y hy)
      have hold : ∀ e ∈ s.entries, (s.newEntry x).entry e = s.entry e := fun e he =>
        Function.update_of_ne (h.lt e he).ne _ _
      have hnames : (s.newEntry x).names = s.names :=
        List.map_congr_left fun y hy => by rw [hold _ (h.mem y hy)]
      have hpush := h₁.pushed (e := s.nentry) List.mem_cons_self
        (fun y hy => (h.lt _ (h.mem y hy)).ne)
      refine ⟨hpush, ?_, rfl, rfl, fun m hm hfm => ?_⟩
      · rw [hkeep, ← hnames]
        exact (names_pushed _ _).trans (by simp [FSBlockStore.newEntry, FSBlockStore.setEntry, hx])
      · obtain ⟨e, he, hem⟩ := find_isSome_iff.1 hfm
        have hem' := (pushed_name (s.newEntry x) s.nentry e).symm.trans hem
        rcases List.mem_cons.1 he with rfl | he
        · exact absurd (by simpa [FSBlockStore.newEntry, FSBlockStore.setEntry, hx] using hem'.symm) hm
        · exact find_isSome_iff.2 ⟨e, he, by rwa [hold e he] at hem'⟩
  | some e =>
      obtain ⟨hmem, rfl⟩ := find_eq_some hf
      obtain ⟨p, hp⟩ := h.of_find hf (hn (by simp [hf]))
      simp only [wp_bind, h.listpos _ hp]
      refine lruErase_spec (List.mem_map.2 ⟨_, hp, rfl⟩) ?_
      set s₁ : FSBlockStore Key := { s with lru := s.lru.filter fun x => x.1 ≠ p } with hs₁
      set x : Entry Key := { s.entry e with tstamp := mtime } with hx
      have h₁ : Linked s₁ := h.sublist List.filter_sublist
      have h₂ : Linked (s₁.setEntry e x) := h₁.setEntry rfl rfl
      have hname : ∀ e', ((s₁.setEntry e x).entry e').name = (s.entry e').name := by
        intro e'
        by_cases he : e' = e
        · subst he; simp [FSBlockStore.setEntry, hx]
        · simp [FSBlockStore.setEntry, Function.update_of_ne he, hs₁]
      have hout : ∀ y ∈ (s₁.setEntry e x).lru, y.2 ≠ e := by
        intro y hy hye
        obtain ⟨hy, hyp⟩ := List.mem_filter.1 hy
        simp [h.handle_inj hy hp hye] at hyp
      refine ⟨h₂.pushed hmem hout, ?_, rfl, rfl, fun m _ hfm => ?_⟩
      · refine (names_pushed _ _).trans ?_
        rw [hname, ← h.filter_names hp]
        exact congrArg _ (List.map_congr_left fun y _ => hname _)
      · obtain ⟨e', he', hem⟩ := find_isSome_iff.1 hfm
        exact find_isSome_iff.2 ⟨e', he', (hname e').symm.trans ((pushed_name _ _ _).symm.trans hem)⟩

theorem Touched.mem_names {s s' : FSBlockStore Key} {n : Name Key} (ht : Touched n s s')
    {m : Name Key} : m ∈ s'.names ↔ m = n ∨ m ∈ s.names := by
  rw [ht.names, List.mem_cons, List.mem_filter]
  by_cases hmn : m = n <;> simp [hmn]

/-- Touching a name whose file is there keeps the names those of the files. -/
theorem Touched.file_iff {s s₁ s' : FSBlockStore Key} {n : Name Key} {f : File}
    (ht : Touched n s₁ s') (hnames : s₁.names = s.names)
    (hfiles : s₁.files = Function.update s.files n (some f))
    (hfile : ∀ m, s.files m ≠ none ↔ m ∈ s.names) (m : Name Key) :
    s'.files m ≠ none ↔ m ∈ s'.names := by
  rw [ht.files, hfiles, ht.mem_names, hnames]
  by_cases hm : m = n
  · simp [hm]
  · simpa [Function.update_of_ne hm, hm] using hfile m

/-! ### Purging -/

/-- The bytes recorded in the entries of a part of the LRU list. -/
def FSBlockStore.bytesIn (s : FSBlockStore Key) (l : List (ℕ × ℕ)) : ℕ :=
  (l.map fun x => (s.entry x.2).size).sum

/-- The store after the nodes `B` have been purged and the list `l` is left. -/
def FSBlockStore.purged (s : FSBlockStore Key) (l B : List (ℕ × ℕ)) : FSBlockStore Key :=
  { s with
    lru := l
    files := fun n => if n ∈ B.map (fun x => (s.entry x.2).name) then none else s.files n
    uncommitted := s.uncommitted - s.bytesIn B }

theorem purged_nil (s : FSBlockStore Key) : s.purged s.lru [] = s := by
  simp [FSBlockStore.purged, FSBlockStore.bytesIn]

theorem purged_purged (s : FSBlockStore Key) (l l' B B' : List (ℕ × ℕ)) :
    (s.purged l B).purged l' B' = s.purged l' (B' ++ B) := by
  simp only [FSBlockStore.purged, FSBlockStore.bytesIn, List.map_append, List.sum_append,
    List.mem_append, FSBlockStore.mk.injEq, true_and, and_true]
  constructor
  · push_cast; ring
  · funext n
    by_cases h' : n ∈ B'.map (fun x => (s.entry x.2).name) <;>
      simp only [h', true_or, false_or, if_true, if_false]

theorem Linked.purged {s : FSBlockStore Key} (h : Linked s) {l : List (ℕ × ℕ)}
    (hl : l.Sublist s.lru) (B : List (ℕ × ℕ)) : Linked (s.purged l B) :=
  let h' := h.sublist hl
  ⟨h'.posNodup, h'.posLt, h'.mem, h'.listpos, h'.lt, h'.nodup, h'.nameInj⟩

/-- One purge of a list that ends in `y`: it fails and changes nothing, or it drops `y`. -/
theorem purgeUncommitted_spec {s : FSBlockStore Key} {l : List (ℕ × ℕ)} {y : ℕ × ℕ}
    (hl : s.lru = l ++ [y]) (hfile : s.files (s.entry y.2).name ≠ none) :
    wp purgeUncommitted (fun _ s' => s' = s.purged l [y]) (fun _ s' => s' = s) s := by
  have hlast : s.lru.getLast? = some y := by simp [hl]
  have hdrop : s.lru.dropLast = l := by simp [hl]
  simp only [purgeUncommitted, wp_bind, wp_get, hlast]
  cases hm : s.mark with
  | none => rfl
  | some m =>
      simp only
      split
      · rfl
      · simp only [wp_bind, wp_set, wp_modify]
        simp only [FSBlockStore.purged, FSBlockStore.setFile, FSBlockStore.bytesIn, hdrop,
          List.map_cons, List.map_nil, List.sum_cons, List.sum_nil, Nat.add_zero,
          List.mem_singleton, FSBlockStore.mk.injEq, true_and, hm, and_true]
        funext n
        by_cases hn : n = (s.entry y.2).name
        · simp [hn]
        · simp [hn]

/-- The nodes that a purge leaves keep their files. -/
theorem file_purged_last {s : FSBlockStore Key} (h : Linked s)
    (hfile : ∀ x ∈ s.lru, s.files (s.entry x.2).name ≠ none) {l : List (ℕ × ℕ)} {y : ℕ × ℕ}
    (hl : s.lru = l ++ [y]) : ∀ x ∈ l, (s.purged l [y]).files (s.entry x.2).name ≠ none := by
  intro x hx
  have hn := h.names_nodup
  rw [FSBlockStore.names, hl, List.map_append] at hn
  have hne : (s.entry x.2).name ≠ (s.entry y.2).name := fun heq =>
    List.disjoint_of_nodup_append hn (List.mem_map.2 ⟨x, hx, rfl⟩) (by simp [heq])
  have := hfile x (by rw [hl]; exact List.mem_append_left _ hx)
  simpa [FSBlockStore.purged, hne] using this

/-- A purge frees the bytes of the node it drops. -/
theorem excess_purged_last {s : FSBlockStore Key} {prevcommitted : ℤ} {blksize : ℕ}
    {l B : List (ℕ × ℕ)} {y : ℕ × ℕ}
    (hex : s.excess prevcommitted blksize ≤ s.bytesIn (B ++ [y])) :
    (s.purged l [y]).excess prevcommitted blksize ≤ (s.purged l [y]).bytesIn B := by
  simp only [FSBlockStore.excess, FSBlockStore.purged, FSBlockStore.bytesIn, List.map_append,
    List.map_cons, List.map_nil, List.sum_append, List.sum_cons, List.sum_nil] at hex ⊢
  push_cast at hex ⊢
  omega

/-- **The purge loop drops a suffix of the list**, and stays within a suffix `B` whose recorded
bytes cover what has to be freed. -/
theorem purgeLoop_spec (prevcommitted : ℤ) (blksize : ℕ) (A : List (ℕ × ℕ)) :
    ∀ (fuel : ℕ) (s : FSBlockStore Key) (B : List (ℕ × ℕ)), Linked s →
      (∀ x ∈ s.lru, s.files (s.entry x.2).name ≠ none) → s.lru = A ++ B →
      s.excess prevcommitted blksize ≤ s.bytesIn B →
      wp (purgeLoop prevcommitted blksize fuel)
        (fun _ s' => ∃ B₁ B₂, B = B₁ ++ B₂ ∧ s' = s.purged (A ++ B₁) B₂)
        (fun _ s' => ∃ B₁ B₂, B = B₁ ++ B₂ ∧ s' = s.purged (A ++ B₁) B₂) s := by
  intro fuel
  induction fuel with
  | zero =>
      intro s B _ _ hlru _
      exact ⟨B, [], by simp, by rw [← hlru, purged_nil]⟩
  | succ fuel ih =>
      intro s B hlink hfile hlru hex
      simp only [purgeLoop, wp_bind, wp_get]
      split
      case isFalse => exact ⟨B, [], by simp, by rw [← hlru, purged_nil]⟩
      case isTrue hpos =>
        -- There is something left to free, so the part that may be purged is not empty.
        rcases List.eq_nil_or_concat' B with rfl | ⟨B', y, rfl⟩
        · simp only [FSBlockStore.bytesIn, List.map_nil, List.sum_nil, Nat.cast_zero] at hex
          omega
        · have hlru' : s.lru = (A ++ B') ++ [y] := by simp [hlru]
          have hy : y ∈ s.lru := by simp [hlru]
          refine wp_seq (purgeUncommitted_spec hlru' (hfile y hy)) ?_ ?_
          · rintro _ _ rfl
            have hsub : (A ++ B').Sublist s.lru := by rw [hlru']; exact List.sublist_append_left _ _
            refine wp_mono (ih (s.purged (A ++ B') [y]) B' (hlink.purged hsub _)
              (file_purged_last hlink hfile hlru') rfl (excess_purged_last hex)) ?_ ?_
            · rintro _ _ ⟨B₁, B₂, rfl, rfl⟩
              exact ⟨B₁, B₂ ++ [y], by simp, by rw [purged_purged]⟩
            · rintro _ _ ⟨B₁, B₂, rfl, rfl⟩
              exact ⟨B₁, B₂ ++ [y], by simp, by rw [purged_purged]⟩
          · rintro _ _ rfl
            exact ⟨B' ++ [y], [], by simp, by rw [← hlru, purged_nil]⟩

/-! ### Finishing a refresh cycle -/

/-- The new name of an entry when the token of cycle `rid` becomes the mark. -/
def renamed (rid : ℕ) (n : Name Key) : Name Key := if n = .rid rid then .mark else n

/-- What finishing a cycle does: its token becomes the mark and the old mark is gone. -/
structure Finished (rid : ℕ) (s s' : FSBlockStore Key) : Prop where
  linked : Linked s'
  names : s'.names = (s.names.filter fun n => n ≠ .mark).map (renamed rid)
  files : s'.files = Function.update (Function.update s.files (.rid rid) none) .mark
    (s.files (.rid rid))

/-- Taking the old mark out of the table and the list. -/
theorem Linked.eraseEntry {s : FSBlockStore Key} (h : Linked s) {p m : ℕ} (hm : (p, m) ∈ s.lru) :
    Linked { s with entries := s.entries.erase m, lru := s.lru.filter fun x => x.1 ≠ p } := by
  have h' := h.sublist (l := s.lru.filter fun x => x.1 ≠ p) List.filter_sublist
  refine ⟨h'.posNodup, h'.posLt, ?_, h'.listpos, ?_, h.nodup.erase m, ?_⟩
  · intro x hx
    refine (List.mem_erase_of_ne ?_).2 (h'.mem x hx)
    intro hxm
    obtain ⟨hx, hxp⟩ := List.mem_filter.1 hx
    simp [h.handle_inj hx hm hxm] at hxp
  · exact fun e he => h.lt e (List.mem_of_mem_erase he)
  · exact fun a ha b hb => h.nameInj a (List.mem_of_mem_erase ha) b (List.mem_of_mem_erase hb)

/-- Renaming a token, in the table and in the list at once. -/
theorem Linked.renameEntry {s : FSBlockStore Key} (h : Linked s) {r : ℕ} (hr : r ∈ s.entries)
    (hno : ∀ e ∈ s.entries, (s.entry e).name ≠ .mark) :
    Linked (s.setEntry r { s.entry r with name := .mark }) := by
  have hpos : ∀ e, ((s.setEntry r { s.entry r with name := .mark }).entry e).listpos =
      (s.entry e).listpos := by
    intro e
    by_cases he : e = r
    · subst he; simp [FSBlockStore.setEntry]
    · simp [FSBlockStore.setEntry, Function.update_of_ne he]
  refine ⟨h.posNodup, h.posLt, h.mem, fun x hx => (hpos _).trans (h.listpos x hx), h.lt, h.nodup, ?_⟩
  intro a ha b hb hab
  by_cases har : a = r <;> by_cases hbr : b = r
  · rw [har, hbr]
  · subst har
    simp only [FSBlockStore.setEntry, Function.update_self, Function.update_of_ne hbr] at hab
    exact absurd hab.symm (hno b hb)
  · subst hbr
    simp only [FSBlockStore.setEntry, Function.update_self, Function.update_of_ne har] at hab
    exact absurd hab (hno a ha)
  · simp only [FSBlockStore.setEntry, Function.update_of_ne har, Function.update_of_ne hbr] at hab
    exact h.nameInj a ha b hb hab

/-- Removing the old mark, if an entry of that name in the table is still in the list. -/
theorem removeMark_spec {s : FSBlockStore Key} (h : Linked s)
    (hmark : (s.find .mark).isSome → .mark ∈ s.names) :
    wp removeMark (fun _ s' => Linked s' ∧ s'.names = s.names.filter (fun n => n ≠ .mark) ∧
      s'.files = s.files ∧ ∀ e ∈ s'.entries, (s'.entry e).name ≠ .mark) (fun _ _ => False) s := by
  simp only [removeMark, wp_bind, wp_get]
  cases hm : s.find .mark with
  | none =>
      have hno := find_eq_none hm
      refine ⟨h, ?_, rfl, hno⟩
      refine (List.filter_eq_self.2 fun n hn => ?_).symm
      obtain ⟨y, hy, rfl⟩ := mem_names.1 hn
      simpa using hno _ (h.mem y hy)
  | some m =>
      obtain ⟨p, hp⟩ := h.of_find hm (hmark (by simp [hm]))
      have hname := (find_eq_some hm).2
      simp only [wp_bind, wp_set, h.listpos _ hp]
      have hpos : p ∈ { s with entries := s.entries.erase m }.lru.map Prod.fst :=
        List.mem_map.2 ⟨_, hp, rfl⟩
      refine lruErase_spec hpos ⟨h.eraseEntry hp, ?_, rfl, ?_⟩
      · rw [← hname]
        exact h.filter_names hp
      · intro e he hen
        have hme : e = m :=
          h.nameInj e (List.mem_of_mem_erase he) m (h.mem _ hp) (hen.trans hname.symm)
        subst hme
        exact (h.nodup.mem_erase_iff.1 he).1 rfl

/-- Renaming the token of a cycle, once the old mark is gone. -/
theorem renameToken_spec {s : FSBlockStore Key} (h : Linked s) {rid : ℕ} (hr : .rid rid ∈ s.names)
    (hno : ∀ e ∈ s.entries, (s.entry e).name ≠ .mark) :
    wp (renameToken rid) (fun _ s' => Linked s' ∧ s'.names = s.names.map (renamed rid) ∧
      s'.files = s.files) (fun _ _ => False) s := by
  obtain ⟨x, hx, hxn⟩ := mem_names.1 hr
  have hf := h.find_mem hx
  rw [hxn] at hf
  simp only [renameToken, wp_bind, wp_get, hf, wp_set]
  have h' := h.renameEntry (h.mem x hx) hno
  refine ⟨⟨h'.posNodup, h'.posLt, h'.mem, h'.listpos, h'.lt, h'.nodup, h'.nameInj⟩, ?_, rfl⟩
  simp only [FSBlockStore.names, List.map_map]
  refine List.map_congr_left fun y hy => ?_
  by_cases hyx : y.2 = x.2
  · simp [FSBlockStore.setEntry, hyx, renamed, hxn]
  · have hne : (s.entry y.2).name ≠ .rid rid := by
      intro hyn
      exact hyx (h.nameInj _ (h.mem y hy) _ (h.mem x hx) (hyn.trans hxn.symm))
    simp [FSBlockStore.setEntry, Function.update_of_ne hyx, renamed, hne]

/-- **Finishing a cycle puts the mark in the place of its token.** -/
theorem bsRefreshFinish_spec {s : FSBlockStore Key} (h : Linked s) {rid : ℕ}
    (hrid : s.files (.rid rid) ≠ none → .rid rid ∈ s.names)
    (hmark : (s.find .mark).isSome → .mark ∈ s.names) :
    wp (bsRefreshFinish rid) (fun _ s' => Finished rid s s') (fun _ s' => s' = s) s := by
  simp only [bsRefreshFinish, wp_bind, wp_get]
  cases hf : s.files (.rid rid) with
  | none => rfl
  | some f =>
      have hr := hrid (by simp [hf])
      rw [wp_bind, wp_set]
      have h₁ : Linked ((s.setFile (.rid rid) none).setFile .mark (some f)) :=
        (sameIndex_setFile _ _ _).linked ((sameIndex_setFile _ _ _).linked h)
      refine wp_seq (removeMark_spec h₁ hmark) ?_ (fun _ _ hF => hF.elim)
      rintro _ s₂ ⟨h₂, hnames₂, hfiles₂, hno₂⟩
      have hr₂ : .rid rid ∈ s₂.names := by
        rw [hnames₂]
        exact List.mem_filter.2 ⟨hr, by simp⟩
      refine wp_seq (renameToken_spec h₂ hr₂ hno₂) ?_ (fun _ _ hF => hF.elim)
      rintro _ s₃ ⟨h₃, hnames₃, hfiles₃⟩
      simp only [addUp, wp_modify]
      refine ⟨⟨h₃.posNodup, h₃.posLt, h₃.mem, h₃.listpos, h₃.lt, h₃.nodup, h₃.nameInj⟩, ?_, ?_⟩
      · refine Eq.trans hnames₃ ?_
        rw [hnames₂]
        rfl
      · refine (hfiles₃.trans hfiles₂).trans ?_
        simp [FSBlockStore.setFile, hf]

theorem Finished.mem_names {s s' : FSBlockStore Key} {rid : ℕ} (hfin : Finished rid s s')
    (n : Name Key) : n ∈ s'.names ↔ ∃ m ∈ s.names, m ≠ .mark ∧ renamed rid m = n := by
  simp [hfin.names, and_assoc]

/-- Finishing a cycle keeps the names those of the files. -/
theorem Finished.file_iff {s s' : FSBlockStore Key} {rid : ℕ} (hfin : Finished rid s s')
    (hr : s.files (.rid rid) ≠ none) (hfile : ∀ m, s.files m ≠ none ↔ m ∈ s.names)
    (n : Name Key) : s'.files n ≠ none ↔ n ∈ s'.names := by
  rw [hfin.mem_names, hfin.files]
  by_cases hnm : n = .mark
  · subst hnm
    simp only [Function.update_self, ne_eq, hr, not_false_eq_true, true_iff]
    exact ⟨.rid rid, (hfile _).1 hr, by simp, by simp [renamed]⟩
  · rw [Function.update_of_ne hnm]
    by_cases hnr : n = .rid rid
    · subst hnr
      simp only [Function.update_self, ne_eq, not_true_eq_false, false_iff]
      rintro ⟨m, -, -, heq⟩
      unfold renamed at heq
      split at heq
      case isTrue => simp at heq
      case isFalse hne => exact hne heq
    · rw [Function.update_of_ne hnr, hfile]
      constructor
      · exact fun hn => ⟨n, hn, hnm, if_neg hnr⟩
      · rintro ⟨m, hm, -, heq⟩
        unfold renamed at heq
        split at heq
        case isTrue => exact absurd heq.symm hnm
        case isFalse => exact heq ▸ hm

end FSBS

end Utopfs
