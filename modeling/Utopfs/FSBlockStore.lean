/-
**The block store in a directory of files.**

`modules/FSBlockStore/FSBlockStore.cpp` keeps every block in a file of its own under `BLOCKS`.
Three kinds of file live there: a block, named by the Base32 form of its key; a refresh cycle in
progress, named `RID-<number>`; and the mark left by the last finished cycle, named `MARK`.  In
memory the store keeps an entry object for each file, indexed by name (`m_entries`) and ordered by
recency (`m_lru`, newest first), and two running totals, `m_committed` and `m_uncommitted`.

The entry objects are shared between the two collections, and an entry remembers where it sits in
the list by an iterator.  Both facts matter: renaming an entry is seen through both collections,
and an iterator can outlive its list node.  Entries are therefore objects with an identity, and a
list node is an entry handle together with the identity of the node.

The path of the empty key is that of the directory itself.  A key is therefore a non-empty string of
bytes, and what the operations do with empty key data is defined beside them: nothing is found, and
nothing can be stored.

Main definitions:

* `FSBS.Name`, `FSBS.File`, `FSBS.Entry`, `FSBS.FSBlockStore` — the state;
* `FSBS.touchEntry`, `FSBS.purgeUncommitted` — the two routines that move and drop entries;
* `FSBS.bsBlockGet`, `FSBS.bsBlockPut`, `FSBS.bsRefreshStart`, `FSBS.bsRefreshBlock`,
  `FSBS.bsRefreshFinish` — the operations of the store;
* `FSBS.bsBlockGetAsync`, `FSBS.bsBlockPutAsync`, `FSBS.bsRefreshBlockAsync` — those that take a key,
  on any key data;
* `FSBS.Op`, `FSBS.step`, `FSBS.RunWith`, `FSBS.Run` — runs of timed operations from a freshly created
  store.

Main results:

* `FSBS.bsBlockGetAsync_empty`, `FSBS.bsBlockPutAsync_empty`, `FSBS.bsRefreshBlockAsync_empty` — what
  happens to the empty key.
-/

import Mathlib.Algebra.GroupWithZero.Nat
import Mathlib.Data.Int.Notation
import Mathlib.Data.Nat.Notation
import Mathlib.Logic.Function.Basic
import Utopfs.Except
import Utopfs.Prog

set_option relaxedAutoImplicit false
set_option autoImplicit false

namespace Utopfs

namespace FSBS

open Prog

/-! ### The state -/

/-- The names of the files under `BLOCKS`: `entryname`, `ridname` and `markname`. -/
inductive Name (Key : Type)
  | block (k : Key)
  | rid (n : ℕ)
  | mark
  deriving DecidableEq

/-- A file under `BLOCKS`.  Its `st_size` is the length of the data. -/
structure File where
  data : List UInt8
  mtime : ℕ
  deriving DecidableEq

/-- An entry object; `listpos` is the iterator into the LRU list. -/
structure Entry (Key : Type) where
  name : Name Key
  tstamp : ℕ
  size : ℕ
  listpos : Option ℕ

/-- The store.  Entry objects are named by handles into `entry`; the elements of `lru` are pairs of
a list node and an entry handle, the front of the list being the newest. -/
structure FSBlockStore (Key : Type) where
  size : ℤ
  committed : ℤ
  uncommitted : ℤ
  files : Name Key → Option File
  entry : ℕ → Entry Key
  nentry : ℕ
  entries : List ℕ
  lru : List (ℕ × ℕ)
  npos : ℕ
  mark : Option ℕ

/-- The keys that have a file of their own. -/
abbrev Key := { keydata : List UInt8 // keydata ≠ [] }

/-- A key of one byte. -/
def key (b : UInt8) : Key := ⟨[b], List.cons_ne_nil b []⟩

/-- The operations run under the store's mutex. -/
abbrev M (Key : Type) := EStateM Exn (FSBlockStore Key)

/-- `bs_create`: an empty store of the given size. -/
def bsCreate (size : ℕ) : FSBlockStore Key where
  size := size
  committed := 0
  uncommitted := 0
  files := fun _ => none
  entry := fun _ => ⟨.mark, 0, 0, none⟩
  nentry := 0
  entries := []
  lru := []
  npos := 0
  mark := none

/-! ### The entry table and the LRU list -/

/-- `m_entries.find`. -/
def FSBlockStore.find (s : FSBlockStore Key) (n : Name Key) : Option ℕ :=
  s.entries.find? fun e => (s.entry e).name = n

/-- Overwriting an entry object. -/
def FSBlockStore.setEntry (s : FSBlockStore Key) (e : ℕ) (x : Entry Key) : FSBlockStore Key :=
  { s with entry := Function.update s.entry e x }

/-- Creating or replacing a file, or removing it. -/
def FSBlockStore.setFile (s : FSBlockStore Key) (n : Name Key) (f : Option File) :
    FSBlockStore Key :=
  { s with files := Function.update s.files n f }

/-- `m_lru.erase(it)`. -/
def lruErase (it : Option ℕ) : M Key Unit := do
  let s ← get
  match it with
  | some p =>
      if p ∈ s.lru.map Prod.fst then
        set { s with lru := s.lru.filter fun x => x.1 ≠ p }
      else
        throw (.undefined "m_lru.erase of an invalid iterator")
  | none => throw (.undefined "m_lru.erase of an uninitialised iterator")

/-- `m_lru.push_front(eh)`, followed by the note of the position in the entry. -/
def lruPushFront (e : ℕ) : M Key Unit :=
  modify fun s =>
    { s with
      lru := (s.npos, e) :: s.lru
      npos := s.npos + 1
      entry := Function.update s.entry e { s.entry e with listpos := some s.npos } }

/-- `touch_entry`: move the entry of that name to the recent end, making one if there is none.  An
entry that exists keeps its recorded size. -/
def touchEntry (n : Name Key) (mtime size : ℕ) : M Key Unit := do
  let s ← get
  match s.find n with
  | none =>
      let e := s.nentry
      set { s.setEntry e ⟨n, mtime, size, none⟩ with
        nentry := s.nentry + 1, entries := e :: s.entries }
      lruPushFront e
  | some e =>
      lruErase (s.entry e).listpos
      modify fun s => s.setEntry e { s.entry e with tstamp := mtime }
      lruPushFront e

/-- `purge_uncommitted`: drop the oldest entry of the list and its file. -/
def purgeUncommitted : M Key Unit := do
  let s ← get
  match s.lru.getLast? with
  | none => throw (.internalError "Shouldn't find LRU list empty here")
  | some (_, e) =>
      match s.mark with
      | none => throw (.internalError "MARK needs to be set to purge uncommitted")
      | some m =>
          -- It needs to be older than the MARK, and equal has to be granted.
          if (s.entry m).tstamp < (s.entry e).tstamp then
            throw (.internalError "LRU block on list is more recent then MARK")
          set { s with lru := s.lru.dropLast }
          if s.files (s.entry e).name = none then
            throw (.internalError "unlink failed")
          modify fun s =>
            { s.setFile (s.entry e).name none with
              uncommitted := s.uncommitted - (s.entry e).size }

/-! ### Getting and putting blocks -/

/-- `bs_block_get_async`, for a buffer of `buffsize` bytes. -/
def bsBlockGet (k : Key) (buffsize : ℕ) : M Key (List UInt8) := do
  let s ← get
  match s.files (.block k) with
  | none => throw (.notFoundError "not found")
  | some f =>
      if buffsize < f.data.length then throw (.valueError "buffer overflow")
      return f.data

/-- The size of the previous copy of a block, as `stat` reports it before the put. -/
def FSBlockStore.prevsize (s : FSBlockStore Key) (k : Key) : ℕ :=
  match s.files (.block k) with
  | some f => f.data.length
  | none => 0

/-- Whether the previous copy counts as committed: it does unless its file is older than the
`MARK`. -/
def FSBlockStore.wascommitted (s : FSBlockStore Key) (k : Key) : Bool :=
  match s.files (.block k), s.mark with
  | some f, some m => !decide (f.mtime < (s.entry m).tstamp)
  | _, _ => true

/-- The committed bytes that the previous copy gives back. -/
def FSBlockStore.prevcommitted (s : FSBlockStore Key) (k : Key) : ℤ :=
  if s.wascommitted k then s.prevsize k else 0

/-- How far a put of `blksize` bytes would overfill the store, in the store's own counters. -/
def FSBlockStore.excess (s : FSBlockStore Key) (prevcommitted : ℤ) (blksize : ℕ) : ℤ :=
  s.committed + blksize + s.uncommitted - prevcommitted - s.size

/-- The loop that removes uncommitted blocks to make room for a block.  An iteration that does not
throw shortens the list, so one more than its length bounds their number. -/
def purgeLoop (prevcommitted : ℤ) (blksize : ℕ) : ℕ → M Key Unit
  | 0 => pure ()
  | fuel + 1 => do
      let s ← get
      if 0 < s.excess prevcommitted blksize then
        purgeUncommitted
        purgeLoop prevcommitted blksize fuel

/-- `bs_block_put_async` at time `now`. -/
def bsBlockPut (now : ℕ) (k : Key) (data : List UInt8) : M Key Unit := do
  let s ← get
  let prevsize := s.prevsize k
  let wascommitted := s.wascommitted k
  let prevcommitted := s.prevcommitted k
  -- How much space will be available for this block?
  if s.size - s.committed + prevcommitted < data.length then
    throw (.noSpaceError "insufficent space")
  purgeLoop prevcommitted data.length (s.lru.length + 1)
  modify fun s => s.setFile (.block k) (some ⟨data, now⟩)
  -- First remove the prior block from the stats, then add the new one.
  modify fun s =>
    if wascommitted then { s with committed := s.committed - prevsize }
    else { s with uncommitted := s.uncommitted - prevsize }
  modify fun s => { s with committed := s.committed + data.length }
  touchEntry (.block k) now data.length

/-! ### Refresh cycles -/

/-- `bs_refresh_start_async`. -/
def bsRefreshStart (now rid : ℕ) : M Key Unit := do
  let s ← get
  if (s.files (.rid rid)).isSome then
    throw (.notUniqueError "refresh id already exists")
  set (s.setFile (.rid rid) (some ⟨[], now⟩))
  touchEntry (.rid rid) now 0

/-- `bs_refresh_block_async`; the result says whether the block was there. -/
def bsRefreshBlock (now rid : ℕ) (k : Key) : M Key Bool := do
  let s ← get
  if s.files (.rid rid) = none then
    throw (.notFoundError "refresh id not found")
  match s.files (.block k) with
  | none => return false
  | some f =>
      set (s.setFile (.block k) (some { f with mtime := now }))
      touchEntry (.block k) now f.data.length
      return true

/-- The recorded bytes in front of and behind the `MARK` of a list of entries: the sums that
`bs_refresh_finish` and `bs_open` compute. -/
def sumLru : List (Entry Key) → ℕ × ℕ
  | [] => (0, 0)
  | e :: l =>
      if e.name = .mark then (0, (l.map Entry.size).sum)
      else (e.size + (sumLru l).1, (sumLru l).2)

/-- `bs_refresh_finish`: remove the MARK entry, if there is one. -/
def removeMark : M Key Unit := do
  let s ← get
  match s.find .mark with
  | none => pure ()
  | some m =>
      set { s with entries := s.entries.erase m }
      lruErase (s.entry m).listpos

/-- `bs_refresh_finish`: rename the entry of the refresh token, which stays at its place in the LRU
list with its time stamp. -/
def renameToken (rid : ℕ) : M Key Unit := do
  let s ← get
  match s.find (.rid rid) with
  | none => throw (.internalError "Missing RID entry")
  | some r => set { s.setEntry r { s.entry r with name := .mark } with mark := some r }

/-- `bs_refresh_finish`: add up all the committed memory. -/
def addUp : M Key Unit :=
  modify fun s =>
    { s with
      committed := (sumLru (s.lru.map fun x => s.entry x.2)).1
      uncommitted := (sumLru (s.lru.map fun x => s.entry x.2)).2 }

/-- `bs_refresh_finish_async`. -/
def bsRefreshFinish (rid : ℕ) : M Key Unit := do
  let s ← get
  match s.files (.rid rid) with
  | none => throw (.notFoundError "refresh id not found")
  | some f =>
      -- Rename the refresh tag to the mark name.
      set ((s.setFile (.rid rid) none).setFile .mark (some f))
      removeMark
      renameToken rid
      addUp

/-! ### The empty key -/

/-- What `stat` says of the directory `BLOCKS`, which is where the path of the empty key leads. -/
structure DirStat where
  size : ℕ
  mtime : ℕ

/-- The committed bytes that the directory, taken for the previous copy of a block, gives back. -/
def FSBlockStore.dirCommitted (s : FSBlockStore Key) (dir : DirStat) : ℤ :=
  match s.mark with
  | some m => if dir.mtime < (s.entry m).tstamp then 0 else dir.size
  | none => dir.size

/-- `bs_block_get_async`, on any key data. -/
def bsBlockGetAsync (keydata : List UInt8) (buffsize : ℕ) : M Key (List UInt8) :=
  if h : keydata = [] then throw (.notFoundError "empty key is always not found")
  else bsBlockGet ⟨keydata, h⟩ buffsize

/-- `bs_block_put_async` of the empty key.  The directory is taken for the previous copy of the block,
room is made, and then a directory cannot be opened for writing. -/
def bsBlockPutEmpty (dir : DirStat) (data : List UInt8) : M Key Unit := do
  let s ← get
  let prevcommitted := s.dirCommitted dir
  if s.size - s.committed + prevcommitted < data.length then
    throw (.noSpaceError "insufficent space")
  purgeLoop prevcommitted data.length (s.lru.length + 1)
  throw (.internalError "open failed")

/-- `bs_block_put_async`, on any key data. -/
def bsBlockPutAsync (now : ℕ) (dir : DirStat) (keydata data : List UInt8) : M Key Unit :=
  if h : keydata = [] then bsBlockPutEmpty dir data else bsBlockPut now ⟨keydata, h⟩ data

/-- `bs_refresh_block_async`, on any key data.  The directory is not a regular file. -/
def bsRefreshBlockAsync (now rid : ℕ) (keydata : List UInt8) : M Key Bool :=
  if h : keydata = [] then do
    let s ← get
    if s.files (.rid rid) = none then
      throw (.notFoundError "refresh id not found")
    return false
  else bsRefreshBlock now rid ⟨keydata, h⟩

/-- The empty key is always not found. -/
theorem bsBlockGetAsync_empty (buffsize : ℕ) (s : FSBlockStore Key) :
    bsBlockGetAsync [] buffsize s = .error (.notFoundError "empty key is always not found") s := rfl

/-- The empty key is missing, whatever is stored. -/
theorem bsRefreshBlockAsync_empty (now rid : ℕ) (s : FSBlockStore Key) :
    wp (bsRefreshBlockAsync now rid []) (fun there s' => there = false ∧ s' = s)
      (fun _ s' => s' = s) s := by
  simp only [bsRefreshBlockAsync, dif_pos, wp_bind, wp_get]
  split
  · rfl
  · exact ⟨rfl, rfl⟩

/-- Every file is one of `files`. -/
def NothingNew (files : Name Key → Option File) (s : FSBlockStore Key) : Prop :=
  ∀ n, s.files n ≠ none → s.files n = files n

theorem nothingNew_purgeUncommitted (files : Name Key → Option File) :
    Prog.Keeps (NothingNew files) (fun _ : Exn => True) purgeUncommitted := by
  intro s h
  simp only [purgeUncommitted, wp_bind, wp_get]
  cases s.lru.getLast? with
  | none => exact ⟨trivial, h⟩
  | some y =>
      cases s.mark with
      | none => exact ⟨trivial, h⟩
      | some m =>
          simp only
          split
          · exact ⟨trivial, h⟩
          · simp only [wp_bind, wp_set]
            split
            · exact ⟨trivial, h⟩
            · intro n hn
              have hne : n ≠ (s.entry y.2).name := by
                rintro rfl
                exact hn (Function.update_self _ _ _)
              have hfiles : Function.update s.files (s.entry y.2).name none n = s.files n :=
                Function.update_of_ne hne _ _
              exact hfiles.trans (h n (by rw [← hfiles]; exact hn))

theorem nothingNew_purgeLoop (files : Name Key → Option File) (prevcommitted : ℤ) (blksize fuel : ℕ) :
    Prog.Keeps (NothingNew files) (fun _ : Exn => True) (purgeLoop prevcommitted blksize fuel) := by
  induction fuel with
  | zero => exact fun _ h => h
  | succ fuel ih =>
      intro s h
      simp only [purgeLoop, wp_bind, wp_get]
      split
      · exact (nothingNew_purgeUncommitted files).bind (fun _ => ih) s h
      · exact h

/-- **The empty key cannot be put.**  Room may have been made before the put fails. -/
theorem bsBlockPutAsync_empty (now : ℕ) (dir : DirStat) (data : List UInt8) (s : FSBlockStore Key) :
    wp (bsBlockPutAsync now dir [] data) (fun _ _ => False) (fun _ s' => NothingNew s.files s') s := by
  have h₀ : NothingNew s.files s := fun _ _ => rfl
  simp only [bsBlockPutAsync, dif_pos, bsBlockPutEmpty, wp_bind, wp_get]
  split
  · exact h₀
  · exact wp_seq (nothingNew_purgeLoop s.files _ _ _ s h₀) (fun _ _ h => h) (fun _ _ h => h.2)

/-! ### Runs -/

/-- The operations of a client. -/
inductive Op (Key : Type)
  | put (k : Key) (data : List UInt8)
  | refreshStart (rid : ℕ)
  | refreshBlock (rid : ℕ) (k : Key)
  | refreshFinish (rid : ℕ)

/-- An operation that succeeded, as the client sees it. -/
inductive Event (Key : Type)
  | put (k : Key) (data : List UInt8)
  | refreshStart (rid : ℕ)
  | refreshBlock (rid : ℕ) (k : Key)
  | refreshFinish (rid : ℕ)
  /-- The operation failed, or the block to be refreshed was missing. -/
  | failed

/-- One operation at time `now`, with what the client is told. -/
def step (now : ℕ) : Op Key → M Key (Event Key)
  | .put k data => do bsBlockPut now k data; return .put k data
  | .refreshStart rid => do bsRefreshStart now rid; return .refreshStart rid
  | .refreshBlock rid k => do
      if ← bsRefreshBlock now rid k then return .refreshBlock rid k else return .failed
  | .refreshFinish rid => do bsRefreshFinish rid; return .refreshFinish rid

/-- A step as the client's history records it: a failed operation leaves the state as it stood
when the exception was raised. -/
def stepEvent (now : ℕ) (op : Op Key) (s : FSBlockStore Key) : Event Key × FSBlockStore Key :=
  match step now op s with
  | .ok ev s' => (ev, s')
  | .error _ s' => (.failed, s')

/-- The runs of a store of size `size` all of whose steps meet the condition `P` on the state before
the step and the operation: the state reached, the time of the last operation and the history,
newest first.  Time does not run backwards. -/
inductive RunWith (P : FSBlockStore Key → Op Key → Prop) (size : ℕ) :
    FSBlockStore Key → ℕ → List (Event Key) → Prop
  | create : RunWith P size (bsCreate size) 0 []
  | step {s : FSBlockStore Key} {t : ℕ} {h : List (Event Key)} (now : ℕ) (op : Op Key) :
      RunWith P size s t h → t ≤ now → P s op →
      RunWith P size (stepEvent now op s).2 now ((stepEvent now op s).1 :: h)

/-- All runs. -/
abbrev Run (size : ℕ) : FSBlockStore Key → ℕ → List (Event Key) → Prop :=
  RunWith (fun _ _ => True) size

end FSBS

end Utopfs
