/-
**The block store in an S3 bucket.**

`modules/S3BlockStore/S3BlockStore.cpp` keeps every block in an object of its own under `BLOCKS/`.
What it knows about the blocks is in memory: an entry for each block, for each refresh cycle in
progress (`BLOCKS/RID-<number>`) and for the mark left by the last finished cycle (`MARK`), indexed by
name (`m_entries`) and ordered by recency (`m_lru`, newest first).  The tokens and the mark have no
objects.  When a refresh cycle finishes, the entries are written to an index, once in a local file and
once in the object `MDNDX`; an opening reads one of the two, or lists the bucket if there is neither.

An entry object is in `m_entries` under its name, and in `m_lru` at most once; it can be in
`m_entries` and not in `m_lru`, because `purge_uncommitted` takes it out of the list only.  The name
therefore identifies the object, and erasing through the iterator of an entry that is not in the list
is what C++ leaves undefined.

S3 itself is a reliable map from names to objects.  The puts of this module run from their start to
their completion; `Utopfs/S3BlockStorePuts.lean` interleaves them.

Main definitions:

* `S3BS.Name`, `S3BS.Entry`, `S3BS.MDEntry`, `S3BS.S3BlockStore` — the state;
* `S3BS.touchEntry`, `S3BS.purgeUncommitted` — the two routines that move and drop entries;
* `S3BS.bsBlockGet`, `S3BS.bsBlockPut`, `S3BS.bsRefreshStart`, `S3BS.bsRefreshBlock`,
  `S3BS.bsRefreshFinish` — the operations of the store;
* `S3BS.bsOpen` — an opening through the index or the listing of the bucket.

Main results:

* `S3BS.object_putObject` — the bucket is a map;
* `S3BS.updatePutStats_new` — the end of a put.
-/

import Mathlib.Algebra.GroupWithZero.Nat
import Mathlib.Data.Int.Notation
import Mathlib.Data.Nat.Notation
import Mathlib.Logic.Function.Basic
import Mathlib.Tactic
import Utopfs.Except
import Utopfs.Prog
import Utopfs.Recency

set_option relaxedAutoImplicit false
set_option autoImplicit false
set_option linter.unusedSectionVars false

namespace Utopfs

namespace S3BS

open Prog

/-! ### The state -/

/-- The names of entries: `blockpath(entryname)`, `blockpath(ridname)` and `MARK`. -/
inductive Name (Key : Type)
  | block (k : Key)
  | rid (n : ℕ)
  | mark
  deriving DecidableEq

/-- What an entry object records beside its name. -/
structure Entry where
  tstamp : ℤ
  size : ℤ
  deriving DecidableEq

/-- An object in the bucket. -/
structure Object where
  data : List UInt8
  lastModified : ℤ
  deriving DecidableEq

/-- An entry of the metadata index; the numbers are of type `uint32`. -/
structure MDEntry (Key : Type) where
  name : Name Key
  mtime : BitVec 32
  size : Option (BitVec 32)
  deriving DecidableEq

/-- The store with its bucket.  `entry n` is the entry object of the name `n`; `mark` is the time
stamp of `m_mark`; `mdndxFile` and `mdndxObject` are the two copies of the index. -/
structure S3BlockStore (Key : Type) where
  size : ℤ
  committed : ℤ
  uncommitted : ℤ
  entry : Name Key → Entry
  entries : List (Name Key)
  lru : List (Name Key)
  mark : Option ℤ
  bucket : List (Name Key × Object)
  mdndxFile : Option (List (MDEntry Key))
  mdndxObject : Option (List (MDEntry Key))

variable {Key : Type} [DecidableEq Key]

instance : LawfulBEq (Name Key) := instLawfulBEq

/-- The operations run under the store's mutex. -/
abbrev M (Key : Type) := EStateM Exn (S3BlockStore Key)

/-- `bs_create`: a new bucket of the given size. -/
def bsCreate (size : ℕ) : S3BlockStore Key where
  size := size
  committed := 0
  uncommitted := 0
  entry := fun _ => ⟨0, 0⟩
  entries := []
  lru := []
  mark := none
  bucket := []
  mdndxFile := none
  mdndxObject := none

/-! ### The bucket -/

/-- The object of a name. -/
def S3BlockStore.object (s : S3BlockStore Key) (n : Name Key) : Option Object :=
  (s.bucket.find? fun x => x.1 = n).map Prod.snd

/-- The bucket without the object of a name. -/
def dropObject (n : Name Key) (b : List (Name Key × Object)) : List (Name Key × Object) :=
  b.filter fun x => x.1 ≠ n

/-- `S3_put_object`. -/
def S3BlockStore.putObject (s : S3BlockStore Key) (n : Name Key) (o : Object) : S3BlockStore Key :=
  { s with bucket := (n, o) :: dropObject n s.bucket }

/-- `S3_delete_object`; deleting what is not there succeeds. -/
def S3BlockStore.deleteObject (s : S3BlockStore Key) (n : Name Key) : S3BlockStore Key :=
  { s with bucket := dropObject n s.bucket }

/-! ### The entry table and the LRU list -/

/-- Overwriting an entry object. -/
def S3BlockStore.setEntry (s : S3BlockStore Key) (n : Name Key) (e : Entry) : S3BlockStore Key :=
  { s with entry := Function.update s.entry n e }

/-- `m_lru.erase(eh->m_listpos)`. -/
def lruErase (n : Name Key) : M Key Unit := do
  let s ← get
  if n ∈ s.lru then
    set { s with lru := s.lru.filter fun m => m ≠ n }
  else
    throw (.undefined "m_lru.erase of an invalid iterator")

/-- `touch_entry`: move the entry of that name to the recent end, making one if there is none and
`plsinsert` says so.  The result is whether the block is there. -/
def touchEntry (n : Name Key) (mtime size : ℤ) (plsinsert : Bool) : M Key Bool := do
  let s ← get
  if n ∈ s.entries then
    -- Remove from current location in LRU list.
    lruErase n
    let size' := if size ≠ 0 then size else (s.entry n).size
    modify fun s => { s.setEntry n ⟨mtime, size'⟩ with lru := n :: s.lru }
    -- If we don't have a size then we don't have the block.
    return decide (0 < size')
  else if plsinsert then
    set { s.setEntry n ⟨mtime, size⟩ with entries := n :: s.entries, lru := n :: s.lru }
    return true
  else
    return false

/-- `purge_uncommitted` up to where it releases the mutex: the oldest entry leaves the list. -/
def purgePop : M Key (Name Key) := do
  let s ← get
  match s.lru.getLast?, s.mark with
  | none, _ => throw (.internalError "Shouldn't find LRU list empty here")
  | some _, none => throw (.internalError "MARK needs to be set to purge uncommitted")
  | some n, some m =>
      -- It needs to be older than the MARK (we have to grant equal here).
      if m < (s.entry n).tstamp then
        throw (.internalError "LRU block on list is more recent then MARK")
      set { s with lru := s.lru.dropLast }
      return n

/-- The end of `purge_uncommitted`: update the accounting. -/
def purgeCharge (n : Name Key) : M Key Unit :=
  modify fun s => { s with uncommitted := s.uncommitted - (s.entry n).size }

/-- `purge_uncommitted`. -/
def purgeUncommitted : M Key Unit := do
  let n ← purgePop
  modify fun s => s.deleteObject n
  purgeCharge n

/-! ### Getting and putting blocks -/

/-- `bs_block_get_async`, for a buffer of `buffsize` bytes. -/
def bsBlockGet (k : Key) (buffsize : ℕ) : M Key (List UInt8) := do
  let s ← get
  if .block k ∉ s.entries then throw (.notFoundError "not in entries")
  match s.object (.block k) with
  | none => throw (.notFoundError "not found")
  | some o => return o.data.take buffsize

/-- How far a put of `blksize` bytes would overfill the store, in the store's own counters. -/
def S3BlockStore.excess (s : S3BlockStore Key) (blksize : ℕ) : ℤ :=
  s.committed + blksize + s.uncommitted - s.size

/-- The loop that removes uncommitted blocks to make room for a block.  An iteration that does not
throw shortens the list, so one more than its length bounds their number. -/
def purgeLoop (blksize : ℕ) : ℕ → M Key Unit
  | 0 => pure ()
  | fuel + 1 => do
      let s ← get
      if 0 < s.excess blksize then
        purgeUncommitted
        purgeLoop blksize fuel

/-- `update_put_stats` at time `now`. -/
def updatePutStats (now : ℕ) (k : Key) (blksize : ℕ) : M Key Unit := do
  modify fun s => { s with committed := s.committed + blksize }
  let _ ← touchEntry (.block k) now blksize true

/-- `bs_block_put_async` at time `now`, from its start to the call of `bp_complete`. -/
def bsBlockPut (now : ℕ) (k : Key) (data : List UInt8) : M Key Unit := do
  let s ← get
  -- Do we already have this block?
  if .block k ∈ s.entries then return ()
  if s.size - s.committed < data.length then
    throw (.noSpaceError "insufficent space")
  purgeLoop data.length (s.lru.length + 1)
  modify fun s => s.putObject (.block k) ⟨data, now⟩
  updatePutStats now k data.length

/-! ### Refresh cycles -/

/-- `bs_refresh_start_async`. -/
def bsRefreshStart (now rid : ℕ) : M Key Unit := do
  let s ← get
  if .rid rid ∈ s.entries then
    throw (.notUniqueError "refresh id already exists")
  let _ ← touchEntry (.rid rid) now (-1) true

/-- `bs_refresh_block_async`; the result says whether the block was there. -/
def bsRefreshBlock (now rid : ℕ) (k : Key) : M Key Bool := do
  let s ← get
  if .rid rid ∉ s.entries then
    throw (.notFoundError "refresh id not found")
  -- Update the entries, don't create new ones.
  touchEntry (.block k) now 0 false

/-- The recorded bytes in front of and behind the `MARK` of a list of names: the sums that
`bs_refresh_finish` and `bs_open` compute. -/
def sumLru (entry : Name Key → Entry) : List (Name Key) → ℤ × ℤ
  | [] => (0, 0)
  | n :: l =>
      if n = .mark then (0, (l.map fun m => (entry m).size).sum)
      else ((entry n).size + (sumLru entry l).1, (sumLru entry l).2)

/-- `bs_refresh_finish`: remove the MARK entry, if there is one. -/
def removeMark : M Key Unit := do
  let s ← get
  if .mark ∈ s.entries then
    set { s with entries := s.entries.erase .mark }
    lruErase .mark

/-- `bs_refresh_finish`: the entry of the refresh token takes the name of the mark and stays at its
place in the LRU list with its time stamp. -/
def renameToken (rid : ℕ) : M Key Unit :=
  modify fun s =>
    { s.setEntry .mark (s.entry (.rid rid)) with
      entries := .mark :: s.entries.erase (.rid rid)
      lru := s.lru.map fun n => if n = .rid rid then .mark else n }

/-- `bs_refresh_finish`: add up all the committed memory, and note the MARK when it is seen. -/
def addUp : M Key Unit :=
  modify fun s =>
    { s with
      committed := (sumLru s.entry s.lru).1
      uncommitted := (sumLru s.entry s.lru).2
      mark := if .mark ∈ s.lru then some (s.entry .mark).tstamp else s.mark }

/-! ### The metadata index -/

section index

-- The order of the names, as strings.
variable (lessByName : Name Key → Name Key → Bool)

/-- Insertion into a set that is ordered by name. -/
def setInsert (n : Name Key) : List (Name Key) → List (Name Key)
  | [] => [n]
  | m :: l => if lessByName n m then n :: m :: l else m :: setInsert n l

/-- The names in `m_entries` in the order of the set. -/
def S3BlockStore.inOrder (s : S3BlockStore Key) : List (Name Key) :=
  s.entries.foldr (setInsert lessByName) []

/-- The index entry of an entry. -/
def mdEntry (entry : Name Key → Entry) (n : Name Key) : MDEntry Key :=
  ⟨n, BitVec.ofInt 32 (entry n).tstamp,
    if (entry n).size ≠ 0 then some (BitVec.ofInt 32 (entry n).size) else none⟩

/-- The index of everything in the collection. -/
def S3BlockStore.mdIndex (s : S3BlockStore Key) : List (MDEntry Key) :=
  (s.inOrder lessByName).map (mdEntry s.entry)

/-- `bs_refresh_finish_async`. -/
def bsRefreshFinish (rid : ℕ) : M Key Unit := do
  let s ← get
  if .rid rid ∉ s.entries then
    throw (.notFoundError "refresh id not found")
  removeMark
  renameToken rid
  addUp
  -- Write it in a plain file, and in the bucket.
  modify fun s =>
    { s with
      mdndxFile := some (s.mdIndex lessByName)
      mdndxObject := some (s.mdIndex lessByName) }

end index

/-! ### Opening a store -/

/-- `parse_mdndx_entries`: the entry of an index entry.  The mark is inserted special. -/
def parseEntry (x : MDEntry Key) : Name Key × Entry :=
  (x.name, ⟨x.mtime.toInt,
    if x.name = .mark then 0 else ((x.size.getD 0).toNat : ℤ)⟩)

/-- `EntryListHandler::lh_item`: the entry of an object. -/
def listEntry (x : Name Key × Object) : Name Key × Entry :=
  -- BOGUS - there is a terrible TZ problem here!
  (x.1, ⟨x.2.lastModified - 7 * 60 * 60, x.2.data.length⟩)

section opening

variable (lessByName : Name Key → Name Key → Bool)

/-- The objects of the bucket, by name, as S3 lists them. -/
def S3BlockStore.listing (s : S3BlockStore Key) : List (Name Key × Object) :=
  ((s.bucket.map Prod.fst).foldr (setInsert lessByName) []).filterMap fun n =>
    (s.object n).map fun o => (n, o)

/-- The entries an opening starts from: the saved file, else the object, else the listing. -/
def S3BlockStore.saved (s : S3BlockStore Key) : List (Name Key × Entry) :=
  match s.mdndxFile, s.mdndxObject with
  | some l, _ => l.map parseEntry
  | none, some l => l.map parseEntry
  | none, none => (s.listing lessByName).map listEntry

/-- The entry objects made of a list of entries. -/
def entryMap (l : List (Name Key × Entry)) (n : Name Key) : Entry :=
  ((l.find? fun x => x.1 = n).map Prod.snd).getD ⟨0, 0⟩

/-- `bs_open` of a store: the entries are unrolled from recent to oldest. -/
def bsOpen (s : S3BlockStore Key) : S3BlockStore Key :=
  let ets := Recency.sortBy (fun x : Name Key × Entry => x.2.tstamp) (s.saved lessByName)
  let lru := (ets.map Prod.fst).reverse
  let entry := entryMap (s.saved lessByName)
  { s with
    committed := (sumLru entry lru).1
    uncommitted := (sumLru entry lru).2
    entry := entry
    entries := (s.saved lessByName).map Prod.fst
    lru := lru
    mark := if .mark ∈ lru then some (entry .mark).tstamp else none }

end opening

/-! ### Runs -/

/-- The operations of a client that change the store. -/
inductive Op (Key : Type)
  | put (k : Key) (data : List UInt8)
  | refreshStart (rid : ℕ)
  | refreshBlock (rid : ℕ) (k : Key)
  | refreshFinish (rid : ℕ)

/-- An operation that succeeded, as the client sees it. -/
inductive Event (Key : Type)
  | put (k : Key) (data : List UInt8)
  | refreshStart (rid : ℕ)
  | refreshBlock (rid : ℕ) (k : Key)
  | refreshFinish (rid : ℕ)
  /-- The operation failed, or the block to be refreshed was missing. -/
  | failed

section runs

variable (lessByName : Name Key → Name Key → Bool)

/-- One operation at time `now`, with what the client is told. -/
def step (now : ℕ) : Op Key → M Key (Event Key)
  | .put k data => do bsBlockPut now k data; return .put k data
  | .refreshStart rid => do bsRefreshStart now rid; return .refreshStart rid
  | .refreshBlock rid k => do
      if ← bsRefreshBlock now rid k then return .refreshBlock rid k else return .failed
  | .refreshFinish rid => do bsRefreshFinish lessByName rid; return .refreshFinish rid

/-- A step as the client's history records it: a failed operation leaves the state as it stood
when the exception was raised. -/
def stepEvent (now : ℕ) (op : Op Key) (s : S3BlockStore Key) : Event Key × S3BlockStore Key :=
  match step lessByName now op s with
  | .ok ev s' => (ev, s')
  | .error _ s' => (.failed, s')

/-- The runs of a store of size `size` all of whose steps meet the condition `P` on the state before
the step and the operation: the state reached, the time of the last operation and the history,
newest first.  Time does not run backwards, and the store is the one that `bs_create` has made; the runs of
`Utopfs/S3BlockStoreStored.lean` go on over openings. -/
inductive RunWith (P : S3BlockStore Key → Op Key → Prop) (size : ℕ) :
    S3BlockStore Key → ℕ → List (Event Key) → Prop
  | create : RunWith P size (bsCreate size) 0 []
  | step {s : S3BlockStore Key} {t : ℕ} {h : List (Event Key)} (now : ℕ) (op : Op Key) :
      RunWith P size s t h → t ≤ now → P s op →
      RunWith P size (stepEvent lessByName now op s).2 now ((stepEvent lessByName now op s).1 :: h)

/-- All runs. -/
abbrev Run (size : ℕ) : S3BlockStore Key → ℕ → List (Event Key) → Prop :=
  RunWith lessByName (fun _ _ => True) size

end runs

/-! ### The bucket as a map -/

theorem object_putObject (s : S3BlockStore Key) (n : Name Key) (o : Object) :
    (s.putObject n o).object n = some o := by
  simp [S3BlockStore.object, S3BlockStore.putObject]

theorem object_putObject_of_ne (s : S3BlockStore Key) {n m : Name Key} (h : n ≠ m) (o : Object) :
    (s.putObject n o).object m = s.object m := by
  simp only [S3BlockStore.object, S3BlockStore.putObject, dropObject, List.find?_cons, h, decide_false,
    List.find?_filter]
  refine congrArg (Option.map Prod.snd) (congrArg (fun p => s.bucket.find? p) ?_)
  funext x
  by_cases hx : x.1 = m
  · subst hx
    simp [Ne.symm h]
  · simp [hx]

/-- The object of a name depends on the bucket only. -/
theorem object_congr {s s' : S3BlockStore Key} (h : s'.bucket = s.bucket) (n : Name Key) :
    s'.object n = s.object n := by
  simp only [S3BlockStore.object, h]

/-! ### The end of a put -/

/-- The routine at the end of an upload, for a block that the store does not know. -/
theorem updatePutStats_new {s : S3BlockStore Key} {k : Key} (hk : .block k ∉ s.entries)
    (now blksize : ℕ) :
    updatePutStats now k blksize s = .ok ()
      { s.setEntry (.block k) ⟨now, blksize⟩ with
        committed := s.committed + blksize
        entries := .block k :: s.entries
        lru := .block k :: s.lru } := by
  simp only [updatePutStats, touchEntry, bind_apply, modify_apply, get_apply, hk, if_false, if_true,
    set_apply, pure_apply]
  rfl

/-- An order of the names for keys that are numbers: every name under `BLOCKS/` comes before `MARK`. -/
def Name.less : Name ℕ → Name ℕ → Bool
  | .block k, .block k' => k < k'
  | .block _, _ => true
  | .rid _, .block _ => false
  | .rid n, .rid n' => n < n'
  | .rid _, .mark => true
  | .mark, _ => false

end S3BS

end Utopfs
