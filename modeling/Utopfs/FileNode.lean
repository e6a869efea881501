/-
**Traversing, flushing, truncating and refreshing the block tree of a file.**

`FileNode.cpp`, `IndirectBlockNode.cpp`, `DoubleIndBlockNode.cpp`, `TripleIndBlockNode.cpp` and
`DataBlockNode.cpp` walk the tree of one file.  The three indirect classes differ in the class of
their children and in the span of a reference only, so each method is one definition here, by
recursion on the level; the steps that `FileNode` and the indirect nodes share are definitions on a
slot of the owner.

Main definitions:

* `UTFS.newFileNode`, `UTFS.loadFileNode` — the constructors of `FileNode`;
* `UTFS.findBlk`, `UTFS.traverseSlot`, `UTFS.rbTraverse`, `UTFS.rbTraverseFile` — `rb_traverse`;
* `UTFS.readBTF`, `UTFS.writeBTF`, `UTFS.fileRead`, `UTFS.fileWrite` — reading and writing;
* `UTFS.bnFlushBlk`, `UTFS.bnFlushFile` — `bn_flush`;
* `UTFS.rbTruncate`, `UTFS.rbTruncateFile`, `UTFS.fileTruncate` — `rb_truncate`;
* `UTFS.rbRefresh`, `UTFS.rbRefreshFile` — `rb_refresh`.
-/

import Utopfs.Node

set_option relaxedAutoImplicit false
set_option autoImplicit false

namespace Utopfs

namespace UTFS

variable (E : Env)

/-! ### Making block nodes -/

/-- `DataBlockNode()` and the default constructors of the indirect nodes. -/
def BlkNode.fresh (level : ℕ) : BlkNode where
  level := level
  zero := false
  ref := .nil
  isdirty := true
  data := fun _ => 0
  blkref := fun _ => .nil
  blkobj := fun _ => none

/-- The node made from the bytes of a stored block.  An indirect node has its references in these
bytes. -/
def BlkNode.stored (level : ℕ) (ref : BlockRef) (b : Block) : BlkNode where
  level := level
  zero := false
  ref := ref
  isdirty := false
  data := b
  blkref := unpackRefs b
  blkobj := fun _ => none

/-- The singleton for reading holes, whose slots all hold the one of the level below. -/
def BlkNode.zeroNode (level : ℕ) (below : Option ℕ) : BlkNode :=
  { BlkNode.fresh level with zero := true, isdirty := false, blkobj := fun _ => below }

/-- A new block node in the heap. -/
def allocBlk (b : BlkNode) : M ℕ := do
  let w ← get
  set { w.setBlk w.nblk b with nblk := w.nblk + 1 }
  return w.nblk

/-- `ZeroDataBlockNode()`, `ZeroIndirectBlockNode(m_zdatobj)` and so on. -/
def newZeroNode (level : ℕ) : M Unit := do
  let w ← get
  let n ← allocBlk (.zeroNode level (if level = 0 then none else w.zobj (level - 1)))
  modify fun w => { w with zobj := Function.update w.zobj level (some n) }

/-- The constructors from a reference. -/
def loadBlk (level : ℕ) (ref : BlockRef) : M ℕ := do
  let b ← readBlock E ref
  allocBlk (.stored level ref b)

/-- `dynamic_cast` of a handle to the class of a level, followed by its use. -/
def castBlk (level : ℕ) : Obj → M ℕ
  | .blk n => do
      let w ← get
      if (w.blk n).level = level then return n else throw .nullHandle
  | .fil _ => throw .nullHandle

/-- The block of a reference: from the clean cache, else from the block store; it then goes to the
clean cache unless `nocache` is set. -/
def faultBlk (nocache : Bool) (level : ℕ) (ref : BlockRef) : M ℕ := do
  match ← cacheLookup ref with
  | some o => castBlk level o
  | none =>
      let n ← loadBlk E level ref
      if !nocache then cacheInsert (.blk n)
      return n

/-! ### Making file nodes -/

/-- The bits `S_IFMT` of a mode. -/
def sIfmt : UInt32 := 0o170000

/-- The bits of a regular file. -/
def sIfreg : UInt32 := 0o100000

/-- The bits of a directory. -/
def sIfdir : UInt32 := 0o040000

/-- The bits of a symbolic link. -/
def sIflnk : UInt32 := 0o120000

/-- `S_ISDIR`. -/
def sIsdir (mode : UInt32) : Bool := mode &&& sIfmt = sIfdir

/-- `S_ISLNK`. -/
def sIslnk (mode : UInt32) : Bool := mode &&& sIfmt = sIflnk

/-- `FileNode(i_mode, i_uname, i_gname)`. -/
def FileNode.fresh (mode : UInt32) (uname gname : Str) (now : ℕ) : FileNode where
  cls := .file
  ref := .nil
  isdirty := true
  inode :=
    { mode := mode ||| sIfreg, nlink := 1, uname := uname, gname := gname, size := 0, atime := now,
      mtime := now, ctime := now, blocks := 1 }
  inl := fun _ => 0
  refs := fun _ => .nil
  qinref := .nil
  objs := fun _ => none
  dir := []
  dirty := []

/-- The node made from the bytes of a stored block and the inode that was parsed from them. -/
def FileNode.stored (ref : BlockRef) (b : Block) (inode : INode) : FileNode where
  cls := .file
  ref := ref
  isdirty := false
  inode := inode
  inl := unpackInl b
  refs := unpackRef b
  qinref := unpackRefAt b 23
  objs := fun _ => none
  dir := []
  dirty := []

/-- A new file node in the heap. -/
def allocFil (x : FileNode) : M ℕ := do
  let w ← get
  set { w.setFil w.nfil x with nfil := w.nfil + 1 }
  return w.nfil

/-- `new FileNode(i_mode, i_uname, i_gname)`. -/
def newFileNode (mode : UInt32) (uname gname : Str) : M ℕ := do
  let t ← now
  allocFil (.fresh mode uname gname t)

/-- `FileNode(i_ctxt, i_ref)`. -/
def readFileNode (ref : BlockRef) : M FileNode := do
  let b ← readBlock E ref
  match E.parseINode (unpackMsg b) with
  | some inode => return .stored ref b inode
  | none => throw (.internalError "inode deserialization failed")

/-- `new FileNode(i_ctxt, i_ref)`. -/
def loadFileNode (ref : BlockRef) : M ℕ := do
  let x ← readFileNode E ref
  allocFil x

/-- The program has started: nothing is stored, cached or open. -/
def World.boot (rand : List IV) (full : List Bool) (clock : ℕ → ℕ) : World where
  blk := fun _ => .fresh 0
  nblk := 0
  fil := fun _ => .fresh 0 [] [] 0
  nfil := 0
  cache := { nodemap := fun _ => none, nodemru := [], npos := 0, lpos := fun _ => none }
  log := []
  rand := rand
  full := full
  clock := clock
  ticks := 0
  zobj := fun _ => none
  rdh := none
  sdh := none
  version := none
  control := none
  rbr := .nil
  hn := none

/-! ### Traversal -/

/-- The arguments of `rb_traverse` that stay the same throughout: the file node, the flags
`RB_MODIFY_X` and `RB_NOCACHE`, the range and the functor.  The functor is given the data of a block,
its offset and the size of the file; it returns whether it changed the data, its new state and the
data. -/
structure Traversal (V : Type) where
  fn : ℕ
  modifyX : Bool
  nocache : Bool
  rngoff : ℕ
  rngsize : ℕ
  btVisit : V → (sz : ℕ) → (Fin sz → UInt8) → ℕ → ℕ → Bool × V × (Fin sz → UInt8)

variable {V : Type} (t : Traversal V)

/-- The offset just after the range. -/
def Traversal.rngend : ℕ := t.rngoff + t.rngsize

/-- Find the block object to use for a slot: the handle kept there, the clean cache, the block store,
a new block, or the zero singleton. -/
def findBlk (level : ℕ) (s : Slot) : M ℕ := do
  let w ← get
  match w.slotObj s with
  | some n => castBlk level (.blk n)
  | none =>
      if w.slotRef s ≠ .nil then faultBlk E t.nocache level (w.slotRef s)
      else if t.modifyX then
        let n ← allocBlk (.fresh level)
        setSlotObj s (some n)
        modifyINode t.fn fun i => { i with blocks := i.blocks + 1 }
        return n
      else
        match w.zobj level with
        | some n => return n
        | none => throw .nullHandle

/-- A changed block leaves the clean cache and is kept in its slot, whose owner is dirty too. -/
def keepDirty (s : Slot) (n : ℕ) : M Unit := do
  let w ← get
  cacheRemove (w.blk n).ref
  setSlotObj s (some n)
  setOwnerDirty s

/-- One block of a traversal; `visit` is the visit of the data block or the recursive call. -/
def traverseSlot (visit : ℕ → ℕ → V → M (Bool × V)) (level : ℕ) (s : Slot) (off : ℕ) (v : V) :
    M V := do
  let n ← findBlk E t level s
  let (changed, v) ← visit n off v
  if changed then
    if t.modifyX then
      if level = 0 then setBlkDirty n true
      keepDirty s n
    else
      match level, s with
      | 0, .sub _ _ => throw (.internalError "dirtied w/o RB_MODIFY")
      | _, _ => pure ()
  return v

/-- The loops over an array of slots: `count` of them from index `ndx` on, until one lies beyond the
range. -/
def traverseLoop (beyond : ℕ → Bool) (body : ℕ → V → M V) : ℕ → ℕ → V → M V
  | 0, _, v => return v
  | count + 1, ndx, v => do
      if beyond ndx then return v
      let v ← body ndx v
      traverseLoop beyond body count (ndx + 1) v

/-- The visit of a data block. -/
def visitData (n off : ℕ) (v : V) : M (Bool × V) := do
  let w ← get
  let (changed, v, data) := t.btVisit v 8192 (w.blk n).data off (w.fil t.fn).inode.size
  set (w.setBlk n { w.blk n with data := data })
  return (changed, v)

/-- `rb_traverse` of an indirect node of the given level (`IndirectBlockNode`, `DoubleIndBlockNode`
and `TripleIndBlockNode` for 1, 2 and 3); level 0 is the visit of a data block. -/
def rbTraverse : ℕ → ℕ → ℕ → V → M (Bool × V)
  | 0, n, off, v => visitData t n off v
  | level + 1, n, base, v => do
      let startoff := max t.rngoff base
      let v ←
        if t.rngend < base then pure v
        else
          let ndx := (startoff - base) / span level
          traverseLoop (fun i => t.rngend ≤ base + i * span level)
            (fun i v => traverseSlot E t (rbTraverse level) level (.sub n (Fin.ofNat 256 i))
              (base + i * span level) v)
            (256 - ndx) ndx v
      let w ← get
      return ((w.blk n).isdirty, v)

/-- The offset of the block under a reference field in the file. -/
def FSlot.base : FSlot → ℕ
  | .dir i => 4096 + i * 8192
  | .sin => 167936
  | .din => 2265088
  | .tin => 539136000

/-- The end of the block under a reference field. -/
def FSlot.top (s : FSlot) : ℕ := s.base + span s.level

/-- The largest file: the inline data, the direct blocks and the three trees. -/
def maxSize : ℕ := 4096 + 20 * 8192 + 256 * 8192 + 256 ^ 2 * 8192 + 256 ^ 3 * 8192

/-- The single, double and triple indirect references of `FileNode::rb_traverse`. -/
def traverseInd (f : ℕ) : List FSlot → V → M V
  | [], _ => throw (.internalError "more indirect block traversal implementation required")
  | s :: l, v => do
      let v ←
        if t.rngoff < s.top then traverseSlot E t (rbTraverse E t s.level) s.level (.fil f s) s.base v
        else pure v
      if t.rngend ≤ s.top then return v
      traverseInd f l v

/-- The inline block of `FileNode::rb_traverse`. -/
def traverseInl (f : ℕ) (v : V) : M V := do
  if t.rngoff < 4096 then
    let w ← get
    let (changed, v, inl) := t.btVisit v 4096 (w.fil f).inl 0 (w.fil f).inode.size
    set (w.setFil f { w.fil f with inl := inl })
    if changed then setFilDirty f true
    return v
  return v

/-- The direct references of `FileNode::rb_traverse`. -/
def traverseDir (f : ℕ) (v : V) : M V :=
  traverseLoop (fun i => t.rngend ≤ 4096 + i * 8192)
    (fun i v =>
      if t.rngoff < 4096 + i * 8192 + 8192 then
        traverseSlot E t (rbTraverse E t 0) 0 (.fil f (.dir (Fin.ofNat 20 i))) (4096 + i * 8192) v
      else return v)
    20 0 v

/-- The references of `FileNode::rb_traverse`. -/
def traverseRefs (f : ℕ) (v : V) : M V := do
  if t.rngend ≤ 4096 then return v
  let v ← if 167936 ≤ t.rngoff then pure v else traverseDir E t f v
  if t.rngend ≤ 167936 then return v
  traverseInd E t f [.sin, .din, .tin] v

/-- `FileNode::rb_traverse` from the base 0. -/
def rbTraverseFile (f : ℕ) (v : V) : M (Bool × V) := do
  let v ← traverseInl t f v
  let v ← traverseRefs E t f v
  let w ← get
  return ((w.fil f).isdirty, v)

/-! ### Reading and writing -/

/-- The state of `ReadBTF`: the buffer and the number of bytes read. -/
structure ReadState where
  buf : ℕ → UInt8
  retval : ℕ

/-- `ReadBTF::bt_visit`. -/
def readBTF (rdsize rdoff : ℕ) (v : ReadState) (blksize : ℕ) (blkdata : Fin blksize → UInt8)
    (blkoff filesz : ℕ) : Bool × ReadState × (Fin blksize → UInt8) :=
  let minoff := max rdoff blkoff
  let maxoff := min (min (rdoff + rdsize) (blkoff + blksize)) filesz
  if maxoff ≤ minoff then (false, v, blkdata)
  else
    (false,
      { buf := fun j =>
          if h : minoff ≤ rdoff + j ∧ rdoff + j < maxoff ∧ rdoff + j - blkoff < blksize then
            blkdata ⟨rdoff + j - blkoff, h.2.2⟩
          else v.buf j
        retval := v.retval + (maxoff - minoff) },
      blkdata)

/-- `FileNode::read`, into a buffer that holds `buf`; the result is the number of bytes and the
buffer. -/
def fileRead (f : ℕ) (buf : ℕ → UInt8) (size off : ℕ) : M (ℤ × (ℕ → UInt8)) :=
  tryCatch
    (do
      let (_, v) ← rbTraverseFile E
        { fn := f, modifyX := false, nocache := false, rngoff := off, rngsize := size,
          btVisit := readBTF size off } f ⟨buf, 0⟩
      return ((v.retval : ℤ), v.buf))
    fun ex =>
      match ex with
      -- A block we need is missing, fail this read with an IO error.
      | .notFoundError _ => return (-Errno.eio.code, buf)
      | .errno e => return (-e.code, buf)
      | ex => throw ex

/-- `WriteBTF::bt_visit`; the state is the number of bytes written. -/
def writeBTF (wrtdata : List UInt8) (wrtoff : ℕ) (retval : ℕ) (blksize : ℕ)
    (blkdata : Fin blksize → UInt8) (blkoff _filesz : ℕ) : Bool × ℕ × (Fin blksize → UInt8) :=
  let minoff := max wrtoff blkoff
  let maxoff := min (wrtoff + wrtdata.length) (blkoff + blksize)
  if maxoff ≤ minoff then (false, retval, blkdata)
  else
    (true, retval + (maxoff - minoff), fun j =>
      if minoff ≤ blkoff + j ∧ blkoff + j < maxoff then wrtdata.getD (blkoff + j - wrtoff) 0
      else blkdata j)

/-- `FileNode::write`. -/
def fileWrite (f : ℕ) (data : List UInt8) (off : ℕ) : M ℤ :=
  tryCatch
    (do
      let (changed, retval) ← rbTraverseFile E
        { fn := f, modifyX := true, nocache := false, rngoff := off, rngsize := data.length,
          btVisit := writeBTF data off } f 0
      if changed then
        modifyINode f fun i => { i with size := max (off + data.length) i.size }
        setFilDirty f true
      return retval)
    fun ex =>
      match ex with
      | .errno e => return -e.code
      | ex => throw ex

/-! ### Flushing -/

/-- `bn_persist` of a block node. -/
def persistBlk (n : ℕ) : M BlockRef := do
  let w ← get
  if (w.blk n).zero then
    throw (.internalError ("persisting the " ++ zeroName (w.blk n).level ++ " block makes me sad"))
  let contents := if (w.blk n).level = 0 then (w.blk n).data else packRefs (w.blk n).blkref
  persistBlock E contents (.blk (w.blk n).level)
    (fun r => modify fun w => w.setBlk n { w.blk n with ref := r })
    (setBlkDirty n false)

/-- Flush the object in a slot, if there is one: its reference takes the place of its handle, which
goes to the clean cache. -/
def flushSlot (flush : ℕ → M BlockRef) (s : Slot) : M Unit := do
  let w ← get
  match w.slotObj s with
  | none => pure ()
  | some c =>
      let r ← flush c
      setSlotRef s r
      cacheInsert (.blk c)
      setSlotObj s none

/-- `bn_flush` of a block node of the given level.  A data block is always written. -/
def bnFlushBlk : ℕ → ℕ → M BlockRef
  | 0, n => persistBlk E n
  | level + 1, n => do
      let w ← get
      if !(w.blk n).isdirty then return (w.blk n).ref
      forM (List.finRange 256) fun i => flushSlot (bnFlushBlk level) (.sub n i)
      persistBlk E n

/-- `FileNode::bn_persist`. -/
def persistFile (f : ℕ) : M BlockRef := do
  let w ← get
  let msg := E.serializeINode (w.fil f).inode
  if 3328 < msg.length then
    throw (.internalError "inode serialization error")
  persistBlock E (packINode (padded msg) (w.fil f).inl (w.fil f).refs (w.fil f).qinref) .inode
    (fun r => modify fun w => w.setFil f { w.fil f with ref := r })
    (setFilDirty f false)

/-- The reference fields in the order of `FileNode::bn_flush`. -/
def fslots : List FSlot := (List.finRange 20).map .dir ++ [.sin, .din, .tin]

/-- `FileNode::bn_flush`. -/
def bnFlushFile (f : ℕ) : M BlockRef := do
  let w ← get
  if !(w.fil f).isdirty then return (w.fil f).ref
  forM fslots fun s => flushSlot (bnFlushBlk E s.level) (.fil f s)
  persistFile E f

/-! ### Truncating -/

/-- The object for a slot that a truncation has to look into, if there is one. -/
def findExisting (level : ℕ) (s : Slot) : M (Option ℕ) := do
  let w ← get
  match w.slotObj s with
  | some n => some <$> castBlk level (.blk n)
  | none =>
      if w.slotRef s ≠ .nil then some <$> faultBlk E false level (w.slotRef s)
      else return none

/-- Remove the block of a slot, from the clean cache too. -/
def clearSlot (s : Slot) : M Unit := do
  let w ← get
  cacheRemove (w.slotRef s)
  setSlotRef s .nil
  setSlotObj s none
  setOwnerDirty s

/-- The truncation of a slot for a data block; the result is the number of blocks counted. -/
def truncateDataSlot (s : Slot) (off size : ℕ) : M ℕ := do
  let w ← get
  if off + 8192 ≤ size then
    return if (w.slotObj s).isSome ∨ w.slotRef s ≠ .nil then 1 else 0
  else if off < size then
    match ← findExisting E 0 s with
    | none => return 0
    | some n =>
        -- Zero the data after the truncation.
        modify fun w => w.setBlk n { w.blk n with
          data := fun j => if size - off ≤ j.1 then 0 else (w.blk n).data j }
        setBlkDirty n true
        keepDirty s n
        return 1
  else
    clearSlot s
    return 0

/-- The truncation of a slot that holds an indirect block which reaches into the file. -/
def truncateIndSlot (truncate : ℕ → M ℕ) (level : ℕ) (s : Slot) : M ℕ := do
  match ← findExisting E level s with
  | none => throw .nullHandle
  | some n =>
      let nb ← truncate n
      let w ← get
      if (w.blk n).isdirty then keepDirty s n
      -- Did it have child blocks?  If not purge it.
      if 1 < nb then return nb
      clearSlot s
      return 0

/-- Adding up the blocks counted in the slots of a list. -/
def sumM {α : Type} (body : α → M ℕ) : List α → M ℕ
  | [] => return 0
  | a :: l => do
      let n ← body a
      let k ← sumM body l
      return n + k

/-- `rb_truncate` of an indirect node of level `level + 1`. -/
def rbTruncate : ℕ → ℕ → ℕ → ℕ → M ℕ
  | 0, n, base, size => do
      let k ← sumM (fun i : Fin 256 => truncateDataSlot E (.sub n i) (base + i * 8192) size)
        (List.finRange 256)
      return 1 + k
  | level + 1, n, base, size => do
      let k ← sumM
        (fun i : Fin 256 => do
          let s := Slot.sub n i
          let off := base + i * span (level + 1)
          let w ← get
          if off < size then
            if (w.slotObj s).isSome ∨ w.slotRef s ≠ .nil then
              truncateIndSlot E (fun c => rbTruncate level c off size) (level + 1) s
            else return 0
          else
            clearSlot s
            return 0)
        (List.finRange 256)
      return 1 + k

/-- `FileNode::rb_truncate`.  When the size is within the inline data the offset advances twice; the
double and triple indirect blocks are not visited. -/
def rbTruncateFile (f size : ℕ) : M ℕ := do
  if size < 4096 then
    modify fun w => w.setFil f { w.fil f with
      inl := fun j => if size ≤ j.1 then 0 else (w.fil f).inl j }
    setFilDirty f true
  let off := if size < 4096 then 8192 else 4096
  let k ← sumM
    (fun i : Fin 20 => truncateDataSlot E (.fil f (.dir i)) (off + i * 8192) size)
    (List.finRange 20)
  let off := off + 20 * 8192
  let s := Slot.fil f .sin
  let w ← get
  let nb ←
    if (w.slotObj s).isSome ∨ w.slotRef s ≠ .nil then
      if off < size then truncateIndSlot E (fun c => rbTruncate E 0 c off size) 1 s
      else do
        clearSlot s
        pure 0
    else pure 0
  return 1 + k + nb

/-- `FileNode::truncate`. -/
def fileTruncate (f size : ℕ) : M Unit := do
  let nblocks ← rbTruncateFile E f size
  modifyINode f fun i => { i with blocks := nblocks, size := size }
  let t ← now
  modifyINode f fun i => { i with mtime := t }
  setFilDirty f true

/-! ### Refreshing -/

/-- `bs_refresh_blocks`: the keys that are missing.  It waits for the answers to its requests, so it
does not return when there are none. -/
def bsRefreshBlocks (rid : ℕ) (keys : List BlockRef) : M (List BlockRef) := do
  let w ← get
  if keys = [] then
    throw (.hang "bs_refresh_blocks of no keys")
  set { w with log := .refreshBlocks rid keys :: w.log }
  return keys.filter fun r => (getBlock r w.log).isNone

/-- The object for a reference that a refresh follows; it is not put in the clean cache. -/
def findRefresh (level : ℕ) (s : Slot) : M ℕ := do
  let w ← get
  match w.slotObj s with
  | some n => castBlk level (.blk n)
  | none => faultBlk E true level (w.slotRef s)

/-- The reference in a slot and, below it, the blocks of an indirect node. -/
def refreshSlot (refresh : ℕ → M ℕ) (level : ℕ) (s : Slot) : M ℕ := do
  let w ← get
  if w.slotRef s = .nil then return 0
  let n ← findRefresh E level s
  let k ← refresh n
  return 1 + k

/-- The references of an indirect node that are not nil. -/
def World.subKeys (w : World) (n : ℕ) : List BlockRef :=
  ((List.finRange 256).map (w.blk n).blkref).filter fun r => r ≠ .nil

/-- `rb_refresh` of an indirect node of level `level + 1`. -/
def rbRefresh (rid : ℕ) : ℕ → ℕ → M ℕ
  | 0, n => do
      let w ← get
      let missing ← bsRefreshBlocks rid (w.subKeys n)
      if missing ≠ [] then throw (.internalError "missing blocks encountered")
      return (w.subKeys n).length
  | level + 1, n => do
      let w ← get
      let k ← sumM (fun i => refreshSlot E (rbRefresh rid level) (level + 1) (.sub n i))
        (List.finRange 256)
      let missing ← bsRefreshBlocks rid (w.subKeys n)
      if missing ≠ [] then throw (.internalError "missing blocks encountered")
      return k

/-- The reference fields of a file node that are not nil. -/
def World.fileKeys (w : World) (f : ℕ) : List BlockRef :=
  (fslots.map (w.fil f).refs).filter fun r => r ≠ .nil

/-- `FileNode::rb_refresh`.  Missing blocks are only logged. -/
def rbRefreshFile (rid f : ℕ) : M ℕ := do
  let w ← get
  let k ← sumM (fun s => refreshSlot E (rbRefresh E rid (s.level - 1)) s.level (.fil f s))
    [.sin, .din, .tin]
  let _ ← bsRefreshBlocks rid ((w.fil f).ref :: w.fileKeys f)
  return 1 + (((List.finRange 20).map fun i => (w.fil f).refs (.dir i)).filter
    fun r => r ≠ .nil).length + k

end UTFS

end Utopfs
