/-
**The nodes of the file system.**

`modules/UTFileSystem` keeps a file system as a tree of blocks of 8192 bytes.  An inode holds the
metadata, the first 4096 bytes of the file and 24 references; a reference names a data block or an
indirect block, which is an array of 256 references; the levels of indirection are one, two and
three.  In memory every block is a node object.  Nodes refer to the nodes below them in two ways:
by the reference of the stored block, and, for a block that has been changed since, by a handle.

Handles are shared: the clean cache holds handles to nodes that agree with their stored block, the
same nodes that a traversal then changes.  Nodes are therefore objects in a heap, named by numbers.

Main definitions:

* `UTFS.BlockRef`, `UTFS.Env` — references, and the libraries the code calls: the cipher, the digest
  and the serialization of inodes and directories;
* `UTFS.packRefs`, `UTFS.packINode` — the layout of indirect blocks and of inodes;
* `UTFS.BlkNode`, `UTFS.FileNode`, `UTFS.BlockNodeCache`, `UTFS.World` — the state;
* `UTFS.cacheInsert`, `UTFS.cacheLookup`, `UTFS.cacheRemove` — the clean cache;
* `UTFS.bsBlockGet`, `UTFS.bsBlockPut` — the block store.
-/

import Mathlib.Data.Fintype.Basic
import Mathlib.Data.Fintype.Pi
import Mathlib.Data.List.Sort
import Mathlib.Data.Nat.Notation
import Mathlib.Logic.Function.Basic
import Utopfs.Except
import Utopfs.Prog

set_option relaxedAutoImplicit false
set_option autoImplicit false

namespace Utopfs

namespace UTFS

/-! ### Sizes -/

/-- The bytes under one block: a data block is level 0 and has `BLKSZ` bytes, an indirect block of
level `ℓ + 1` holds `NUMREF` blocks of level `ℓ`. -/
def span : ℕ → ℕ
  | 0 => 8192
  | ℓ + 1 => 256 * span ℓ

theorem span_pos (ℓ : ℕ) : 0 < span ℓ := by
  induction ℓ with
  | zero => decide
  | succ ℓ ih => exact Nat.mul_pos (by decide) ih

/-- The contents of a block. -/
abbrev Block := Fin 8192 → UInt8

/-- A `std::string`. -/
abbrev Str := List UInt8

/-- An initialization vector of the cipher. -/
abbrev IV := Fin 16 → UInt8

/-! ### References -/

/-- The 32 bytes `m_ref` of a `BlockRef`. -/
abbrev BlockRef := Fin 32 → UInt8

/-- The nil reference. -/
def BlockRef.nil : BlockRef := fun _ => 0

/-- A reference from a digest and an initvec. -/
def BlockRef.make (dig : Fin 16 → UInt8) (iv : IV) : BlockRef := fun i =>
  if h : i.1 < 16 then dig ⟨i, h⟩ else iv ⟨i - 16, by omega⟩

/-- The digest portion of a reference. -/
def BlockRef.dig (r : BlockRef) : Fin 16 → UInt8 := fun i => r ⟨i, by omega⟩

/-- The initvector portion of a reference. -/
def BlockRef.iv (r : BlockRef) : IV := fun i => r ⟨16 + i, by omega⟩

@[simp] theorem BlockRef.dig_make (d : Fin 16 → UInt8) (iv : IV) : (BlockRef.make d iv).dig = d := by
  funext i
  simp [BlockRef.dig, BlockRef.make]

@[simp] theorem BlockRef.iv_make (d : Fin 16 → UInt8) (iv : IV) : (BlockRef.make d iv).iv = iv := by
  funext i
  simp [BlockRef.iv, BlockRef.make]

theorem BlockRef.iv_nil : BlockRef.nil.iv = fun _ => 0 := rfl

/-! ### Inodes and directories -/

/-- The `INode` message.  Times are in microseconds. -/
structure INode where
  mode : UInt32
  nlink : UInt32
  uname : Str
  gname : Str
  size : ℕ
  atime : ℕ
  mtime : ℕ
  ctime : ℕ
  blocks : ℕ
  deriving DecidableEq

/-- The `Directory` message: the entries in their order, each a name and a reference. -/
abbrev Directory := List (Str × BlockRef)

/-- A message at the start of a cleared area. -/
def padded (msg : List UInt8) : Fin 3328 → UInt8 := fun i => msg.getD i 0

/-- The libraries the code calls.  The cipher and the digest are those of the key of the file
system; the messages are encoded by protocol buffers, whose parser stops at the zero bytes that
follow a message. -/
structure Env where
  encrypt : IV → Block → Block
  decrypt : IV → Block → Block
  decrypt_encrypt : ∀ iv b, decrypt iv (encrypt iv b) = b
  /-- The cipher on a reference, with the zero initvec. -/
  encryptRef : BlockRef → BlockRef
  decryptRef : BlockRef → BlockRef
  decryptRef_encryptRef : ∀ r, decryptRef (encryptRef r) = r
  /-- The first 16 bytes of the digest of a block. -/
  digest : Block → Fin 16 → UInt8
  serializeINode : INode → List UInt8
  parseINode : (Fin 3328 → UInt8) → Option INode
  parseINode_serializeINode : ∀ i, (serializeINode i).length ≤ 3328 →
    parseINode (padded (serializeINode i)) = some i
  serializeDir : Directory → List UInt8
  parseDir : List UInt8 → Option Directory
  parseDir_serializeDir : ∀ d, parseDir (serializeDir d) = some d

/-! ### Layouts -/

/-- The bytes of the references of an indirect block. -/
def packRefs (refs : Fin 256 → BlockRef) : Block := fun k =>
  refs ⟨k / 32, by omega⟩ ⟨k % 32, by omega⟩

/-- The references in the bytes of an indirect block. -/
def unpackRefs (b : Block) : Fin 256 → BlockRef := fun i j => b ⟨32 * i + j, by omega⟩

@[simp] theorem unpackRefs_packRefs (refs : Fin 256 → BlockRef) :
    unpackRefs (packRefs refs) = refs := by
  funext i j
  have hi : (32 * i.1 + j.1) / 32 = i.1 := by omega
  have hj : (32 * i.1 + j.1) % 32 = j.1 := by omega
  simp only [unpackRefs, packRefs, hi, hj]

/-- The reference fields of an inode that the code follows. -/
inductive FSlot
  | dir (i : Fin 20)
  | sin
  | din
  | tin
  deriving DecidableEq

instance twenty_neZero : @NeZero ℕ Zero.ofOfNat0 20 := ⟨Nat.succ_ne_zero 19⟩

/-- The level of the block under a reference field. -/
def FSlot.level : FSlot → ℕ
  | .dir _ => 0
  | .sin => 1
  | .din => 2
  | .tin => 3

/-- The place of a reference field among the 24 references of an inode. -/
def FSlot.index : FSlot → ℕ
  | .dir i => i
  | .sin => 20
  | .din => 21
  | .tin => 22

/-- The reference field at a place; the last place is the quad indirect reference. -/
def FSlot.ofIndex (i : ℕ) : Option FSlot :=
  if h : i < 20 then some (.dir ⟨i, h⟩)
  else if i = 20 then some .sin
  else if i = 21 then some .din
  else if i = 22 then some .tin
  else none

theorem FSlot.index_lt (s : FSlot) : s.index < 23 := by
  cases s with
  | dir i => exact Nat.lt_trans i.2 (by decide)
  | sin => decide
  | din => decide
  | tin => decide

theorem FSlot.ofIndex_index (s : FSlot) : FSlot.ofIndex s.index = some s := by
  cases s with
  | dir i => simp [FSlot.ofIndex, FSlot.index]
  | sin => rfl
  | din => rfl
  | tin => rfl

/-- The bytes of an inode block: the message, the inline data and the references. -/
def packINode (msg : Fin 3328 → UInt8) (inl : Fin 4096 → UInt8) (refs : FSlot → BlockRef)
    (qinref : BlockRef) : Block := fun k =>
  if h : k.1 < 3328 then msg ⟨k, h⟩
  else if h' : k.1 < 7424 then inl ⟨k - 3328, by omega⟩
  else
    ((FSlot.ofIndex ((k - (7424)) / 32)).elim qinref refs)
      ⟨(k - (7424)) % 32, by omega⟩

/-- The message area of an inode block. -/
def unpackMsg (b : Block) : Fin 3328 → UInt8 := fun i => b ⟨i, by omega⟩

/-- The inline data of an inode block. -/
def unpackInl (b : Block) : Fin 4096 → UInt8 := fun i => b ⟨3328 + i, by omega⟩

/-- The reference at a place of an inode block. -/
def unpackRefAt (b : Block) (i : Fin 24) : BlockRef := fun j =>
  b ⟨7424 + 32 * i + j, by omega⟩

/-- A reference field of an inode block. -/
def unpackRef (b : Block) (s : FSlot) : BlockRef :=
  unpackRefAt b ⟨s.index, by have := s.index_lt; omega⟩

section layout

variable (msg : Fin 3328 → UInt8) (inl : Fin 4096 → UInt8) (refs : FSlot → BlockRef)
  (qinref : BlockRef)

@[simp] theorem unpackMsg_packINode : unpackMsg (packINode msg inl refs qinref) = msg := by
  funext i
  simp [unpackMsg, packINode]

@[simp] theorem unpackInl_packINode : unpackInl (packINode msg inl refs qinref) = inl := by
  funext i
  have h₁ : ¬ 3328 + i.1 < 3328 := by omega
  have h₂ : 3328 + i.1 < 7424 := by omega
  simp only [unpackInl, packINode, h₁, h₂, dif_neg, dif_pos, not_false_eq_true,
    Nat.add_sub_cancel_left]

theorem unpackRefAt_packINode (i : Fin 24) :
    unpackRefAt (packINode msg inl refs qinref) i = (FSlot.ofIndex i).elim qinref refs := by
  funext j
  have h₁ : ¬ 7424 + 32 * i.1 + j.1 < 3328 := by omega
  have h₂ : ¬ 7424 + 32 * i.1 + j.1 < 7424 := by omega
  have h₃ : (7424 + 32 * i.1 + j.1 - (7424)) / 32 = i.1 := by omega
  have h₄ : (7424 + 32 * i.1 + j.1 - (7424)) % 32 = j.1 := by omega
  simp only [unpackRefAt, packINode, h₁, h₂, dif_neg, not_false_eq_true, h₃, h₄]

@[simp] theorem unpackRef_packINode : unpackRef (packINode msg inl refs qinref) = refs := by
  funext s
  rw [unpackRef, unpackRefAt_packINode]
  simp [FSlot.ofIndex_index]

@[simp] theorem unpackRefAt_packINode_qin :
    unpackRefAt (packINode msg inl refs qinref) 23 = qinref := by
  rw [unpackRefAt_packINode]
  rfl

end layout

/-! ### The state -/

/-- A `DataBlockNode` (level 0) or an indirect block node of level 1, 2 or 3.  The bytes `data` are
those of a data block, the arrays `blkref` and `blkobj` those of an indirect one.  The nodes with
`zero` set are the singletons for reading holes. -/
structure BlkNode where
  level : ℕ
  zero : Bool
  ref : BlockRef
  isdirty : Bool
  data : Block
  blkref : Fin 256 → BlockRef
  blkobj : Fin 256 → Option ℕ

/-- The classes derived from `FileNode`. -/
inductive Cls
  | file
  | symlink
  | dir
  | specialFile
  | specialDir
  deriving DecidableEq

/-- `dynamic_cast<DirNode *>` succeeds. -/
def Cls.isDir : Cls → Bool
  | .dir => true
  | .specialDir => true
  | _ => false

/-- A `FileNode`.  The last two fields are those of a `DirNode`: the entries of the directory, and
its dirty nodes in the order of their names. -/
structure FileNode where
  cls : Cls
  ref : BlockRef
  isdirty : Bool
  inode : INode
  inl : Fin 4096 → UInt8
  refs : FSlot → BlockRef
  qinref : BlockRef
  objs : FSlot → Option ℕ
  dir : Directory
  dirty : List (Str × ℕ)

/-- A handle to a node. -/
inductive Obj
  | blk (n : ℕ)
  | fil (f : ℕ)
  deriving DecidableEq

/-- The clean cache.  The elements of `nodemru` are pairs of a list node and a handle; `lpos` is
the iterator that each node keeps. -/
structure BlockNodeCache where
  nodemap : BlockRef → Option Obj
  nodemru : List (ℕ × Obj)
  npos : ℕ
  lpos : Obj → Option ℕ

/-- What a stored block is.  The store does not know this; it is recorded for the proofs. -/
inductive Kind
  | blk (level : ℕ)
  | inode
  deriving DecidableEq

/-- What the block store is told, besides being read. -/
inductive Effect
  | put (key : BlockRef) (data : Block) (kind : Kind)
  | headInsert (prev : Option BlockRef) (root : BlockRef)
  | refreshStart (rid : ℕ)
  | refreshBlocks (rid : ℕ) (keys : List BlockRef)
  | refreshFinish (rid : ℕ)

/-- The heap of nodes, the clean cache, the history of the block store (newest first), the random
bytes and clock readings to come, the puts that will find no space, and the members of
`UTFileSystem`. -/
structure World where
  blk : ℕ → BlkNode
  nblk : ℕ
  fil : ℕ → FileNode
  nfil : ℕ
  cache : BlockNodeCache
  log : List Effect
  rand : List IV
  full : List Bool
  clock : ℕ → ℕ
  ticks : ℕ
  /-- The zero singleton of each level. -/
  zobj : ℕ → Option ℕ
  /-- The root directory, its special directory and the special files there. -/
  rdh : Option ℕ
  sdh : Option ℕ
  version : Option ℕ
  control : Option ℕ
  /-- The last root reference, and the reference in the head node. -/
  rbr : BlockRef
  hn : Option BlockRef

/-- The code runs under the file system's lock. -/
abbrev M := EStateM Exn World

/-! ### Fields of the heap -/

/-- Overwriting a block node. -/
def World.setBlk (w : World) (n : ℕ) (b : BlkNode) : World :=
  { w with blk := Function.update w.blk n b }

/-- Overwriting a file node. -/
def World.setFil (w : World) (f : ℕ) (x : FileNode) : World :=
  { w with fil := Function.update w.fil f x }

/-- The fields through which a node holds the blocks below it. -/
inductive Slot
  | fil (f : ℕ) (s : FSlot)
  | sub (n : ℕ) (i : Fin 256)
  deriving DecidableEq

/-- The level of the block in a slot. -/
def World.slotLevel (w : World) : Slot → ℕ
  | .fil _ s => s.level
  | .sub n _ => (w.blk n).level - 1

/-- The reference in a slot. -/
def World.slotRef (w : World) : Slot → BlockRef
  | .fil f s => (w.fil f).refs s
  | .sub n i => (w.blk n).blkref i

/-- The handle in a slot. -/
def World.slotObj (w : World) : Slot → Option ℕ
  | .fil f s => (w.fil f).objs s
  | .sub n i => (w.blk n).blkobj i

/-- Setting the reference in a slot. -/
def World.setSlotRef (w : World) : Slot → BlockRef → World
  | .fil f s, r => w.setFil f { w.fil f with refs := Function.update (w.fil f).refs s r }
  | .sub n i, r => w.setBlk n { w.blk n with blkref := Function.update (w.blk n).blkref i r }

/-- Setting the handle in a slot. -/
def World.setSlotObj (w : World) : Slot → Option ℕ → World
  | .fil f s, o => w.setFil f { w.fil f with objs := Function.update (w.fil f).objs s o }
  | .sub n i, o => w.setBlk n { w.blk n with blkobj := Function.update (w.blk n).blkobj i o }

/-- Setting the reference in a slot. -/
def setSlotRef (s : Slot) (r : BlockRef) : M Unit := modify fun w => w.setSlotRef s r

/-- Setting the handle in a slot. -/
def setSlotObj (s : Slot) (o : Option ℕ) : M Unit := modify fun w => w.setSlotObj s o

/-- The zero singleton of a level in the texts of errors. -/
def zeroName : ℕ → String
  | 0 => "zero data"
  | 1 => "zero indirect"
  | 2 => "zero double indirect"
  | _ => "zero triple indirect"

/-- `bn_isdirty` of a block node.  The zero data and zero indirect blocks refuse to be dirtied. -/
def setBlkDirty (n : ℕ) (isdirty : Bool) : M Unit := do
  let w ← get
  if (w.blk n).zero && isdirty && decide ((w.blk n).level ≤ 1) then
    throw (.internalError ("dirtying the " ++ zeroName (w.blk n).level ++ " block makes me sad"))
  set (w.setBlk n { w.blk n with isdirty := isdirty })

/-- `bn_isdirty` of a file node. -/
def setFilDirty (f : ℕ) (isdirty : Bool) : M Unit :=
  modify fun w => w.setFil f { w.fil f with isdirty := isdirty }

/-- Marking the node that has a slot as dirty. -/
def setOwnerDirty : Slot → M Unit
  | .fil f _ => setFilDirty f true
  | .sub n _ => setBlkDirty n true

/-- Setting the inode of a file node. -/
def modifyINode (f : ℕ) (g : INode → INode) : M Unit :=
  modify fun w => w.setFil f { w.fil f with inode := g (w.fil f).inode }

/-- `T64::now`. -/
def now : M ℕ := do
  let w ← get
  set { w with ticks := w.ticks + 1 }
  return w.clock w.ticks

/-! ### The clean cache -/

/-- The reference of a node, `bn_blkref`. -/
def World.refOf (w : World) : Obj → BlockRef
  | .blk n => (w.blk n).ref
  | .fil f => (w.fil f).ref

/-- `m_nodemru.erase(it)`. -/
def mruErase (it : Option ℕ) : M Unit := do
  let w ← get
  match it with
  | some p =>
      if p ∈ w.cache.nodemru.map Prod.fst then
        set { w with cache := { w.cache with
          nodemru := w.cache.nodemru.filter fun x => x.1 ≠ p } }
      else
        throw (.undefined "m_nodemru.erase of an invalid iterator")
  | none => throw (.undefined "m_nodemru.erase of the end iterator")

/-- `m_nodemru.push_front`, followed by the note of the position in the node. -/
def mruPushFront (o : Obj) : M Unit :=
  modify fun w => { w with cache := { w.cache with
    nodemru := (w.cache.npos, o) :: w.cache.nodemru
    npos := w.cache.npos + 1
    lpos := Function.update w.cache.lpos o (some w.cache.npos) } }

/-- `BlockNodeCache::touch`. -/
def cacheTouch (o : Obj) : M Unit := do
  let w ← get
  mruErase (w.cache.lpos o)
  mruPushFront o

/-- `BlockNodeCache::insert`. -/
def cacheInsert (o : Obj) : M Unit := do
  let w ← get
  match w.cache.nodemap (w.refOf o) with
  | some o' => cacheTouch o'
  | none =>
      set { w with cache := { w.cache with
        nodemap := Function.update w.cache.nodemap (w.refOf o) (some o) } }
      mruPushFront o

/-- `BlockNodeCache::lookup`. -/
def cacheLookup (r : BlockRef) : M (Option Obj) := do
  let w ← get
  match w.cache.nodemap r with
  | none => return none
  | some o =>
      cacheTouch o
      return some o

/-- `BlockNodeCache::remove`. -/
def cacheRemove (r : BlockRef) : M Unit := do
  let w ← get
  match w.cache.nodemap r with
  | none => return
  | some o =>
      set { w with cache := { w.cache with nodemap := Function.update w.cache.nodemap r none } }
      mruErase (w.cache.lpos o)
      modify fun w => { w with cache := { w.cache with
        lpos := Function.update w.cache.lpos o none } }

/-! ### The block store -/

/-- The block last put under a key. -/
def getBlock (r : BlockRef) : List Effect → Option (Block × Kind)
  | [] => none
  | .put key data kind :: l => if key = r then some (data, kind) else getBlock r l
  | _ :: l => getBlock r l

/-- `bs_block_get` of a whole block. -/
def bsBlockGet (r : BlockRef) : M Block := do
  let w ← get
  match getBlock r w.log with
  | some (b, _) => return b
  | none => throw (.notFoundError "not found")

/-- `bs_block_put`, which may find no space. -/
def bsBlockPut (r : BlockRef) (b : Block) (kind : Kind) : M Unit := do
  let w ← get
  match w.full with
  | true :: full =>
      set { w with full := full }
      throw (.noSpaceError "insufficent space")
  | _ => set { w with full := w.full.tail, log := .put r b kind :: w.log }

/-- `Random::fill` of an initvec. -/
def randomFill : M IV := do
  let w ← get
  match w.rand with
  | [] => throw (.internalError "trouble in RAND_pseudo_bytes")
  | iv :: rand =>
      set { w with rand := rand }
      return iv

variable (E : Env)

/-- `BlockRef::validate`. -/
def validate (r : BlockRef) (b : Block) : M Unit := do
  if E.digest b ≠ r.dig then
    throw (.verificationError "block does not match its reference")

/-- The part the node constructors share: read a block, validate it and decrypt it. -/
def readBlock (r : BlockRef) : M Block := do
  let b ← bsBlockGet r
  validate E r b
  return E.decrypt r.iv b

/-- The part the `bn_persist` methods share: encrypt the contents under a fresh initvec, set the
reference of the node, put the block and mark the node clean. -/
def persistBlock (contents : Block) (kind : Kind) (setRef : BlockRef → M Unit)
    (setClean : M Unit) : M BlockRef := do
  let iv ← randomFill
  let buf := E.encrypt iv contents
  let ref := BlockRef.make (E.digest buf) iv
  setRef ref
  bsBlockPut ref buf kind
  setClean
  return ref

end UTFS

end Utopfs
