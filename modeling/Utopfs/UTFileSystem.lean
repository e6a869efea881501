/-
**The file system.**

`UTFileSystem.cpp` gives the operations on paths.  Each splits its path and starts a traversal from the
root directory; a thrown `errno` becomes a negative return value, and every other exception leaves the
operation.  A traversal that calls neither of the two methods of its functor leaves the return value
unset.

`fs_rename` and `fs_link` are several traversals one after the other: the first finds the reference of
the source, the second gives it another name, and the third, of `fs_rename` only, takes the old name
away.

Main definitions:

* `UTFS.splitPath` — a path and its components;
* `UTFS.fsMkfs`, `UTFS.fsMount`, `UTFS.fsUmount`, `UTFS.fsSync`, `UTFS.fsRefresh` — the file system as a
  whole;
* `UTFS.fsMknod`, `UTFS.fsMkdir`, `UTFS.fsUnlink`, `UTFS.fsRmdir`, `UTFS.fsSymlink`, `UTFS.fsRename`,
  `UTFS.fsLink` — names;
* `UTFS.fsChmod`, `UTFS.fsChown`, `UTFS.fsTruncate`, `UTFS.fsWrite`, `UTFS.fsUtime` — one node;
* `UTFS.fsAccess` — following a path without changing anything, as all read-only operations do;
* `UTFS.tryReadonly` — the two attempts of a read-only operation;
* `UTFS.fsGetattr`, `UTFS.fsReadlink`, `UTFS.fsOpen`, `UTFS.fsRead`, `UTFS.fsReaddir` — the others.

The key and the identity of the file system stay the same throughout, and the random bytes of a
signature and of the id of a refresh are not among those of the initvecs.
-/

import Utopfs.DirNode

set_option relaxedAutoImplicit false
set_option autoImplicit false

namespace Utopfs

namespace UTFS

variable (E : Env)

/-! ### Traversals -/

/-- A path is split into its first component and the components of the remainder. -/
def splitPath (path : Str) : M (Str × List Str) := do
  let (entry, rmndr) ← pathsplit path
  let rest ← components rmndr.length rmndr
  return (entry, rest)

/-- `nt_retval`; it has no value before it is set. -/
def ntRetval (v : Option ℤ) : M ℤ :=
  match v with
  | some rv => return rv
  | none => throw (.undefined "nt_retval is not set")

/-- `catch (int const & i_errno)`. -/
def catchErrno (m : M ℤ) : M ℤ :=
  tryCatch m fun ex =>
    match ex with
    | .errno e => return -e.code
    | ex => throw ex

/-- A functor that acts on the parent and sets the return value. -/
def parentFunc (act : ℕ → Str → M ℤ) : NodeTraverseFunc (Option ℤ) where
  ntParent d entry _ := do
    let rv ← act d entry
    return some rv

/-- A functor that acts on the leaf and sets the return value. -/
def leafFunc (act : ℕ → M ℤ) : NodeTraverseFunc (Option ℤ) where
  ntLeaf f _ := do
    let rv ← act f
    return some rv

/-- `NT_PARENT`. -/
def ntParentOnly : TraverseFlags := ⟨true, false, false⟩

/-- `NT_PARENT | NT_UPDATE`. -/
def ntParentUpdate : TraverseFlags := ⟨true, true, false⟩

/-- `NT_UPDATE`. -/
def ntUpdate : TraverseFlags := ⟨false, true, false⟩

/-- An operation that changes the directory in which a path ends. -/
def changeParent (act : ℕ → Str → M ℤ) (path : Str) : M ℤ :=
  catchErrno do
    let (entry, rest) ← splitPath path
    let v ← rootTraverse E ntParentUpdate (parentFunc act) rest entry none
    ntRetval v

/-- An operation that changes the node at a path. -/
def changeLeaf (act : ℕ → M ℤ) (path : Str) : M ℤ :=
  catchErrno do
    let (entry, rest) ← splitPath path
    let v ← rootTraverse E ntUpdate (leafFunc act) rest entry none
    ntRetval v

/-! ### The head node and the root -/

/-- `UTFileSystem::rootref` of a reference. -/
def setRootref (ref : BlockRef) : M Unit := do
  let w ← get
  -- If this block reference is the same as the last ignore it.
  if ref = w.rbr then return
  let root := E.encryptRef ref
  let _ ← now
  modify fun w => { w with log := .headInsert w.hn root :: w.log, hn := some root, rbr := ref }

/-- The head nodes that were inserted. -/
def heads : List Effect → List BlockRef
  | [] => []
  | .headInsert _ root :: l => root :: heads l
  | _ :: l => heads l

/-- Some head edge leads on from the head node. -/
def headLeft (r : BlockRef) : List Effect → Bool
  | [] => false
  | .headInsert prev _ :: l => decide (prev = some r) || headLeft r l
  | _ :: l => headLeft r l

/-- `bs_head_furthest` from the empty root, for the edges that one program at a time inserts: the head nodes that no
edge leaves.  `Utopfs/HeadChain.lean` compares it with the search of the head node graph. -/
def headFurthest (log : List Effect) : List BlockRef :=
  (heads log).filter fun r => !headLeft r log

/-- `SpecialDirNode()`, with its version file. -/
def newSpecialDirNode : M Unit := do
  let t ← now
  let s ← allocFil { FileNode.freshDir 0o555 (Str.ofText "root") (Str.ofText "root") t with
    cls := .specialDir }
  let t ← now
  let v ← allocFil { FileNode.fresh 0o444 (Str.ofText "root") (Str.ofText "root") t with
    cls := .specialFile }
  modify fun w => { w with sdh := some s, version := some v, control := none }

/-- `RootDirNode(i_uname, i_gname)`. -/
def newRootDirNode (uname gname : Str) : M ℕ := do
  let d ← newDirNode 0o777 uname gname
  newSpecialDirNode
  return d

/-- `RootDirNode(i_ctxt, i_ref)`. -/
def loadRootDirNode (ref : BlockRef) : M ℕ := do
  let x ← readFileNode E ref
  let d ← upgradeDir E x
  newSpecialDirNode
  return d

/-- `UTFileSystem::fs_mkfs`. -/
def fsMkfs (uname gname : Str) : M Unit := do
  newZeroNode 0
  newZeroNode 1
  newZeroNode 2
  newZeroNode 3
  let d ← newRootDirNode uname gname
  modify fun w => { w with rdh := some d, rbr := .nil }
  let ref ← bnFlush E d
  setRootref E ref

/-- `UTFileSystem::rootref`. -/
def getRootref : M BlockRef := do
  let w ← get
  match headFurthest w.log with
  | [] => throw (.notFoundError "didn't find specified filesystem")
  | [root] =>
      modify fun w => { w with hn := some root, rbr := E.decryptRef root }
      return E.decryptRef root
  | hns => throw (.internalError ("can't cope w/ " ++ toString hns.length ++ " head nodes"))

/-- `UTFileSystem::fs_mount`.  The zero triple indirect block is not made. -/
def fsMount : M Unit := do
  modify fun w => { w with hn := none }
  newZeroNode 0
  newZeroNode 1
  newZeroNode 2
  let d ← tryCatch
    (do
      let ref ← getRootref E
      loadRootDirNode E ref)
    fun ex =>
      match ex with
      | .notFoundError _ => throw (.notFoundError "filesystem root block not found")
      | ex => throw ex
  modify fun w => { w with rdh := some d }

/-- The root directory is flushed and its reference becomes that of the file system. -/
def flushRoot : M Unit := do
  let w ← get
  let d ← member w.rdh
  let ref ← bnFlush E d
  setRootref E ref

/-- `UTFileSystem::fs_umount`. -/
def fsUmount : M Unit := do
  flushRoot E
  modify fun w => { w with rdh := none, sdh := none, version := none, control := none }

/-- `UTFileSystem::fs_sync`. -/
def fsSync : M Unit := do
  let w ← get
  let d ← member w.rdh
  if (w.fil d).isdirty then flushRoot E

/-! ### Refreshing -/

/-- `bs_refresh_start`. -/
def bsRefreshStart (rid : ℕ) : M Unit := modify fun w => { w with log := .refreshStart rid :: w.log }

/-- `bs_refresh_finish`. -/
def bsRefreshFinish (rid : ℕ) : M Unit := modify fun w => { w with log := .refreshFinish rid :: w.log }

/-- `rb_refresh` of the root directory.  On a way down from it no node in memory comes twice, and no stored one,
unless a directory is below itself; so the recursion goes no deeper than this. -/
def refreshRoot (rid : ℕ) : M ℕ := do
  let w ← get
  let d ← member w.rdh
  nodeRefresh E rid (w.nfil + w.log.length + 1) d

/-- `UTFileSystem::fs_refresh`, with the random id of the cycle.  The root directory is flushed as in `fs_sync`. -/
def fsRefresh (rid : ℕ) : M ℕ := do
  -- Where there is no space for the flush there may be some after the refresh.
  tryCatch (fsSync E) fun ex =>
    match ex with
    | .noSpaceError _ => return ()
    | ex => throw ex
  bsRefreshStart rid
  let nb ← refreshRoot E rid
  bsRefreshFinish rid
  fsSync E
  return nb

/-! ### Names -/

/-- `UTFileSystem::fs_mknod`. -/
def fsMknod (path : Str) (mode : UInt32) (uname gname : Str) : M ℤ :=
  changeParent E (fun d entry => mknod E d entry mode uname gname) path

/-- `UTFileSystem::fs_mkdir`. -/
def fsMkdir (path : Str) (mode : UInt32) (uname gname : Str) : M ℤ :=
  changeParent E (fun d entry => mkdir E d entry mode uname gname) path

/-- `UTFileSystem::fs_unlink`. -/
def fsUnlink (path : Str) : M ℤ := changeParent E (fun d entry => unlink E d entry false) path

/-- `UTFileSystem::fs_rmdir`. -/
def fsRmdir (path : Str) : M ℤ := changeParent E (fun d entry => rmdir E d entry) path

/-- `UTFileSystem::fs_symlink`. -/
def fsSymlink (opath npath : Str) : M ℤ := changeParent E (fun d entry => symlink E d entry opath) npath

/-- `LinkSrcTraverseFunc`. -/
def linkSrcFunc : NodeTraverseFunc BlockRef where
  ntParent d entry _ := linksrc E d entry

/-- `LinkDstTraverseFunc`. -/
def linkDstFunc (ref : BlockRef) (force : Bool) : NodeTraverseFunc (Option ℤ) :=
  parentFunc fun d entry => linkdst E d entry ref force

/-- `UTFileSystem::fs_rename`. -/
def fsRename (opath npath : Str) : M ℤ :=
  catchErrno do
    let (oentry, orest) ← splitPath opath
    let (nentry, nrest) ← splitPath npath
    -- First determine the blkref of the source.
    let ref ← rootTraverse E ntParentOnly (linkSrcFunc E) orest oentry .nil
    -- Then add the blkref as the new name.
    let _ ← rootTraverse E ntParentUpdate (linkDstFunc E ref true) nrest nentry none
    -- Then unlink the old path.
    let v ← rootTraverse E ntParentUpdate (parentFunc fun d entry => unlink E d entry true) orest oentry none
    ntRetval v

/-- `UTFileSystem::fs_link`. -/
def fsLink (opath npath : Str) : M ℤ :=
  catchErrno do
    let (oentry, orest) ← splitPath opath
    let (nentry, nrest) ← splitPath npath
    let ref ← rootTraverse E ntParentOnly (linkSrcFunc E) orest oentry .nil
    let v ← rootTraverse E ntParentUpdate (linkDstFunc E ref false) nrest nentry none
    ntRetval v

/-! ### Nodes -/

/-- The permission bits `ALLPERMS`. -/
def allPerms : UInt32 := 0o7777

/-- `FileNode::chmod`: only the permission bits. -/
def chmod (f : ℕ) (mode : UInt32) : M ℤ := do
  modifyINode f fun i => { i with mode := (i.mode &&& ~~~allPerms) ||| (mode &&& allPerms) }
  setFilDirty f true
  return 0

/-- `FileNode::chown`. -/
def chown (f : ℕ) (uname gname : Str) : M ℤ := do
  modifyINode f fun i => { i with uname := uname, gname := gname }
  setFilDirty f true
  return 0

/-- `UtimeTraverseFunc::nt_leaf`, which does not mark the node. -/
def utime (f atime mtime : ℕ) : M ℤ := do
  modifyINode f fun i => { i with atime := atime, mtime := mtime }
  return 0

/-- `UTFileSystem::fs_chmod`. -/
def fsChmod (path : Str) (mode : UInt32) : M ℤ := changeLeaf E (fun f => chmod f mode) path

/-- `UTFileSystem::fs_chown`. -/
def fsChown (path uname gname : Str) : M ℤ := changeLeaf E (fun f => chown f uname gname) path

/-- `UTFileSystem::fs_truncate`. -/
def fsTruncate (path : Str) (size : ℕ) : M ℤ :=
  changeLeaf E
    (fun f => do
      fileTruncate E f size
      return 0)
    path

/-- `UTFileSystem::fs_write`. -/
def fsWrite (path : Str) (data : List UInt8) (off : ℕ) : M ℤ :=
  changeLeaf E (fun f => fileWrite E f data off) path

/-- `UTFileSystem::fs_utime`. -/
def fsUtime (path : Str) (atime mtime : ℕ) : M ℤ := changeLeaf E (fun f => utime f atime mtime) path

/-- `UTFileSystem::fs_access`.  It tries with `NT_READONLY` first, and once more without when some node
is not in memory.  The other read-only operations follow a path in the same way. -/
def fsAccess (path : Str) : M ℤ := do
  let access (readonly : Bool) : M ℤ := do
    let (entry, rest) ← splitPath path
    let v ← rootTraverse E ⟨false, false, readonly⟩ (leafFunc fun _ => return 0) rest entry none
    ntRetval v
  tryCatch (access true) fun ex =>
    match ex with
    | .errno e => return -e.code
    | .operationError _ => catchErrno (access false)
    | ex => throw ex

/-! ### Operations that only read

An operation has outputs besides its return value; an `errno` leaves them as they were.  The functor
sets the return value and the outputs. -/

section readonly

variable {α : Type}

/-- `catch (int const & i_errno)` around an operation with outputs. -/
def catchErrnoOut (out : α) (m : M (ℤ × α)) : M (ℤ × α) :=
  tryCatch m fun ex =>
    match ex with
    | .errno e => return (-e.code, out)
    | ex => throw ex

/-- The two attempts of an operation that only reads: with `NT_READONLY` first, and without when the
first has thrown an `OperationError`. -/
def tryReadonly (out : α) (attempt : Bool → M (ℤ × α)) : M (ℤ × α) :=
  tryCatch (attempt true) fun ex =>
    match ex with
    | .errno e => return (-e.code, out)
    | .operationError _ => catchErrnoOut out (attempt false)
    | ex => throw ex

/-- A functor that acts on the leaf. -/
def leafOut (act : ℕ → α → M (ℤ × α)) : NodeTraverseFunc (Option ℤ × α) where
  ntLeaf f v := do
    let (rv, out) ← act f v.2
    return (some rv, out)

/-- A functor that acts on the parent and has no output. -/
def parentOut (act : ℕ → Str → M ℤ) : NodeTraverseFunc (Option ℤ × Unit) where
  ntParent d entry v := do
    let rv ← act d entry
    return (some rv, v.2)

/-- One attempt. -/
def readAttempt (parent : Bool) (t : NodeTraverseFunc (Option ℤ × α)) (path : Str) (out : α)
    (readonly : Bool) : M (ℤ × α) := do
  let (entry, rest) ← splitPath path
  let (v, out) ← rootTraverse E ⟨parent, false, readonly⟩ t rest entry (none, out)
  let rv ← ntRetval v
  return (rv, out)

/-- A `struct statstb`.  The owner is kept by name. -/
structure Stat where
  mode : UInt32
  uname : Str
  gname : Str
  nlink : ℕ
  size : ℕ
  atime : ℕ
  mtime : ℕ
  ctime : ℕ
  blocks : ℕ
  deriving DecidableEq

/-- `FileNode::getattr`.  Times are in seconds, and blocks of 512 bytes. -/
def INode.stat (i : INode) : Stat where
  mode := i.mode
  uname := i.uname
  gname := i.gname
  nlink := i.nlink.toNat
  size := i.size
  atime := i.atime / 1000000
  mtime := i.mtime / 1000000
  ctime := i.ctime / 1000000
  blocks := i.blocks * 16

/-- The contents of the version file. -/
def utopfsVerStr : Str := Str.ofText "utopfs version 0.3 [devel]\n"

/-- `getattr` of the special directory, the version file, the root directory and all other nodes.  The
first two set only some of the fields. -/
def getattr (f : ℕ) (st : Stat) : M (ℤ × Stat) := do
  let w ← get
  match (w.fil f).cls with
  | .specialDir => return (0, { st with mode := sIfdir ||| 0o755, nlink := 2 })
  | .specialFile =>
      return (0, { st with mode := sIfreg ||| 0o444, nlink := 1, size := utopfsVerStr.length })
  | _ =>
      let st := (w.fil f).inode.stat
      return (0, if w.rdh = some f then { st with nlink := st.nlink + 1 } else st)

/-- `SymlinkNode::readlink` into a buffer of `size` bytes, and that of other nodes.  The last byte of the
buffer is for the terminating null. -/
def readlink (size f : ℕ) (obuf : ℕ → UInt8) : M (ℤ × (ℕ → UInt8)) := do
  let w ← get
  if (w.fil f).cls ≠ .symlink then throw (.errno .einval)
  if size = 0 then throw (.undefined "memcpy beyond o_obuf")
  let sz := min (w.fil f).inode.size (size - 1)
  if h : sz ≤ 4096 then
    return (0, fun j =>
      if hj : j < sz then (w.fil f).inl ⟨j, by omega⟩ else if j = sz then 0 else obuf j)
  else throw (.undefined "memcpy beyond m_inl")

/-- `read` of the version file and of all other nodes. -/
def readNode (size off f : ℕ) (buf : ℕ → UInt8) : M (ℤ × (ℕ → UInt8)) := do
  let w ← get
  if (w.fil f).cls = .specialFile then
    let n := min size (utopfsVerStr.length - off)
    return (n, fun j => if j < n then utopfsVerStr.getD (off + j) 0 else buf j)
  else fileRead E f buf size off

/-- `ReadDirTraverseFunc::nt_leaf`; the output is the names that have been emitted. -/
def emitEntries (f : ℕ) (names : List Str) : M (ℤ × List Str) := do
  let w ← get
  if !(w.fil f).cls.isDir then throw (.errno .enotdir)
  let l ← readdir f
  return (0, names ++ l)

/-- `UTFileSystem::fs_getattr`. -/
def fsGetattr (path : Str) (st : Stat) : M (ℤ × Stat) :=
  tryReadonly st (readAttempt E false (leafOut getattr) path st)

/-- `UTFileSystem::fs_readlink`. -/
def fsReadlink (path : Str) (obuf : ℕ → UInt8) (size : ℕ) : M (ℤ × (ℕ → UInt8)) :=
  tryReadonly obuf (readAttempt E false (leafOut (readlink size)) path obuf)

/-- `UTFileSystem::fs_open`. -/
def fsOpen (path : Str) (flags : UInt32) : M (ℤ × Unit) :=
  tryReadonly () (readAttempt E true (parentOut fun d entry => openEntry E d entry flags) path ())

/-- `UTFileSystem::fs_read`. -/
def fsRead (path : Str) (buf : ℕ → UInt8) (size off : ℕ) : M (ℤ × (ℕ → UInt8)) :=
  tryReadonly buf (readAttempt E false (leafOut (readNode E size off)) path buf)

/-- `UTFileSystem::fs_readdir`, with the names that were emitted before.  The offset is not looked at. -/
def fsReaddir (path : Str) (_off : ℕ) (names : List Str) : M (ℤ × List Str) :=
  tryReadonly names (readAttempt E false (leafOut emitEntries) path names)

end readonly

end UTFS

end Utopfs
