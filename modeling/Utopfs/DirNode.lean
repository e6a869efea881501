/-
**Directories.**

`DirNode.cpp`, `SymlinkNode.cpp`, `RootDirNode.cpp`, `SpecialDirNode.cpp` and `SpecialFileNode.cpp`
add names to the file nodes.  A directory has its entries in two places: the message `m_dir` has every
name, with the reference of the node as it was last stored, and the map `m_dirty` has the nodes that
may have changed since, which shadow the references.  Nodes under the other references come from the
clean cache, else from the block store.

Main definitions:

* `UTFS.pathsplit`, `UTFS.components` — paths;
* `UTFS.dirSet`, `UTFS.dirRemove`, `UTFS.dirtyInsert` — the two collections of a directory;
* `UTFS.loadNode`, `UTFS.lookup` — finding the node of a name;
* `UTFS.nodeFlush` — `bn_flush` of directories and files;
* `UTFS.mknod`, `UTFS.mkdir`, `UTFS.unlink`, `UTFS.rmdir`, `UTFS.symlink`, `UTFS.linksrc`,
  `UTFS.linkdst`, `UTFS.open`, `UTFS.readdir` — the operations on one directory;
* `UTFS.nodeTraverse`, `UTFS.rootTraverse`, `UTFS.specialTraverse` — following a path;
* `UTFS.nodeRefresh` — `rb_refresh` of directories and files.
-/

import Utopfs.FileNode

set_option relaxedAutoImplicit false
set_option autoImplicit false

namespace Utopfs

namespace UTFS

variable (E : Env)

/-! ### Paths -/

/-- A name or a path in the text of an error. -/
def Str.text (s : Str) : String := String.ofList (s.map fun c => Char.ofNat c.toNat)

/-- The bytes of a text. -/
def Str.ofText (s : String) : Str := s.toList.map fun c => UInt8.ofNat c.toNat

/-- The character `'/'`. -/
def slash : UInt8 := 47

/-- `DirNode::pathsplit`: the next component of a path, and the remainder.  Several slashes count as
one.  Slashes at the end of the path are not stripped: the first of them stays in the component. -/
def pathsplit (path : Str) : M (Str × Str) :=
  match path with
  | c :: path' =>
      if c = slash then
        let name := path'.takeWhile (· ≠ slash)
        let rmndr := path'.dropWhile (· ≠ slash)
        if rmndr = [] then return (name, [])
        else if rmndr.dropWhile (· = slash) = [] then return (name ++ [slash], [])
        else return (name, slash :: rmndr.dropWhile (· = slash))
      else throw (.internalError ("path \"" ++ Str.text path ++ "\" doesn't begin with '/'"))
  | [] => throw (.internalError ("path \"" ++ Str.text path ++ "\" doesn't begin with '/'"))

/-- The components of the remainder of a path, which the traversals split one at a time. -/
def components : ℕ → Str → M (List Str)
  | 0, _ => return []
  | fuel + 1, rmndr => do
      if rmndr = [] then return []
      let (entry, rmndr) ← pathsplit rmndr
      let l ← components fuel rmndr
      return entry :: l

/-! ### The collections of a directory -/

/-- `DirNode::update` of a reference: the first entry with the name, or a new one at the end. -/
def dirSet (entry : Str) (r : BlockRef) : Directory → Directory
  | [] => [(entry, r)]
  | (n, r') :: d => if n = entry then (n, r) :: d else (n, r') :: dirSet entry r d

/-- The collection part of `DirNode::remove`, and the reference it finds.  The last entry takes the
place of the removed one; the last entry itself is not looked at. -/
def dirRemove (entry : Str) (d : Directory) : BlockRef × Directory :=
  match d.dropLast.findIdx? fun e => e.1 = entry, d.getLast? with
  | some i, some last => ((d.getD i ([], .nil)).2, (d.set i last).dropLast)
  | _, _ => (.nil, d.dropLast)

/-- `m_dirty.insert`: nodes are in the order of their names, and a name that is there already keeps
its node. -/
def dirtyInsert (entry : Str) (f : ℕ) : List (Str × ℕ) → List (Str × ℕ)
  | [] => [(entry, f)]
  | (n, g) :: l =>
      if entry < n then (entry, f) :: (n, g) :: l
      else if n = entry then (n, g) :: l
      else (n, g) :: dirtyInsert entry f l

/-- `m_dirty.erase`. -/
def dirtyErase (entry : Str) (l : List (Str × ℕ)) : List (Str × ℕ) := l.filter fun e => e.1 ≠ entry

/-- Changing `m_dir`. -/
def modifyDir (d : ℕ) (g : Directory → Directory) : M Unit :=
  modify fun w => w.setFil d { w.fil d with dir := g (w.fil d).dir }

/-- Changing `m_dirty`. -/
def modifyDirty (d : ℕ) (g : List (Str × ℕ) → List (Str × ℕ)) : M Unit :=
  modify fun w => w.setFil d { w.fil d with dirty := g (w.fil d).dirty }

/-! ### Making nodes -/

/-- `DirNode(i_mode, i_uname, i_gname)`. -/
def FileNode.freshDir (mode : UInt32) (uname gname : Str) (now : ℕ) : FileNode :=
  let x := FileNode.fresh mode uname gname now
  { x with
    cls := .dir
    inode := { x.inode with mode := (x.inode.mode &&& ~~~sIfmt) ||| sIfdir, nlink := 2 } }

/-- `new DirNode(i_mode, i_uname, i_gname)`. -/
def newDirNode (mode : UInt32) (uname gname : Str) : M ℕ := do
  let t ← now
  allocFil (.freshDir mode uname gname t)

/-- `SymlinkNode(i_path)`. -/
def FileNode.freshSymlink (path : Str) (now : ℕ) : FileNode :=
  let x := FileNode.fresh 0o777 (Str.ofText "root") (Str.ofText "root") now
  { x with
    cls := .symlink
    inode := { x.inode with mode := (x.inode.mode &&& ~~~sIfmt) ||| sIflnk, size := path.length }
    inl := fun j => path.getD j 0 }

/-- `new SymlinkNode(i_path)`.  The path is copied without a look at its length. -/
def newSymlinkNode (path : Str) : M ℕ := do
  let t ← now
  if 4096 < path.length then throw (.undefined "memcpy beyond m_inl")
  allocFil (.freshSymlink path t)

/-- `DirNode::deserialize`. -/
def deserialize (d : ℕ) : M Unit := do
  let w ← get
  let size := (w.fil d).inode.size
  let (rv, buf) ← fileRead E d (fun _ => 0) size 0
  if rv < 0 then throw (.internalError ("Trouble reading directory data: " ++ strerror (-rv)))
  match E.parseDir ((List.range size).map buf) with
  | some dir => modifyDir d fun _ => dir
  | none => throw (.internalError "dir deserialization failed")

/-- `DirNode(i_ctxt, i_fn)`: a copy of a file node that is a directory. -/
def upgradeDir (x : FileNode) : M ℕ := do
  let d ← allocFil { x with cls := .dir }
  deserialize E d
  return d

/-- A new node for a reference: a `FileNode`, replaced by a `DirNode` or a `SymlinkNode` where its mode
says so. -/
def loadNode (ref : BlockRef) : M ℕ := do
  let f ← loadFileNode E ref
  let w ← get
  if sIsdir (w.fil f).inode.mode then upgradeDir E (w.fil f)
  else if sIslnk (w.fil f).inode.mode then allocFil { w.fil f with cls := .symlink }
  else return f

/-! ### Names -/

/-- `DirNode::lookup`. -/
def lookup (d : ℕ) (entry : Str) (readonly : Bool) : M (Option ℕ) := do
  let w ← get
  match (w.fil d).dirty.lookup entry with
  | some f => return some f
  | none =>
      match (w.fil d).dir.lookup entry with
      | none => return none
      | some ref =>
          match ← cacheLookup ref with
          | some (.fil f) => return some f
          | some (.blk _) => return none
          | none =>
              if readonly then throw (.operationError (Str.text entry))
              let f ← loadNode E ref
              cacheInsert (.fil f)
              return some f

/-- `DirNode::update` of a node. -/
def updateNode (d : ℕ) (entry : Str) (fnh : Option ℕ) : M Unit := do
  let t ← now
  modifyINode d fun i => { i with mtime := t }
  match fnh with
  | some f => modifyDirty d (dirtyInsert entry f)
  | none => pure ()
  setFilDirty d true

/-- `DirNode::remove`. -/
def removeEntry (d : ℕ) (entry : Str) : M Unit := do
  let w ← get
  if (w.fil d).dir = [] then throw (.undefined "RemoveLast of no entries")
  let (ref, dir) := dirRemove entry (w.fil d).dir
  modifyDir d fun _ => dir
  modifyDirty d (dirtyErase entry)
  if ref ≠ .nil then cacheRemove ref
  setFilDirty d true

/-! ### Flushing -/

/-- The loop of `DirNode::bn_flush` over `m_dirty`, of which each round takes the first node. -/
def flushDirty (flush : ℕ → M BlockRef) (d : ℕ) : ℕ → M Unit
  | 0 => pure ()
  | count + 1 => do
      let w ← get
      match (w.fil d).dirty with
      | [] => pure ()
      | (entry, f) :: _ =>
          let ref ← flush f
          modifyDir d (dirSet entry ref)
          cacheInsert (.fil f)
          modifyDirty d (dirtyErase entry)
          flushDirty flush d count

/-- The entries are written to the file below the directory, which is then flushed. -/
def flushDirData (d : ℕ) : M BlockRef := do
  let w ← get
  let oldsz := (w.fil d).inode.size
  let data := E.serializeDir (w.fil d).dir
  let rv ← fileWrite E d data 0
  if rv < 0 then throw (.internalError ("Trouble writing directory data: " ++ strerror (-rv)))
  if data.length < oldsz then fileTruncate E d data.length
  bnFlushFile E d

/-- `bn_flush` of a node.  The recursion of `DirNode::bn_flush` ends, unless some directory is among the
dirty nodes below it. -/
def nodeFlush : ℕ → ℕ → M BlockRef
  | 0, _ => throw (.hang "bn_flush of a directory below itself")
  | fuel + 1, f => do
      let w ← get
      if (w.fil f).cls.isDir then
        if !(w.fil f).isdirty then return (w.fil f).ref
        flushDirty (nodeFlush fuel) f (w.fil f).dirty.length
        flushDirData E f
      else bnFlushFile E f

/-- `bn_flush`; there are not more nodes below each other than nodes. -/
def bnFlush (f : ℕ) : M BlockRef := do
  let w ← get
  nodeFlush E (w.nfil + 1) f

/-- `DirNode::find_blkref`. -/
def findBlkref (d : ℕ) (entry : Str) : M BlockRef := do
  let w ← get
  match (w.fil d).dirty.lookup entry with
  | some f =>
      let ref ← bnFlush E f
      cacheInsert (.fil f)
      modifyDirty d (dirtyErase entry)
      modifyDir d fun dir => if entry ∈ dir.map Prod.fst then dirSet entry ref dir else dir
      return ref
  | none => return ((w.fil d).dir.lookup entry).getD .nil

/-! ### The operations on a directory -/

/-- A new node gets a name that must not be in use.  The entry has no reference yet. -/
def addNode (d : ℕ) (entry : Str) (make : M ℕ) : M Unit := do
  match ← lookup E d entry false with
  | some _ => throw (.errno .eexist)
  | none =>
      let f ← make
      modifyDirty d (dirtyInsert entry f)
      modifyDir d (dirSet entry .nil)

/-- `DirNode::mknod`. -/
def mknod (d : ℕ) (entry : Str) (mode : UInt32) (uname gname : Str) : M ℤ := do
  addNode E d entry (newFileNode mode uname gname)
  setFilDirty d true
  return 0

/-- `DirNode::mkdir`. -/
def mkdir (d : ℕ) (entry : Str) (mode : UInt32) (uname gname : Str) : M ℤ := do
  addNode E d entry (newDirNode mode uname gname)
  modifyINode d fun i => { i with nlink := i.nlink + 1 }
  setFilDirty d true
  return 0

/-- `DirNode::unlink`. -/
def unlink (d : ℕ) (entry : Str) (dirstoo : Bool) : M ℤ := do
  match ← lookup E d entry false with
  | none => throw (.errno .enoent)
  | some f =>
      let w ← get
      if !dirstoo && sIsdir (w.fil f).inode.mode then throw (.errno .eisdir)
      removeEntry d entry
      return 0

/-- `DirNode::rmdir`. -/
def rmdir (d : ℕ) (entry : Str) : M ℤ := do
  match ← lookup E d entry false with
  | none => throw (.errno .enoent)
  | some f =>
      let w ← get
      if !sIsdir (w.fil f).inode.mode then throw (.errno .enotdir)
      if !(w.fil f).cls.isDir then throw .nullHandle
      if (w.fil f).dir.length ≠ 0 then throw (.errno .enotempty)
      removeEntry d entry
      return 0

/-- `SpecialDirNode::symlink`, which returns its errors as they are. -/
def symlinkSpecial (entry opath : Str) : M ℤ := do
  if entry ≠ Str.ofText "control" then return Errno.enoent.code
  let f ← newSymlinkNode opath
  modify fun w => { w with control := some f }
  return 0

/-- `DirNode::symlink`, and that of the special directory. -/
def symlink (d : ℕ) (entry opath : Str) : M ℤ := do
  let w ← get
  if (w.fil d).cls = .specialDir then symlinkSpecial entry opath
  else
    addNode E d entry (newSymlinkNode opath)
    setFilDirty d true
    return 0

/-- `DirNode::linksrc`. -/
def linksrc (d : ℕ) (entry : Str) : M BlockRef := findBlkref E d entry

/-- `DirNode::linkdst`. -/
def linkdst (d : ℕ) (entry : Str) (blkref : BlockRef) (force : Bool) : M ℤ := do
  match ← lookup E d entry false with
  | some _ => if force then removeEntry d entry else throw (.errno .eexist)
  | none => pure ()
  modifyDir d fun dir => dir ++ [(entry, blkref)]
  setFilDirty d true
  return 0

/-- `SpecialDirNode::open`. -/
def openSpecial (entry : Str) (flags : UInt32) : ℤ :=
  if entry = Str.ofText "version" then
    if flags &&& 3 = 0 then 0 else 13
  else if entry = Str.ofText "control" then 0
  else Errno.enoent.code

/-- `DirNode::open`, and that of the special directory. -/
def openEntry (d : ℕ) (entry : Str) (flags : UInt32) : M ℤ := do
  let w ← get
  if (w.fil d).cls = .specialDir then return openSpecial entry flags
  match ← lookup E d entry false with
  | none => throw (.errno .enoent)
  | some _ => return 0

/-- The name of the special directory. -/
def specialDir : Str := Str.ofText ".utopfs"

/-- The names that `readdir` of a directory emits, in their order: those of a plain directory, of the
root directory and of the special directory. -/
def readdir (d : ℕ) : M (List Str) := do
  let w ← get
  let dots := [Str.ofText ".", Str.ofText ".."]
  if (w.fil d).cls = .specialDir then
    return dots ++ Str.ofText "version" :: if w.control.isSome then [Str.ofText "control"] else []
  let names := (w.fil d).dir.map Prod.fst ++ dots
  return if w.rdh = some d then names ++ [specialDir] else names

/-! ### Following a path -/

/-- The flags `NT_PARENT`, `NT_UPDATE` and `NT_READONLY`. -/
structure TraverseFlags where
  parent : Bool
  update : Bool
  readonly : Bool
  deriving DecidableEq

/-- A `NodeTraverseFunc` with the state `R`. -/
structure NodeTraverseFunc (R : Type) where
  ntLeaf : ℕ → R → M R := fun _ v => pure v
  ntParent : ℕ → Str → R → M R := fun _ _ v => pure v

variable {R : Type} (fl : TraverseFlags) (t : NodeTraverseFunc R)

/-- `DirNode::node_traverse`, with the components of the remainder first. -/
def nodeTraverse : List Str → ℕ → Str → R → M R
  | [], d, entry, v => do
      let fnh ← lookup E d entry fl.readonly
      if fl.parent then
        let v ← t.ntParent d entry v
        if fl.update then
          -- Need to redo the lookup because it might have changed.
          let fnh ← lookup E d entry fl.readonly
          updateNode d entry fnh
        return v
      else
        match fnh with
        | none => throw (.errno .enoent)
        | some f =>
            let v ← t.ntLeaf f v
            if fl.update then updateNode d entry (some f)
            return v
  | next :: rest, d, entry, v => do
      match ← lookup E d entry fl.readonly with
      | none => throw (.errno .enoent)
      | some f =>
          let w ← get
          if !(w.fil f).cls.isDir then throw (.errno .enotdir)
          let v ← nodeTraverse rest f next v
          if fl.update then updateNode d entry (some f)
          return v

/-- A member of the root or special directory that must be there. -/
def member (h : Option ℕ) : M ℕ :=
  match h with
  | some f => return f
  | none => throw .nullHandle

/-- `SpecialDirNode::node_traverse`. -/
def specialTraverse (rest : List Str) (d : ℕ) (entry : Str) (v : R) : M R := do
  if entry = Str.ofText "version" ∧ rest = [] then
    let v ← t.ntParent d entry v
    let w ← get
    let f ← member w.version
    t.ntLeaf f v
  else if entry = Str.ofText "control" ∧ rest = [] then
    let v ← t.ntParent d entry v
    let w ← get
    match w.control with
    | none => throw (.errno .enoent)
    | some f => t.ntLeaf f v
  else throw (.errno .enoent)

/-- `RootDirNode::node_traverse`. -/
def rootTraverse (rest : List Str) (entry : Str) (v : R) : M R := do
  let w ← get
  let d ← member w.rdh
  if entry = [] then
    if fl.parent then throw (.errno .enoent)
    t.ntLeaf d v
  else if entry = specialDir then
    let s ← member w.sdh
    match rest with
    | [] => t.ntLeaf s v
    | next :: rest => specialTraverse t rest s next v
  else nodeTraverse E fl t rest d entry v

/-! ### Refreshing -/

/-- The node of an entry that a refresh follows; it is not put in the clean cache. -/
def findRefreshNode (d : ℕ) (entry : Str) (ref : BlockRef) : M ℕ := do
  let w ← get
  match (w.fil d).dirty.lookup entry with
  | some f => return f
  | none =>
      match ← cacheLookup ref with
      | some (.fil f) => return f
      | some (.blk _) => throw .nullHandle
      | none => loadNode E ref

/-- `rb_refresh` of a node.  As with `bn_flush`, the recursion of `DirNode::rb_refresh` ends unless a
directory is below itself. -/
def nodeRefresh (rid : ℕ) : ℕ → ℕ → M ℕ
  | 0, _ => throw (.hang "rb_refresh of a directory below itself")
  | fuel + 1, f => do
      let w ← get
      if (w.fil f).cls.isDir then
        let nblocks ← sumM
          (fun e => do
            let g ← findRefreshNode E f e.1 e.2
            nodeRefresh rid fuel g)
          (w.fil f).dir
        let k ← rbRefreshFile E rid f
        return nblocks + k
      else rbRefreshFile E rid f

end UTFS

end Utopfs
