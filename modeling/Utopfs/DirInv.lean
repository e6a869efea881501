/-
**When the nodes of the file system are in order.**

A file node that is not dirty agrees with the block stored under its reference, but for its times, which
`fs_utime` changes without marking the node.  A directory that is not dirty has no dirty nodes, and its
entries are those of the stored directory.  The names of a directory are distinct, its dirty nodes are
among them, and each of its references names a stored inode unless it is nil.  The clean cache holds
nodes of the kind of the stored inode, which they need not agree with: a node stays in the cache when
it is changed.

Two more laws hold as long as nothing has broken them, so they are conditions of the invariant: that an
entry has the nil reference only while its node is dirty, and that the link count of a directory is the
number of its subdirectories and two.

Main definitions:

* `UTFS.storedDir`, `UTFS.storedIsDir` — the directory in a stored inode, and whether there is one;
* `UTFS.Agrees` — a file node agrees with its stored block;
* `UTFS.Laws` — which of the two laws hold;
* `UTFS.StoreOk`, `UTFS.NodeOk`, `UTFS.NInv` — the invariant, of the store, of a node and of all.

Main results:

* `UTFS.storedDir_mono` — later puts do not change a stored directory;
* `UTFS.NodeOk.mono`, `UTFS.NInv.step` — what a step has to show.
-/

import Utopfs.DirEntries
import Utopfs.FileFlush
import Utopfs.UTFileSystem

set_option relaxedAutoImplicit false
set_option autoImplicit false

namespace Utopfs

namespace UTFS

open Prog

variable (E : Env)

/-! ### Stored directories -/

/-- The inode stored under a reference is that of a directory. -/
def storedIsDir (log : List Effect) (r : BlockRef) : Bool :=
  match decodeFile E log r with
  | some x => sIsdir x.inode.mode
  | none => false

/-- The entries of the directory stored under a reference. -/
def storedDir (log : List Effect) (r : BlockRef) : Option Directory :=
  (decodeFile E log r).bind fun x =>
    if sIsdir x.inode.mode then E.parseDir ((List.range x.inode.size).map (nodeBytes E log x)) else none

/-- The number of entries that satisfy a test. -/
def countDirs (isdir : Str × BlockRef → Bool) (d : Directory) : ℕ := d.countP isdir

/-- Without what `fs_utime` changes, and without the directory. -/
def FileNode.timeless (x : FileNode) : FileNode :=
  { x.bare with inode := { x.inode with atime := 0, mtime := 0 } }

/-- A file node agrees with the block stored under its reference, but for its times. -/
structure Agrees (log : List Effect) (x : FileNode) : Prop where
  stored : Stored log x.ref .inode
  decoded : (decodeFile E log x.ref).map FileNode.timeless = some x.timeless

/-- The laws that a step may break. -/
structure Laws where
  /-- An entry has the nil reference only while its node is dirty. -/
  nonil : Prop
  /-- The link count of a directory is the number of its subdirectories and two. -/
  links : Prop

/-- The entries of a stored directory. -/
structure DirStored (L : Laws) (log : List Effect) (i : INode) (d : Directory) : Prop where
  size : i.size ≤ maxSize
  names : (d.map Prod.fst).Nodup
  refs : ∀ e ∈ d, e.2 ≠ .nil → Stored log e.2 .inode
  nonil : L.nonil → ∀ e ∈ d, e.2 ≠ .nil
  links : L.links → i.nlink.toNat = 2 + countDirs (fun e => storedIsDir E log e.2) d

/-- The roots in the head nodes are stored directories. -/
def HeadsOk (log : List Effect) : Prop :=
  ∀ root ∈ heads log, Stored log (E.decryptRef root) .inode ∧ storedIsDir E log (E.decryptRef root) = true

/-- Every stored inode can be read, and that of a directory together with its entries. -/
structure StoreOk (L : Laws) (log : List Effect) : Prop where
  head : HeadsOk E log
  inode : ∀ r, Stored log r .inode → ∃ x, decodeFile E log r = some x
  dir : ∀ r x, Stored log r .inode → decodeFile E log r = some x → sIsdir x.inode.mode = true →
    ∃ d, storedDir E log r = some d ∧ DirStored E L log x.inode d

/-! ### Nodes -/

/-- A node that is in use: the class of the object is that of its mode, and it is not the version file. -/
structure Held (w : World) (f : ℕ) : Prop where
  lt : f < w.nfil
  kind : (w.fil f).cls.isDir = sIsdir (w.fil f).inode.mode
  plain : (w.fil f).cls ≠ .specialFile

/-- The entry of a directory in memory leads to a directory. -/
def World.isSub (w : World) (d : ℕ) (e : Str × BlockRef) : Bool :=
  match (w.fil d).dirty.lookup e.1 with
  | some f => sIsdir (w.fil f).inode.mode
  | none => storedIsDir E w.log e.2

/-- A node of the heap. -/
structure NodeOk (L : Laws) (w : World) (f : ℕ) : Prop where
  iv : (w.fil f).ref.iv ∉ w.rand
  clean : (w.fil f).isdirty = false → Agrees E w.log (w.fil f)
  cleanDir : (w.fil f).cls.isDir = true → (w.fil f).isdirty = false →
    (w.fil f).dirty = [] ∧ storedDir E w.log (w.fil f).ref = some (w.fil f).dir
  names : ((w.fil f).dir.map Prod.fst).Nodup
  refs : ∀ e ∈ (w.fil f).dir, e.2 ≠ .nil → Stored w.log e.2 .inode
  dirtyIn : ∀ e ∈ (w.fil f).dirty, e.1 ∈ (w.fil f).dir.map Prod.fst
  held : ∀ e ∈ (w.fil f).dirty, Held w e.2
  nonil : L.nonil → ∀ e ∈ (w.fil f).dir, e.2 = .nil → e.1 ∈ (w.fil f).dirty.map Prod.fst
  links : L.links → (w.fil f).cls.isDir = true →
    (w.fil f).inode.nlink.toNat = 2 + countDirs (w.isSub E f) (w.fil f).dir

/-- A file node in the clean cache. -/
structure FilKey (w : World) (r : BlockRef) (f : ℕ) : Prop where
  held : Held w f
  kind : storedIsDir E w.log r = sIsdir (w.fil f).inode.mode

/-- A directory that a member of the file system holds. -/
structure DirMember (w : World) (d : ℕ) : Prop where
  held : Held w d
  isDir : (w.fil d).cls.isDir = true

/-- **The invariant of the nodes.** -/
structure NInv (L : Laws) (w : World) : Prop where
  blk : BInv E ∅ w
  store : StoreOk E L w.log
  node : ∀ f, f < w.nfil → NodeOk E L w f
  key : ∀ r f, w.cache.nodemap r = some (.fil f) → FilKey E w r f
  top : ∀ d, w.rdh = some d → DirMember w d
  special : ∀ d, w.sdh = some d → DirMember w d
  version : ∀ v, w.version = some v → v < w.nfil
  control : ∀ c, w.control = some c → c < w.nfil

variable {E}

/-! ### What later puts leave alone -/

section mono

variable {log log' : List Effect} {rand : List IV} {r : BlockRef} {L : Laws}

theorem storedIsDir_mono (hle : LogLe log log') {k : Kind} (hs : Stored log r k) :
    storedIsDir E log' r = storedIsDir E log r := by
  rw [storedIsDir, storedIsDir, hle.decodeFile hs]

theorem storedIsDir_nil (hnil : getBlock .nil log = none) : storedIsDir E log .nil = false := by
  simp [storedIsDir, decodeFile, decode, hnil]

/-- **Later puts do not change a stored directory.** -/
theorem storedDir_mono (hd : DiskOk E log rand) (hle : LogLe log log')
    (hnil : getBlock .nil log' = none) (hs : Stored log r .inode) :
    storedDir E log' r = storedDir E log r := by
  rw [storedDir, storedDir, hle.decodeFile hs]
  cases hx : decodeFile E log r with
  | none => rfl
  | some x =>
      have hbytes : nodeBytes E log' x = nodeBytes E log x :=
        funext (nodeBytes_mono hd hle hnil (hd.decodeFile_refs hs hx))
      simp only [Option.bind_some, hbytes]

theorem Agrees.mono {x : FileNode} (h : Agrees E log x) (hle : LogLe log log') : Agrees E log' x where
  stored := hle.stored h.stored
  decoded := by
    rw [hle.decodeFile h.stored]
    exact h.decoded

theorem Agrees.objs {x : FileNode} (h : Agrees E log x) (s : FSlot) : x.objs s = none := by
  have hd := h.decoded
  simp only [Option.map_eq_some_iff, decodeFile, Option.bind_eq_some_iff] at hd
  obtain ⟨y, ⟨b, -, i, -, rfl⟩, hy⟩ := hd
  have := congrFun (congrArg FileNode.objs hy) s
  exact this.symm

/-- The kind of each entry stays the same. -/
theorem countDirs_congr {f g : Str × BlockRef → Bool} {d : Directory} (h : ∀ e ∈ d, f e = g e) :
    countDirs f d = countDirs g d := List.countP_congr fun e he => by rw [h e he]

theorem storedIsDir_entry_mono (hle : LogLe log log') (hnil : getBlock .nil log = none)
    (hnil' : getBlock .nil log' = none) (hr : r ≠ .nil → Stored log r .inode) :
    storedIsDir E log' r = storedIsDir E log r := by
  by_cases h : r = .nil
  · rw [h, storedIsDir_nil hnil, storedIsDir_nil hnil']
  · exact storedIsDir_mono hle (hr h)

theorem DirStored.mono {i : INode} {d : Directory} (h : DirStored E L log i d)
    (hle : LogLe log log') (hnil : getBlock .nil log = none) (hnil' : getBlock .nil log' = none) :
    DirStored E L log' i d where
  size := h.size
  names := h.names
  refs e he hr := hle.stored (h.refs e he hr)
  nonil := h.nonil
  links hL := by
    rw [h.links hL]
    congr 1
    exact countDirs_congr fun e he => (storedIsDir_entry_mono hle hnil hnil' (h.refs e he)).symm

/-- The store grows by inodes that are in order. -/
theorem StoreOk.mono (h : StoreOk E L log) (hd : DiskOk E log rand) (hle : LogLe log log')
    (hnil : getBlock .nil log' = none) (hheads : heads log' = heads log)
    (hnew : ∀ r, Stored log' r .inode → ¬ Stored log r .inode → ∃ x, decodeFile E log' r = some x ∧
      (sIsdir x.inode.mode = true → ∃ d, storedDir E log' r = some d ∧
        DirStored E L log' x.inode d)) : StoreOk E L log' where
  head root hr := by
    rw [hheads] at hr
    obtain ⟨hs, hm⟩ := h.head root hr
    exact ⟨hle.stored hs, by rw [storedIsDir_mono hle hs]; exact hm⟩
  inode r hs := by
    by_cases ho : Stored log r .inode
    · obtain ⟨x, hx⟩ := h.inode r ho
      exact ⟨x, by rw [hle.decodeFile ho]; exact hx⟩
    · obtain ⟨x, hx, -⟩ := hnew r hs ho
      exact ⟨x, hx⟩
  dir r x hs hx hm := by
    by_cases ho : Stored log r .inode
    · rw [hle.decodeFile ho] at hx
      obtain ⟨d, hd', hok⟩ := h.dir r x ho hx hm
      exact ⟨d, by rw [storedDir_mono hd hle hnil ho]; exact hd', hok.mono hle hd.nilFree hnil⟩
    · obtain ⟨y, hy, hdir⟩ := hnew r hs ho
      rw [hx] at hy
      obtain rfl := Option.some.inj hy
      exact hdir hm

end mono

/-! ### Steps -/

section step

variable {w w' : World} {L : Laws}

/-- The nodes that were there are of the same kind. -/
structure Later (w w' : World) : Prop where
  logLe : LogLe w.log w'.log
  rand : ∀ iv, iv ∈ w'.rand → iv ∈ w.rand
  nfil : w.nfil ≤ w'.nfil
  cls : ∀ f, f < w.nfil → (w'.fil f).cls = (w.fil f).cls
  kind : ∀ f, f < w.nfil → sIsdir (w'.fil f).inode.mode = sIsdir (w.fil f).inode.mode

theorem Later.refl (w : World) : Later w w :=
  ⟨.refl _, fun _ h => h, Nat.le_refl _, fun _ _ => rfl, fun _ _ => rfl⟩

theorem Later.trans {w'' : World} (h : Later w w') (h' : Later w' w'') : Later w w'' where
  logLe := h.logLe.trans h'.logLe
  rand iv hiv := h.rand iv (h'.rand iv hiv)
  nfil := h.nfil.trans h'.nfil
  cls f hf := (h'.cls f (hf.trans_le h.nfil)).trans (h.cls f hf)
  kind f hf := (h'.kind f (hf.trans_le h.nfil)).trans (h.kind f hf)

/-- A node of no other than its own class. -/
theorem Held.of_fil {f : ℕ} {x : FileNode} (hf : f < w.nfil ∧ w.fil f = x)
    (hkind : x.cls.isDir = sIsdir x.inode.mode) (hplain : x.cls ≠ .specialFile) : Held w f := by
  obtain ⟨hlt, rfl⟩ := hf
  exact ⟨hlt, hkind, hplain⟩

theorem Held.later {f : ℕ} (h : Held w f) (hl : Later w w') : Held w' f where
  lt := h.lt.trans_le hl.nfil
  kind := by
    rw [hl.cls f h.lt, hl.kind f h.lt]
    exact h.kind
  plain := by
    rw [hl.cls f h.lt]
    exact h.plain

theorem DirMember.later {d : ℕ} (h : DirMember w d) (hl : Later w w') : DirMember w' d where
  held := h.held.later hl
  isDir := by
    rw [hl.cls d h.held.lt]
    exact h.isDir

theorem FilKey.later {r : BlockRef} {f : ℕ} (h : FilKey E w r f) (hl : Later w w')
    (hs : Stored w.log r .inode) : FilKey E w' r f where
  held := h.held.later hl
  kind := by
    rw [storedIsDir_mono hl.logLe hs, hl.kind f h.held.lt]
    exact h.kind

/-- The entries of an unchanged directory are of the same kind. -/
theorem isSub_later {d : ℕ} (hl : Later w w') (hd : w'.fil d = w.fil d)
    (hnil : getBlock .nil w.log = none) (hnil' : getBlock .nil w'.log = none)
    (hheld : ∀ e ∈ (w.fil d).dirty, Held w e.2) {e : Str × BlockRef}
    (hr : e.2 ≠ .nil → Stored w.log e.2 .inode) : w'.isSub E d e = w.isSub E d e := by
  rw [World.isSub, World.isSub, hd]
  cases hf : (w.fil d).dirty.lookup e.1 with
  | none => exact storedIsDir_entry_mono hl.logLe hnil hnil' hr
  | some f => exact hl.kind f (hheld _ (mem_of_lookup hf)).lt

/-- **An unchanged node stays in order.** -/
theorem NodeOk.mono {f : ℕ} (h : NodeOk E L w f) (hl : Later w w') (hf : w'.fil f = w.fil f)
    (hd : DiskOk E w.log w.rand) (hnil : getBlock .nil w'.log = none) : NodeOk E L w' f where
  iv := by
    rw [hf]
    exact fun hiv => h.iv (hl.rand _ hiv)
  clean := by
    rw [hf]
    exact fun hc => (h.clean hc).mono hl.logLe
  cleanDir := by
    rw [hf]
    intro hcls hc
    obtain ⟨h₁, h₂⟩ := h.cleanDir hcls hc
    exact ⟨h₁, by rw [storedDir_mono hd hl.logLe hnil (h.clean hc).stored]; exact h₂⟩
  names := by
    rw [hf]
    exact h.names
  refs := by
    rw [hf]
    exact fun e he hr => hl.logLe.stored (h.refs e he hr)
  dirtyIn := by
    rw [hf]
    exact h.dirtyIn
  held := by
    rw [hf]
    exact fun e he => (h.held e he).later hl
  nonil := by
    rw [hf]
    exact h.nonil
  links := by
    rw [hf]
    intro hL hcls
    rw [h.links hL hcls]
    congr 1
    exact countDirs_congr fun e he => (isSub_later hl hf hd.nilFree hnil h.held (h.refs e he)).symm

/-- **What a step has to show**: the block nodes and the store are in order, and so are the nodes and the
keys that are new or changed. -/
theorem NInv.step (h : NInv E L w) (hb : BInv E ∅ w') (hl : Later w w') (hst : StoreOk E L w'.log)
    (hnode : ∀ f, f < w'.nfil → (f < w.nfil ∧ w'.fil f = w.fil f) ∨ NodeOk E L w' f)
    (hkey : ∀ r f, w'.cache.nodemap r = some (.fil f) →
      w.cache.nodemap r = some (.fil f) ∨ FilKey E w' r f)
    (htop : ∀ d, w'.rdh = some d → w.rdh = some d ∨ DirMember w' d)
    (hspecial : ∀ d, w'.sdh = some d → w.sdh = some d ∨ DirMember w' d)
    (hversion : ∀ v, w'.version = some v → w.version = some v ∨ v < w'.nfil)
    (hcontrol : ∀ c, w'.control = some c → w.control = some c ∨ c < w'.nfil) : NInv E L w' where
  blk := hb
  store := hst
  node f hf := by
    rcases hnode f hf with ⟨hlt, heq⟩ | hok
    · exact (h.node f hlt).mono hl heq h.blk.disk hb.disk.nilFree
    · exact hok
  key r f hr := by
    rcases hkey r f hr with hold | hok
    · exact (h.key r f hold).later hl (h.blk.keyFil r f hold)
    · exact hok
  top d hd := (htop d hd).elim (fun ho => (h.top d ho).later hl) id
  special d hd := (hspecial d hd).elim (fun ho => (h.special d ho).later hl) id
  version v hv := (hversion v hv).elim (fun ho => (h.version v ho).trans_le hl.nfil) id
  control c hc := (hcontrol c hc).elim (fun ho => (h.control c ho).trans_le hl.nfil) id

end step

end UTFS

end Utopfs
