/-
**Runs of the file system.**

The program starts with `fs_mkfs` in a new block store, or with `fs_mount` on what a former run has left in
it.  Each operation then starts from the root.  A run ends when the program crashes or does not return;
every other exception leaves everything as it then is.

Main definitions:

* `UTFS.FsOp` — the operations;
* `UTFS.World.restarted` — the state in which the program is started again.

Main results:

* `UTFS.FsOp.safe` — every operation keeps the invariant;
* `UTFS.FsOk.made`, `UTFS.FsOk.mounted` — so do making the file system and mounting it.
-/

import Utopfs.FsRefresh

set_option relaxedAutoImplicit false
set_option autoImplicit false

namespace Utopfs

namespace UTFS

open Prog

/-! ### Operations -/

/-- The operations of the file system, with the arguments they are called with. -/
inductive FsOp
  | mknod (path : Str) (mode : UInt32) (uname gname : Str)
  | mkdir (path : Str) (mode : UInt32) (uname gname : Str)
  | unlink (path : Str)
  | rmdir (path : Str)
  | symlink (opath npath : Str)
  | rename (opath npath : Str)
  | link (opath npath : Str)
  | chmod (path : Str) (mode : UInt32)
  | chown (path uname gname : Str)
  | truncate (path : Str) (size : ℕ)
  | write (path : Str) (data : List UInt8) (off : ℕ)
  | utime (path : Str) (atime mtime : ℕ)
  | getattr (path : Str) (st : Stat)
  | readlink (path : Str) (obuf : ℕ → UInt8) (size : ℕ)
  | open (path : Str) (flags : UInt32)
  | read (path : Str) (buf : ℕ → UInt8) (size off : ℕ)
  | readdir (path : Str) (off : ℕ)
  | access (path : Str)
  | sync
  | refresh (rid : ℕ)
  | umount

variable (E : Env)

/-- Running an operation; what it returns is left out. -/
def FsOp.run : FsOp → M Unit
  | .mknod path mode uname gname => do let _ ← fsMknod E path mode uname gname
  | .mkdir path mode uname gname => do let _ ← fsMkdir E path mode uname gname
  | .unlink path => do let _ ← fsUnlink E path
  | .rmdir path => do let _ ← fsRmdir E path
  | .symlink opath npath => do let _ ← fsSymlink E opath npath
  | .rename opath npath => do let _ ← fsRename E opath npath
  | .link opath npath => do let _ ← fsLink E opath npath
  | .chmod path mode => do let _ ← fsChmod E path mode
  | .chown path uname gname => do let _ ← fsChown E path uname gname
  | .truncate path size => do let _ ← fsTruncate E path size
  | .write path data off => do let _ ← fsWrite E path data off
  | .utime path atime mtime => do let _ ← fsUtime E path atime mtime
  | .getattr path st => do let _ ← fsGetattr E path st
  | .readlink path obuf size => do let _ ← fsReadlink E path obuf size
  | .open path flags => do let _ ← fsOpen E path flags
  | .read path buf size off => do let _ ← fsRead E path buf size off
  | .readdir path off => do let _ ← fsReaddir E path off []
  | .access path => do let _ ← fsAccess E path
  | .sync => fsSync E
  | .refresh rid => do let _ ← fsRefresh E rid
  | .umount => fsUmount E

/-- The state after an operation, unless the program has ended. -/
def FsOp.After (op : FsOp) (w w' : World) : Prop :=
  op.run E w = .ok () w' ∨ ∃ e, op.run E w = .error e w' ∧ ¬ Fatal e

variable {E} {n : ℕ} {w : World}

section ops

theorem safe_changeParent {act : ℕ → Str → M ℤ}
    (hact : ∀ d entry w, FsOk E n w → DirMember w d → Safe E n (act d entry) (fun _ _ => True) w)
    (h : FsOk E n w) (path : Str) : Safe E n (changeParent E act path) (fun _ _ => True) w := by
  have ht : SafeFunc E n (fun _ _ => True) (parentFunc act) := by
    refine ⟨fun _ _ _ _ _ => trivial, fun _ _ _ h _ _ => .ret h trivial, fun d entry _ w h hd _ => ?_⟩
    refine (hact d entry w h hd).bind ?_
    exact fun _ w₁ h₁ _ _ => .ret h₁ trivial
  exact safe_catchErrno (safe_traverse ht h path trivial fun v w' h' _ => safe_ntRetval h' v)

theorem safe_changeLeaf {act : ℕ → M ℤ}
    (hact : ∀ f w, FsOk E n w → f < w.nfil → Safe E n (act f) (fun _ _ => True) w)
    (h : FsOk E n w) (path : Str) : Safe E n (changeLeaf E act path) (fun _ _ => True) w := by
  have ht : SafeFunc E n (fun _ _ => True) (leafFunc act) := by
    refine ⟨fun _ _ _ _ _ => trivial, fun f _ w h hf _ => ?_, fun _ _ _ _ h _ _ => .ret h trivial⟩
    refine (hact f w h hf).bind ?_
    exact fun _ w₁ h₁ _ _ => .ret h₁ trivial
  exact safe_catchErrno (safe_traverse ht h path trivial fun v w' h' _ => safe_ntRetval h' v)

/-- The reference of the source, if it has one, is that of a stored inode. -/
theorem safe_linkSrcFunc : SafeFunc E n (fun r w => r ≠ .nil → Stored w.log r .inode) (linkSrcFunc E) :=
  ⟨fun _ _ _ hr hl hne => hl.logLe.stored (hr hne), fun _ _ _ h _ hP => .ret h hP,
    fun _ entry _ _ h hd _ => safe_findBlkref h hd.held.lt entry⟩

theorem safe_linkDstFunc (ref : BlockRef) (force : Bool) :
    SafeFunc E n (fun _ w => ref ≠ .nil → Stored w.log ref .inode) (linkDstFunc E ref force) := by
  refine ⟨fun _ _ _ hr hl hne => hl.logLe.stored (hr hne), fun _ _ _ h _ hP => .ret h hP, ?_⟩
  intro d entry v w h hd hP
  refine (safe_linkdst h hd.held.lt entry force hP).bind ?_
  exact fun _ w₁ h₁ hl₁ _ => .ret h₁ fun hne => hl₁.logLe.stored (hP hne)

theorem safe_fsRename (h : FsOk E n w) (opath npath : Str) :
    Safe E n (fsRename E opath npath) (fun _ _ => True) w := by
  rw [fsRename]
  refine safe_catchErrno ((safe_splitPath h opath).bind ?_)
  rintro ⟨oentry, orest⟩ w₁ h₁ - -
  refine (safe_splitPath h₁ npath).bind ?_
  rintro ⟨nentry, nrest⟩ w₂ h₂ - -
  refine (safe_rootTraverse safe_linkSrcFunc h₂ orest oentry (fun hne => absurd rfl hne)).bind ?_
  intro ref w₃ h₃ _ hs
  refine (safe_rootTraverse (safe_linkDstFunc ref true) h₃ nrest nentry hs).bind ?_
  rintro - w₄ h₄ - -
  have ht : SafeFunc E n (fun _ _ => True) (parentFunc fun d entry => unlink E d entry true) := by
    refine ⟨fun _ _ _ _ _ => trivial, fun _ _ _ h _ _ => .ret h trivial, fun d entry _ w h hd _ => ?_⟩
    refine (safe_unlink h hd.held.lt entry true).bind ?_
    exact fun _ w₁ h₁ _ _ => .ret h₁ trivial
  refine (safe_rootTraverse ht h₄ orest oentry trivial).bind ?_
  exact fun v w₅ h₅ _ _ => safe_ntRetval h₅ v

theorem safe_fsLink (h : FsOk E n w) (opath npath : Str) :
    Safe E n (fsLink E opath npath) (fun _ _ => True) w := by
  rw [fsLink]
  refine safe_catchErrno ((safe_splitPath h opath).bind ?_)
  rintro ⟨oentry, orest⟩ w₁ h₁ - -
  refine (safe_splitPath h₁ npath).bind ?_
  rintro ⟨nentry, nrest⟩ w₂ h₂ - -
  refine (safe_rootTraverse safe_linkSrcFunc h₂ orest oentry (fun hne => absurd rfl hne)).bind ?_
  intro ref w₃ h₃ _ hs
  refine (safe_rootTraverse (safe_linkDstFunc ref false) h₃ nrest nentry hs).bind ?_
  exact fun v w₄ h₄ _ _ => safe_ntRetval h₄ v

/-! ### The leaves -/

variable {f : ℕ}

theorem safe_utime (h : FsOk E n w) (atime mtime : ℕ) : Safe E n (utime f atime mtime) (fun _ _ => True) w := by
  rw [utime]
  refine (safe_modifyINode h (by rfl)).bind ?_
  exact fun _ w₁ h₁ _ _ => .ret h₁ trivial

/-- Setting the inode and marking the node. -/
theorem safe_setINode (h : FsOk E n w) {g : INode → INode} (hg : ∀ i, sIsdir (g i).mode = sIsdir i.mode) :
    Safe E n (do
      modifyINode f g
      setFilDirty f true
      return (0 : ℤ)) (fun _ _ => True) w := by
  refine (safe_modifyINode h (hg _)).bind ?_
  rintro - w₁ h₁ - -
  refine (safe_setFilDirty h₁).bind ?_
  exact fun _ w₂ h₂ _ _ => .ret h₂ trivial

theorem safe_fileWrite (h : FsOk E n w) (hf : f < w.nfil) (data : List UInt8) (off : ℕ) :
    Safe E n (fileWrite E f data off) (fun _ _ => True) w := by
  refine wp_mono (wp_fileWrite h.blk hf data off) ?_ ?_
  · rintro rv w₁ ⟨-, hw⟩
    obtain ⟨h₁, hl₁⟩ := h.written hw
    exact ⟨h₁, hl₁, trivial⟩
  · rintro e w₁ ⟨-, hw, -⟩
    exact .inr (h.fileWrote hw)

theorem safe_fileTruncate (h : FsOk E n w) (hf : f < w.nfil) (size : ℕ) :
    Safe E n (do
      fileTruncate E f size
      return (0 : ℤ)) (fun _ _ => True) w := by
  have ht : Safe E n (fileTruncate E f size) (fun _ _ => True) w := by
    refine wp_mono (wp_fileTruncate h.blk hf) ?_ (fun _ _ hF => hF.elim)
    intro _ w₁ ht
    obtain ⟨h₁, hl₁⟩ := h.truncated ht
    exact ⟨h₁, hl₁, trivial⟩
  refine ht.bind ?_
  exact fun _ w₁ h₁ _ _ => .ret h₁ trivial

theorem safe_fileRead (h : FsOk E n w) (hf : f < w.nfil) (buf : ℕ → UInt8) (size off : ℕ) :
    Safe E n (fileRead E f buf size off) (fun _ _ => True) w := by
  refine wp_mono (wp_fileRead h.blk hf buf size off) ?_ ?_
  · rintro rv w₁ ⟨hb, hg, -⟩
    obtain ⟨h₁, hl₁⟩ := h.grew hb hg
    exact ⟨h₁, hl₁, trivial⟩
  · rintro e w₁ ⟨hb, hg, -⟩
    exact .inr (h.grew hb hg)

theorem safe_fsChmod (h : FsOk E n w) (path : Str) (mode : UInt32) :
    Safe E n (fsChmod E path mode) (fun _ _ => True) w := by
  rw [fsChmod]
  exact safe_changeLeaf (fun f w h _ => safe_setINode h fun i => sIsdir_chmod i.mode mode) h path

theorem safe_fsChown (h : FsOk E n w) (path uname gname : Str) :
    Safe E n (fsChown E path uname gname) (fun _ _ => True) w := by
  rw [fsChown]
  refine safe_changeLeaf (fun f w h _ => ?_) h path
  rw [chown]
  exact safe_setINode h (by exact fun _ => rfl)

theorem safe_fsTruncate (h : FsOk E n w) (path : Str) (size : ℕ) :
    Safe E n (fsTruncate E path size) (fun _ _ => True) w := by
  rw [fsTruncate]
  exact safe_changeLeaf (fun f w h hf => safe_fileTruncate h hf size) h path

/-! ### Operations that only read -/

variable {α : Type}

theorem safe_tryReadonly {out : α} {attempt : Bool → M (ℤ × α)}
    (ha : ∀ readonly w, FsOk E n w → Safe E n (attempt readonly) (fun _ _ => True) w) (h : FsOk E n w) :
    Safe E n (tryReadonly out attempt) (fun _ _ => True) w := by
  have hcatch : ∀ w, FsOk E n w → Safe E n (catchErrnoOut out (attempt false)) (fun _ _ => True) w := by
    intro w h
    refine (ha false w h).rescue (fun e he => ?_) fun e w' h' _ => ?_
    · cases e <;> first | rfl | exact he.elim
    · cases e <;> first | exact .ret h' trivial | exact .raise h' _
  refine (ha true w h).rescue (fun e he => ?_) fun e w' h' _ => ?_
  · cases e <;> first | rfl | exact he.elim
  · cases e <;> first | exact .ret h' trivial | exact hcatch w' h' | exact .raise h' _

theorem safe_readAttempt {t : NodeTraverseFunc (Option ℤ × α)} (ht : SafeFunc E n (fun _ _ => True) t)
    (h : FsOk E n w) (parent : Bool) (path : Str) (out : α) (readonly : Bool) :
    Safe E n (readAttempt E parent t path out readonly) (fun _ _ => True) w := by
  refine safe_traverse ht h path trivial fun v w₁ h₁ _ => ?_
  refine (safe_ntRetval h₁ v.1).bind ?_
  exact fun _ w₂ h₂ _ _ => .ret h₂ trivial

/-- An operation on the leaf. -/
theorem safe_readLeaf {act : ℕ → α → M (ℤ × α)}
    (hact : ∀ f out w, FsOk E n w → f < w.nfil → Safe E n (act f out) (fun _ _ => True) w) (h : FsOk E n w)
    (path : Str) (out : α) :
    Safe E n (tryReadonly out (readAttempt E false (leafOut act) path out)) (fun _ _ => True) w := by
  refine safe_tryReadonly (fun readonly w h => safe_readAttempt ⟨fun _ _ _ _ _ => trivial, ?_, ?_⟩ h _ _ _ _) h
  · intro f v w h hf _
    refine (hact f v.2 w h hf).bind ?_
    exact fun _ w₁ h₁ _ _ => .ret h₁ trivial
  · exact fun _ _ _ _ h _ _ => .ret h trivial

theorem safe_getattr (h : FsOk E n w) (st : Stat) : Safe E n (getattr f st) (fun _ _ => True) w := by
  rw [getattr]
  refine Safe.read ?_
  cases (w.fil f).cls <;> exact .ret h trivial

theorem safe_readlink (h : FsOk E n w) (size : ℕ) (obuf : ℕ → UInt8) :
    Safe E n (readlink size f obuf) (fun _ _ => True) w := by
  rw [readlink]
  refine Safe.read ?_
  dsimp only
  split
  case isTrue => exact .inr ⟨h, .refl w⟩
  case isFalse =>
    split
    case isTrue => exact .inr ⟨h, .refl w⟩
    case isFalse =>
      split
      case isTrue => exact .ret h trivial
      case isFalse => exact .raise h _

theorem safe_readNode (h : FsOk E n w) (hf : f < w.nfil) (size off : ℕ) (buf : ℕ → UInt8) :
    Safe E n (readNode E size off f buf) (fun _ _ => True) w := by
  rw [readNode]
  refine Safe.read ?_
  split
  case isTrue => exact .ret h trivial
  case isFalse => exact safe_fileRead h hf buf size off

theorem safe_emitEntries (h : FsOk E n w) (names : List Str) :
    Safe E n (emitEntries f names) (fun _ _ => True) w := by
  have hdir : Safe E n (readdir f) (fun _ _ => True) w := by
    rw [readdir]
    refine Safe.read ?_
    dsimp only
    split <;> exact .ret h trivial
  rw [emitEntries]
  refine Safe.read ?_
  dsimp only
  split
  case isTrue => exact .inr ⟨h, .refl w⟩
  case isFalse =>
    refine hdir.bind ?_
    exact fun _ w₁ h₁ _ _ => .ret h₁ trivial

theorem safe_fsOpen (h : FsOk E n w) (path : Str) (flags : UInt32) :
    Safe E n (fsOpen E path flags) (fun _ _ => True) w := by
  refine safe_tryReadonly (fun readonly w h => safe_readAttempt ⟨fun _ _ _ _ _ => trivial, ?_, ?_⟩ h _ _ _ _) h
  · exact fun _ _ _ h _ _ => .ret h trivial
  · intro d entry v w h hd _
    refine (safe_openEntry h hd.held.lt entry flags).bind ?_
    exact fun _ w₁ h₁ _ _ => .ret h₁ trivial

theorem safe_fsAccess (h : FsOk E n w) (path : Str) : Safe E n (fsAccess E path) (fun _ _ => True) w := by
  have ht : SafeFunc E n (fun _ _ => True) (leafFunc fun _ => return 0) :=
    ⟨fun _ _ _ _ _ => trivial, fun _ _ _ h _ _ => .ret h trivial, fun _ _ _ _ h _ _ => .ret h trivial⟩
  rw [fsAccess]
  refine (safe_traverse ht h path trivial fun v w' h' _ => safe_ntRetval h' v).rescue (fun e he => ?_)
    fun e w' h' _ => ?_
  · cases e <;> first | rfl | exact he.elim
  · cases e with
    | errno e => exact .ret h' trivial
    | operationError s =>
        exact safe_catchErrno (safe_traverse ht h' path trivial fun v w' h' _ => safe_ntRetval h' v)
    | _ => exact .raise h' _

/-! ### The file system as a whole -/

/-- The members of the file system are set. -/
theorem safe_modify_members (h : FsOk E n w) (rdh sdh version control : Option ℕ) (rbr : BlockRef)
    (hn : Option BlockRef) (htop : ∀ d, rdh = some d → DirMember w d)
    (hspecial : ∀ d, sdh = some d → DirMember w d) (hversion : ∀ v, version = some v → v < w.nfil)
    (hcontrol : ∀ c, control = some c → c < w.nfil) :
    FsOk E n { w with
      rdh := rdh, sdh := sdh, version := version, control := control, rbr := rbr, hn := hn } ∧
      Later w { w with
        rdh := rdh, sdh := sdh, version := version, control := control, rbr := rbr, hn := hn } := by
  have hs : SameShape w { w with
      rdh := rdh, sdh := sdh, version := version, control := control, rbr := rbr, hn := hn } :=
    ⟨fun _ => rfl, fun _ => rfl, fun _ => rfl, fun _ => rfl, fun _ => rfl, fun _ => rfl, rfl, rfl, rfl, rfl,
      List.Sublist.refl _, rfl⟩
  have hl : Later w { w with
      rdh := rdh, sdh := sdh, version := version, control := control, rbr := rbr, hn := hn } :=
    ⟨.refl _, fun _ hi => hi, Nat.le_refl _, fun _ _ => rfl, fun _ _ => rfl⟩
  exact ⟨h.step (h.blk.sameShape hs (fun _ => .inl rfl) fun _ _ _ => rfl) hl h.store
    (fun g hg => .inl ⟨hg, rfl⟩) (fun _ _ hr => .inl hr) (fun d hd => .inr ((htop d hd).later hl))
    (fun d hd => .inr ((hspecial d hd).later hl)) (fun v hv => .inr (hversion v hv))
    (fun c hc => .inr (hcontrol c hc)) rfl, hl⟩

/-- A directory is flushed and becomes the root in the store. -/
theorem safe_flushTo (h : FsOk E n w) {d : ℕ} (hd : DirMember w d) : Safe E n (do
    let ref ← bnFlush E d
    setRootref E ref) (fun _ _ => True) w := by
  refine (safe_bnFlush h hd.held).bind ?_
  intro ref w₁ h₁ hl₁ hc
  have hd₁ := hd.later hl₁
  obtain ⟨hs, hm⟩ := hc.stored h₁ hd₁.held.lt
  exact safe_setRootref h₁ hs (by rw [hm, ← hd₁.held.kind]; exact hd₁.isDir)

theorem safe_flushRoot (h : FsOk E n w) : Safe E n (flushRoot E) (fun _ _ => True) w := by
  rw [flushRoot]
  refine Safe.read ?_
  cases hd : w.rdh with
  | none => exact .raise h _
  | some d => exact safe_flushTo h (h.top d hd)

theorem safe_fsSync (h : FsOk E n w) : Safe E n (fsSync E) (fun _ _ => True) w := by
  rw [fsSync]
  refine Safe.read ?_
  cases hd : w.rdh with
  | none => exact .raise h _
  | some d =>
      change Safe E n (if (w.fil d).isdirty = true then flushRoot E else pure ()) _ w
      split
      case isTrue => exact safe_flushRoot h
      case isFalse => exact .ret h trivial

/-- **A refresh keeps the invariant.** -/
theorem safe_fsRefresh (h : FsOk E n w) (rid : ℕ) : Safe E n (fsRefresh E rid) (fun _ _ => True) w := by
  rw [fsRefresh]
  refine ((safe_fsSync h).rescue (fun e he => ?_) fun e w' h' _ => ?_).bind ?_
  · cases e <;> first | rfl | exact he.elim
  · cases e <;> first | exact .ret h' trivial | exact .raise h' _
  rintro - w₁ h₁ - -
  refine (rereads_tell h₁ (x := .refreshStart rid) rfl).safe.bind ?_
  rintro - w₂ h₂ - -
  refine (rereads_refreshRoot h₂ rid).safe.bind ?_
  rintro nb w₃ h₃ - -
  refine (rereads_tell h₃ (x := .refreshFinish rid) rfl).safe.bind ?_
  rintro - w₄ h₄ - -
  refine (safe_fsSync h₄).bind ?_
  exact fun _ w₅ h₅ _ _ => .ret h₅ trivial

theorem safe_fsUmount (h : FsOk E n w) : Safe E n (fsUmount E) (fun _ _ => True) w := by
  rw [fsUmount]
  refine (safe_flushRoot h).bind ?_
  rintro - w₁ h₁ - -
  obtain ⟨h₂, hl₂⟩ := safe_modify_members h₁ none none none none w₁.rbr w₁.hn (by simp) (by simp) (by simp) (by simp)
  exact ⟨h₂, hl₂, trivial⟩

/-- **Every operation keeps the invariant.** -/
theorem FsOp.safe (h : FsOk E n w) (op : FsOp) : Safe E n (op.run E) (fun _ _ => True) w := by
  -- The result is dropped.
  have drop : ∀ {β : Type} {m : M β}, Safe E n m (fun _ _ => True) w →
      Safe E n (do let _ ← m) (fun _ _ => True) w := by
    intro β m hm
    refine hm.bind ?_
    exact fun _ w₁ h₁ _ _ => .ret h₁ trivial
  cases op with
  | mknod path mode uname gname =>
      exact drop (safe_changeParent (fun d entry w h hd => safe_mknod h hd.held.lt entry mode uname gname) h path)
  | mkdir path mode uname gname =>
      exact drop (safe_changeParent (fun d entry w h hd => safe_mkdir h hd.held.lt entry mode uname gname) h path)
  | unlink path =>
      exact drop (safe_changeParent (fun d entry w h hd => safe_unlink h hd.held.lt entry false) h path)
  | rmdir path =>
      exact drop (safe_changeParent (fun d entry w h hd => safe_rmdir h hd.held.lt entry) h path)
  | symlink opath npath =>
      exact drop (safe_changeParent (fun d entry w h hd => safe_symlink h hd.held.lt entry opath) h npath)
  | rename opath npath => exact drop (safe_fsRename h opath npath)
  | link opath npath => exact drop (safe_fsLink h opath npath)
  | chmod path mode =>
      exact drop (safe_fsChmod h path mode)
  | chown path uname gname =>
      exact drop (safe_fsChown h path uname gname)
  | truncate path size =>
      exact drop (safe_fsTruncate h path size)
  | write path data off =>
      exact drop (safe_changeLeaf (fun f w h hf => safe_fileWrite h hf data off) h path)
  | utime path atime mtime =>
      exact drop (safe_changeLeaf (fun f w h _ => safe_utime h atime mtime) h path)
  | getattr path st => exact drop (safe_readLeaf (fun f st w h _ => safe_getattr h st) h path st)
  | readlink path obuf size =>
      exact drop (safe_readLeaf (fun f obuf w h _ => safe_readlink h size obuf) h path obuf)
  | «open» path flags => exact drop (safe_fsOpen h path flags)
  | read path buf size off =>
      exact drop (safe_readLeaf (fun f buf w h hf => safe_readNode h hf size off buf) h path buf)
  | readdir path off => exact drop (safe_readLeaf (fun f names w h _ => safe_emitEntries h names) h path [])
  | access path => exact drop (safe_fsAccess h path)
  | sync => exact safe_fsSync h
  | refresh rid => exact drop (safe_fsRefresh h rid)
  | umount => exact safe_fsUmount h

theorem FsOp.After.fsOk {op : FsOp} {w' : World} (ha : op.After E w w') (h : FsOk E n w) :
    FsOk E n w' ∧ Later w w' := by
  have hsafe := FsOp.safe h op
  rcases ha with hrun | ⟨e, hrun, hne⟩
  · obtain ⟨h', hl', -⟩ := wp_ok hsafe hrun
    exact ⟨h', hl'⟩
  · exact (wp_error hsafe hrun).resolve_left fun hF => hne hF.1

end ops

/-! ### Starting -/

/-- The program is started again on what the block store holds. -/
def World.restarted (w : World) (rand : List IV) (full : List Bool) (clock : ℕ → ℕ) : World :=
  { World.boot rand full clock with log := w.log }

section starting

/-- The program has started. -/
theorem FsOk.started {log : List Effect} {rand : List IV} (hd : DiskOk E log rand) (hs : StoreFit E log)
    (full : List Bool) (clock : ℕ → ℕ) : FsOk E 0 { World.boot rand full clock with log := log } where
  blk := .started hd full clock
  store := hs
  node f hf := absurd hf (Nat.not_lt_zero f)
  key r f hr := by simp [World.boot] at hr
  top d hd := by simp [World.boot] at hd
  special d hd := by simp [World.boot] at hd
  version v hv := by simp [World.boot] at hv
  control c hc := by simp [World.boot] at hc
  zero l := by simp [World.boot]

/-- The zero singleton of the next level is made. -/
theorem FsOk.zeroed (h : FsOk E n w) : FsOk E (n + 1) (w.zeroed n) := by
  have hb : BInv E ∅ (w.zeroed n) := by
    refine h.blk.zeroed fun l hl => ?_
    exact Option.ne_none_iff_exists'.1 ((h.zero l).2 (by omega))
  have hl : Later w (w.zeroed n) :=
    ⟨.refl _, fun _ hi => hi, Nat.le_refl _, fun _ _ => rfl, fun _ _ => rfl⟩
  refine ⟨hb, h.store, fun f hf => (h.node f hf).mono hl rfl, fun r f hr => (h.key r f hr).later hl,
    fun d hd => (h.top d hd).later hl, fun d hd => (h.special d hd).later hl, h.version, h.control, ?_⟩
  intro l
  change Function.update w.zobj n (some w.nblk) l ≠ none ↔ l < n + 1
  by_cases hln : l = n
  · subst hln
    simp
  · rw [Function.update_of_ne hln, h.zero l]
    omega

theorem safe_newSpecialDirNode (h : FsOk E n w) : Safe E n newSpecialDirNode (fun _ _ => True) w := by
  rw [newSpecialDirNode]
  refine (safe_now h).bind ?_
  rintro t w₁ h₁ - -
  refine (safe_allocNew h₁ (fun _ => rfl) (fun _ => rfl) rfl rfl rfl).bind ?_
  rintro s w₂ h₂ hl₂ hs
  refine (safe_now h₂).bind ?_
  rintro t' w₃ h₃ hl₃ -
  refine (safe_allocNew h₃ (fun _ => rfl) (fun _ => rfl) rfl rfl rfl).bind ?_
  rintro v w₄ h₄ hl₄ ⟨hv, -⟩
  have hsd : DirMember w₂ s := ⟨.of_fil hs (sIsdir_freshDir (0o555 ||| sIfreg)).symm (by simp), by rw [hs.2]; rfl⟩
  have hs₄ : DirMember w₄ s := (hsd.later hl₃).later hl₄
  obtain ⟨h₅, hl₅⟩ := safe_modify_members h₄ w₄.rdh (some s) (some v) none w₄.rbr w₄.hn h₄.top
    (fun d hd => Option.some.inj hd ▸ hs₄) (fun u hu => Option.some.inj hu ▸ hv) (by simp)
  exact ⟨h₅, hl₅, trivial⟩

theorem safe_newRootDirNode (h : FsOk E n w) (uname gname : Str) :
    Safe E n (newRootDirNode uname gname) (fun d w' => DirMember w' d) w := by
  rw [newRootDirNode]
  refine (safe_newDirNode h 0o777 uname gname).bind ?_
  rintro d w₁ h₁ - hd
  refine (safe_newSpecialDirNode h₁).bind ?_
  exact fun _ w₂ h₂ hl₂ _ => .ret h₂ (hd.later hl₂)

theorem safe_loadRootDirNode (h : FsOk E n w) {r : BlockRef} (hs : Stored w.log r .inode)
    (hk : storedIsDir E w.log r = true) :
    Safe E n (loadRootDirNode E r) (fun d w' => DirMember w' d) w := by
  rw [loadRootDirNode, Safe, wp_bind]
  refine wp_mono (wp_readFileNode_any h.blk.disk fun _ => hs) ?_ ?_
  · rintro x w' ⟨rfl, -, hx, href⟩
    have hmode : sIsdir x.inode.mode = true := by
      rw [storedIsDir, hx] at hk
      exact hk
    refine (safe_upgradeDir h hs hx href hmode).bind ?_
    rintro d w₁ h₁ - ⟨hd, -⟩
    refine (safe_newSpecialDirNode h₁).bind ?_
    exact fun _ w₂ h₂ hl₂ _ => .ret h₂ (hd.later hl₂)
  · rintro e w' rfl
    exact .inr ⟨h, .refl w'⟩

/-- The root that is found was made one by an earlier context. -/
theorem safe_getRootref (h : FsOk E n w) : Safe E n (getRootref E)
    (fun r w' => Stored w'.log r .inode ∧ storedIsDir E w'.log r = true) w := by
  rw [getRootref]
  refine Safe.read ?_
  match hf : headFurthest w.log with
  | [] => exact .raise h _
  | [root] =>
      have hroot : root ∈ heads w.log := by
        have hmem : root ∈ headFurthest w.log := by simp [hf]
        exact (List.mem_filter.1 hmem).1
      obtain ⟨h₁, hl₁⟩ := safe_modify_members h w.rdh w.sdh w.version w.control (E.decryptRef root)
        (some root) h.top h.special h.version h.control
      exact ⟨h₁, hl₁, h.store.head root hroot⟩
  | _ :: _ :: _ => exact .raise h _

/-- The root directory is made and becomes the root in the store. -/
theorem safe_firstRoot (h : FsOk E n w) (uname gname : Str) : Safe E n (do
    let d ← newRootDirNode uname gname
    modify fun w => { w with rdh := some d, rbr := .nil }
    let ref ← bnFlush E d
    setRootref E ref) (fun _ _ => True) w := by
  refine (safe_newRootDirNode h uname gname).bind ?_
  rintro d w₁ h₁ - hd
  obtain ⟨h₂, hl₂⟩ := safe_modify_members h₁ (some d) w₁.sdh w₁.version w₁.control .nil w₁.hn
    (fun d' hd' => Option.some.inj hd' ▸ hd) h₁.special h₁.version h₁.control
  have hset : Safe E n (modify fun w => { w with rdh := some d, rbr := .nil })
      (fun _ w' => DirMember w' d) w₁ := ⟨h₂, hl₂, hd.later hl₂⟩
  refine hset.bind ?_
  exact fun _ w₃ h₃ _ hd₃ => safe_flushTo h₃ hd₃

theorem bind_newZeroNode {α : Type} (level : ℕ) (f : Unit → M α) (w : World) :
    (newZeroNode level >>= f) w = f () (w.zeroed level) := by
  rw [bind_apply, newZeroNode_run]

/-- **Making the file system.** -/
theorem FsOk.made (h : FsOk E 0 w) {uname gname : Str} {w' : World}
    (hrun : fsMkfs E uname gname w = .ok () w') : FsOk E 4 w' := by
  have hzeroed : FsOk E 4 ((((w.zeroed 0).zeroed 1).zeroed 2).zeroed 3) := h.zeroed.zeroed.zeroed.zeroed
  rw [fsMkfs, bind_newZeroNode, bind_newZeroNode, bind_newZeroNode, bind_newZeroNode] at hrun
  exact (wp_ok (safe_firstRoot hzeroed uname gname) hrun).1

theorem StoreFit.nil : StoreFit E [] where
  head := by simp [HeadsOk, heads]
  dir r x hs := by
    obtain ⟨b, hb⟩ := hs
    simp [getBlock] at hb

/-- **Mounting the file system**: a context on what another left in the store. -/
theorem FsOk.mounted (h : FsOk E n w) {rand : List IV} (hnodup : rand.Nodup)
    (hne : ∀ iv ∈ rand, iv ≠ fun _ => 0) (hfresh : ∀ r x, getBlock r w.log = some x → r.iv ∉ rand)
    (full : List Bool) (clock : ℕ → ℕ) {w' : World}
    (hrun : fsMount E (w.restarted rand full clock) = .ok () w') : FsOk E 3 w' := by
  have hdisk : DiskOk E w.log rand :=
    { h.blk.disk with fresh := hfresh, randNodup := hnodup, randNe := hne }
  have hzeroed : FsOk E 3 ((((w.restarted rand full clock).zeroed 0).zeroed 1).zeroed 2) :=
    (FsOk.started hdisk h.store full clock).zeroed.zeroed.zeroed
  have hload : Safe E 3 (do
      let ref ← getRootref E
      loadRootDirNode E ref) (fun d w' => DirMember w' d)
      ((((w.restarted rand full clock).zeroed 0).zeroed 1).zeroed 2) := by
    refine (safe_getRootref hzeroed).bind ?_
    exact fun r w₁ h₁ _ hr => safe_loadRootDirNode h₁ hr.1 hr.2
  have hset : ∀ d w₁, FsOk E 3 w₁ → DirMember w₁ d →
      Safe E 3 (modify fun w => { w with rdh := some d }) (fun _ _ => True) w₁ := by
    intro d w₁ h₁ hd
    obtain ⟨h₂, hl₂⟩ := safe_modify_members h₁ (some d) w₁.sdh w₁.version w₁.control w₁.rbr w₁.hn
      (fun d' hd' => Option.some.inj hd' ▸ hd) h₁.special h₁.version h₁.control
    exact ⟨h₂, hl₂, trivial⟩
  unfold fsMount at hrun
  rw [bind_apply, modify_apply] at hrun
  dsimp only at hrun
  rw [bind_newZeroNode, bind_newZeroNode, bind_newZeroNode] at hrun
  refine (wp_ok (Safe.bind (hload.rescue ?_ ?_) fun d w₁ h₁ _ hd => hset d w₁ h₁ hd) hrun).1
  · intro e he
    cases e <;> first | rfl | exact he.elim
  · intro e w₁ h₁ _
    cases e <;> exact .raise h₁ _

end starting

end UTFS

end Utopfs
