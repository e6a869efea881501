/-
**Following a path keeps the invariant.**

The operations on one directory are made of the steps on nodes, and so is following a path: what it does
at the leaf or at the parent is that of its functor, and on the way back each directory is updated.

Main results:

* `UTFS.safe_mknod`, `UTFS.safe_mkdir`, `UTFS.safe_unlink`, `UTFS.safe_rmdir`, `UTFS.safe_symlink`,
  `UTFS.safe_linkdst`, `UTFS.safe_openEntry` — the operations on one directory;
* `UTFS.safe_nodeTraverse`, `UTFS.safe_rootTraverse` — following a path;
* `UTFS.safe_traverse` — one traversal, from the text of the path.
-/

import Utopfs.FsFlush

set_option relaxedAutoImplicit false
set_option autoImplicit false

namespace Utopfs

namespace UTFS

open Prog

variable {E : Env} {n : ℕ} {w : World}

/-! ### Kinds of nodes -/

section kind

theorem eq_of_bits {a b : UInt32} (h : ∀ i < 32, a.toBitVec.getLsbD i = b.toBitVec.getLsbD i) : a = b :=
  UInt32.eq_of_toBitVec_eq (BitVec.eq_of_getLsbD_eq h)

/-- A bit of a mask, from what two masks have in common. -/
theorem bit_and {a b c : UInt32} (h : a &&& b = c) (i : ℕ) :
    (a.toBitVec.getLsbD i && b.toBitVec.getLsbD i) = c.toBitVec.getLsbD i := by
  rw [← h, UInt32.toBitVec_and, BitVec.getLsbD_and]

theorem sIsdir_fresh (mode : UInt32) : sIsdir (mode ||| sIfreg) = false := by
  rw [sIsdir, decide_eq_false_iff_not]
  intro h
  have hbit := congrArg (fun m : UInt32 => m.toBitVec.getLsbD 15) h
  simp [sIfreg, sIfmt, sIfdir] at hbit

theorem sIsdir_freshDir (mode : UInt32) : sIsdir ((mode &&& ~~~sIfmt) ||| sIfdir) = true := by
  rw [sIsdir, decide_eq_true_iff]
  refine eq_of_bits fun i hi => ?_
  have hd := bit_and (show sIfdir &&& sIfmt = sIfdir by decide) i
  simp only [UInt32.toBitVec_and, UInt32.toBitVec_or, UInt32.toBitVec_not, BitVec.getLsbD_and,
    BitVec.getLsbD_or, BitVec.getLsbD_not, hi, decide_true, Bool.true_and]
  revert hd
  cases mode.toBitVec.getLsbD i <;> cases sIfmt.toBitVec.getLsbD i <;> cases sIfdir.toBitVec.getLsbD i <;> simp

/-- The permission bits do not say what kind of node it is. -/
theorem sIsdir_chmod (mode mode' : UInt32) :
    sIsdir ((mode &&& ~~~allPerms) ||| (mode' &&& allPerms)) = sIsdir mode := by
  have heq : ((mode &&& ~~~allPerms) ||| (mode' &&& allPerms)) &&& sIfmt = mode &&& sIfmt := by
    refine eq_of_bits fun i hi => ?_
    have hd := bit_and (show allPerms &&& sIfmt = 0 by decide) i
    simp only [UInt32.toBitVec_and, UInt32.toBitVec_or, UInt32.toBitVec_not, BitVec.getLsbD_and,
      BitVec.getLsbD_or, BitVec.getLsbD_not, hi, decide_true, Bool.true_and]
    revert hd
    cases mode.toBitVec.getLsbD i <;> cases mode'.toBitVec.getLsbD i <;> cases sIfmt.toBitVec.getLsbD i <;>
      cases allPerms.toBitVec.getLsbD i <;> simp
  rw [sIsdir, heq, sIsdir]

end kind

/-! ### Nodes -/

section node

variable {f : ℕ}

/-- The inode is changed, but not what kind of node it is. -/
theorem safe_modifyINode (h : FsOk E n w) {g : INode → INode}
    (hg : sIsdir (g (w.fil f).inode).mode = sIsdir (w.fil f).inode.mode) :
    Safe E n (modifyINode f g) (fun _ _ => True) w := by
  obtain ⟨h', hl⟩ := h.setFil (f := f) (x := { w.fil f with inode := g (w.fil f).inode }) rfl rfl rfl hg
    (fun hlt hc => by rw [hg]; exact (h.node f hlt).clean hc) (fun hlt => (h.node f hlt).refs)
    (fun hlt => (h.node f hlt).held)
  exact ⟨h', hl, trivial⟩

theorem safe_setFilDirty (h : FsOk E n w) : Safe E n (setFilDirty f true) (fun _ _ => True) w := by
  obtain ⟨h', hl⟩ := h.setFil (f := f) (x := { w.fil f with isdirty := true }) rfl rfl rfl rfl
    (fun _ hc => by simp at hc) (fun hlt => (h.node f hlt).refs) (fun hlt => (h.node f hlt).held)
  exact ⟨h', hl, trivial⟩

/-- A dirty node gets a name, unless the name has one. -/
theorem safe_insertDirty (h : FsOk E n w) {d : ℕ} (hd : d < w.nfil) {entry : Str} (hf : Held w f) :
    Safe E n (modifyDirty d (dirtyInsert entry f)) (fun _ _ => True) w := by
  refine (safe_modifyDirty h fun e he => ?_).mono fun _ _ _ _ _ => trivial
  rcases mem_dirtyInsert he with he | rfl
  · exact (h.node d hd).held e he
  · exact hf

/-- **`DirNode::update`** of a node. -/
theorem safe_updateNode (h : FsOk E n w) {d : ℕ} (hd : d < w.nfil) {entry : Str} {fnh : Option ℕ}
    (hf : ∀ f, fnh = some f → Held w f) : Safe E n (updateNode d entry fnh) (fun _ _ => True) w := by
  rw [updateNode]
  refine (safe_now h).bind ?_
  rintro t w₁ h₁ hl₁ -
  refine (safe_modifyINode h₁ (by rfl)).bind ?_
  rintro - w₂ h₂ hl₂ -
  have hd₂ := (hd.trans_le hl₁.nfil).trans_le hl₂.nfil
  cases fnh with
  | none => exact safe_setFilDirty h₂
  | some f =>
      refine (safe_insertDirty h₂ hd₂ (((hf f rfl).later hl₁).later hl₂)).bind ?_
      rintro - w₃ h₃ hl₃ -
      exact safe_setFilDirty h₃

/-- A new node. -/
theorem safe_allocNew (h : FsOk E n w) {x : FileNode} (hobjs : ∀ s, x.objs s = none)
    (hrefs : ∀ s, x.refs s = .nil) (hdirty : x.isdirty = true) (hdir : x.dir = []) (hnone : x.dirty = []) :
    Safe E n (allocFil x) (fun f w' => f < w'.nfil ∧ w'.fil f = x) w := by
  obtain ⟨h', hl⟩ := h.allocFil hobjs (fun s hs => absurd (hrefs s) hs) (fun hc => by simp [hdirty] at hc)
    hdir hnone
  have halloc : allocFil x w = .ok w.nfil (w.allocFil x) := rfl
  rw [Safe, wp, halloc]
  exact ⟨h', hl, Nat.lt_succ_self _, allocFil_self w x⟩

end node

/-! ### The operations on a directory -/

section dir

variable {d : ℕ}

theorem safe_addNode (h : FsOk E n w) (hd : d < w.nfil) (entry : Str) {make : M ℕ}
    (hmake : ∀ w', FsOk E n w' → Safe E n make (fun f w'' => Held w'' f) w') :
    Safe E n (addNode E d entry make) (fun _ _ => True) w := by
  rw [addNode]
  refine (safe_lookup h hd entry false).bind ?_
  rintro o w₁ h₁ hl₁ -
  cases o with
  | some f => exact .raise h₁ _
  | none =>
      dsimp only
      refine (hmake w₁ h₁).bind ?_
      rintro f w₂ h₂ hl₂ hf
      have hd₂ := (hd.trans_le hl₁.nfil).trans_le hl₂.nfil
      refine (safe_insertDirty h₂ hd₂ hf).bind ?_
      rintro - w₃ h₃ hl₃ -
      refine (safe_modifyDir h₃ fun e he hne => ?_).mono fun _ _ _ _ _ => trivial
      rcases mem_dirSet he with he | rfl
      · exact (h₃.node d (hd₂.trans_le hl₃.nfil)).refs e he hne
      · exact absurd rfl hne

theorem safe_newFileNode (h : FsOk E n w) (mode : UInt32) (uname gname : Str) :
    Safe E n (newFileNode mode uname gname) (fun f w' => Held w' f) w := by
  rw [newFileNode]
  refine (safe_now h).bind ?_
  rintro t w₁ h₁ - -
  refine (safe_allocNew h₁ (fun _ => rfl) (fun _ => rfl) rfl rfl rfl).mono fun _ _ _ _ hf => ?_
  exact .of_fil hf (sIsdir_fresh mode).symm (by simp [FileNode.fresh])

theorem safe_newDirNode (h : FsOk E n w) (mode : UInt32) (uname gname : Str) :
    Safe E n (newDirNode mode uname gname) (fun d w' => DirMember w' d) w := by
  rw [newDirNode]
  refine (safe_now h).bind ?_
  rintro t w₁ h₁ - -
  refine (safe_allocNew h₁ (fun _ => rfl) (fun _ => rfl) rfl rfl rfl).mono fun _ _ _ _ hf => ?_
  exact ⟨.of_fil hf (sIsdir_freshDir (mode ||| sIfreg)).symm (by simp [FileNode.freshDir]), by rw [hf.2]; rfl⟩

theorem safe_newSymlinkNode (h : FsOk E n w) (path : Str) :
    Safe E n (newSymlinkNode path) (fun f w' => Held w' f) w := by
  rw [newSymlinkNode]
  refine (safe_now h).bind ?_
  rintro t w₁ h₁ - -
  split
  case isTrue => exact .raise h₁ _
  case isFalse =>
    refine (safe_allocNew h₁ (fun _ => rfl) (fun _ => rfl) rfl rfl rfl).mono fun _ _ _ _ hf => ?_
    exact .of_fil hf (show false = sIsdir (((0o777 ||| sIfreg) &&& ~~~sIfmt) ||| sIflnk) by decide)
      (by simp [FileNode.freshSymlink])

theorem safe_mknod (h : FsOk E n w) (hd : d < w.nfil) (entry : Str) (mode : UInt32) (uname gname : Str) :
    Safe E n (mknod E d entry mode uname gname) (fun _ _ => True) w := by
  rw [mknod]
  refine (safe_addNode h hd entry fun w' h' => safe_newFileNode h' mode uname gname).bind ?_
  rintro - w₁ h₁ - -
  refine (safe_setFilDirty h₁).bind ?_
  exact fun _ w₂ h₂ _ _ => .ret h₂ trivial

theorem safe_mkdir (h : FsOk E n w) (hd : d < w.nfil) (entry : Str) (mode : UInt32) (uname gname : Str) :
    Safe E n (mkdir E d entry mode uname gname) (fun _ _ => True) w := by
  rw [mkdir]
  refine (safe_addNode h hd entry fun w' h' =>
    (safe_newDirNode h' mode uname gname).mono fun _ _ _ _ hm => hm.held).bind ?_
  rintro - w₁ h₁ - -
  refine (safe_modifyINode h₁ (by rfl)).bind ?_
  rintro - w₂ h₂ - -
  refine (safe_setFilDirty h₂).bind ?_
  exact fun _ w₃ h₃ _ _ => .ret h₃ trivial

/-- The entries that are left are among those that were there. -/
theorem mem_dirRemove {entry : Str} {l : Directory} {e : Str × BlockRef}
    (he : e ∈ (dirRemove entry l).2) : e ∈ l := by
  rw [dirRemove] at he
  split at he
  case h_1 i last _ hlast =>
    rcases List.mem_or_eq_of_mem_set (List.mem_of_mem_dropLast he) with he | rfl
    · exact he
    · exact List.mem_of_getLast? hlast
  case h_2 => exact List.mem_of_mem_dropLast he

theorem safe_removeEntry (h : FsOk E n w) (hd : d < w.nfil) (entry : Str) :
    Safe E n (removeEntry d entry) (fun _ _ => True) w := by
  rw [removeEntry]
  refine Safe.read ?_
  dsimp only
  split
  case isTrue => exact .inr ⟨h, .refl w⟩
  case isFalse =>
    generalize hx : dirRemove entry (w.fil d).dir = x
    obtain ⟨ref, dir⟩ := x
    have hdir : ∀ e ∈ dir, e ∈ (w.fil d).dir := by
      intro e he
      have hmem : e ∈ (dirRemove entry (w.fil d).dir).2 := by
        rw [hx]
        exact he
      exact mem_dirRemove hmem
    refine (safe_modifyDir h fun e he hne => (h.node d hd).refs e (hdir e he) hne).bind ?_
    rintro - w₁ h₁ hl₁ -
    refine (safe_eraseDirty h₁ (hd.trans_le hl₁.nfil) entry).bind ?_
    rintro - w₂ h₂ hl₂ -
    split
    case isTrue =>
      refine (safe_cacheRemove h₂ ref).bind ?_
      exact fun _ w₃ h₃ _ _ => safe_setFilDirty h₃
    case isFalse => exact safe_setFilDirty h₂

theorem safe_unlink (h : FsOk E n w) (hd : d < w.nfil) (entry : Str) (dirstoo : Bool) :
    Safe E n (unlink E d entry dirstoo) (fun _ _ => True) w := by
  rw [unlink]
  refine (safe_lookup h hd entry false).bind ?_
  rintro o w₁ h₁ hl₁ -
  cases o with
  | none => exact .raise h₁ _
  | some f =>
      refine Safe.read ?_
      have hrest : Safe E n (do
          removeEntry d entry
          return (0 : ℤ)) (fun _ _ => True) w₁ := by
        refine (safe_removeEntry h₁ (hd.trans_le hl₁.nfil) entry).bind ?_
        exact fun _ w₂ h₂ _ _ => .ret h₂ trivial
      split
      case isTrue => exact .raise h₁ _
      case isFalse => exact hrest

theorem safe_rmdir (h : FsOk E n w) (hd : d < w.nfil) (entry : Str) :
    Safe E n (rmdir E d entry) (fun _ _ => True) w := by
  rw [rmdir]
  refine (safe_lookup h hd entry false).bind ?_
  rintro o w₁ h₁ hl₁ -
  cases o with
  | none => exact .raise h₁ _
  | some f =>
      refine Safe.read ?_
      dsimp only
      split
      case isTrue => exact .inr ⟨h₁, .refl w₁⟩
      case isFalse =>
        split
        case isTrue => exact .inr ⟨h₁, .refl w₁⟩
        case isFalse =>
          split
          case isTrue => exact .inr ⟨h₁, .refl w₁⟩
          case isFalse =>
            refine (safe_removeEntry h₁ (hd.trans_le hl₁.nfil) entry).bind ?_
            exact fun _ w₂ h₂ _ _ => .ret h₂ trivial

theorem safe_symlink (h : FsOk E n w) (hd : d < w.nfil) (entry opath : Str) :
    Safe E n (symlink E d entry opath) (fun _ _ => True) w := by
  rw [symlink]
  refine Safe.read ?_
  split
  case isTrue =>
    rw [symlinkSpecial]
    split
    case isTrue => exact .ret h trivial
    case isFalse =>
      refine (safe_newSymlinkNode h opath).bind ?_
      rintro f w₁ h₁ hl₁ hf
      have hmod : Safe E n (modify fun w => { w with control := some f }) (fun _ _ => True) w₁ := by
        have hs : SameShape w₁ { w₁ with control := some f } :=
          ⟨fun _ => rfl, fun _ => rfl, fun _ => rfl, fun _ => rfl, fun _ => rfl, fun _ => rfl, rfl, rfl,
            rfl, rfl, List.Sublist.refl _, rfl⟩
        have hl : Later w₁ { w₁ with control := some f } :=
          ⟨.refl _, fun _ hi => hi, Nat.le_refl _, fun _ _ => rfl, fun _ _ => rfl⟩
        refine ⟨h₁.step (h₁.blk.sameShape hs (fun _ => .inl rfl) fun _ _ _ => rfl) hl h₁.store
          (fun g hg => .inl ⟨hg, rfl⟩) (fun _ _ hr => .inl hr) (fun _ hd => .inl hd) (fun _ hd => .inl hd)
          (fun _ hd => .inl hd) (fun c hc => .inr ?_) rfl, hl, trivial⟩
        rw [← Option.some.inj hc]
        exact hf.lt
      refine hmod.bind ?_
      exact fun _ w₂ h₂ _ _ => .ret h₂ trivial
  case isFalse =>
    refine (safe_addNode h hd entry fun w' h' => safe_newSymlinkNode h' opath).bind ?_
    rintro - w₁ h₁ - -
    refine (safe_setFilDirty h₁).bind ?_
    exact fun _ w₂ h₂ _ _ => .ret h₂ trivial

theorem safe_linkdst (h : FsOk E n w) (hd : d < w.nfil) (entry : Str) {ref : BlockRef} (force : Bool)
    (hs : ref ≠ .nil → Stored w.log ref .inode) :
    Safe E n (linkdst E d entry ref force) (fun _ _ => True) w := by
  have hadd : ∀ w', FsOk E n w' → Later w w' → Safe E n (do
      modifyDir d fun dir => dir ++ [(entry, ref)]
      setFilDirty d true
      return (0 : ℤ)) (fun _ _ => True) w' := by
    intro w' h' hl'
    refine (safe_modifyDir h' fun e he hne => ?_).bind ?_
    · rcases List.mem_append.1 he with he | he
      · exact (h'.node d (hd.trans_le hl'.nfil)).refs e he hne
      · obtain rfl := List.mem_singleton.1 he
        exact hl'.logLe.stored (hs hne)
    · rintro - w₁ h₁ - -
      refine (safe_setFilDirty h₁).bind ?_
      exact fun _ w₂ h₂ _ _ => .ret h₂ trivial
  rw [linkdst]
  refine (safe_lookup h hd entry false).bind ?_
  rintro o w₁ h₁ hl₁ -
  cases o with
  | none => exact hadd w₁ h₁ hl₁
  | some f =>
      dsimp only
      split
      case isTrue =>
        refine (safe_removeEntry h₁ (hd.trans_le hl₁.nfil) entry).bind ?_
        exact fun _ w₂ h₂ hl₂ _ => hadd w₂ h₂ (hl₁.trans hl₂)
      case isFalse => exact .raise h₁ _

theorem safe_openEntry (h : FsOk E n w) (hd : d < w.nfil) (entry : Str) (flags : UInt32) :
    Safe E n (openEntry E d entry flags) (fun _ _ => True) w := by
  rw [openEntry]
  refine Safe.read ?_
  split
  case isTrue => exact .ret h trivial
  case isFalse =>
    refine (safe_lookup h hd entry false).bind ?_
    rintro o w₁ h₁ - -
    cases o with
    | none => exact .raise h₁ _
    | some f => exact .ret h₁ trivial

end dir

/-! ### Following a path -/

section path

variable {R : Type} {fl : TraverseFlags} {t : NodeTraverseFunc R} {P : R → World → Prop}

variable (E n) in
/-- The functor keeps the invariant, and `P` of its state. -/
structure SafeFunc (P : R → World → Prop) (t : NodeTraverseFunc R) : Prop where
  later : ∀ v w w', P v w → Later w w' → P v w'
  leaf : ∀ f v w, FsOk E n w → f < w.nfil → P v w → Safe E n (t.ntLeaf f v) P w
  parent : ∀ d entry v w, FsOk E n w → DirMember w d → P v w → Safe E n (t.ntParent d entry v) P w

/-- **`DirNode::node_traverse`**, by recursion on the components of the remainder. -/
theorem safe_nodeTraverse (ht : SafeFunc E n P t) : ∀ (rest : List Str) (d : ℕ) (entry : Str) (v : R)
    (w : World), FsOk E n w → DirMember w d → P v w → Safe E n (nodeTraverse E fl t rest d entry v) P w := by
  -- The directory is updated last, if at all.
  have hupdate : ∀ (d : ℕ) (entry : Str) (fnh : Option ℕ) (v : R) (w : World), FsOk E n w → d < w.nfil →
      (∀ f, fnh = some f → Held w f) → P v w → Safe E n (do
        updateNode d entry fnh
        return v) P w := by
    intro d entry fnh v w h hd hf hP
    refine (safe_updateNode h hd hf).bind ?_
    exact fun _ w₁ h₁ hl₁ _ => .ret h₁ (ht.later _ _ _ hP hl₁)
  intro rest
  induction rest with
  | nil =>
      intro d entry v w h hd hP
      rw [nodeTraverse]
      refine (safe_lookup h hd.held.lt entry fl.readonly).bind ?_
      rintro fnh w₁ h₁ hl₁ hfnh
      dsimp only
      split
      case isTrue =>
        refine (ht.parent d entry v w₁ h₁ (hd.later hl₁) (ht.later _ _ _ hP hl₁)).bind ?_
        intro v₁ w₂ h₂ hl₂ hP₂
        have hd₂ := (hd.later hl₁).later hl₂
        split
        case isTrue =>
          refine (safe_lookup h₂ hd₂.held.lt entry fl.readonly).bind ?_
          rintro fnh' w₃ h₃ hl₃ hfnh'
          exact hupdate d entry fnh' v₁ w₃ h₃ (hd₂.later hl₃).held.lt hfnh' (ht.later _ _ _ hP₂ hl₃)
        case isFalse => exact .ret h₂ hP₂
      case isFalse =>
        cases fnh with
        | none => exact .raise h₁ _
        | some f =>
            dsimp only
            refine (ht.leaf f v w₁ h₁ (hfnh f rfl).lt (ht.later _ _ _ hP hl₁)).bind ?_
            intro v₁ w₂ h₂ hl₂ hP₂
            split
            case isTrue =>
              refine hupdate d entry (some f) v₁ w₂ h₂ ((hd.later hl₁).later hl₂).held.lt (fun f' hf' => ?_) hP₂
              obtain rfl := Option.some.inj hf'
              exact (hfnh f rfl).later hl₂
            case isFalse => exact .ret h₂ hP₂
  | cons next rest ih =>
      intro d entry v w h hd hP
      rw [nodeTraverse]
      refine (safe_lookup h hd.held.lt entry fl.readonly).bind ?_
      rintro fnh w₁ h₁ hl₁ hfnh
      cases fnh with
      | none => exact .raise h₁ _
      | some f =>
          have hf := hfnh f rfl
          refine Safe.read ?_
          dsimp only
          split
          case isTrue => exact .inr ⟨h₁, .refl w₁⟩
          case isFalse hdir =>
            have hf' : DirMember w₁ f := ⟨hf, by simpa using hdir⟩
            refine (ih f next v w₁ h₁ hf' (ht.later _ _ _ hP hl₁)).bind ?_
            intro v₁ w₂ h₂ hl₂ hP₂
            split
            case isTrue =>
              refine hupdate d entry (some f) v₁ w₂ h₂ ((hd.later hl₁).later hl₂).held.lt (fun f' hf' => ?_) hP₂
              obtain rfl := Option.some.inj hf'
              exact hf.later hl₂
            case isFalse => exact .ret h₂ hP₂

theorem safe_specialTraverse (ht : SafeFunc E n P t) (h : FsOk E n w) {d : ℕ} (hd : DirMember w d)
    (rest : List Str) (entry : Str) {v : R} (hP : P v w) :
    Safe E n (specialTraverse t rest d entry v) P w := by
  rw [specialTraverse]
  split
  case isTrue =>
    refine (ht.parent d entry v w h hd hP).bind ?_
    intro v₁ w₁ h₁ _ hP₁
    refine Safe.read ?_
    cases hv : w₁.version with
    | none => exact .raise h₁ _
    | some f => exact ht.leaf f v₁ w₁ h₁ (h₁.version f hv) hP₁
  case isFalse =>
    split
    case isTrue =>
      refine (ht.parent d entry v w h hd hP).bind ?_
      intro v₁ w₁ h₁ _ hP₁
      refine Safe.read ?_
      cases hc : w₁.control with
      | none => exact .raise h₁ _
      | some f => exact ht.leaf f v₁ w₁ h₁ (h₁.control f hc) hP₁
    case isFalse => exact .raise h _

/-- **`RootDirNode::node_traverse`.** -/
theorem safe_rootTraverse (ht : SafeFunc E n P t) (h : FsOk E n w) (rest : List Str) (entry : Str) {v : R}
    (hP : P v w) : Safe E n (rootTraverse E fl t rest entry v) P w := by
  rw [rootTraverse]
  refine Safe.read ?_
  cases hd : w.rdh with
  | none => exact .raise h _
  | some d =>
      have hdir := h.top d hd
      change Safe E n (if entry = [] then _ else _) _ w
      split
      case isTrue =>
        split
        case isTrue => exact .inr ⟨h, .refl w⟩
        case isFalse => exact ht.leaf d v w h hdir.held.lt hP
      case isFalse =>
        split
        case isTrue =>
          cases hs : w.sdh with
          | none => exact .raise h _
          | some s =>
              have hspecial := h.special s hs
              cases rest with
              | nil => exact ht.leaf s v w h hspecial.held.lt hP
              | cons next rest => exact safe_specialTraverse ht h hspecial rest next hP
        case isFalse => exact safe_nodeTraverse ht rest d entry v w h hdir hP

/-- Splitting a path has no effect. -/
theorem pathsplit_eq (path : Str) :
    (∃ x, pathsplit path = pure x) ∨ ∃ text, pathsplit path = throw (.internalError text) := by
  cases path with
  | nil => exact .inr ⟨_, rfl⟩
  | cons c path =>
      rw [pathsplit]
      split
      case isFalse => exact .inr ⟨_, rfl⟩
      case isTrue =>
        dsimp only
        split
        case isTrue => exact .inl ⟨_, rfl⟩
        case isFalse => split <;> exact .inl ⟨_, rfl⟩

theorem components_eq : ∀ (fuel : ℕ) (rmndr : Str),
    (∃ l, components fuel rmndr = pure l) ∨ ∃ text, components fuel rmndr = throw (.internalError text) := by
  intro fuel
  induction fuel with
  | zero => exact fun _ => .inl ⟨_, rfl⟩
  | succ fuel ih =>
      intro rmndr
      rw [components]
      split
      case isTrue => exact .inl ⟨_, rfl⟩
      case isFalse =>
        rcases pathsplit_eq rmndr with ⟨x, hx⟩ | ⟨text, hx⟩
        · rcases ih x.2 with ⟨l, hl⟩ | ⟨text, hl⟩
          · exact .inl ⟨x.1 :: l, by simp only [hx, pure_bind, hl]⟩
          · exact .inr ⟨text, by simp only [hx, pure_bind, hl]; rfl⟩
        · exact .inr ⟨text, by simp only [hx]; rfl⟩

theorem splitPath_eq (path : Str) :
    (∃ x, splitPath path = pure x) ∨ ∃ text, splitPath path = throw (.internalError text) := by
  rw [splitPath]
  rcases pathsplit_eq path with ⟨x, hx⟩ | ⟨text, hx⟩
  · rcases components_eq x.2.length x.2 with ⟨l, hl⟩ | ⟨text, hl⟩
    · exact .inl ⟨(x.1, l), by simp only [hx, pure_bind, hl]⟩
    · exact .inr ⟨text, by simp only [hx, pure_bind, hl]; rfl⟩
  · exact .inr ⟨text, by simp only [hx]; rfl⟩

theorem safe_splitPath (h : FsOk E n w) (path : Str) : Safe E n (splitPath path) (fun _ _ => True) w := by
  rcases splitPath_eq path with ⟨x, hx⟩ | ⟨text, hx⟩
  · rw [hx]
    exact .ret h trivial
  · rw [hx]
    exact .raise h _

theorem safe_ntRetval (h : FsOk E n w) (v : Option ℤ) : Safe E n (ntRetval v) (fun _ _ => True) w := by
  cases v with
  | none => exact .raise h _
  | some rv => exact .ret h trivial

theorem safe_catchErrno {m : M ℤ} (hm : Safe E n m (fun _ _ => True) w) :
    Safe E n (catchErrno m) (fun _ _ => True) w := by
  refine hm.rescue (fun e he => ?_) fun e w' h' _ => ?_
  · cases e <;> first | rfl | exact he.elim
  · cases e <;> first | exact .ret h' trivial | exact .raise h' _

/-- One traversal of a path. -/
theorem safe_traverse (ht : SafeFunc E n P t) (h : FsOk E n w) (path : Str) {v : R} (hP : P v w) {β : Type}
    {next : R → M β} {Q : β → World → Prop}
    (hnext : ∀ v' w', FsOk E n w' → P v' w' → Safe E n (next v') Q w') :
    Safe E n (do
      let (entry, rest) ← splitPath path
      let v' ← rootTraverse E fl t rest entry v
      next v') Q w := by
  refine (safe_splitPath h path).bind ?_
  rintro ⟨entry, rest⟩ w₁ h₁ hl₁ -
  refine (safe_rootTraverse ht h₁ rest entry (ht.later _ _ _ hP hl₁)).bind ?_
  exact fun v' w₂ h₂ _ hP₂ => hnext v' w₂ h₂ hP₂

end path

end UTFS

end Utopfs
