/-
**Changing one node.**

The operations on the node at a path change what can be seen there and nothing else: neither what other paths
lead to, nor what can be seen of the nodes there.

Main definitions:

* `UTFS.NodeView.adjust` — a change of the inode, as it can be seen.

Main results:

* `UTFS.Rewrote.view` — what can be seen after the node at a path has changed;
* `UTFS.wp_fsChmod`, `UTFS.wp_fsChown`, `UTFS.wp_fsUtime` — **the operations on the inode**;
* `UTFS.wp_fsWrite`, `UTFS.wp_fsTruncate` — **those on the bytes**.
-/

import Utopfs.DirChange

set_option relaxedAutoImplicit false
set_option autoImplicit false

namespace Utopfs

namespace UTFS

open Prog

variable {E : Env} {w w' : World} {L : Laws} {f : ℕ} {t : List Str}

/-! ### One node of the tree -/

section node

/-- Nothing else can be seen to have changed. -/
theorem Rewrote.view (hr : Rewrote E f w w') (h : TInv E L none none w)
    (hf : (w.graph E none none).find .top t = some (.mem f)) :
    w'.view E = Function.update (w.view E) t (w'.out E (.mem f)) := by
  funext q
  have hfind := (hr.sameTree h).find .top q
  rw [World.view, hfind, Function.update_apply]
  split
  case isTrue hq =>
    subst hq
    rw [hf, Option.bind_some]
  case isFalse hq =>
    rw [World.view]
    cases hx : (w.graph E none none).find .top q with
    | none => rfl
    | some x =>
        refine hr.out h ⟨.top, q, hx⟩ ?_
        rintro rfl
        exact hq (h.find_mem_inj hx hf).2

theorem Rewrote.back (hr : Rewrote E f w w') (h : TInv E L none none w) (hX : Reg E none none ∅ w) :
    Back E L none none t f w w' := by
  refine ⟨hr.tinv h, fun q _ g hg => ?_, ?_, hr.later⟩
  · rw [(hr.sameTree h).find]
    exact hg
  · have hreg := hr.reg h hX
    rwa [insert_empty_eq] at hreg

/-- A node with another inode. -/
theorem Rewrote.setFil (h : BInv E ∅ w) (i : INode) (b : Bool)
    (hkind : sIsdir i.mode = sIsdir (w.fil f).inode.mode) (hnlink : i.nlink = (w.fil f).inode.nlink)
    (hclean : b = false → (w.fil f).isdirty = false ∧
      ({ i with atime := 0, mtime := 0 } : INode) = { (w.fil f).inode with atime := 0, mtime := 0 }) :
    Rewrote E f w (w.setFil f { w.fil f with inode := i, isdirty := b }) := by
  have hself := setFil_self w f { w.fil f with inode := i, isdirty := b }
  refine ⟨h.sameShape (.setFil w rfl rfl) (fun _ => .inl rfl) (fun _ _ _ => rfl), rfl, rfl, rfl, rfl, .refl _,
    fun g hg => setFil_of_ne w _ hg, fun g _ _ a => ?_, ?_, ?_, ?_, ?_, ?_, ?_, ?_⟩
  · exact fileBytes_setFil (x := { w.fil f with inode := i, isdirty := b }) w f rfl rfl rfl g a
  all_goals rw [hself]
  · exact hkind
  · exact hnlink
  · intro hc
    obtain ⟨hd, hi⟩ := hclean hc
    exact ⟨hd, by simp only [FileNode.timeless, FileNode.bare, hi, hd, hc]⟩

/-- A change of the inode, as it can be seen. -/
def NodeView.adjust (g : INode → INode) (v : NodeView) : NodeView :=
  { v with inode := if v.bytes.isSome then g v.inode else (g v.inode).seen }

theorem Rewrote.unflushed (hr : Rewrote E f w w') : Unflushed f w w' := by
  cases hd : (w'.fil f).isdirty with
  | true => exact .inl hd
  | false => exact .inr ⟨hd.trans (hr.clean hd).1.symm, hr.ref⟩

/-- What can be seen of a node with another inode. -/
theorem Rewrote.out_adjust (hr : Rewrote E f w w') {g : INode → INode}
    (hg : ∀ i, (g i.seen).seen = (g i).seen) (hi : (w'.fil f).inode = g (w.fil f).inode)
    (hbytes : ∀ a, fileBytes E w' f a = fileBytes E w f a) :
    w'.out E (.mem f) = (w.out E (.mem f)).map (NodeView.adjust g) := by
  simp only [World.out, hr.cls, hi, funext hbytes]
  cases (w.fil f).cls.isDir with
  | true => simp [NodeView.adjust, hg]
  | false => simp [NodeView.adjust]

variable {g : INode → INode}

/-- The inode of a node is changed, and the node is marked or not. -/
theorem Rewrote.modified (h : BInv E ∅ w) (b : Bool) (hg : ∀ i, (g i.seen).seen = (g i).seen)
    (hkind : ∀ i, sIsdir (g i).mode = sIsdir i.mode) (hnlink : ∀ i, (g i).nlink = i.nlink)
    (hclean : b = false → (w.fil f).isdirty = false ∧
      ∀ i, ({ g i with atime := 0, mtime := 0 } : INode) = { i with atime := 0, mtime := 0 })
    (hw : w' = w.setFil f { w.fil f with inode := g (w.fil f).inode, isdirty := b }) :
    Rewrote E f w w' ∧ w'.out E (.mem f) = (w.out E (.mem f)).map (NodeView.adjust g) := by
  subst hw
  have hr := Rewrote.setFil (f := f) h (g (w.fil f).inode) b (hkind _) (hnlink _)
    fun hb => ⟨(hclean hb).1, (hclean hb).2 _⟩
  refine ⟨hr, hr.out_adjust hg (by rw [setFil_self]) fun a => ?_⟩
  exact fileBytes_setFil (x := { w.fil f with inode := g (w.fil f).inode, isdirty := b }) w f rfl rfl rfl f a

/-- The node is changed and marked. -/
theorem modifyINode_mark_run : (do
    modifyINode f g
    setFilDirty f true
    return (0 : ℤ)) w = .ok 0 (w.setFil f { w.fil f with inode := g (w.fil f).inode, isdirty := true }) := by
  simp [-bind_pure_comp, modifyINode, setFilDirty, bind_apply, modify_apply, pure_apply, World.setFil]

end node

/-! ### The operations -/

section ops

variable {entry : Str} {rest : List Str} {path : Str} {P : Errno → Prop}

/-- **An operation on the node at a path**, from what it does to the node. -/
theorem wp_leaf {act : ℕ → UTFS.M ℤ} {C : ℤ → NodeView → NodeView → Prop} (Lost : Exn → Prop)
    (hlost : ∀ en, ¬ Lost (.errno en)) (hpath : splitPath path = pure (entry, rest))
    (h : TInv E L none none w) (hX : Reg E none none ∅ w) (hspecial : entry ≠ specialDir)
    (hact : ∀ w₁ f, TInv E L none none w₁ → Held w₁ f → wp (act f)
      (fun rv w₂ => Rewrote E f w₁ w₂ ∧ ∃ v v', w₁.out E (.mem f) = some v ∧ C rv v v' ∧
        w₂.out E (.mem f) = some v')
      (fun ex _ => Lost ex) w₁) :
    wp (changeLeaf E act path) (LeafEnds E L (target entry rest) w C)
      (Fails E L none Lost (fun _ => False) w) w := by
  refine wp_changeLeaf Lost hlost hpath h hX hspecial fun w₁ f hre hf => ?_
  refine wp_mono (hact w₁ f hre.inv (hre.inv.live_valid ⟨.top, _, hf⟩)) ?_ fun _ _ hl => hl
  rintro rv w₂ ⟨hr, v, v', hv, hC, hv'⟩
  refine ⟨hr.back hre.inv hre.reg, hr.unflushed, v, v', ?_, hC, by rw [hr.view hre.inv hf, hv']⟩
  rw [World.view, hf]
  exact hv

/-- The operations that change the inode: what they change in it, and whether they mark the node. -/
theorem wp_inode (hpath : splitPath path = pure (entry, rest)) (h : TInv E L none none w)
    (hX : Reg E none none ∅ w) (hspecial : entry ≠ specialDir) {act : ℕ → UTFS.M ℤ} {g : INode → INode}
    (mark : FileNode → Bool)
    (hrun : ∀ w₁ f, act f w₁ = .ok 0 (w₁.setFil f { w₁.fil f with
      inode := g (w₁.fil f).inode, isdirty := mark (w₁.fil f) }))
    (hg : ∀ i, (g i.seen).seen = (g i).seen) (hkind : ∀ i, sIsdir (g i).mode = sIsdir i.mode)
    (hnlink : ∀ i, (g i).nlink = i.nlink)
    (hclean : ∀ x, mark x = false → x.isdirty = false ∧
      ∀ i, ({ g i with atime := 0, mtime := 0 } : INode) = { i with atime := 0, mtime := 0 }) :
    wp (changeLeaf E act path)
      (LeafEnds E L (target entry rest) w fun rv v v' => rv = 0 ∧ v' = v.adjust g)
      (Fails E L none (fun _ => False) (fun _ => False) w) w := by
  refine wp_leaf (fun _ => False) (fun _ => id) hpath h hX hspecial fun w₁ f h₁ hf => ?_
  obtain ⟨v, hv, -⟩ := hf.out (E := E)
  obtain ⟨hr, hout⟩ := Rewrote.modified (f := f) h₁.nodes.blk (mark (w₁.fil f)) hg hkind hnlink (hclean _) rfl
  rw [wp, hrun]
  exact ⟨hr, v, v.adjust g, hv, ⟨rfl, rfl⟩, by rw [hout, hv]; rfl⟩

/-- What `chmod` does to an inode. -/
def INode.chmod (mode : UInt32) (i : INode) : INode :=
  { i with mode := (i.mode &&& ~~~allPerms) ||| (mode &&& allPerms) }

/-- What `chown` does to an inode. -/
def INode.chown (uname gname : Str) (i : INode) : INode := { i with uname := uname, gname := gname }

/-- What `utime` does to an inode. -/
def INode.utime (atime mtime : ℕ) (i : INode) : INode := { i with atime := atime, mtime := mtime }

/-- **`fs_chmod`.** -/
theorem wp_fsChmod (hpath : splitPath path = pure (entry, rest)) (h : TInv E L none none w)
    (hX : Reg E none none ∅ w) (hspecial : entry ≠ specialDir) (mode : UInt32) :
    wp (fsChmod E path mode)
      (LeafEnds E L (target entry rest) w fun rv v v' => rv = 0 ∧ v' = v.adjust (.chmod mode))
      (Fails E L none (fun _ => False) (fun _ => False) w) w :=
  wp_inode hpath h hX hspecial (fun _ => true) (fun _ _ => modifyINode_mark_run) (fun _ => rfl)
    (fun i => sIsdir_chmod i.mode mode) (fun _ => rfl) fun _ hm => by simp at hm

/-- **`fs_chown`.** -/
theorem wp_fsChown (hpath : splitPath path = pure (entry, rest)) (h : TInv E L none none w)
    (hX : Reg E none none ∅ w) (hspecial : entry ≠ specialDir) (uname gname : Str) :
    wp (fsChown E path uname gname)
      (LeafEnds E L (target entry rest) w fun rv v v' => rv = 0 ∧ v' = v.adjust (.chown uname gname))
      (Fails E L none (fun _ => False) (fun _ => False) w) w :=
  wp_inode hpath h hX hspecial (fun _ => true) (fun _ _ => modifyINode_mark_run) (fun _ => rfl) (fun _ => rfl)
    (fun _ => rfl) fun _ hm => by simp at hm

/-- **`fs_utime`.** -/
theorem wp_fsUtime (hpath : splitPath path = pure (entry, rest)) (h : TInv E L none none w)
    (hX : Reg E none none ∅ w) (hspecial : entry ≠ specialDir) (atime mtime : ℕ) :
    wp (fsUtime E path atime mtime)
      (LeafEnds E L (target entry rest) w fun rv v v' => rv = 0 ∧ v' = v.adjust (.utime atime mtime))
      (Fails E L none (fun _ => False) (fun _ => False) w) w :=
  wp_inode hpath h hX hspecial FileNode.isdirty (fun _ _ => rfl) (fun _ => rfl) (fun _ => rfl) (fun _ => rfl)
    fun _ hm => ⟨hm, fun _ => rfl⟩

/-- What a truncation does to a node: bytes beyond the single indirect block stay where they are. -/
def NodeView.truncate (size blocks mtime : ℕ) (v : NodeView) : NodeView :=
  match v.bytes with
  | none => v
  | some b =>
      ⟨{ v.inode with blocks := blocks, size := size, mtime := mtime },
        some fun a => if size ≤ a ∧ a < FSlot.sin.top then 0 else b a⟩

/-- What a write does to a node. -/
def NodeView.write (data : List UInt8) (off blocks : ℕ) (v : NodeView) : NodeView :=
  match v.bytes with
  | none => v
  | some b =>
      ⟨{ v.inode with blocks := blocks, size := max (off + data.length) v.inode.size },
        some fun a => wrote data off a (b a)⟩

theorem Truncated.out {size : ℕ} (ht : Truncated E f size w w') : w'.out E (.mem f) =
    (w.out E (.mem f)).map (NodeView.truncate size (w'.fil f).inode.blocks (w'.fil f).inode.mtime) := by
  have hown := ht.own
  have hcls : (w'.fil f).cls = (w.fil f).cls := by rw [hown]
  have hi : (w'.fil f).inode = { (w.fil f).inode with
      blocks := (w'.fil f).inode.blocks, size := size, mtime := (w'.fil f).inode.mtime } := by
    conv_lhs => rw [hown]
  simp only [World.out, hcls]
  cases (w.fil f).cls.isDir with
  | true =>
      simp only [if_true, Option.map_some, NodeView.truncate, Option.some.injEq, NodeView.mk.injEq, and_true]
      rw [hi]
      rfl
  | false =>
      have hb : fileBytes E w' f = fun a => if size ≤ a ∧ a < FSlot.sin.top then 0 else fileBytes E w f a := by
        funext a
        split
        case isTrue ha => exact ht.zeros a ha.1 ha.2
        case isFalse ha =>
          rcases Nat.lt_or_ge a size with hlt | hge
          · exact ht.bytes a hlt
          · exact ht.farBytes a (by omega)
      simp only [Bool.false_eq_true, if_false, Option.map_some, NodeView.truncate, hb]
      rw [← hi]

/-- **`fs_truncate`.** -/
theorem wp_fsTruncate (hpath : splitPath path = pure (entry, rest)) (h : TInv E L none none w)
    (hX : Reg E none none ∅ w) (hspecial : entry ≠ specialDir) (size : ℕ) :
    wp (fsTruncate E path size)
      (LeafEnds E L (target entry rest) w fun rv v v' => rv = 0 ∧ ∃ blocks mtime, v' = v.truncate size blocks mtime)
      (Fails E L none (fun _ => False) (fun _ => False) w) w := by
  refine wp_leaf (fun _ => False) (fun _ => id) hpath h hX hspecial fun w₁ f h₁ hf => ?_
  obtain ⟨v, hv, -⟩ := hf.out (E := E)
  refine wp_seq (wp_fileTruncate h₁.nodes.blk hf.lt) ?_ fun _ _ hF => hF
  rintro - w₂ ht
  exact ⟨ht.rewrote, v, _, hv, ⟨rfl, _, _, rfl⟩, by rw [ht.out, hv]; rfl⟩

/-- A write of at least one byte, within the largest file. -/
theorem Written.out {data : List UInt8} {off : ℕ} (hw : Written E f data off w w')
    (hle : off + data.length ≤ maxSize) (hd : (w'.fil f).isdirty = true) : w'.out E (.mem f) =
    (w.out E (.mem f)).map (NodeView.write data off (w'.fil f).inode.blocks) := by
  have hown := hw.own
  have hcls : (w'.fil f).cls = (w.fil f).cls := by rw [hown]
  have hsize := hw.size
  rw [hd, if_pos rfl] at hsize
  have hi : (w'.fil f).inode = { (w.fil f).inode with
      blocks := (w'.fil f).inode.blocks, size := max (off + data.length) (w.fil f).inode.size } := by
    conv_lhs => rw [hown]
    rw [hsize]
  simp only [World.out, hcls]
  cases (w.fil f).cls.isDir with
  | true =>
      simp only [if_true, Option.map_some, NodeView.write, Option.some.injEq, NodeView.mk.injEq, and_true]
      rw [hi]
      rfl
  | false =>
      have hb : fileBytes E w' f = fun a => wrote data off a (fileBytes E w f a) := by
        funext a
        rcases Nat.lt_or_ge a maxSize with hlt | hge
        · exact hw.bytes a hlt
        · rw [fileBytes_beyond w' f hge, fileBytes_beyond w f hge, wrote, if_neg (by omega)]
      simp only [Bool.false_eq_true, if_false, Option.map_some, NodeView.write, hb]
      rw [← hi]

/-- **`fs_write`** of at least one byte.  A write beyond the largest file leaves part of it behind. -/
theorem wp_fsWrite (hpath : splitPath path = pure (entry, rest)) (h : TInv E L none none w)
    (hX : Reg E none none ∅ w) (hspecial : entry ≠ specialDir) {data : List UInt8} (hne : data ≠ []) (off : ℕ) :
    wp (fsWrite E path data off)
      (LeafEnds E L (target entry rest) w fun rv v v' => rv = data.length ∧ ∃ blocks, v' = v.write data off blocks)
      (Fails E L none (fun ex => ex = .internalError "more indirect block traversal implementation required")
        (fun _ => False) w) w := by
  refine wp_leaf _ (by simp) hpath h hX hspecial fun w₁ f h₁ hf => ?_
  obtain ⟨v, hv, -⟩ := hf.out (E := E)
  have hpos := List.length_pos_iff.2 hne
  refine wp_mono (wp_and (wp_fileWrite h₁.nodes.blk hf.lt data off) (wp_fileWrite_within h₁.nodes.blk hf.lt data off))
    ?_ fun ex w₂ hF => hF.1.2.2
  rintro rv w₂ ⟨⟨rfl, hw⟩, hle⟩
  have hd : (w₂.fil f).isdirty = true := by
    by_contra hc
    rcases (hw.quiet (by simpa using hc)).2.1 with hnil | hge
    · exact hne hnil
    · omega
  refine ⟨hw.rewrote hd, v, _, hv, ⟨?_, _, rfl⟩, by rw [hw.out hle hd, hv]; rfl⟩
  rw [Nat.min_eq_left hle]
  congr 1
  omega

end ops

end UTFS

end Utopfs
