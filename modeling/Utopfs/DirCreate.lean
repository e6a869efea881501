/-
**Giving a new node a name.**

A new node has no name at first, and then an entry without a reference.  It is found because it is one of the
dirty nodes of the directory.

Main definitions:

* `UTFS.Fresh` — a new node, which has no names in it;
* `UTFS.World.named` — a directory with a new name.

Main results:

* `UTFS.wp_newFileNode`, `UTFS.wp_newDirNode`, `UTFS.wp_newSymlinkNode` — what can be seen of a new node;
* `UTFS.TInv.named` — **the tree with the new name**;
* `UTFS.wp_fsMknod`, `UTFS.wp_fsMkdir`, `UTFS.wp_fsSymlink` — **the operations that make a node**.
-/

import Utopfs.DirLeaf
import Utopfs.DirRemove

set_option relaxedAutoImplicit false
set_option autoImplicit false

namespace Utopfs

namespace UTFS

open Prog

variable {E : Env} {w w' : World} {L : Laws} {d f : ℕ} {e : Str} {p : List Str}

/-! ### New nodes -/

section fresh

/-- A new node: it has no reference and there are no names in it. -/
structure Fresh (w : World) (f : ℕ) : Prop where
  held : Held w f
  ref : (w.fil f).ref = .nil
  dir : (w.fil f).dir = []
  dirty : (w.fil f).dirty = []

/-- A node is made when the clock has been read. -/
theorem TInv.made (h : TInv E L none none w) (hL : ¬ L.links) (t : ℕ) {x : FileNode} (hobjs : ∀ s, x.objs s = none)
    (hrefs : ∀ s, x.refs s = .nil) (href : x.ref = .nil) (hd : x.isdirty = true) (hdir : x.dir = [])
    (hdirty : x.dirty = []) (hkind : x.cls.isDir = sIsdir x.inode.mode)
    (hplain : x.cls ≠ .specialDir ∧ x.cls ≠ .specialFile) :
    Made E L none none w w.nfil (World.allocFil { w with ticks := t } x) ∧
      Fresh (World.allocFil { w with ticks := t } x) w.nfil := by
  have hself : (World.allocFil { w with ticks := t } x).fil w.nfil = x := allocFil_self _ x
  have hold : ∀ g, g < w.nfil → (World.allocFil { w with ticks := t } x).fil g = w.fil g :=
    fun g hg => allocFil_of_lt { w with ticks := t } x hg
  have hb : BInv E ∅ ({ w with ticks := t } : World) :=
    h.nodes.blk.sameShape ⟨fun _ => rfl, fun _ => rfl, fun _ => rfl, fun _ => rfl, fun _ => rfl, fun _ => rfl, rfl,
      rfl, rfl, rfl, List.Sublist.refl _, rfl⟩ (fun _ => .inl rfl) fun _ _ _ => rfl
  have hok : NodeOk E L (World.allocFil { w with ticks := t } x) w.nfil := by
    refine ⟨?_, ?_, ?_, ?_, ?_, ?_, ?_, ?_, fun hl => absurd hl hL⟩
    all_goals rw [hself]
    · rw [href]
      exact fun hiv => h.nodes.blk.disk.randNe _ hiv BlockRef.iv_nil
    · simp [hd]
    · simp [hd]
    all_goals simp [hdir, hdirty]
  obtain ⟨ht, hs⟩ := h.fresh (hb.allocFil hobjs fun s hs => absurd (hrefs s) hs) rfl rfl rfl rfl hold hok
    (by rw [hself]; exact hplain.1) (.refl _) fun g hg => out_congr rfl rfl (hold g hg)
  exact ⟨⟨ht, hs, Nat.le_refl _, Nat.lt_succ_self _, .refl _, rfl, hold⟩,
    .of_fil ⟨Nat.lt_succ_self _, hself⟩ hkind hplain.2, by rw [hself]; exact href, by rw [hself]; exact hdir,
    by rw [hself]; exact hdirty⟩

/-- What can be seen of a node that has just been made. -/
theorem out_made (hnil : getBlock .nil w.log = none) (t : ℕ) {x : FileNode} (hobjs : ∀ s, x.objs s = none)
    (hrefs : ∀ s, x.refs s = .nil) : (World.allocFil { w with ticks := t } x).out E (.mem w.nfil) =
      if x.cls.isDir then some ⟨x.inode.seen, none⟩ else some ⟨x.inode, some fun a => byteAt x.inl a⟩ := by
  have hself : (World.allocFil { w with ticks := t } x).fil w.nfil = x := allocFil_self _ x
  have hbytes : fileBytes E (World.allocFil { w with ticks := t } x) w.nfil = fun a => byteAt x.inl a := by
    funext a
    rw [show w.nfil = ({ w with ticks := t } : World).nfil from rfl, fileBytes_allocFil_self _ hobjs, nodeBytes]
    split
    case isTrue => rfl
    case isFalse ha =>
      rw [byteAt, dif_neg ha]
      cases FSlot.at a with
      | none => rfl
      | some s =>
          dsimp only
          rw [hrefs]
          exact storeBytes_nil hnil _ _
  simp only [World.out, hself, hbytes]

/-- A functor makes a node, of which `V` can be seen. -/
def Makes (E : Env) (L : Laws) (V : NodeView → Prop) (make : UTFS.M ℕ) : Prop :=
  ∀ w, TInv E L none none w → wp make
    (fun f w' => Made E L none none w f w' ∧ Fresh w' f ∧ ∃ v, w'.out E (.mem f) = some v ∧ V v)
    (fun ex _ => Fatal ex) w

/-- What can be seen of a new file. -/
def newFile (mode : UInt32) (uname gname : Str) (t : ℕ) : NodeView :=
  ⟨(FileNode.fresh mode uname gname t).inode, some fun _ => 0⟩

/-- What can be seen of a new directory. -/
def newDir (mode : UInt32) (uname gname : Str) (t : ℕ) : NodeView :=
  ⟨(FileNode.freshDir mode uname gname t).inode.seen, none⟩

/-- What can be seen of a new link. -/
def newLink (path : Str) (t : ℕ) : NodeView :=
  ⟨(FileNode.freshSymlink path t).inode, some fun a => path.getD a 0⟩

theorem makes_newFileNode (hL : ¬ L.links) (mode : UInt32) (uname gname : Str) :
    Makes E L (fun v => ∃ t, v = newFile mode uname gname t) (newFileNode mode uname gname) := by
  intro w h
  obtain ⟨hm, hf⟩ := h.made hL (w.ticks + 1) (x := .fresh mode uname gname (w.clock w.ticks)) (fun _ => rfl)
    (fun _ => rfl) rfl rfl rfl rfl (sIsdir_fresh mode).symm (by simp [FileNode.fresh])
  have hout := out_made (E := E) h.nodes.blk.disk.nilFree (w.ticks + 1)
    (x := .fresh mode uname gname (w.clock w.ticks)) (fun _ => rfl) fun _ => rfl
  refine ⟨hm, hf, _, hout, w.clock w.ticks, ?_⟩
  rw [newFile]
  congr 2
  funext a
  simp [byteAt, FileNode.fresh]

theorem makes_newDirNode (hL : ¬ L.links) (mode : UInt32) (uname gname : Str) :
    Makes E L (fun v => ∃ t, v = newDir mode uname gname t) (newDirNode mode uname gname) := by
  intro w h
  obtain ⟨hm, hf⟩ := h.made hL (w.ticks + 1) (x := .freshDir mode uname gname (w.clock w.ticks)) (fun _ => rfl)
    (fun _ => rfl) rfl rfl rfl rfl (sIsdir_freshDir (mode ||| sIfreg)).symm (by simp [FileNode.freshDir])
  have hout := out_made (E := E) h.nodes.blk.disk.nilFree (w.ticks + 1)
    (x := .freshDir mode uname gname (w.clock w.ticks)) (fun _ => rfl) fun _ => rfl
  exact ⟨hm, hf, _, hout, w.clock w.ticks, rfl⟩

theorem makes_newSymlinkNode (hL : ¬ L.links) (path : Str) :
    Makes E L (fun v => path.length ≤ 4096 ∧ ∃ t, v = newLink path t) (newSymlinkNode path) := by
  intro w h
  have hrun : newSymlinkNode path w = if 4096 < path.length then
      .error (.undefined "memcpy beyond m_inl") { w with ticks := w.ticks + 1 }
      else .ok w.nfil (World.allocFil { w with ticks := w.ticks + 1 } (.freshSymlink path (w.clock w.ticks))) := by
    have hnow : now w = .ok (w.clock w.ticks) { w with ticks := w.ticks + 1 } := rfl
    rw [newSymlinkNode, bind_apply, hnow]
    dsimp only
    split <;> rfl
  rw [wp, hrun]
  by_cases hlen : 4096 < path.length
  · rw [if_pos hlen]
    exact trivial
  rw [if_neg hlen]
  obtain ⟨hm, hf⟩ := h.made hL (w.ticks + 1) (x := .freshSymlink path (w.clock w.ticks)) (fun _ => rfl)
    (fun _ => rfl) rfl rfl rfl rfl
    (show false = sIsdir (((0o777 ||| sIfreg) &&& ~~~sIfmt) ||| sIflnk) by decide) (by simp [FileNode.freshSymlink])
  have hout := out_made (E := E) h.nodes.blk.disk.nilFree (w.ticks + 1)
    (x := .freshSymlink path (w.clock w.ticks)) (fun _ => rfl) fun _ => rfl
  refine ⟨hm, hf, _, hout, Nat.le_of_not_lt hlen, w.clock w.ticks, ?_⟩
  rw [newLink]
  congr 2
  funext a
  rw [byteAt]
  split
  case isTrue => rfl
  case isFalse ha =>
    rw [List.getD_eq_getElem?_getD, List.getElem?_eq_none (by omega)]
    rfl

end fresh

/-! ### The new name -/

/-- The directory `d` with the new entry `e`, and a dirty node for it or none, and with another inode. -/
def World.named (w : World) (d : ℕ) (e : Str) (r : BlockRef) (o : Option ℕ) (g : INode → INode) : World :=
  w.setFil d { w.fil d with
    inode := g (w.fil d).inode
    dirty := updated e o (w.fil d).dirty
    dir := dirSet e r (w.fil d).dir
    isdirty := true }

section named

variable {g : INode → INode} {r : BlockRef} {o : Option ℕ}

theorem named_self : (w.named d e r o g).fil d = { w.fil d with
    inode := g (w.fil d).inode
    dirty := updated e o (w.fil d).dirty
    dir := dirSet e r (w.fil d).dir
    isdirty := true } := setFil_self ..

theorem named_onlyFil (hkind : ∀ i, sIsdir (g i).mode = sIsdir i.mode) : OnlyFil d w (w.named d e r o g) :=
  .setFil w w.ticks rfl rfl rfl rfl (hkind _)

/-- A directory without the name has it in neither collection. -/
theorem kid_none (hdir : (w.fil d).cls.isDir = true) (hk : w.kid E (.mem d) e = none) :
    (w.fil d).dirty.lookup e = none ∧ (w.fil d).dir.lookup e = none := by
  rw [kid_mem hdir] at hk
  cases hdy : (w.fil d).dirty.lookup e with
  | some y => simp [hdy] at hk
  | none =>
      simp only [hdy, Option.map_eq_none_iff] at hk
      exact ⟨rfl, hk⟩

variable (hkind : ∀ i, sIsdir (g i).mode = sIsdir i.mode) (hdir : (w.fil d).cls.isDir = true)
  (hk : w.kid E (.mem d) e = none)

include hdir hk

theorem named_lookup (n : Str) : ((w.named d e r o g).fil d).dirty.lookup n =
    if n = e ∧ o.isSome then o else (w.fil d).dirty.lookup n := by
  rw [named_self]
  refine lookup_updated (fun y _ z hz => ?_) n
  rw [(kid_none hdir hk).1] at hz
  simp at hz

/-- What the new name leads to: the dirty node, else what its reference leads to. -/
theorem named_kid : (w.named d e r o g).kid E (.mem d) e = some ((o.map Loc.mem).getD (w.locAt r)) := by
  have hl := named_lookup (r := r) (o := o) (g := g) hdir hk e
  rw [kid_mem (by rw [named_self]; exact hdir), hl]
  cases o with
  | some f => simp
  | none =>
      simp only [Option.isSome_none, Bool.false_eq_true, and_false, if_false, (kid_none hdir hk).1, named_self,
        lookup_dirSet, if_true, Option.map_some]
      rfl

include hkind

theorem named_onlyName : OnlyName E d e w (w.named d e r o g) := by
  have hcls : ((w.named d e r o g).fil d).cls.isDir = true := by rw [named_self]; exact hdir
  refine ⟨named_onlyFil hkind, by rw [named_self], fun n hn => ?_, fun n hn => ?_⟩
  · simp only [World.dirtyOf, hcls, hdir, if_true, named_lookup hdir hk, hn, false_and, if_false]
  · simp only [World.dirOf, named_self, hdir, if_true, lookup_dirSet, if_neg hn]

/-- The directory is in order, but for its link count. -/
theorem NodeOk.named (h : NodeOk E L w d) (hL : ¬ L.links) (ho : ∀ f, o = some f → Held w f)
    (hr : r ≠ .nil → Stored w.log r .inode) (hro : r = .nil → o.isSome) : NodeOk E L (w.named d e r o g) d := by
  have hl := (named_onlyFil (w := w) (d := d) (e := e) (r := r) (o := o) hkind).later
  have hnot : e ∉ (w.fil d).dir.map Prod.fst := lookup_eq_none_iff_notMem.1 (kid_none hdir hk).2
  have hset : dirSet e r (w.fil d).dir = (w.fil d).dir ++ [(e, r)] := dirSet_of_notMem _ hnot
  have hnames : (dirSet e r (w.fil d).dir).map Prod.fst = (w.fil d).dir.map Prod.fst ++ [e] := by
    rw [hset, List.map_append, List.map_singleton]
  refine ⟨?_, ?_, ?_, ?_, ?_, ?_, ?_, ?_, fun hc => absurd hc hL⟩
  · rw [named_self]
    exact h.iv
  · simp [named_self]
  · simp [named_self]
  · rw [named_self, hnames]
    exact List.nodup_append_comm.1 (List.nodup_cons.2 ⟨hnot, h.names⟩)
  · rw [named_self]
    intro x hx hne
    rcases mem_dirSet hx with hx | rfl
    · exact h.refs x hx hne
    · exact hr hne
  · rw [named_self, hnames]
    intro x hx
    rw [List.mem_append]
    rcases mem_updated hx with hx | ⟨f, -, rfl⟩
    · exact .inl (h.dirtyIn x hx)
    · exact .inr (List.mem_singleton.2 rfl)
  · intro x hx
    rw [named_self] at hx
    rcases mem_updated hx with hx | ⟨f, hf, rfl⟩
    · exact (h.held x hx).later hl
    · exact (ho f hf).later hl
  · intro hN x hx hnil
    rw [named_self] at hx
    -- The name has a dirty node: the new one, or that which it had.
    by_contra hno
    have hlook := named_lookup (r := r) (o := o) (g := g) hdir hk x.1
    rw [lookup_eq_none_iff_notMem.2 hno] at hlook
    split at hlook
    case isTrue hx' => simp [← hlook] at hx'
    case isFalse hne =>
      rcases mem_dirSet hx with hx | rfl
      · exact lookup_eq_none_iff_notMem.1 hlook.symm (h.nonil hN x hx hnil)
      · exact hne ⟨rfl, hro hnil⟩

/-- **The tree with the new name.** -/
theorem TInv.named (h : TInv E L none none w) (hL : ¬ L.links) (hX : Reg E none none ∅ w)
    (hd : (w.graph E none none).find .top p = some (.mem d)) (hf : Fresh w f)
    (hdead : ¬ (w.graph E none none).Live (.mem f)) (hseen : ∀ i, (g i.seen).seen = (g i).seen) :
    Back E L none none p d w (w.named d e .nil (some f) g) ∧ Resolved E d e (w.named d e .nil (some f) g) ∧
      (w.named d e .nil (some f) g).view E = Function.update
        (Function.update (w.view E) p ((w.view E p).map (NodeView.adjust g))) (p ++ [e]) (w.out E (.mem f)) := by
  have hlive : (w.graph E none none).Live (.mem d) := ⟨.top, p, hd⟩
  have hlt := (h.live_valid hlive).lt
  have hfd : f ≠ d := by
    rintro rfl
    exact hdead hlive
  have ho := named_onlyName (r := .nil) (o := some f) hkind hdir hk (E := E)
  have hfil : (w.named d e .nil (some f) g).fil f = w.fil f := ho.only.other f hfd
  -- The name gets a masked entry, and the node is taken in hand.
  obtain ⟨h₁, hfind₁, hreg₁⟩ := h.entered hlt hk ho ((h.nodes.node d hlt).named hkind hdir hk hL
    (fun y hy => Option.some.inj hy ▸ hf.held) (fun hne => absurd rfl hne) fun _ => rfl) (X := ∅)
  have hdead₁ : ¬ ((w.named d e .nil (some f) g).graph E (some (.mem d, e)) none).Live (.mem f) := by
    rintro ⟨i, q, hq⟩
    rw [hfind₁] at hq
    exact hdead ⟨i, q, hq⟩
  have hleaf : ∀ n, (w.named d e .nil (some f) g).kid E (.mem f) n = none := by
    intro n
    rw [ho.kid fun hc => absurd (Loc.mem.inj hc) hfd, World.kid]
    simp [World.dirtyOf, World.dirOf, hf.dir, hf.dirty]
  obtain ⟨h₂, htaken, hreg₂⟩ := h₁.taken (hf.held.later ho.only.later) hdead₁ (by rw [hfil]; exact hf.ref) hleaf
    (X := insert d ∅)
  -- The entry is unmasked.
  have hd₂ : ((w.named d e .nil (some f) g).graph E (some (.mem d, e)) (some (.mem f, .nil))).find .top p =
      some (.mem d) := by
    rw [htaken.find_eq .top (by simp), hfind₁]
    exact hd
  have hk₃ := named_kid (r := .nil) (o := some f) (g := g) hdir hk
  have hcls : ((w.named d e .nil (some f) g).fil d).cls.isDir = true := by rw [named_self]; exact hdir
  obtain ⟨h₃, hatt, hreg₃⟩ := h₂.attached hd₂ hk₃ (X := insert d ∅) (by
    rw [entryRef_mem hcls, named_self, lookup_dirSet, if_pos rfl, Option.getD_some])
  have huniq : ∀ i q, ((w.named d e .nil (some f) g).graph E (some (.mem d, e)) (some (.mem f, .nil))).find i q =
      some (.mem d) → i = .top ∧ q = p := fun i q hq => h₂.find_mem_inj hq hd₂
  have hother : ∀ q, ¬ p ++ [e] <+: q →
      ((w.named d e .nil (some f) g).graph E none none).find .top q = (w.graph E none none).find .top q := by
    intro q hq
    rw [hatt.find_eq huniq .top q (by simp) fun hc => hq hc.2, htaken.find_eq .top (by simp), hfind₁]
  refine ⟨⟨h₃, fun q hq y hy => ?_, ?_, ho.only.later⟩, ⟨some f, hk₃, fun y hy r hr hmap => ?_⟩, ?_⟩
  · rw [hother q fun hc => ?_]
    · exact hy
    · have := (hc.trans hq).length_le
      simp at this
  · have := hreg₃ (hreg₂ (hreg₁ hX)) fun y hy => .inr (.inl ?_)
    · rwa [insert_empty_eq] at this
    · obtain rfl := Loc.mem.inj hy
      simp only [World.dirtyOf, hcls, if_true, named_lookup hdir hk, Option.isSome_some, and_self]
  · -- The entry has no reference.
    rw [named_self] at hr
    dsimp only at hr
    rw [lookup_dirSet, if_pos rfl] at hr
    obtain rfl := Option.some.inj hr
    exact absurd rfl (h₃.nodes.ne_nil_of_cached hmap)
  · have hout : ∀ x, x ≠ .mem d → (w.named d e .nil (some f) g).out E x = w.out E x := fun x hx => ho.only.out hx
    funext q
    rw [World.view]
    by_cases hq : p ++ [e] <+: q
    · obtain ⟨s, rfl⟩ := hq
      rw [List.append_assoc, List.singleton_append, hatt.find_below hd₂ huniq (by simp)]
      cases s with
      | nil =>
          rw [LGraph.find_nil, htaken.hand, Option.bind_some, hout _ fun hc => hfd (Loc.mem.inj hc),
            Function.update_self]
      | cons n s =>
          have hnone : ((w.named d e .nil (some f) g).graph E (some (.mem d, e)) (some (.mem f, .nil))).find .hand
              (n :: s) = none := by
            by_contra hc
            obtain ⟨x, hx⟩ := Option.ne_none_iff_exists'.1 hc
            simpa using (htaken.find_hand hx).1
          have hold : (w.graph E none none).find .top (p ++ e :: n :: s) = none := by
            have happ : p ++ e :: n :: s = (p ++ [e]) ++ n :: s := by simp
            rw [happ, LGraph.find_append, LGraph.find_snoc_of hd,
              show (w.graph E none none).step (.mem d) e = none from (step_none _ e).trans hk]
            rfl
          rw [hnone, Function.update_of_ne (by simp), Function.update_of_ne (by simp), World.view, hold]
          rfl
    · rw [hother q hq, Function.update_of_ne fun hc => hq (by rw [hc]), Function.update_apply]
      split
      case isTrue hqp =>
        subst hqp
        rw [World.view, hd, Option.bind_some, Option.bind_some]
        simp only [World.out, hdir, if_true, named_self, Option.map_some, NodeView.adjust, Option.isSome_none,
          Bool.false_eq_true, if_false, hseen]
      case isFalse hqp =>
        rw [World.view]
        cases hx : (w.graph E none none).find .top q with
        | none => rfl
        | some x =>
            refine hout x ?_
            rintro rfl
            exact hqp (h.find_mem_inj hx hd).2

end named

/-! ### The operations -/

section ops

variable {entry : Str} {rest : List Str} {path : Str} {w₁ : World} {make : UTFS.M ℕ} {V : NodeView → Prop}
  {Lost : Exn → Prop}

/-- A directory of the tree of an operation, and a new node for a name that is not in use there. -/
structure Ready (E : Env) (L : Laws) (w w₁ : World) (p : List Str) (d : ℕ) (e : Str) (f : ℕ) (w₂ : World) :
    Prop where
  reached : Reached E L w w₂
  calm : Calm E none none w₁ w₂
  find : (w₂.graph E none none).find .top p = some (.mem d)
  isDir : (w₂.fil d).cls.isDir = true
  kid : w₂.kid E (.mem d) e = none
  fresh : Fresh w₂ f
  dead : ¬ (w₂.graph E none none).Live (.mem f)

/-- `DirNode::mknod` and the others, up to the change of the directory. -/
theorem wp_addNode (hmake : Makes E L V make) (hre : Reached E L w w₁)
    (hd : (w₁.graph E none none).find .top p = some (.mem d)) (hdir : (w₁.fil d).cls.isDir = true) :
    wp (addNode E d e make)
      (fun _ w₃ => w.view E (p ++ [e]) = none ∧ ∃ w₂ f v, Ready E L w w₁ p d e f w₂ ∧
        w₂.out E (.mem f) = some v ∧ V v ∧ w₃ = w₂.setFil d { w₂.fil d with
          dirty := dirtyInsert e f (w₂.fil d).dirty, dir := dirSet e .nil (w₂.fil d).dir })
      (Fails E L none Lost (fun en => en = .eexist ∧ w.view E (p ++ [e]) ≠ none) w₁) w₁ := by
  rw [addNode]
  refine wp_seq (wp_lookup_reached hre hd hdir) ?_ fun _ _ hF => hF
  rintro o w₂ ⟨hre₂, hc, hd₂, hdir₂, hk, hfil⟩
  have hview := hre₂.view_kid hd₂ (e := e)
  rw [hk] at hview
  cases o with
  | some f =>
      have hf : Held w₂ f := hre₂.inv.nodes.valid_kid (hre₂.inv.live_valid ⟨.top, p, hd₂⟩) hk
      obtain ⟨v, hv, -⟩ := hf.out (E := E)
      refine .inr (.inr ⟨hre₂.inv, hc, fun en hen => ⟨⟨(Exn.errno.inj hen).symm, ?_⟩, hfil⟩⟩)
      rw [hview]
      simp [hv]
  | none =>
      refine wp_seq (hmake w₂ hre₂.inv) ?_ fun _ _ hF => .inl hF
      rintro f w₃ ⟨hm, hf, v, hv, hV⟩
      simp only [wp_bind, modifyDirty, modifyDir, wp_modify]
      refine ⟨hview, w₃, f, v, ⟨hre₂.after hm.inv hm.sim, hc.trans hm.sim, hm.sim.find_mem hd₂, ?_, ?_, hf,
        hm.dead hre₂.inv⟩, hv, hV, ?_⟩
      · rw [hm.old d (hre₂.inv.live_valid ⟨.top, p, hd₂⟩).lt]
        exact hdir₂
      · rw [hm.sim.kid ⟨.top, p, hd₂⟩ (by simp), hk]
        rfl
      · simp [World.setFil]

/-- **An operation that makes a node** and changes the inode of the directory. -/
theorem wp_create (act : ℕ → Str → UTFS.M ℤ) {g : INode → INode} (hmake : Makes E L V make)
    (hpath : splitPath path = pure (entry, rest)) (h : TInv E L none none w) (hX : Reg E none none ∅ w)
    (hL : ¬ L.links) (hspecial : entry ≠ specialDir)
    (hkind : ∀ i, sIsdir (g i).mode = sIsdir i.mode) (hseen : ∀ i, (g i.seen).seen = (g i).seen)
    (hact : ∀ d e w₁, (w₁.fil d).cls ≠ .specialDir → act d e w₁ = (do
      addNode E d e make
      modifyINode d g
      setFilDirty d true
      return (0 : ℤ)) w₁) :
    wp (changeParent E act path)
      (ParentEnds E L entry rest w (fun en => en = .eexist ∧ w.view E (entry :: rest) ≠ none)
        fun rv n => rv = 0 ∧ w.view E (entry :: rest) = none ∧ ∃ v, V v ∧ n = Function.update
          (Function.update (w.view E) (entry :: rest).dropLast
            ((w.view E (entry :: rest).dropLast).map (NodeView.adjust g))) (entry :: rest) (some v))
      (Fails E L none (fun _ => False) (fun _ => False) w) w := by
  obtain ⟨p, e, hpe⟩ := (List.eq_nil_or_concat (entry :: rest)).resolve_left (List.cons_ne_nil _ _)
  rw [List.concat_eq_append] at hpe
  refine wp_changeParent _ _ (fun _ => id) hpath h hX hspecial hpe fun w₁ d hre hd hdir => ?_
  have hrun := hact d e w₁ (hre.inv.ne_special hd)
  rw [hpe, List.dropLast_concat, wp, hrun]
  change wp _ _ _ w₁
  refine wp_seq (wp_addNode hmake hre hd hdir) ?_ fun _ _ hF => hF
  rintro - w₃ ⟨hnone, w₂, f, v, hr, hv, hV, rfl⟩
  obtain ⟨hb, hkn, hview⟩ :=
    hr.reached.inv.named hkind hr.isDir hr.kid hL hr.reached.reg hr.find hr.fresh hr.dead hseen
  have hdone : Acted E L none none (fun _ => False) p d e
      (fun w₃ => (0 : ℤ) = 0 ∧ w.view E (p ++ [e]) = none ∧ ∃ v, V v ∧ w₃.view E = Function.update
        (Function.update (w.view E) p ((w.view E p).map (NodeView.adjust g))) (p ++ [e]) (some v))
      w₁ (w₂.named d e .nil (some f) g) := by
    refine .inl ⟨hb.after hr.calm.toSim, hkn, rfl, hnone, v, hV, ?_⟩
    rw [hview, hr.reached.view, hv]
  simp only [wp_bind, modifyINode, setFilDirty, wp_modify, setFil_self, setFil_setFil]
  exact hdone

theorem modifyINode_id (d : ℕ) : modifyINode d (fun i => i) = pure () := by
  funext w
  simp [modifyINode, modify_apply, pure_apply, World.setFil]

/-- The inode of a directory is seen without the fields that are hidden. -/
theorem map_adjust_id (w : World) (q : List Str) :
    (w.view E q).map (NodeView.adjust fun i => i) = w.view E q := by
  have hout : ∀ x, (w.out E x).map (NodeView.adjust fun i => i) = w.out E x := by
    intro x
    cases x with
    | mem f =>
        rw [World.out]
        split <;> rfl
    | ref r =>
        simp only [World.out, Option.map_map]
        congr 1
        funext x
        rw [Function.comp_apply]
        split <;> rfl
  rw [World.view]
  cases (w.graph E none none).find .top q with
  | none => rfl
  | some x => exact hout x

theorem ParentEnds.mono {P : Errno → Prop} {C C' : ℤ → (List Str → Option NodeView) → Prop} {rv : ℤ}
    (hend : ParentEnds E L entry rest w P C rv w') (hC : ∀ n, C rv n → C' rv n) :
    ParentEnds E L entry rest w P C' rv w' :=
  hend.imp_left fun hd => ⟨hd.1, hd.2.1, hd.2.2.1, hC _ hd.2.2.2⟩

/-- **`fs_mknod`.** -/
theorem wp_fsMknod (hpath : splitPath path = pure (entry, rest)) (h : TInv E L none none w)
    (hX : Reg E none none ∅ w) (hL : ¬ L.links) (hspecial : entry ≠ specialDir) (mode : UInt32)
    (uname gname : Str) :
    wp (fsMknod E path mode uname gname)
      (ParentEnds E L entry rest w (fun en => en = .eexist ∧ w.view E (entry :: rest) ≠ none)
        fun rv n => rv = 0 ∧ w.view E (entry :: rest) = none ∧
          ∃ t, n = Function.update (w.view E) (entry :: rest) (some (newFile mode uname gname t)))
      (Fails E L none (fun _ => False) (fun _ => False) w) w := by
  have hcreate := wp_create (fun d entry => mknod E d entry mode uname gname) (g := fun i => i)
    (makes_newFileNode hL mode uname gname) hpath h hX hL hspecial (fun _ => rfl) (fun _ => rfl) fun d e w₁ _ => by
      simp only [mknod, modifyINode_id, pure_bind]
  refine wp_mono hcreate (fun rv w' hend => hend.mono ?_) fun _ _ hF => hF
  rintro n ⟨hrv, hnone, v, ⟨t, rfl⟩, rfl⟩
  rw [map_adjust_id, Function.update_eq_self]
  exact ⟨hrv, hnone, t, rfl⟩

/-- **`fs_mkdir`**: the directory has one more link. -/
theorem wp_fsMkdir (hpath : splitPath path = pure (entry, rest)) (h : TInv E L none none w)
    (hX : Reg E none none ∅ w) (hL : ¬ L.links) (hspecial : entry ≠ specialDir) (mode : UInt32)
    (uname gname : Str) :
    wp (fsMkdir E path mode uname gname)
      (ParentEnds E L entry rest w (fun en => en = .eexist ∧ w.view E (entry :: rest) ≠ none)
        fun rv n => rv = 0 ∧ w.view E (entry :: rest) = none ∧ ∃ v, (∃ t, v = newDir mode uname gname t) ∧
          n = Function.update (Function.update (w.view E) (entry :: rest).dropLast
            ((w.view E (entry :: rest).dropLast).map (NodeView.adjust fun i => { i with nlink := i.nlink + 1 })))
            (entry :: rest) (some v))
      (Fails E L none (fun _ => False) (fun _ => False) w) w :=
  wp_create (fun d entry => mkdir E d entry mode uname gname) (makes_newDirNode hL mode uname gname) hpath h hX hL
    hspecial (fun _ => rfl) (fun _ => rfl) fun _ _ _ _ => rfl

/-- **`fs_symlink`**: a target that does not fit the inode is copied beyond its end. -/
theorem wp_fsSymlink (hpath : splitPath path = pure (entry, rest)) (h : TInv E L none none w)
    (hX : Reg E none none ∅ w) (hL : ¬ L.links) (hspecial : entry ≠ specialDir) (opath : Str) :
    wp (fsSymlink E opath path)
      (ParentEnds E L entry rest w (fun en => en = .eexist ∧ w.view E (entry :: rest) ≠ none)
        fun rv n => rv = 0 ∧ w.view E (entry :: rest) = none ∧ opath.length ≤ 4096 ∧
          ∃ t, n = Function.update (w.view E) (entry :: rest) (some (newLink opath t)))
      (Fails E L none (fun _ => False) (fun _ => False) w) w := by
  have hcreate := wp_create (fun d entry => symlink E d entry opath) (g := fun i => i)
    (makes_newSymlinkNode hL opath) hpath h hX hL hspecial (fun _ => rfl) (fun _ => rfl) fun d e w₁ hcls => by
      simp only [symlink, bind_apply, get_apply, if_neg hcls, modifyINode_id, pure_bind]
  refine wp_mono hcreate (fun rv w' hend => hend.mono ?_) fun _ _ hF => hF
  rintro n ⟨hrv, hnone, v, ⟨hlen, t, rfl⟩, rfl⟩
  rw [map_adjust_id, Function.update_eq_self]
  exact ⟨hrv, hnone, hlen, t, rfl⟩

end ops

end UTFS

end Utopfs
