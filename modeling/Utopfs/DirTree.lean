/-
**The tree of directories.**

A path leads from node to node, each of which is in memory or in the store only.  The node of a name is
the dirty node of the directory, else the node in the clean cache under the reference of the entry, else
the one stored there.  So the nodes form a graph whose edges have names, with the root directory and the
special directory as its roots.

The graph is a tree as long as no two edges lead to the same node, or hold the same reference: an edge
has the node it leads to, the reference of that node and the reference of the entry as its keys.  While a
node is moved from one directory to another it has both names; the old edge is then *masked*, and the node
is *in hand* between the removal of whatever had the new name and the new entry.

Main definitions:

* `UTFS.Loc`, `UTFS.World.kid`, `UTFS.World.graph` — nodes, in memory or stored, and the graph;
* `UTFS.World.out`, `UTFS.World.view` — what can be seen of a node, and of the node at a path;
* `UTFS.TInv` — **the invariant of the tree**;
* `UTFS.Sim` — the tree is the same, perhaps with more of it in memory;
* `UTFS.Reg` — a flush finds every node that has changed;
* `UTFS.Calm` — neither the tree has changed nor what a flush finds.

Main results:

* `UTFS.TInv.live_valid` — the nodes with a path are there;
* `UTFS.TInv.find_mem_inj` — a node in memory has one path;
* `UTFS.TInv.same` — what a step has to show that does not change the tree.
-/

import Utopfs.DirInv
import Utopfs.LGraph

set_option relaxedAutoImplicit false
set_option autoImplicit false

namespace Utopfs

namespace UTFS

open Prog

variable (E : Env)

/-! ### The graph -/

/-- A node: an object in memory, or the inode stored under a reference. -/
inductive Loc
  | mem (f : ℕ)
  | ref (r : BlockRef)
  deriving DecidableEq

/-- The node for a reference. -/
def World.locAt (w : World) (r : BlockRef) : Loc :=
  match w.cache.nodemap r with
  | some (.fil f) => .mem f
  | _ => .ref r

/-- A node as the clean cache has it. -/
def World.norm (w : World) : Loc → Loc
  | .mem f => .mem f
  | .ref r => w.locAt r

/-- The entries of a directory. -/
def World.dirOf (w : World) : Loc → Directory
  | .mem d => if (w.fil d).cls.isDir then (w.fil d).dir else []
  | .ref r => (storedDir E w.log r).getD []

/-- The dirty nodes of a directory. -/
def World.dirtyOf (w : World) : Loc → List (Str × ℕ)
  | .mem d => if (w.fil d).cls.isDir then (w.fil d).dirty else []
  | .ref _ => []

/-- **The node of a name in a directory.** -/
def World.kid (w : World) (x : Loc) (e : Str) : Option Loc :=
  match (w.dirtyOf x).lookup e with
  | some f => some (.mem f)
  | none => ((w.dirOf E x).lookup e).map w.locAt

/-- The reference in the entry of a name. -/
def World.entryRef (w : World) (x : Loc) (e : Str) : BlockRef := ((w.dirOf E x).lookup e).getD .nil

/-- The node of a name, with an edge masked. -/
def World.step (w : World) (M : Option (Loc × Str)) (x : Loc) (e : Str) : Option Loc :=
  if M = some (x, e) then none else w.kid E x e

/-- The roots of the graph. -/
inductive Rt
  | top
  | special
  | hand
  deriving DecidableEq

/-- What is in hand: a node and the reference for its entry. -/
abbrev Hand := Option (Loc × BlockRef)

/-- The nodes at the roots. -/
def World.root (w : World) (H : Hand) : Rt → Option Loc
  | .top => w.rdh.map .mem
  | .special => w.sdh.map .mem
  | .hand => H.map Prod.fst

/-- The graph of the nodes. -/
def World.graph (w : World) (M : Option (Loc × Str)) (H : Hand) : LGraph Rt Loc Str where
  root := w.root H
  step := w.step E M

/-- The keys of an edge that leads to `x` and whose entry has the reference `r`. -/
inductive World.KeyOf (w : World) (x : Loc) (r : BlockRef) : Loc → Prop
  | node {f : ℕ} (h : x = .mem f) : KeyOf w x r (.mem f)
  | own {f : ℕ} (h : x = .mem f) (hr : (w.fil f).ref ≠ .nil) : KeyOf w x r (.ref (w.fil f).ref)
  | entry (hr : r ≠ .nil) : KeyOf w x r (.ref r)

/-- The keys of an edge. -/
def World.edgeKey (w : World) (M : Option (Loc × Str)) (x : Loc) (e : Str) (k : Loc) : Prop :=
  ∃ y, w.step E M x e = some y ∧ w.KeyOf y (w.entryRef E x e) k

/-- The keys of a root. -/
def World.rootKey (w : World) (H : Hand) : Rt → Loc → Prop
  | .top, k => ∃ d, w.rdh = some d ∧ k = .mem d
  | .special, k => ∃ d, w.sdh = some d ∧ k = .mem d
  | .hand, k => ∃ x r, H = some (x, r) ∧ w.KeyOf x r k

/-! ### What can be seen -/

/-- What can be seen of a node: the inode and the bytes of a file; of a directory neither the bytes nor
what describes their storage, which is its size and the number of its blocks, nor the time of its last
modification. -/
structure NodeView where
  inode : INode
  bytes : Option (ℕ → UInt8)

/-- What can be seen of the inode of a directory. -/
def INode.seen (i : INode) : INode := { i with size := 0, blocks := 0, mtime := 0 }

/-- What can be seen of a node. -/
def World.out (w : World) : Loc → Option NodeView
  | .mem f =>
      if (w.fil f).cls.isDir then some ⟨(w.fil f).inode.seen, none⟩
      else some ⟨(w.fil f).inode, some (fileBytes E w f)⟩
  | .ref r => (decodeFile E w.log r).map fun x =>
      if sIsdir x.inode.mode then ⟨x.inode.seen, none⟩ else ⟨x.inode, some (nodeBytes E w.log x)⟩

/-- What can be seen at a path from the root directory. -/
def World.view (w : World) (p : List Str) : Option NodeView :=
  ((w.graph E none none).find .top p).bind (w.out E)

/-! ### The invariant -/

/-- The iterator of a file node in the clean cache can be used. -/
def LposOk (w : World) (f : ℕ) : Prop := w.cache.Placed (.fil f)

/-- A reference that is a key of an edge to `x` leads to `x` in the clean cache, if to anything. -/
def OwnOk (w : World) (x : Loc) (r : BlockRef) : Prop :=
  ∀ r' g, w.KeyOf x r (.ref r') → w.cache.nodemap r' = some (.fil g) → x = .mem g ∧ LposOk w g

/-- The node is there, or the reference is nil. -/
def Valid (w : World) : Loc → Prop
  | .mem f => Held w f
  | .ref r => r ≠ .nil → Stored w.log r .inode

/-- What is in hand: a node in memory, or none. -/
structure HandOk (w : World) (x : Loc) (r : BlockRef) : Prop where
  valid : Valid w x
  kind : (∃ f, x = .mem f) ∨ x = .ref .nil
  ref : r ≠ .nil → Stored w.log r .inode
  own : OwnOk w x r

/-- **The invariant of the tree**, with the edge `M` masked and `H` in hand. -/
structure TInv (L : Laws) (M : Option (Loc × Str)) (H : Hand) (w : World) : Prop where
  nodes : NInv E L w
  unshared : (w.graph E M H).Unshared (w.rootKey H) (w.edgeKey E M)
  own : ∀ x, (w.graph E M H).Live x → ∀ e y, w.step E M x e = some y → OwnOk w y (w.entryRef E x e)
  hand : ∀ x r, H = some (x, r) → HandOk w x r
  mask : ∀ x e, M = some (x, e) → ∃ d, x = .mem d ∧ d < w.nfil
  plain : ∀ d, d < w.nfil → (w.fil d).cls = .specialDir → w.sdh = some d

/-- A flush of the directory finds the node: it is one of the dirty nodes, or it is clean and the entry has
its reference. -/
def RegAt (w : World) (x : Loc) (e : Str) (f : ℕ) : Prop :=
  (w.dirtyOf x).lookup e = some f ∨ ((w.fil f).isdirty = false ∧ (w.fil f).ref = w.entryRef E x e)

/-- A flush finds the nodes that have changed, except those of `X`. -/
def Reg (M : Option (Loc × Str)) (H : Hand) (X : Set ℕ) (w : World) : Prop :=
  ∀ x, (w.graph E M H).Live x → ∀ e f, w.step E M x e = some (.mem f) → f ∈ X ∨ RegAt E w x e f

/-- The references and the entries of the nodes in memory stay, and so do the dirty nodes. -/
structure Still (w w' : World) : Prop where
  ref : ∀ g, g < w.nfil → (w'.fil g).ref = (w.fil g).ref
  dir : ∀ g, g < w.nfil → (w'.fil g).dir = (w.fil g).dir
  dirty : ∀ g, g < w.nfil → ∀ e f, (w.fil g).dirty.lookup e = some f → (w'.fil g).dirty.lookup e = some f

/-- The tree is the same, perhaps with more of it in memory; while an edge is masked, so are the entries. -/
structure Sim (M : Option (Loc × Str)) (H : Hand) (w w' : World) : Prop where
  later : Later w w'
  find : ∀ i p, (w'.graph E M H).find i p = ((w.graph E M H).find i p).map w'.norm
  out : ∀ x, (w.graph E M H).Live x → w'.out E (w'.norm x) = w.out E x
  keep : ∀ r f, w.cache.nodemap r = some (.fil f) → w'.cache.nodemap r = some (.fil f)
  lpos : ∀ f, LposOk w f → LposOk w' f
  rdh : w'.rdh = w.rdh
  sdh : w'.sdh = w.sdh
  version : w'.version = w.version
  control : w'.control = w.control
  still : M ≠ none → Still w w'

/-- The tree is the same, and so is what a flush finds. -/
structure Calm (M : Option (Loc × Str)) (H : Hand) (w w' : World) : Prop extends Sim E M H w w' where
  reg : ∀ X, Reg E M H X w → Reg E M H X w'

variable {E}

/-! ### Nodes and keys -/

section basic

variable {w : World} {M : Option (Loc × Str)} {H : Hand} {L : Laws}

theorem locAt_eq_mem {r : BlockRef} {f : ℕ} :
    w.locAt r = .mem f ↔ w.cache.nodemap r = some (.fil f) := by
  rw [World.locAt]
  split
  case h_1 g hg => simp [hg]
  case h_2 hne =>
    simp only [reduceCtorEq, false_iff]
    exact fun h => hne f h

theorem locAt_eq_ref {r r' : BlockRef} (h : w.locAt r = .ref r') : r = r' := by
  rw [World.locAt] at h
  split at h
  · simp at h
  · injection h

theorem locAt_of_none {r : BlockRef} (h : ∀ f, w.cache.nodemap r ≠ some (.fil f)) :
    w.locAt r = .ref r := by
  rw [World.locAt]
  split
  case h_1 g hg => exact absurd hg (h g)
  case h_2 => rfl

@[simp] theorem norm_mem (f : ℕ) : w.norm (.mem f) = .mem f := rfl

theorem norm_locAt (r : BlockRef) : w.norm (w.locAt r) = w.locAt r := by
  cases h : w.locAt r with
  | mem f => rfl
  | ref r' =>
      obtain rfl := locAt_eq_ref h
      exact h

/-- The nodes of names are as the clean cache has them. -/
theorem norm_of_kid {x y : Loc} {e : Str} (h : w.kid E x e = some y) : w.norm y = y := by
  rw [World.kid] at h
  split at h
  · obtain rfl := Option.some.inj h
    rfl
  · obtain ⟨r, -, rfl⟩ := Option.map_eq_some_iff.1 h
    exact norm_locAt r

theorem kid_of_step {x y : Loc} {e : Str} (h : w.step E M x e = some y) : w.kid E x e = some y := by
  rw [World.step] at h
  split at h
  · simp at h
  · exact h

theorem step_of_ne {x : Loc} {e : Str} (h : M ≠ some (x, e)) : w.step E M x e = w.kid E x e := if_neg h

@[simp] theorem step_none (x : Loc) (e : Str) : w.step E none x e = w.kid E x e := if_neg (by simp)

/-- An edge to a stored node has its reference. -/
theorem entryRef_of_ref {x : Loc} {e : Str} {r : BlockRef} (h : w.kid E x e = some (.ref r)) :
    w.entryRef E x e = r := by
  rw [World.kid] at h
  split at h
  · simp at h
  · obtain ⟨r', hr', hx⟩ := Option.map_eq_some_iff.1 h
    rw [World.entryRef, hr', Option.getD_some]
    exact locAt_eq_ref hx

/-- The names of a directory in memory. -/
theorem kid_mem {d : ℕ} (hd : (w.fil d).cls.isDir = true) (e : Str) :
    w.kid E (.mem d) e = match (w.fil d).dirty.lookup e with
      | some f => some (.mem f)
      | none => ((w.fil d).dir.lookup e).map w.locAt := by
  simp only [World.kid, World.dirtyOf, World.dirOf, hd, if_true]

theorem entryRef_mem {d : ℕ} (hd : (w.fil d).cls.isDir = true) (e : Str) :
    w.entryRef E (.mem d) e = ((w.fil d).dir.lookup e).getD .nil := by
  simp only [World.entryRef, World.dirOf, hd, if_true]

theorem isDir_of_kid {d : ℕ} {e : Str} {y : Loc} (h : w.kid E (.mem d) e = some y) :
    (w.fil d).cls.isDir = true := by
  by_contra hd
  simp [World.kid, World.dirtyOf, World.dirOf, hd] at h

/-- The reference of an entry names a stored inode. -/
theorem NInv.entryRef_stored (h : NInv E L w) {x : Loc} (hx : Valid w x) {e : Str}
    (hr : w.entryRef E x e ≠ .nil) : Stored w.log (w.entryRef E x e) .inode := by
  cases hl : (w.dirOf E x).lookup e with
  | none => simp [World.entryRef, hl] at hr
  | some r =>
      have hval : w.entryRef E x e = r := by rw [World.entryRef, hl, Option.getD_some]
      rw [hval] at hr ⊢
      have hmem := mem_of_lookup hl
      cases x with
      | mem d =>
          simp only [World.dirOf] at hmem
          split at hmem
          · exact (h.node d hx.lt).refs _ hmem hr
          · simp at hmem
      | ref r' =>
          simp only [World.dirOf] at hmem
          cases hd : storedDir E w.log r' with
          | none => simp [hd] at hmem
          | some d =>
              rw [hd, Option.getD_some] at hmem
              have hd' := hd
              simp only [storedDir, Option.bind_eq_some_iff] at hd
              obtain ⟨y, hy, hif⟩ := hd
              have hne : r' ≠ .nil := by
                rintro rfl
                simp [decodeFile, decode, h.blk.disk.nilFree] at hy
              have hm : sIsdir y.inode.mode = true := by
                by_contra hc
                simp [hc] at hif
              obtain ⟨d', hd'', hok⟩ := h.store.dir r' y (hx hne) hy hm
              rw [hd'] at hd''
              obtain rfl := Option.some.inj hd''
              exact hok.refs _ hmem hr

/-- The nodes of names are there. -/
theorem NInv.valid_kid (h : NInv E L w) {x : Loc} (hx : Valid w x) {e : Str} {y : Loc}
    (hy : w.kid E x e = some y) : Valid w y := by
  have hent := h.entryRef_stored hx (e := e)
  rw [World.kid] at hy
  split at hy
  case h_1 f hf =>
    obtain rfl := Option.some.inj hy
    have hmem := mem_of_lookup hf
    cases x with
    | mem d =>
        simp only [World.dirtyOf] at hmem
        split at hmem
        · exact (h.node d hx.lt).held _ hmem
        · simp at hmem
    | ref r => simp [World.dirtyOf] at hmem
  case h_2 =>
    obtain ⟨r, hr, rfl⟩ := Option.map_eq_some_iff.1 hy
    rw [World.entryRef, hr, Option.getD_some] at hent
    cases hloc : w.locAt r with
    | mem f => exact (h.key r f (locAt_eq_mem.1 hloc)).held
    | ref r' =>
        obtain rfl := locAt_eq_ref hloc
        exact hent

/-- **The nodes with a path are there.** -/
theorem TInv.live_valid (h : TInv E L M H w) {x : Loc} (hx : (w.graph E M H).Live x) : Valid w x := by
  obtain ⟨i, p, hp⟩ := hx
  induction p using List.reverseRecOn generalizing x with
  | nil =>
      rw [LGraph.find_nil] at hp
      cases i with
      | top =>
          obtain ⟨d, hd, rfl⟩ := Option.map_eq_some_iff.1 hp
          exact (h.nodes.top d hd).held
      | special =>
          obtain ⟨d, hd, rfl⟩ := Option.map_eq_some_iff.1 hp
          exact (h.nodes.special d hd).held
      | hand =>
          obtain ⟨⟨y, r⟩, hH, rfl⟩ := Option.map_eq_some_iff.1 hp
          exact (h.hand y r hH).valid
  | append_singleton p e ih =>
      obtain ⟨y, hy, hs⟩ := LGraph.find_snoc_eq_some hp
      exact h.nodes.valid_kid (ih hy) (kid_of_step hs)

theorem NInv.norm_nil (h : NInv E L w) : w.norm (.ref .nil) = .ref .nil := by
  refine locAt_of_none fun f hf => ?_
  obtain ⟨b, hb⟩ := h.blk.keyFil _ _ hf
  rw [h.blk.disk.nilFree] at hb
  simp at hb

theorem HandOk.norm {x : Loc} {r : BlockRef} (hh : HandOk w x r) (h : NInv E L w) : w.norm x = x := by
  obtain ⟨f, rfl⟩ | rfl := hh.kind
  · rfl
  · exact h.norm_nil

/-- The nodes with a path are as the clean cache has them. -/
theorem TInv.live_norm (h : TInv E L M H w) {x : Loc} (hx : (w.graph E M H).Live x) : w.norm x = x := by
  obtain ⟨i, p, hp⟩ := hx
  cases p using List.reverseRecOn with
  | nil =>
      rw [LGraph.find_nil] at hp
      cases i with
      | top =>
          obtain ⟨d, -, rfl⟩ := Option.map_eq_some_iff.1 hp
          rfl
      | special =>
          obtain ⟨d, -, rfl⟩ := Option.map_eq_some_iff.1 hp
          rfl
      | hand =>
          obtain ⟨⟨y, r⟩, hH, rfl⟩ := Option.map_eq_some_iff.1 hp
          exact (h.hand y r hH).norm h.nodes
  | append_singleton p e =>
      obtain ⟨y, -, hs⟩ := LGraph.find_snoc_eq_some hp
      exact norm_of_kid (kid_of_step hs)

theorem marked_mem (f : ℕ) :
    (w.graph E M H).Marked (w.rootKey H) (w.edgeKey E M) (.mem f) (.mem f) := by
  constructor
  · intro i hi
    cases i with
    | top =>
        obtain ⟨d, hd, heq⟩ := Option.map_eq_some_iff.1 hi
        exact ⟨d, hd, heq.symm⟩
    | special =>
        obtain ⟨d, hd, heq⟩ := Option.map_eq_some_iff.1 hi
        exact ⟨d, hd, heq.symm⟩
    | hand =>
        obtain ⟨⟨y, r⟩, hH, heq⟩ := Option.map_eq_some_iff.1 hi
        exact ⟨y, r, hH, .node heq⟩
  · intro y _ e hs
    exact ⟨_, hs, .node rfl⟩

/-- **A node in memory has one path.** -/
theorem TInv.find_mem_inj (h : TInv E L M H w) {f : ℕ} {i j : Rt} {p q : List Str}
    (hp : (w.graph E M H).find i p = some (.mem f)) (hq : (w.graph E M H).find j q = some (.mem f)) :
    i = j ∧ p = q := h.unshared.find_inj (marked_mem f) hp hq

/-- The references that are keys have been used. -/
theorem NInv.iv_of_keyOf (h : NInv E L w) {x : Loc} (hx : Valid w x) {r r' : BlockRef}
    (hr : r ≠ .nil → Stored w.log r .inode) (hk : w.KeyOf x r (.ref r')) : r'.iv ∉ w.rand := by
  cases hk with
  | own hf hne =>
      subst hf
      exact (h.node _ hx.lt).iv
  | entry hne =>
      obtain ⟨b, hb⟩ := hr hne
      exact h.blk.disk.fresh _ _ hb

theorem TInv.iv_of_edgeKey (h : TInv E L M H w) {x : Loc} (hx : (w.graph E M H).Live x) {e : Str}
    {r : BlockRef} (hk : w.edgeKey E M x e (.ref r)) : r.iv ∉ w.rand := by
  obtain ⟨y, hy, hk⟩ := hk
  have hxv := h.live_valid hx
  exact h.nodes.iv_of_keyOf (h.nodes.valid_kid hxv (kid_of_step hy)) (h.nodes.entryRef_stored hxv) hk

theorem TInv.iv_of_rootKey (h : TInv E L M H w) {i : Rt} {r : BlockRef}
    (hk : w.rootKey H i (.ref r)) : r.iv ∉ w.rand := by
  cases i with
  | top =>
      obtain ⟨d, -, hd⟩ := hk
      simp at hd
  | special =>
      obtain ⟨d, -, hd⟩ := hk
      simp at hd
  | hand =>
      obtain ⟨x, r', hH, hk⟩ := hk
      have := h.hand x r' hH
      exact h.nodes.iv_of_keyOf this.valid this.ref hk

end basic

/-! ### Steps that do not change the tree -/

section same

variable {w w' : World} {M : Option (Loc × Str)} {H : Hand} {L : Laws}

/-- What can change while the tree stays the same: nodes get new references, which have not been used
before, and the clean cache gets new keys, which lead where their edges lead. -/
structure SameTree (E : Env) (M : Option (Loc × Str)) (H : Hand) (New : ℕ → BlockRef → Prop)
    (w w' : World) : Prop where
  later : Later w w'
  rdh : w'.rdh = w.rdh
  sdh : w'.sdh = w.sdh
  version : w'.version = w.version
  control : w'.control = w.control
  keep : ∀ r f, w.cache.nodemap r = some (.fil f) → w'.cache.nodemap r = some (.fil f)
  lpos : ∀ f, LposOk w f → LposOk w' f
  step : ∀ x, (w.graph E M H).Live x → ∀ e, w'.step E M x e = w.step E M x e
  key : ∀ x, (w.graph E M H).Live x → ∀ e y, w.step E M x e = some y → ∀ k,
    w'.KeyOf y (w'.entryRef E x e) k →
      w.KeyOf y (w.entryRef E x e) k ∨ ∃ f r, y = .mem f ∧ k = .ref r ∧ New f r
  handKey : ∀ x r, H = some (x, r) → ∀ k, w'.KeyOf x r k → w.KeyOf x r k
  newKey : ∀ r g, w'.cache.nodemap r = some (.fil g) → w.cache.nodemap r = some (.fil g) ∨
    (LposOk w' g ∧
      (∀ x, (w.graph E M H).Live x → ∀ e, w.edgeKey E M x e (.ref r) → w.step E M x e = some (.mem g)) ∧
      ∀ x r', H = some (x, r') → w.KeyOf x r' (.ref r) → x = .mem g)
  newIv : ∀ f r, New f r → r.iv ∈ w.rand
  newInj : ∀ f g r, New f r → New g r → f = g
  newUncached : ∀ f r, New f r → ∀ g, w'.cache.nodemap r ≠ some (.fil g)
  plain : ∀ d, d < w'.nfil → (w'.fil d).cls = .specialDir → d < w.nfil

variable {New : ℕ → BlockRef → Prop}

theorem SameTree.find (hs : SameTree E M H New w w') (i : Rt) (p : List Str) :
    (w'.graph E M H).find i p = (w.graph E M H).find i p := by
  refine LGraph.find_congr ?_ (fun x hx e => hs.step x hx e) p
  cases i with
  | top => exact congrArg (Option.map Loc.mem) hs.rdh
  | special => exact congrArg (Option.map Loc.mem) hs.sdh
  | hand => rfl

theorem SameTree.live (hs : SameTree E M H New w w') {x : Loc} :
    (w'.graph E M H).Live x ↔ (w.graph E M H).Live x := by
  simp only [LGraph.Live, hs.find]

/-- The keys of an edge, old and new. -/
theorem SameTree.edgeKey (hs : SameTree E M H New w w') {x : Loc} (hx : (w.graph E M H).Live x) {e : Str}
    {k : Loc} (hk : w'.edgeKey E M x e k) : w.edgeKey E M x e k ∨
      ∃ f r, w.step E M x e = some (.mem f) ∧ k = .ref r ∧ New f r := by
  obtain ⟨y, hy, hk⟩ := hk
  rw [hs.step x hx] at hy
  rcases hs.key x hx e y hy k hk with hk | ⟨f, r, rfl, hkr, hn⟩
  · exact .inl ⟨y, hy, hk⟩
  · exact .inr ⟨f, r, hy, hkr, hn⟩

theorem SameTree.rootKey (hs : SameTree E M H New w w') {i : Rt} {k : Loc} (hk : w'.rootKey H i k) :
    w.rootKey H i k := by
  cases i with
  | top =>
      obtain ⟨d, hd, hk⟩ := hk
      exact ⟨d, by rw [← hs.rdh]; exact hd, hk⟩
  | special =>
      obtain ⟨d, hd, hk⟩ := hk
      exact ⟨d, by rw [← hs.sdh]; exact hd, hk⟩
  | hand =>
      obtain ⟨x, r, hH, hk⟩ := hk
      exact ⟨x, r, hH, hs.handKey x r hH k hk⟩

theorem SameTree.unshared (hs : SameTree E M H New w w') (h : TInv E L M H w) :
    (w'.graph E M H).Unshared (w'.rootKey H) (w'.edgeKey E M) := by
  have hu := h.unshared
  refine ⟨fun i j k hi hj => hu.root i j k (hs.rootKey hi) (hs.rootKey hj), ?_, ?_⟩
  · intro i k hi j q y b hy hk
    rw [hs.find] at hy
    rcases hs.edgeKey ⟨j, q, hy⟩ hk with hk | ⟨f, r, -, rfl, hn⟩
    · exact hu.rootEdge i k (hs.rootKey hi) j q y b hy hk
    · exact h.iv_of_rootKey (hs.rootKey hi) (hs.newIv f r hn)
  · intro i p x a hx j q y b hy k hk hk'
    rw [hs.find] at hx hy
    rcases hs.edgeKey ⟨i, p, hx⟩ hk with hk | ⟨f, r, hf, rfl, hn⟩
    · rcases hs.edgeKey ⟨j, q, hy⟩ hk' with hk' | ⟨g, r, -, rfl, hn⟩
      · exact hu.edge i p x a hx j q y b hy k hk hk'
      · exact absurd (hs.newIv g r hn) (h.iv_of_edgeKey ⟨i, p, hx⟩ hk)
    · rcases hs.edgeKey ⟨j, q, hy⟩ hk' with hk' | ⟨g, r', hg, hr, hn'⟩
      · exact absurd (hs.newIv f r hn) (h.iv_of_edgeKey ⟨j, q, hy⟩ hk')
      · -- Both edges lead to the node that has the new reference.
        injection hr with hr
        subst hr
        obtain rfl := hs.newInj f g r hn hn'
        exact hu.edge i p x a hx j q y b hy (.mem f) ⟨_, hf, .node rfl⟩ ⟨_, hg, .node rfl⟩

theorem SameTree.ownOk (hs : SameTree E M H New w w') (h : TInv E L M H w) {x : Loc}
    (hx : (w.graph E M H).Live x) {e : Str} {y : Loc} (hy : w.step E M x e = some y) :
    OwnOk w' y (w'.entryRef E x e) := by
  intro r g hk hr
  rcases hs.key x hx e y hy _ hk with hk | ⟨f, r', -, hrr, hn⟩
  · rcases hs.newKey r g hr with hr | ⟨hl, hedge, -⟩
    · obtain ⟨h₁, h₂⟩ := h.own x hx e y hy r g hk hr
      exact ⟨h₁, hs.lpos g h₂⟩
    · have := hedge x hx e ⟨y, hy, hk⟩
      rw [hy] at this
      exact ⟨Option.some.inj this, hl⟩
  · injection hrr with hrr
    subst hrr
    exact absurd hr (hs.newUncached f r hn g)

theorem Valid.later {x : Loc} (hx : Valid w x) (hl : Later w w') : Valid w' x := by
  cases x with
  | mem f => exact Held.later hx hl
  | ref r => exact fun hr => hl.logLe.stored (hx hr)

theorem SameTree.handOk (hs : SameTree E M H New w w') (h : TInv E L M H w) {x : Loc} {r : BlockRef}
    (hH : H = some (x, r)) : HandOk w' x r := by
  have hh := h.hand x r hH
  refine ⟨hh.valid.later hs.later, hh.kind, fun hr => hs.later.logLe.stored (hh.ref hr), ?_⟩
  intro r' g hk hr
  have hk := hs.handKey x r hH _ hk
  rcases hs.newKey r' g hr with hr | ⟨hl, -, hhand⟩
  · obtain ⟨h₁, h₂⟩ := hh.own r' g hk hr
    exact ⟨h₁, hs.lpos g h₂⟩
  · exact ⟨hhand x r hH hk, hl⟩

/-- No name in the tree leads to the special directory. -/
theorem TInv.ne_special (h : TInv E L M H w) {p : List Str} {d : ℕ}
    (hd : (w.graph E M H).find .top p = some (.mem d)) : (w.fil d).cls ≠ .specialDir := by
  intro hc
  have hlt : d < w.nfil := (h.live_valid ⟨.top, p, hd⟩).lt
  have hs : (w.graph E M H).find .special [] = some (.mem d) := by
    rw [LGraph.find_nil]
    exact congrArg (Option.map Loc.mem) (h.plain d hlt hc)
  exact absurd (h.find_mem_inj hd hs).1 (by simp)

/-- The invariant after a step that leaves the nodes where they are. -/
theorem TInv.kept (h : TInv E L M H w) (hn : NInv E L w') (hs : SameTree E M H New w w') : TInv E L M H w' := by
  refine ⟨hn, hs.unshared h, ?_, fun x r hH => hs.handOk h hH, ?_, fun d hd hc => ?_⟩
  · intro x hx e y hy
    rw [hs.live] at hx
    rw [hs.step x hx] at hy
    exact hs.ownOk h hx hy
  · intro x e hM
    obtain ⟨d, hx, hd⟩ := h.mask x e hM
    exact ⟨d, hx, hd.trans_le hs.later.nfil⟩
  · have hlt := hs.plain d hd hc
    rw [hs.later.cls d hlt] at hc
    rw [hs.sdh]
    exact h.plain d hlt hc

/-- **A step that does not change the tree.** -/
theorem TInv.same (h : TInv E L M H w) (hn : NInv E L w') (hs : SameTree E M H New w w')
    (hstill : M ≠ none → Still w w') (hout : ∀ x, (w.graph E M H).Live x → w'.out E x = w.out E x) :
    TInv E L M H w' ∧ Sim E M H w w' := by
  have ht := h.kept hn hs
  have hnorm : ∀ x, (w.graph E M H).Live x → w'.norm x = x :=
    fun x hx => ht.live_norm (hs.live.2 hx)
  refine ⟨ht, hs.later, ?_, ?_, hs.keep, hs.lpos, hs.rdh, hs.sdh, hs.version, hs.control,
    hstill⟩
  · intro i p
    rw [hs.find]
    cases hx : (w.graph E M H).find i p with
    | none => rfl
    | some x => rw [Option.map_some, hnorm x ⟨i, p, hx⟩]
  · intro x hx
    rw [hnorm x hx, hout x hx]

/-- What a flush finds stays the same if it does at each edge. -/
theorem SameTree.reg (hs : SameTree E M H New w w') {X : Set ℕ}
    (hreg : ∀ x, (w.graph E M H).Live x → ∀ e f, w.step E M x e = some (.mem f) → RegAt E w x e f →
      RegAt E w' x e f) (h : Reg E M H X w) : Reg E M H X w' := by
  intro x hx e f hstep
  rw [hs.live] at hx
  rw [hs.step x hx] at hstep
  exact (h x hx e f hstep).imp_right (hreg x hx e f hstep)

theorem TInv.calm (h : TInv E L M H w) (hn : NInv E L w') (hs : SameTree E M H New w w')
    (hstill : M ≠ none → Still w w')
    (hout : ∀ x, (w.graph E M H).Live x → w'.out E x = w.out E x)
    (hreg : ∀ x, (w.graph E M H).Live x → ∀ e f, w.step E M x e = some (.mem f) → RegAt E w x e f →
      RegAt E w' x e f) : TInv E L M H w' ∧ Calm E M H w w' := by
  obtain ⟨ht, hsim⟩ := h.same hn hs hstill hout
  exact ⟨ht, hsim, fun _ => hs.reg hreg⟩

/-! ### Composition -/

theorem Still.of_fil (h : ∀ g, g < w.nfil → w'.fil g = w.fil g) : Still w w' where
  ref g hg := by rw [h g hg]
  dir g hg := by rw [h g hg]
  dirty g hg e f hf := by
    rw [h g hg]
    exact hf

theorem Sim.refl (h : TInv E L M H w) : Sim E M H w w where
  later := .refl w
  find i p := by
    cases hx : (w.graph E M H).find i p with
    | none => rfl
    | some x => rw [Option.map_some, h.live_norm ⟨i, p, hx⟩]
  out x hx := by rw [h.live_norm hx]
  keep _ _ hr := hr
  lpos _ hf := hf
  rdh := rfl
  sdh := rfl
  version := rfl
  control := rfl
  still _ := .of_fil fun _ _ => rfl

theorem norm_norm (hkeep : ∀ r f, w.cache.nodemap r = some (.fil f) → w'.cache.nodemap r = some (.fil f))
    (x : Loc) : w'.norm (w.norm x) = w'.norm x := by
  cases x with
  | mem f => rfl
  | ref r =>
      change w'.norm (w.locAt r) = w'.locAt r
      cases hr : w.locAt r with
      | mem f => exact (locAt_eq_mem.2 (hkeep r f (locAt_eq_mem.1 hr))).symm
      | ref r' =>
          obtain rfl := locAt_eq_ref hr
          rfl

theorem Sim.live_norm (hs : Sim E M H w w') {x : Loc} (hx : (w.graph E M H).Live x) :
    (w'.graph E M H).Live (w'.norm x) := by
  obtain ⟨i, p, hp⟩ := hx
  exact ⟨i, p, by rw [hs.find, hp, Option.map_some]⟩

theorem Still.trans {w'' : World} (h : Still w w') (hl : Later w w') (h' : Still w' w'') : Still w w'' where
  ref g hg := (h'.ref g (hg.trans_le hl.nfil)).trans (h.ref g hg)
  dir g hg := (h'.dir g (hg.trans_le hl.nfil)).trans (h.dir g hg)
  dirty g hg e f hf := h'.dirty g (hg.trans_le hl.nfil) e f (h.dirty g hg e f hf)

theorem Sim.trans {w'' : World} (h : Sim E M H w w') (h' : Sim E M H w' w'') : Sim E M H w w'' where
  later := h.later.trans h'.later
  find i p := by
    rw [h'.find, h.find, Option.map_map]
    cases (w.graph E M H).find i p with
    | none => rfl
    | some x => exact congrArg some (norm_norm h'.keep x)
  out x hx := by
    rw [← norm_norm h'.keep x, h'.out _ (h.live_norm hx), h.out x hx]
  keep r f hr := h'.keep r f (h.keep r f hr)
  lpos f hf := h'.lpos f (h.lpos f hf)
  rdh := h'.rdh.trans h.rdh
  sdh := h'.sdh.trans h.sdh
  version := h'.version.trans h.version
  control := h'.control.trans h.control
  still hM := (h.still hM).trans h.later (h'.still hM)

theorem Calm.refl (h : TInv E L M H w) : Calm E M H w w where
  toSim := .refl h
  reg _ hr := hr

theorem Calm.trans {w'' : World} (h : Calm E M H w w') (h' : Calm E M H w' w'') : Calm E M H w w'' where
  toSim := h.toSim.trans h'.toSim
  reg X hr := h'.reg X (h.reg X hr)

/-- Nodes in memory stay at their paths. -/
theorem Sim.find_mem (hs : Sim E M H w w') {i : Rt} {p : List Str} {f : ℕ}
    (h : (w.graph E M H).find i p = some (.mem f)) : (w'.graph E M H).find i p = some (.mem f) := by
  rw [hs.find, h, Option.map_some, norm_mem]

theorem Sim.find_none (hs : Sim E M H w w') {i : Rt} {p : List Str}
    (h : (w.graph E M H).find i p = none) : (w'.graph E M H).find i p = none := by
  rw [hs.find, h, Option.map_none]

/-- **What can be seen stays the same.** -/
theorem Sim.view (hs : Sim E none none w w') (p : List Str) : w'.view E p = w.view E p := by
  rw [World.view, World.view, hs.find]
  cases hx : (w.graph E none none).find .top p with
  | none => rfl
  | some x => exact hs.out x ⟨.top, p, hx⟩

end same

end UTFS

end Utopfs
