/-
**What is unmounted is there after the next mount.**

When the root directory is clean then so is every node of the tree, and the store has the tree as it is in memory,
but for the times that `fs_utime` has set without marking a node.  No two paths lead to one stored inode, so the
tree in the store is a tree again when it is mounted.

Main definitions:

* `UTFS.World.refAt`, `UTFS.IsClean` — the reference of a node, and when that is what is stored;
* `UTFS.Sight.view` — what can be seen of a stored node;
* `UTFS.Remounted` — a file system that has been mounted and has nothing but the root directory in memory.

Main results:

* `UTFS.storedAt_clean`, `UTFS.view_clean` — **a clean tree is the tree in the store**;
* `UTFS.Remounted.tinv` — the tree in the store is a tree again;
* `UTFS.TreeOk.remount` — **what is unmounted is there after the next mount**.
-/

import Utopfs.FsTree

set_option relaxedAutoImplicit false
set_option autoImplicit false

namespace Utopfs

namespace UTFS

open Prog

variable {E : Env} {w w' : World} {L : Laws} {n : ℕ}

/-! ### What is stored of a clean tree -/

section clean

/-- The reference of a node. -/
def World.refAt (w : World) : Loc → BlockRef
  | .mem f => (w.fil f).ref
  | .ref r => r

/-- A node that is clean, or not in memory. -/
def IsClean (w : World) (x : Loc) : Prop := ∀ f, x = .mem f → (w.fil f).isdirty = false

/-- Without the times that `fs_utime` sets. -/
def NodeView.timeless (v : NodeView) : NodeView := { v with inode := { v.inode with atime := 0, mtime := 0 } }

/-- What can be seen of a stored node. -/
def Sight.view (s : Sight) : NodeView :=
  if sIsdir s.inode.mode then ⟨s.inode.seen, none⟩ else ⟨s.inode, some s.bytes⟩

/-- A clean node agrees with the one that is stored. -/
theorem IsClean.decoded {f : ℕ} (hc : IsClean w (.mem f)) (h : TInv E L none none w) (hf : Held w f) :
    ∃ y, decodeFile E w.log (w.fil f).ref = some y ∧ y.timeless = (w.fil f).timeless ∧
      sIsdir y.inode.mode = (w.fil f).cls.isDir := by
  have hdec := ((h.nodes.node f hf.lt).clean (hc f rfl)).decoded
  rw [Option.map_eq_some_iff] at hdec
  obtain ⟨y, hy, ht⟩ := hdec
  have hmode := congrArg (fun z : FileNode => sIsdir z.inode.mode) ht
  exact ⟨y, hy, ht, hmode.trans hf.kind.symm⟩

/-- The entries of a clean directory are stored, and none of its nodes is dirty. -/
theorem IsClean.dirOf {x : Loc} (hc : IsClean w x) (h : TInv E L none none w) (hx : Valid w x) :
    (storedDir E w.log (w.refAt x)).getD [] = w.dirOf E x ∧ w.dirtyOf x = [] := by
  cases x with
  | ref r => exact ⟨rfl, rfl⟩
  | mem f =>
      have hf : Held w f := hx
      cases hd : (w.fil f).cls.isDir with
      | true =>
          obtain ⟨hdirty, hdir⟩ := (h.nodes.node f hf.lt).cleanDir hd (hc f rfl)
          simp only [World.refAt, World.dirOf, World.dirtyOf, hd, if_true, hdir, hdirty, Option.getD_some, and_self]
      | false =>
          obtain ⟨y, hy, -, hm⟩ := hc.decoded h hf
          rw [hd] at hm
          simp [World.refAt, World.dirOf, World.dirtyOf, hd, storedDir, hy, hm]

/-- The nodes below a clean directory are clean, and its entries have their references. -/
theorem IsClean.kid {x : Loc} (hc : IsClean w x) (h : TInv E L none none w) (hX : Reg E none none ∅ w)
    (hx : (w.graph E none none).Live x) {e : Str} {r : BlockRef} (hr : (w.dirOf E x).lookup e = some r) :
    w.kid E x e = some (w.locAt r) ∧ IsClean w (w.locAt r) ∧ w.refAt (w.locAt r) = r := by
  obtain ⟨-, hdirty⟩ := hc.dirOf h (h.live_valid hx)
  have hkid : w.kid E x e = some (w.locAt r) := by
    rw [World.kid, hdirty, hr]
    rfl
  refine ⟨hkid, ?_⟩
  cases hloc : w.locAt r with
  | ref r' =>
      rw [World.locAt] at hloc
      split at hloc
      · simp at hloc
      · injection hloc with hloc
        exact ⟨fun f hf => by simp at hf, hloc.symm⟩
  | mem g =>
      rw [hloc] at hkid
      rcases (hX x hx e g ((step_none x e).trans hkid)).resolve_left (Set.notMem_empty g) with hdy | ⟨hclean, href⟩
      · rw [hdirty] at hdy
        simp at hdy
      · refine ⟨fun f hf => ?_, ?_⟩
        · injection hf with hf
          rw [← hf]
          exact hclean
        · rw [World.refAt, href, World.entryRef, hr, Option.getD_some]

/-- **The paths of a clean tree are those in the store.** -/
theorem storedAt_clean (h : TInv E L none none w) (hX : Reg E none none ∅ w) : ∀ (p : List Str) (x : Loc),
    (w.graph E none none).Live x → IsClean w x →
      storedAt E w.log (w.refAt x) p = ((w.graph E none none).walk x p).map w.refAt ∧
      ∀ y, (w.graph E none none).walk x p = some y → (w.graph E none none).Live y ∧ IsClean w y := by
  intro p
  induction p with
  | nil =>
      intro x hx hc
      refine ⟨rfl, fun y hy => ?_⟩
      obtain rfl := Option.some.inj hy
      exact ⟨hx, hc⟩
  | cons e p ih =>
      intro x hx hc
      obtain ⟨hdir, hdirty⟩ := hc.dirOf h (h.live_valid hx)
      have hstep : (w.graph E none none).step x e = w.kid E x e := step_none x e
      rw [storedAt, hdir, LGraph.walk_cons, hstep]
      cases hr : (w.dirOf E x).lookup e with
      | none =>
          have hkid : w.kid E x e = none := by
            rw [World.kid, hdirty, hr]
            rfl
          rw [hkid]
          exact ⟨rfl, fun y hy => by simp at hy⟩
      | some r =>
          obtain ⟨hkid, hcy, href⟩ := hc.kid h hX hx hr
          have hy := ih (w.locAt r) (hx.step (hstep.trans hkid)) hcy
          rw [href] at hy
          rw [hkid]
          exact hy

/-- **What can be seen of a clean node is stored**, but for its times. -/
theorem out_clean (h : TInv E L none none w) {x : Loc} (hx : Valid w x) (hc : IsClean w x) :
    (w.out E x).map NodeView.timeless =
      ((storedSight E w.log (w.refAt x)).map Sight.view).map NodeView.timeless := by
  cases x with
  | ref r =>
      rw [World.out, storedSight, World.refAt]
      cases decodeFile E w.log r <;> rfl
  | mem f =>
      have hf : Held w f := hx
      obtain ⟨y, hy, ht, hm⟩ := hc.decoded h hf
      have hi : ({ y.inode with atime := 0, mtime := 0 } : INode) =
          { (w.fil f).inode with atime := 0, mtime := 0 } := congrArg FileNode.inode ht
      rw [World.out, storedSight, World.refAt, hy, Option.map_some, Option.map_some, Sight.view]
      cases hd : (w.fil f).cls.isDir with
      | true =>
          rw [hd] at hm
          rw [if_pos rfl, if_pos hm, Option.map_some, Option.map_some]
          exact congrArg (fun i : INode => some (NodeView.mk { i with size := 0, blocks := 0 } none)) hi.symm
      | false =>
          rw [hd] at hm
          have hobjs := ((h.nodes.node f hf.lt).clean (hc f rfl)).objs
          have hbytes : nodeBytes E w.log y = fileBytes E w f := by
            have hnode := congrArg (nodeBytes E w.log) ht
            refine Eq.trans (b := nodeBytes E w.log (w.fil f)) hnode ?_
            funext a
            simp only [nodeBytes, fileBytes]
            by_cases ha : a < 4096
            · simp only [ha, if_true]
            · simp only [ha, if_false]
              cases FSlot.at a with
              | none => rfl
              | some s => simp only [slotBytes, World.slotObj, World.slotRef, hobjs]
          rw [if_neg (by simp), if_neg (by simp [hm]), Option.map_some, Option.map_some]
          have hview := congrArg (fun i : INode => some (NodeView.mk i (some (fileBytes E w f)))) hi.symm
          rw [← hbytes] at hview ⊢
          exact hview

theorem find_root {d : ℕ} (hd : w.rdh = some d) (p : List Str) :
    (w.graph E none none).find .top p = (w.graph E none none).walk (.mem d) p := by
  have hroot : (w.graph E none none).root .top = some (.mem d) := congrArg (Option.map Loc.mem) hd
  rw [LGraph.find, hroot, Option.bind_some]

theorem clean_root {d : ℕ} (hd : w.rdh = some d) (hc : (w.fil d).isdirty = false) :
    (w.graph E none none).find .top [] = some (.mem d) ∧ IsClean w (.mem d) := by
  refine ⟨find_top.2 hd, ?_⟩
  rintro f hf
  injection hf with hf
  rw [← hf]
  exact hc

/-- **A clean tree is the tree in the store.** -/
theorem view_clean (h : TInv E L none none w) (hX : Reg E none none ∅ w) {d : ℕ} (hd : w.rdh = some d)
    (hc : (w.fil d).isdirty = false) (p : List Str) : (w.view E p).map NodeView.timeless =
      ((storedView E w.log (w.fil d).ref p).map Sight.view).map NodeView.timeless := by
  obtain ⟨hroot, hcl⟩ := clean_root hd hc
  obtain ⟨hat, hkept⟩ := storedAt_clean h hX p (.mem d) ⟨.top, [], hroot⟩ hcl
  rw [World.view, find_root hd, storedView, show (w.fil d).ref = w.refAt (.mem d) from rfl, hat]
  cases hy : (w.graph E none none).walk (.mem d) p with
  | none => rfl
  | some y =>
      obtain ⟨hlive, hcy⟩ := hkept y hy
      exact out_clean h (h.live_valid hlive) hcy

/-- No two paths lead to one stored inode. -/
theorem storedAt_inj (h : TInv E L none none w) (hX : Reg E none none ∅ w) {d : ℕ} (hd : w.rdh = some d)
    (hc : (w.fil d).isdirty = false) {p q : List Str} {r : BlockRef} (hp : p ≠ []) (hq : q ≠ []) (hr : r ≠ .nil)
    (hpr : storedAt E w.log (w.fil d).ref p = some r) (hqr : storedAt E w.log (w.fil d).ref q = some r) :
    p = q := by
  obtain ⟨hroot, hcl⟩ := clean_root (E := E) hd hc
  have hedge : ∀ {p : List Str}, p ≠ [] → storedAt E w.log (w.fil d).ref p = some r → ∃ p' a x, p = p' ++ [a] ∧
      (w.graph E none none).find .top p' = some x ∧ w.edgeKey E none x a (.ref r) := by
    intro p hp hpr
    obtain ⟨p', a, rfl⟩ := (List.eq_nil_or_concat p).resolve_left hp
    rw [List.concat_eq_append] at hpr ⊢
    obtain ⟨hat, -⟩ := storedAt_clean h hX (p' ++ [a]) (.mem d) ⟨.top, [], hroot⟩ hcl
    rw [World.refAt, hpr, ← find_root hd] at hat
    obtain ⟨y, hy, href⟩ := Option.map_eq_some_iff.1 hat.symm
    obtain ⟨x, hx, hstep⟩ := LGraph.find_snoc_eq_some hy
    refine ⟨p', a, x, rfl, hx, y, hstep, ?_⟩
    cases y with
    | mem g =>
        rw [World.refAt] at href
        subst href
        exact .own rfl hr
    | ref r' =>
        obtain rfl : r' = r := href
        have hent := entryRef_of_ref (kid_of_step (show w.step E none x a = _ from hstep))
        rw [hent]
        exact .entry hr
  obtain ⟨p', a, x, rfl, hx, hkx⟩ := hedge hp hpr
  obtain ⟨q', b, y, rfl, hy, hky⟩ := hedge hq hqr
  obtain ⟨-, rfl, rfl⟩ := h.unshared.edge .top p' x a hx .top q' y b hy (.ref r) hkx hky
  rfl

end clean

/-! ### Mounting -/

section remounted

variable (E) in
/-- The file system has been mounted, and nothing but the root directory has been loaded. -/
structure Remounted (L : Laws) (log : List Effect) (r : BlockRef) (w : World) : Prop where
  nodes : NInv E L w
  log : w.log = log
  cache : ∀ r f, w.cache.nodemap r ≠ some (.fil f)
  top : ∃ d, w.rdh = some d ∧ w.sdh ≠ some d ∧ w.dirtyOf (.mem d) = [] ∧
    w.dirOf E (.mem d) = w.dirOf E (.ref r) ∧ w.out E (.mem d) = w.out E (.ref r)
  special : ∀ s, w.sdh = some s → ∀ e, w.kid E (.mem s) e = none
  plain : ∀ d, d < w.nfil → (w.fil d).cls = .specialDir → w.sdh = some d

variable {log : List Effect} {r : BlockRef} (h : Remounted E L log r w)

include h

theorem Remounted.find (e : Str) (p : List Str) :
    (w.graph E none none).find .top (e :: p) = (storedAt E w.log r (e :: p)).map .ref := by
  obtain ⟨d, hd, -, hdirty, hdir, -⟩ := h.top
  have hroot : (w.graph E none none).root .top = some (.mem d) := congrArg (Option.map Loc.mem) hd
  have hstep : (w.graph E none none).step (.mem d) e = w.kid E (.ref r) e := by
    simp only [World.graph, step_none, World.kid, hdirty, hdir]
    rfl
  rw [LGraph.find, hroot, Option.bind_some, LGraph.walk_cons, hstep, kid_uncached h.cache, storedAt]
  cases ((storedDir E w.log r).getD []).lookup e with
  | none => rfl
  | some r' => exact walk_uncached h.cache p r'

/-- The edges are those in the store. -/
theorem Remounted.edge {i : Rt} {p : List Str} {x y : Loc} (hx : (w.graph E none none).find i p = some x) {e : Str}
    (hy : w.step E none x e = some y) : i = .top ∧ ∃ r', y = .ref r' ∧ w.entryRef E x e = r' ∧
      storedAt E w.log r (p ++ [e]) = some r' := by
  have hsnoc := (LGraph.find_snoc_of hx e).trans hy
  cases i with
  | top =>
      have hat : (storedAt E w.log r (p ++ [e])).map Loc.ref = some y := by
        cases p with
        | nil => rw [← hsnoc]; exact (h.find e []).symm
        | cons a p => rw [← hsnoc]; exact (h.find a (p ++ [e])).symm
      obtain ⟨r', hr', rfl⟩ := Option.map_eq_some_iff.1 hat
      exact ⟨rfl, r', rfl, entryRef_of_ref (kid_of_step hy), hr'⟩
  | special =>
      exfalso
      cases hs : w.sdh with
      | none =>
          have hroot : (w.graph E none none).root .special = none := congrArg (Option.map Loc.mem) hs
          rw [LGraph.find, hroot] at hx
          simp at hx
      | some s =>
          have hroot : (w.graph E none none).root .special = some (.mem s) := congrArg (Option.map Loc.mem) hs
          have hkid : ∀ a, (w.graph E none none).step (.mem s) a = none := fun a =>
            (step_none _ a).trans (h.special s hs a)
          rw [LGraph.find, hroot, Option.bind_some] at hsnoc
          cases p with
          | nil => simp [LGraph.walk_cons, hkid] at hsnoc
          | cons a p => simp [LGraph.walk_cons, hkid] at hsnoc
  | hand =>
      have hroot : (w.graph E none none).root .hand = none := rfl
      rw [LGraph.find, hroot] at hx
      simp at hx

/-- **The tree in the store is a tree again.** -/
theorem Remounted.tinv (huniq : ∀ p q r', p ≠ [] → q ≠ [] → r' ≠ .nil → storedAt E log r p = some r' →
    storedAt E log r q = some r' → p = q) : TInv E L none none w ∧ Reg E none none ∅ w := by
  obtain ⟨d, hd, hne, -⟩ := h.top
  have hkey : ∀ {i p x e k}, (w.graph E none none).find i p = some x → w.edgeKey E none x e k →
      i = .top ∧ ∃ r', k = .ref r' ∧ r' ≠ .nil ∧ storedAt E log r (p ++ [e]) = some r' := by
    rintro i p x e k hx ⟨y, hy, hk⟩
    obtain ⟨hi, r', rfl, hent, hat⟩ := h.edge hx hy
    rw [hent] at hk
    rw [h.log] at hat
    cases hk with
    | node hf => simp at hf
    | own hf => simp at hf
    | entry hr => exact ⟨hi, r', rfl, hr, hat⟩
  have hmem : ∀ {i k}, w.rootKey none i k →
      (i = .top ∧ k = .mem d) ∨ (i = .special ∧ ∃ s, w.sdh = some s ∧ k = .mem s) := by
    rintro (- | - | -) k hk
    · obtain ⟨d', hd', rfl⟩ := hk
      exact .inl ⟨rfl, by rw [Option.some.inj (hd.symm.trans hd')]⟩
    · obtain ⟨s, hs, rfl⟩ := hk
      exact .inr ⟨rfl, s, hs, rfl⟩
    · obtain ⟨x, r', hH, -⟩ := hk
      simp at hH
  refine ⟨⟨h.nodes, ⟨fun i j k hi hj => ?_, fun i k hi j q y b hy hk => ?_, ?_⟩, fun x _ e y _ r' g _ hr => ?_,
    fun x r' hH => by simp at hH, fun x e hM => by simp at hM, h.plain⟩, ?_⟩
  · rcases hmem hi with ⟨rfl, rfl⟩ | ⟨rfl, s, hs, rfl⟩
    · rcases hmem hj with ⟨rfl, -⟩ | ⟨rfl, s, hs, hk⟩
      · rfl
      · injection hk with hk
        exact absurd (hk ▸ hs) hne
    · rcases hmem hj with ⟨rfl, hk⟩ | ⟨rfl, -⟩
      · injection hk with hk
        exact absurd (hk ▸ hs) hne
      · rfl
  · obtain ⟨-, r', rfl, -⟩ := hkey hy hk
    rcases hmem hi with ⟨-, hf⟩ | ⟨-, s, -, hf⟩
    · simp at hf
    · simp at hf
  · intro i p x a hx j q y b hy k hk hk'
    obtain ⟨rfl, r', rfl, hnil, hp⟩ := hkey hx hk
    obtain ⟨rfl, r'', hr, -, hq⟩ := hkey hy hk'
    injection hr with hr
    subst hr
    have hpq := huniq _ _ r' (by simp) (by simp) hnil hp hq
    obtain ⟨rfl, hab⟩ := List.append_inj' hpq rfl
    exact ⟨rfl, rfl, List.singleton_inj.1 hab⟩
  · exact absurd hr (h.cache r' g)
  · rintro x ⟨i, p, hx⟩ e f hf
    obtain ⟨-, r', hr, -⟩ := h.edge hx hf
    simp at hr

/-- What can be seen is what is stored. -/
theorem Remounted.view (p : List Str) : w.view E p = (storedView E log r p).map Sight.view := by
  have hout : ∀ r', w.out E (.ref r') = (storedSight E log r').map Sight.view := by
    intro r'
    rw [World.out, storedSight, h.log]
    cases decodeFile E log r' <;> rfl
  rw [World.view, storedView]
  cases p with
  | nil =>
      obtain ⟨d, hd, -, -, -, hd'⟩ := h.top
      rw [find_top.2 hd, Option.bind_some, hd', hout]
      rfl
  | cons e p =>
      rw [h.find, h.log]
      cases storedAt E log r (e :: p) with
      | none => rfl
      | some r' => exact hout r'

end remounted

section mount

/-- A file system without members. -/
theorem TInv.blank (hb : BInv E ∅ w) (hst : StoreOk E L w.log) (hnfil : w.nfil = 0)
    (hcache : ∀ r f, w.cache.nodemap r ≠ some (.fil f)) (htops : w.tops = (none, none, none, none)) :
    TInv E L none none w := by
  obtain ⟨hrdh, hsdh, hver, hctl⟩ : w.rdh = none ∧ w.sdh = none ∧ w.version = none ∧ w.control = none := by
    simpa only [World.tops, Prod.mk.injEq] using htops
  have hfind : ∀ i p x, (w.graph E none none).find i p ≠ some x := by
    intro i p x
    have hroot : (w.graph E none none).root i = none := by
      cases i with
      | top => exact congrArg (Option.map Loc.mem) hrdh
      | special => exact congrArg (Option.map Loc.mem) hsdh
      | hand => rfl
    rw [LGraph.find, hroot]
    simp
  have hkey : ∀ i k, ¬ w.rootKey none i k := by
    rintro (- | - | -) k hk
    · obtain ⟨d, hd, -⟩ := hk
      simp [hrdh] at hd
    · obtain ⟨d, hd, -⟩ := hk
      simp [hsdh] at hd
    · obtain ⟨x, r, hH, -⟩ := hk
      simp at hH
  have hn : NInv E L w := ⟨hb, hst, fun f hf => by omega, fun r f hr => absurd hr (hcache r f),
    fun d hd => by simp [hrdh] at hd, fun d hd => by simp [hsdh] at hd, fun v hv => by simp [hver] at hv,
    fun c hc => by simp [hctl] at hc⟩
  refine ⟨hn, ⟨fun i j k hi => absurd hi (hkey i k), fun i k hi => absurd hi (hkey i k), fun i p x a hx => ?_⟩,
    ?_, fun x r hH => by simp at hH, fun x e hM => by simp at hM, fun d hd => by omega⟩
  · exact absurd hx (hfind i p x)
  · rintro x ⟨i, p, hx⟩
    exact absurd hx (hfind i p x)

/-- The root directory has been loaded, and the special directory has been made. -/
structure Planted (E : Env) (L : Laws) (r : BlockRef) (d : ℕ) (w₁ w : World) : Prop where
  inv : TInv E L none none w₁
  blank : w₁.sdh = none
  copy : Copy E none none w₁ r d
  nfil : w.nfil = w₁.nfil + 2
  old : ∀ f, f < w₁.nfil → w.fil f = w₁.fil f
  new : ∀ f, w₁.nfil ≤ f → f < w.nfil → (w.fil f).ref = .nil ∧ (w.fil f).isdirty = true ∧ (w.fil f).dir = [] ∧
    (w.fil f).dirty = [] ∧ ((w.fil f).cls = .specialDir → w.sdh = some f)
  sdh : w.sdh = some w₁.nfil
  blk : w.blk = w₁.blk
  log : w.log = w₁.log
  rand : w.rand = w₁.rand

/-- **A mounted file system**: it has the nodes of the file system without members, and new ones. -/
theorem Planted.remounted {log : List Effect} {root : BlockRef} {d : ℕ} {w₁ : World}
    (hp : Planted E L (E.decryptRef root) d w₁ w) (hL : ¬ L.links) (hm : Mounted E log root w)
    (hd : w.rdh = some d) : Remounted E L log (E.decryptRef root) w := by
  obtain ⟨d', hd', -, hcopy⟩ := hm.top
  obtain rfl : d' = d := Option.some.inj (hd'.symm.trans hd)
  have hl : Later w₁ w := ⟨by rw [hp.log]; exact .refl _, by rw [hp.rand]; exact fun _ hi => hi,
    by rw [hp.nfil]; exact Nat.le_add_right _ _, fun f hf => by rw [hp.old f hf], fun f hf => by rw [hp.old f hf]⟩
  have hlt := hp.copy.held.lt
  have hnode : ∀ f, f < w.nfil → (f < w₁.nfil ∧ w.fil f = w₁.fil f) ∨ NodeOk E L w f := by
    intro f hf
    rcases Nat.lt_or_ge f w₁.nfil with hlt | hge
    · exact .inl ⟨hlt, hp.old f hlt⟩
    · obtain ⟨href, hmark, hdir, hdirty, -⟩ := hp.new f hge hf
      exact .inr (.unstored hL hm.ok.blk.disk href hmark hdir hdirty)
  have hn : NInv E L w := hp.inv.nodes.step hm.ok.blk hl (by rw [hp.log]; exact hp.inv.nodes.store) hnode
    (fun r f hr => absurd hr (hm.cache r f)) (fun d hd => .inr (hm.ok.top d hd))
    (fun d hd => .inr (hm.ok.special d hd)) (fun v hv => .inr (hm.ok.version v hv))
    fun c hc => .inr (hm.ok.control c hc)
  refine ⟨hn, hm.log, hm.cache, ⟨d', hd, ?_, hcopy.dirty, hcopy.dir, ?_⟩, fun s hs e => ?_, fun f hf hcls => ?_⟩
  · rw [hp.sdh]
    intro hsd
    have := Option.some.inj hsd
    omega
  · rw [out_congr hp.blk hp.log (hp.old d' hlt), hp.copy.out]
    simp only [World.out, hp.log]
  · rw [hp.sdh] at hs
    obtain rfl := Option.some.inj hs
    obtain ⟨-, -, hdir, hdirty, -⟩ := hp.new w₁.nfil (Nat.le_refl _) (by rw [hp.nfil]; omega)
    simp [World.kid, World.dirOf, World.dirtyOf, hdir, hdirty]
  · rcases Nat.lt_or_ge f w₁.nfil with hlt | hge
    · rw [hp.old f hlt] at hcls
      have := hp.inv.plain f hlt hcls
      rw [hp.blank] at this
      simp at this
    · exact (hp.new f hge hf).2.2.2.2 hcls

variable {root : BlockRef} {rand : List IV}

/-- The root directory is loaded. -/
theorem wp_loadRootDirNode_tree {r : BlockRef} {x : FileNode} (h : TInv E L none none w) (hsdh : w.sdh = none)
    (hs : Stored w.log r .inode) (hx : decodeFile E w.log r = some x) (hm : sIsdir x.inode.mode = true) :
    wp (loadRootDirNode E r) (fun d w' => ∃ w₁, Planted E L r d w₁ w') (fun _ _ => True) w := by
  rw [loadRootDirNode, wp_bind, wp, readFileNode_run h.nodes.blk.disk hs hx]
  refine wp_seq (wp_upgradeDir h hs hx hm) ?_ fun _ _ _ => trivial
  rintro d w₁ ⟨hmade, hcopy, -⟩
  obtain ⟨w₂, t₁, t₂, hrun, hfil, hnfil, hsdh₂, hblk, hlog, hrand, -⟩ := newSpecialDirNode_fil w₁
  rw [wp_bind, wp, hrun]
  refine ⟨w₁, hmade.inv, hmade.sim.toSim.sdh.trans hsdh, hcopy, hnfil, fun f hf => ?_, fun f hge hf => ?_, hsdh₂,
    hblk, hlog, hrand⟩
  · rw [hfil, Function.update_of_ne (by omega), Function.update_of_ne (by omega)]
  · rw [hfil, hsdh₂]
    obtain rfl | rfl : f = w₁.nfil ∨ f = w₁.nfil + 1 := by omega
    · rw [Function.update_of_ne (by omega), Function.update_self]
      exact ⟨rfl, rfl, rfl, rfl, fun _ => rfl⟩
    · rw [Function.update_self]
      exact ⟨rfl, rfl, rfl, rfl, fun hc => by simp at hc⟩

/-- **Mounting.** -/
theorem wp_fsMount_tree (h : FsOk E n w) (hL : ¬ L.links) (hst : StoreOk E L w.log) (hrand : Unused w.log rand)
    (full : List Bool) (clock : ℕ → ℕ) (hf : headFurthest w.log = [root]) :
    wp (fsMount E) (fun _ w' => Remounted E L w.log (E.decryptRef root) w') (fun _ _ => True)
      (w.restarted rand full clock) := by
  obtain ⟨hs, x, hx, hm⟩ := h.root_decodes hf
  have hdisk : DiskOk E w.log rand :=
    { h.blk.disk with fresh := hrand.fresh, randNodup := hrand.nodup, randNe := hrand.ne }
  have hz : FsOk E 3 ((((w.restarted rand full clock).zeroed 0).zeroed 1).zeroed 2) :=
    (FsOk.started hdisk h.store full clock).zeroed.zeroed.zeroed
  have hplant : wp (fsMount E) (fun _ w' => ∃ d w₁, Planted E L (E.decryptRef root) d w₁ w' ∧ w'.rdh = some d)
      (fun _ _ => True) (w.restarted rand full clock) := by
    generalize hw : (((w.restarted rand full clock).zeroed 0).zeroed 1).zeroed 2 = z at hz
    have hlog : z.log = w.log := by rw [← hw]; rfl
    obtain ⟨h₀, -⟩ := safe_modify_members hz z.rdh z.sdh z.version z.control (E.decryptRef root) (some root) hz.top
      hz.special hz.version hz.control
    have hroot : getRootref E z = .ok (E.decryptRef root) { z with hn := some root, rbr := E.decryptRef root } := by
      have hfz : headFurthest z.log = [root] := by rw [hlog]; exact hf
      simp only [getRootref, bind_apply, get_apply, hfz]
      rfl
    have ht₀ : TInv E L none none { z with hn := some root, rbr := E.decryptRef root } := by
      refine .blank h₀.blk (by rw [← hlog] at hst; exact hst) (by rw [← hw]; rfl) ?_ (by rw [← hw]; rfl)
      rw [← hw]
      exact fun r f => (Option.some_ne_none _).symm
    have hload := wp_loadRootDirNode_tree ht₀ (by rw [← hw]; rfl) (by rw [← hlog] at hs; exact hs)
      (by rw [← hlog] at hx; exact hx) hm
    rw [wp, fsMount, bind_apply, modify_apply]
    dsimp only
    rw [bind_newZeroNode, bind_newZeroNode, bind_newZeroNode]
    change wp _ _ _ ((((w.restarted rand full clock).zeroed 0).zeroed 1).zeroed 2)
    rw [hw, wp_bind, wp_tryCatch, wp_bind, wp, hroot]
    dsimp only
    refine wp_mono hload ?_ ?_
    · rintro d w₂ ⟨w₁, hp⟩
      exact ⟨d, w₁, ⟨hp.inv, hp.blank, hp.copy, hp.nfil, hp.old, hp.new, hp.sdh, hp.blk, hp.log, hp.rand⟩, rfl⟩
    · intro e w₂ _
      cases e <;> trivial
  have hmount := wp_fsMount h hrand.nodup hrand.ne hrand.fresh full clock hf hx
  refine wp_mono (wp_and hmount hplant) ?_ fun _ _ _ => trivial
  rintro - w' ⟨hmounted, d, w₁, hp, hd⟩
  exact hp.remounted hL hmounted hd

end mount

section remount

/-- What `fs_umount` leaves: the tree is clean, and its root is that of the file system. -/
theorem TreeOk.umount (h : TreeOk E w) (humount : fsUmount E w = .ok () w') :
    ∃ w₁ d, TInv E treeLaws none none w₁ ∧ Reg E none none ∅ w₁ ∧ w₁.rdh = some d ∧ (w₁.fil d).isdirty = false ∧
      (w₁.fil d).ref = w'.rbr ∧ w'.log = w₁.log ∧ w₁.view E = w.view E := by
  cases hd : w.rdh with
  | none =>
      have hnull : fsUmount E w = .error .nullHandle w := by
        simp only [fsUmount, flushRoot, bind_apply, get_apply, hd, member]
        rfl
      rw [hnull] at humount
      simp at humount
  | some d =>
      rw [fsUmount, bind_apply, flushRoot_run hd] at humount
      cases hflush : flushTo E d w with
      | error e w₁ => simp [hflush] at humount
      | ok u w₁ =>
          rw [hflush] at humount
          obtain ⟨-, rfl⟩ := EStateM.Result.ok.inj humount
          obtain ⟨h₁, hc, hclean, href⟩ := wp_ok (leaves_flushTo h.inv hd) hflush
          exact ⟨w₁, d, h₁, hc.reg _ h.reg, hc.toSim.rdh.trans hd, hclean, href, rfl, funext hc.toSim.view⟩

variable {e : Entry} {w₁ w₂ : World} {rand : List IV} {full : List Bool} {clock : ℕ → ℕ}

/-- What `fs_mount` finds after `fs_umount`. -/
theorem TreeOk.mounted (h : TreeOk E w) (hctx : Context E e w) (humount : fsUmount E w = .ok () w₁)
    (hrand : Unused w₁.log rand) (hmount : fsMount E (w₁.restarted rand full clock) = .ok () w₂) :
    Remounted E treeLaws w₁.log w₁.rbr w₂ ∧ Mounted E w₁.log (E.encryptRef w₁.rbr) w₂ := by
  have hctx₁ : Context E e w₁ := .op .umount hctx (.inl humount)
  obtain ⟨hr, -⟩ := hctx₁.recovers
  obtain ⟨-, x, hx, -⟩ := hctx₁.fsOk.root_decodes hr.furthest
  obtain ⟨u, d, hu, -, -, -, -, hlog, -⟩ := h.umount humount
  have hst : StoreOk E treeLaws w₁.log := by
    rw [hlog]
    exact hu.nodes.store
  have hm := wp_ok (wp_fsMount_tree hctx₁.fsOk id hst hrand full clock hr.furthest) hmount
  rw [E.decryptRef_encryptRef] at hm
  have hmounted := wp_ok (wp_fsMount hctx₁.fsOk hrand.nodup hrand.ne hrand.fresh full clock hr.furthest hx) hmount
  exact ⟨hm, hmounted⟩

/-- **What is unmounted is there after the next mount**, but for the times that `fs_utime` sets. -/
theorem TreeOk.remount (h : TreeOk E w) (hctx : Context E e w) (humount : fsUmount E w = .ok () w₁)
    (hrand : Unused w₁.log rand) (hmount : fsMount E (w₁.restarted rand full clock) = .ok () w₂) :
    TreeOk E w₂ ∧ ∀ p, (w₂.view E p).map NodeView.timeless = (w.view E p).map NodeView.timeless := by
  obtain ⟨hm, -⟩ := h.mounted hctx humount hrand hmount
  obtain ⟨u, d, hu, hX, hd, hclean, href, hlog, hview⟩ := h.umount humount
  rw [hlog, ← href] at hm
  obtain ⟨ht, hX₂⟩ := hm.tinv fun p q r hp hq hr => storedAt_inj hu hX hd hclean hp hq hr
  refine ⟨⟨ht, hX₂⟩, fun p => ?_⟩
  rw [hm.view, ← hview]
  exact (view_clean hu hX hd hclean p).symm

end remount

end UTFS

end Utopfs
