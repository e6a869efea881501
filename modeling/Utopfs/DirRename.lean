/-
**Moving a name.**

`fs_rename` follows three paths.  The first traversal stores the source, so that it has a reference.  The
second takes away what has the new name and adds an entry with the reference, under which the clean cache has
the node of the source: for a while the node has two names, and the new one is masked.  The third takes the
old name away: the node is in hand, and the new entry gets it.

None of the two paths leads to or through the other; a name that is moved to itself is lost.

Main definitions:

* `UTFS.moved` — what can be seen after a move;
* `UTFS.Source` — a stored node, and the directory that it is in;
* `UTFS.Moving`, `UTFS.Arrived` — the source with a reference, and with two names.

Main results:

* `UTFS.wp_linkSource` — the first traversal;
* `UTFS.wp_linkTarget` — the second;
* `UTFS.wp_unlinkSource` — the third;
* `UTFS.wp_fsRename` — **`fs_rename` moves the source**, with all that is below it.
-/

import Utopfs.DirCreate
import Utopfs.DirRead

set_option relaxedAutoImplicit false
set_option autoImplicit false

namespace Utopfs

namespace UTFS

open Prog

variable {E : Env} {w w' : World} {L : Laws}

/-! ### What can be seen -/

/-- What can be seen after what is at the path `o` has been moved to the path `t`. -/
def moved (n : List Str → Option NodeView) (o t : List Str) : List Str → Option NodeView :=
  fun q => if t <+: q then n (o ++ q.drop t.length) else if o <+: q then none else n q

/-- The error of a path depends on what can be seen on the way. -/
theorem blocked_congr {n n' : List Str → Option NodeView} : ∀ (l p : List Str),
    (∀ q, q <+: p ++ l.dropLast → n' q = n q) → blocked n' p l = blocked n p l := by
  intro l
  induction l with
  | nil => exact fun _ _ => rfl
  | cons a l ih =>
      intro p h
      cases l with
      | nil => rfl
      | cons b l =>
          have hpath : p ++ (a :: b :: l).dropLast = p ++ [a] ++ (b :: l).dropLast := by simp
          rw [hpath] at h
          rw [blocked, blocked, h _ (List.prefix_append _ _), ih (p ++ [a]) h]

/-! ### The source -/

/-- The node `f` is stored under `r`, which is the reference of the entry `e` of the directory `d`. -/
structure Source (w : World) (d : ℕ) (e : Str) (f : ℕ) (r : BlockRef) : Prop where
  isDir : (w.fil d).cls.isDir = true
  dirty : (w.fil d).dirty.lookup e = none
  entry : (w.fil d).dir.lookup e = some r
  ref : (w.fil f).ref = r
  cached : w.cache.nodemap r = some (.fil f)

section source

variable {d f : ℕ} {e : Str} {p : List Str} {r : BlockRef} {entry : Str} {rest : List Str} {Lost : Exn → Prop}
  {P : Errno → Prop}

theorem Source.kid (hs : Source w d e f r) : w.kid E (.mem d) e = some (.mem f) := by
  rw [kid_mem hs.isDir]
  simp only [hs.dirty, hs.entry, Option.map_some, locAt_eq_mem.2 hs.cached]

theorem Source.entryRef (hs : Source w d e f r) : w.entryRef E (.mem d) e = r := by
  rw [entryRef_mem hs.isDir, hs.entry, Option.getD_some]

/-- What the first traversal leaves behind: the source has been stored, or there is none. -/
def LinkSource (E : Env) (w : World) (p : List Str) (e : Str) (r : BlockRef) : Prop :=
  ∃ d, (w.graph E none none).find .top p = some (.mem d) ∧
    ((∃ f, Source w d e f r) ∨ (w.kid E (.mem d) e = none ∧ r = .nil))

/-- **`DirNode::linksrc`** stores the node of the name. -/
theorem wp_linksrc (h : TInv E L none none w) (hX : Reg E none none ∅ w)
    (hd : (w.graph E none none).find .top p = some (.mem d)) (hdir : (w.fil d).cls.isDir = true)
    {o : Option ℕ} (hk : w.kid E (.mem d) e = o.map .mem) :
    wp (linksrc E d e)
      (fun r w' => TInv E L none none w' ∧ Calm E none none w w' ∧ LinkSource E w' p e r ∧
        ∀ t, w.rdh = some t → Unflushed t w w')
      (Fails E L none Lost P w) w := by
  refine wp_mono (leaves_findBlkref h hd hdir e) ?_ ?_
  swap
  · exact fun ex w' hF => hF.imp_right fun h' => .inr ⟨h'.1, h'.2.1, fun en he => absurd he (h'.2.2 en)⟩
  rintro r w' ⟨h', hc, hdir', hdy, hr, hspared, hmark⟩
  have hd' := hc.find_mem hd
  have hk' : w'.kid E (.mem d) e = o.map .mem := by
    rw [hc.kid ⟨.top, p, hd⟩ (by simp), hk]
    cases o <;> rfl
  refine ⟨h', hc, ⟨d, hd', ?_⟩, fun t ht => ?_⟩
  swap
  · rcases hmark with rfl | hmark
    · exact .of_fil rfl
    by_cases htd : t = d
    · rw [htd]
      exact .inl hmark
    -- The root directory is not below the source.
    refine .of_fil (hspared .top [] t (find_top.2 ht) fun hp => htd ?_)
    obtain rfl := List.prefix_nil.1 hp.2
    exact Loc.mem.inj (Option.some.inj ((find_top.2 ht).symm.trans hd))
  cases o with
  | none => exact .inr ⟨hk', by rw [hr, entryRef_mem hdir', (kid_none hdir' hk').2]; rfl⟩
  | some f =>
      rcases kid_cases hdir' hk' with hdy' | ⟨-, r', hr', hmap⟩
      · rw [hdy] at hdy'
        simp at hdy'
      have hrr : r = r' := by rw [hr, entryRef_mem hdir', hr', Option.getD_some]
      subst hrr
      -- A flush finds the node of the name, which is not dirty.
      have hreg := (hc.reg ∅ hX _ ⟨.top, p, hd'⟩ e f ((step_none _ e).trans hk')).resolve_left id
      simp only [RegAt, World.dirtyOf, hdir', if_true, hdy, reduceCtorEq, false_or] at hreg
      exact .inl ⟨f, hdir', hdy, hr', by rw [hreg.2, ← hr], hmap⟩

/-- **The first traversal.** -/
theorem wp_linkSource (Lost : Exn → Prop) (h : TInv E L none none w) (hX : Reg E none none ∅ w)
    (hspecial : entry ≠ specialDir) (hpe : entry :: rest = p ++ [e]) :
    wp (rootTraverse E ntParentOnly (linkSrcFunc E) rest entry .nil)
      (fun r w' => entry ≠ [] ∧ blocked (w.view E) [] (entry :: rest) = none ∧
        TInv E L none none w' ∧ Calm E none none w w' ∧ LinkSource E w' p e r ∧
        ∀ t, w.rdh = some t → Unflushed t w w')
      (Fails E L none Lost (RootErrs (w.view E) entry rest fun _ => False) w) w := by
  refine wp_rootName (t := linkSrcFunc E)
    (Q := fun r w' => LinkSource E w' p e r ∧ ∀ t, w.rdh = some t → Unflushed t w w')
    Lost false BlockRef.nil h hspecial hpe fun w₁ d o hdown hd hdir hk => ?_
  refine wp_mono (wp_linksrc hdown.inv (hdown.calm.reg _ hX) hd hdir hk) ?_ fun _ _ hF => hF
  rintro r w₂ ⟨h₂, hc₂, hls, hu⟩
  refine ⟨h₂, hc₂, hls, fun t ht => ?_⟩
  exact (Unflushed.of_fil (hdown.fil t (h.nodes.top t ht).held.lt)).trans (hu t (hdown.calm.toSim.rdh.trans ht))

end source

/-! ### The target -/

/-- The source of a move, in the directory `d₁` at `p₁`, and the name that it gets. -/
structure Ends where
  p₁ : List Str
  d₁ : ℕ
  e₁ : Str
  f : ℕ
  r : BlockRef
  p₂ : List Str
  e₂ : Str

/-- The old path. -/
def Ends.old (x : Ends) : List Str := x.p₁ ++ [x.e₁]

/-- The new path. -/
def Ends.new (x : Ends) : List Str := x.p₂ ++ [x.e₂]

/-- The new name, which is masked, in the directory `d`. -/
def Ends.mask (x : Ends) (d : ℕ) : Option (Loc × Str) := some (.mem d, x.e₂)

/-- None of the paths leads to or through the other. -/
structure Ends.Apart (x : Ends) : Prop where
  old : ¬ x.old <+: x.new
  new : ¬ x.new <+: x.old

/-- The source has a reference, and the new name is one of the directory `d`. -/
structure Moving (E : Env) (M : Option (Loc × Str)) (x : Ends) (d : ℕ) (w : World) : Prop where
  src : (w.graph E M none).find .top x.p₁ = some (.mem x.d₁)
  node : (w.graph E M none).find .top x.old = some (.mem x.f)
  dst : (w.graph E M none).find .top x.p₂ = some (.mem d)
  entry : w.entryRef E (.mem x.d₁) x.e₁ = x.r
  ref : (w.fil x.f).ref = x.r

section target

variable {x : Ends} {d : ℕ} {M : Option (Loc × Str)}

/-- The source stays where it is. -/
theorem Source.down {f : ℕ} {e : Str} {r : BlockRef} (hs : Source w d e f r) (hd : d < w.nfil) (hf : f < w.nfil)
    (hdown : Down E L M w w') : Source w' d e f r where
  isDir := by rw [hdown.fil d hd]; exact hs.isDir
  dirty := by rw [hdown.fil d hd]; exact hs.dirty
  entry := by rw [hdown.fil d hd]; exact hs.entry
  ref := by rw [hdown.fil f hf]; exact hs.ref
  cached := hdown.calm.keep r f hs.cached

theorem Source.moving (hs : Source w x.d₁ x.e₁ x.f x.r)
    (hsrc : (w.graph E none none).find .top x.p₁ = some (.mem x.d₁))
    (hdst : (w.graph E none none).find .top x.p₂ = some (.mem d)) : Moving E none x d w where
  src := hsrc
  node := by
    rw [Ends.old, LGraph.find_snoc_of hsrc]
    exact (step_none _ _).trans hs.kid
  dst := hdst
  entry := hs.entryRef
  ref := hs.ref

theorem Still.entryRef (hs : Still w w') (hl : Later w w') (hd : d < w.nfil) (e : Str) :
    w'.entryRef E (.mem d) e = w.entryRef E (.mem d) e := by
  simp only [World.entryRef, World.dirOf, hl.cls d hd, hs.dir d hd]

theorem Moving.sim (hp : Moving E M x d w) (h : TInv E L M none w) (hs : Sim E M none w w') (hst : Still w w') :
    Moving E M x d w' where
  src := hs.find_mem hp.src
  node := hs.find_mem hp.node
  dst := hs.find_mem hp.dst
  entry := (hst.entryRef hs.later (h.live_valid ⟨.top, _, hp.src⟩).lt _).trans hp.entry
  ref := (hst.ref x.f (h.live_valid ⟨.top, _, hp.node⟩).lt).trans hp.ref

/-- In one directory, the two names differ. -/
theorem Moving.ne_name (hp : Moving E M x d w) (ha : x.Apart) (h : TInv E L M none w) :
    Loc.mem x.d₁ = .mem d → x.e₁ ≠ x.e₂ := by
  rintro hd he
  have hsrc := hp.src
  rw [hd] at hsrc
  have hpp := (h.find_mem_inj hsrc hp.dst).2
  exact ha.old (by rw [Ends.old, Ends.new, hpp, he])

theorem Moving.ne_dst (hp : Moving E M x d w) (ha : x.Apart) (h : TInv E L M none w) : x.f ≠ d := by
  intro hf
  have hnode := hp.node
  rw [hf] at hnode
  have hpp := (h.find_mem_inj hnode hp.dst).2
  exact ha.old (by rw [hpp]; exact List.prefix_append _ _)

theorem Moving.ne_src (hp : Moving E M x d w) (h : TInv E L M none w) : x.f ≠ x.d₁ := by
  intro hf
  have hnode := hp.node
  rw [hf] at hnode
  have := congrArg List.length (h.find_mem_inj hnode hp.src).2
  simp [Ends.old] at this

theorem Unlinked.fil {d g : ℕ} {e : Str} {r : BlockRef} (hu : Unlinked d e r g w w') :
    w'.fil = (w.unlinked d e).fil := by
  rcases hu with rfl | ⟨-, rfl⟩ <;> rfl

/-- The other nodes stay in the clean cache. -/
theorem Unlinked.cached {d f g : ℕ} {e : Str} {r r' : BlockRef} (hu : Unlinked d e r g w w') (hfg : f ≠ g)
    (hr : w.cache.nodemap r' = some (.fil f)) : w'.cache.nodemap r' = some (.fil f) := by
  rcases hu with rfl | ⟨hg, rfl⟩
  · exact hr
  · have hne : r' ≠ r := by
      rintro rfl
      rw [hg] at hr
      exact hfg (by simpa using hr.symm)
    have hmap : ((w.unlinked d e).cache.removed r (.fil g)).nodemap r' = w.cache.nodemap r' :=
      Function.update_of_ne hne ..
    exact hmap.trans hr

theorem Unlinked.entryRef {d g : ℕ} {e n : Str} {r : BlockRef} {y : Loc} (hu : Unlinked d e r g w w')
    (hdir : (w.fil d).cls.isDir = true) (hin : e ∈ (w.fil d).dir.map Prod.fst)
    (hnd : ((w.fil d).dir.map Prod.fst).Nodup) (hn : y = .mem d → n ≠ e) :
    w'.entryRef E y n = w.entryRef E y n := by
  have ho := unlinked_onlyName (E := E) hdir hin hnd
  rcases hu with rfl | ⟨-, rfl⟩
  · exact ho.entryRef hn
  · rw [entryRef_setCache, ho.entryRef hn]

variable (E L) in
/-- The new name has been taken away, if it was in use. -/
structure Cleared (x : Ends) (d : ℕ) (w w' : World) : Prop where
  inv : TInv E L none none w'
  reg : Reg E none none {d} w'
  later : Later w w'
  moving : Moving E none x d w'
  cached : w'.cache.nodemap x.r = some (.fil x.f)
  isDir : (w'.fil d).cls.isDir = true
  kid : w'.kid E (.mem d) x.e₂ = none
  kept : ∀ q, q <+: x.p₂ → (w'.graph E none none).find .top q = (w.graph E none none).find .top q
  view : w'.view E = pruned (w.view E) x.new

/-- Nothing is below a name that is not in use. -/
theorem view_pruned {p : List Str} {e : Str} (hd : (w.graph E none none).find .top p = some (.mem d))
    (hk : w.kid E (.mem d) e = none) : pruned (w.view E) (p ++ [e]) = w.view E := by
  funext q
  rw [pruned]
  split
  case isFalse => rfl
  case isTrue hq =>
    obtain ⟨s, rfl⟩ := hq
    have hnone : (w.graph E none none).find .top (p ++ [e]) = none := by
      rw [LGraph.find_snoc_of hd]
      exact (step_none _ e).trans hk
    rw [World.view, LGraph.find_append, LGraph.find, ← LGraph.find, hnone]
    rfl

theorem Moving.cleared_none (hp : Moving E none x d w) (h : TInv E L none none w) (hX : Reg E none none ∅ w)
    (hr : w.cache.nodemap x.r = some (.fil x.f)) (hdir : (w.fil d).cls.isDir = true)
    (hk : w.kid E (.mem d) x.e₂ = none) : Cleared E L x d w w where
  inv := h
  reg := fun y hy e f hs => (hX y hy e f hs).imp_left False.elim
  later := .refl w
  moving := hp
  cached := hr
  isDir := hdir
  kid := hk
  kept _ _ := rfl
  view := (view_pruned hp.dst hk).symm

/-- **What had the new name is let go.** -/
theorem wp_clear (hp : Moving E none x d w) (ha : x.Apart) (hL : ¬ L.links) (h : TInv E L none none w)
    (hX : Reg E none none ∅ w) (hr : w.cache.nodemap x.r = some (.fil x.f)) {g : ℕ}
    (hk : w.kid E (.mem d) x.e₂ = some (.mem g)) :
    wp (removeEntry d x.e₂) (fun _ w' => Cleared E L x d w w') (fun _ _ => False) w := by
  have hs : w.step E none (.mem d) x.e₂ = some (.mem g) := (step_none _ _).trans hk
  have hlt := (h.live_valid ⟨.top, _, hp.dst⟩).lt
  have hdir := isDir_of_kid hk
  have hin := h.nodes.mem_of_kid hlt hk
  have hnd := (h.nodes.node d hlt).names
  have hnew : (w.graph E none none).find .top x.new = some (.mem g) := find_step hp.dst hs
  have hfg : x.f ≠ g := by
    intro hfg
    have hnode := hp.node
    rw [hfg] at hnode
    exact ha.old (by rw [(h.find_mem_inj hnode hnew).2])
  refine wp_mono (wp_removeEntry h ⟨.top, _, hp.dst⟩ hs) ?_ fun _ _ hF => hF
  rintro - w' hu
  obtain ⟨ht, hcut, hreg⟩ := hu.drop h hL hp.dst hs rfl (X := ∅)
  have hreg' := hreg hX
  rw [insert_empty_eq] at hreg'
  have hfind : ∀ q, ¬ x.new <+: q →
      (w'.graph E none none).find .top q = (w.graph E none none).find .top q :=
    fun q hq => hcut.other .top q (by simp) fun hc => hq hc.2
  have hshort : ∀ q, q <+: x.p₂ → ¬ x.new <+: q := by
    intro q hq hc
    have := (hc.trans hq).length_le
    simp [Ends.new] at this
  refine ⟨ht, hreg', hu.later, ⟨?_, ?_, ?_, ?_, ?_⟩, hu.cached hfg hr, ?_, hu.kid_none hdir hin hnd,
    fun q hq => hfind q (hshort q hq), hu.view hcut⟩
  · rw [hfind _ fun hc => ha.new (hc.trans (List.prefix_append _ _))]
    exact hp.src
  · rw [hfind _ ha.new]
    exact hp.node
  · rw [hfind _ (hshort _ (List.prefix_refl _))]
    exact hp.dst
  · rw [hu.entryRef hdir hin hnd (hp.ne_name ha h)]
    exact hp.entry
  · rw [hu.fil, unlinked_onlyFil.other _ (hp.ne_dst ha h)]
    exact hp.ref
  · rw [hu.later.cls d hlt]
    exact hdir

/-- The new name has an entry with the reference of the source, and is masked. -/
structure Arrived (E : Env) (n : List Str → Option NodeView) (x : Ends) (d : ℕ) (w : World) : Prop
    extends Moving E (x.mask d) x d w where
  isDir : (w.fil d).cls.isDir = true
  sees : w.sees E (x.mask d) = pruned n x.new
  target : w.entryRef E (.mem d) x.e₂ = x.r

theorem Arrived.sim {n : List Str → Option NodeView} (hl : Arrived E n x d w) (h : TInv E L (x.mask d) none w)
    (hs : Sim E (x.mask d) none w w') : Arrived E n x d w' where
  toMoving := hl.toMoving.sim h hs (hs.still (by simp [Ends.mask]))
  isDir := by rw [hs.later.cls d (h.live_valid ⟨.top, _, hl.dst⟩).lt]; exact hl.isDir
  sees := hs.sees.trans hl.sees
  target := ((hs.still (by simp [Ends.mask])).entryRef hs.later (h.live_valid ⟨.top, _, hl.dst⟩).lt _).trans hl.target

/-- **The new name gets an entry.** -/
theorem Cleared.arrived {w₂ : World} (hc : Cleared E L x d w w₂) (ha : x.Apart) (hL : ¬ L.links) :
    Back E L none (x.mask d) x.p₂ d w (w₂.named d x.e₂ x.r none fun i => i) ∧
      Resolved E d x.e₂ (w₂.named d x.e₂ x.r none fun i => i) ∧
      Arrived E (w.view E) x d (w₂.named d x.e₂ x.r none fun i => i) ∧
      (w₂.named d x.e₂ x.r none fun i => i).kid E (.mem d) x.e₂ = some (.mem x.f) := by
  have hp := hc.moving
  have hne : x.r ≠ .nil := hc.inv.nodes.ne_nil_of_cached hc.cached
  have hlt := (hc.inv.live_valid ⟨.top, _, hp.dst⟩).lt
  have hsrc : (w₂.graph E none none).Live (.mem x.d₁) := ⟨.top, _, hp.src⟩
  have ho := named_onlyName (E := E) (r := x.r) (o := none) (g := fun i => i) (fun _ => rfl) hc.isDir hc.kid
  have hst : Stored w₂.log x.r .inode := by
    have hent := hc.inv.nodes.entryRef_stored (hc.inv.live_valid hsrc) (e := x.e₁)
    rw [hp.entry] at hent
    exact hent hne
  obtain ⟨ht, hfind, hreg⟩ := hc.inv.entered (X := {d}) hlt hc.kid ho
    ((hc.inv.nodes.node d hlt).named (fun _ => rfl) hc.isDir hc.kid hL (fun f hf => by simp at hf)
      (fun _ => hst) fun hr => absurd hr hne)
  change ∀ i p, (World.graph E _ (x.mask d) none).find i p = _ at hfind
  have hreg' := hreg hc.reg
  rw [Set.insert_eq_of_mem (Set.mem_singleton d)] at hreg'
  have hdir : ((w₂.named d x.e₂ x.r none fun i => i).fil d).cls.isDir = true := by rw [named_self]; exact hc.isDir
  have hk := named_kid (r := x.r) (o := none) (g := fun i => i) hc.isDir hc.kid
  rw [Option.map_none, Option.getD_none, locAt_eq_mem.2 hc.cached] at hk
  have hout : (w₂.named d x.e₂ x.r none fun i => i).out E = w₂.out E := by
    funext y
    by_cases hy : y = .mem d
    · subst hy
      have hb : fileBytes E (w₂.named d x.e₂ x.r none fun i => i) d = fileBytes E w₂ d :=
        funext (ho.only.fileBytes d)
      simp only [World.out, hb, named_self]
    · exact ho.only.out hy
  refine ⟨⟨ht, fun q hq g hg => ?_, hreg', hc.later.trans ho.only.later⟩, ⟨some x.f, hk, fun f hf r _ _ => ?_⟩,
    ⟨⟨?_, ?_, ?_, ?_, ?_⟩, hdir, ?_, ?_⟩, hk⟩
  · rw [hfind, hc.kept q hq]
    exact hg
  · obtain rfl := Option.some.inj hf
    -- The clean cache has the source under its reference.
    have hstep : w₂.step E none (.mem x.d₁) x.e₁ = some (.mem x.f) := by
      have hnode := hp.node
      rw [Ends.old, LGraph.find_snoc_of hp.src] at hnode
      exact hnode
    have hown := hc.inv.own _ hsrc x.e₁ _ hstep
    rw [hp.entry] at hown
    rw [LposOk, ho.only.cache]
    exact (hown x.r x.f (.entry hne) hc.cached).2
  · rw [hfind]
    exact hp.src
  · rw [hfind]
    exact hp.node
  · rw [hfind]
    exact hp.dst
  · rw [ho.entryRef (hp.ne_name ha hc.inv)]
    exact hp.entry
  · rw [ho.only.other _ (hp.ne_dst ha hc.inv)]
    exact hp.ref
  · rw [← hc.view]
    funext q
    rw [World.sees, hfind, hout]
    rfl
  · rw [entryRef_mem hdir, named_self, lookup_dirSet, if_pos rfl, Option.getD_some]

end target

/-! ### The second traversal -/

section link

variable {x : Ends} {d : ℕ} {e : Str} {r : BlockRef} {p : List Str} {Lost : Exn → Prop} {P : Errno → Prop}
  {entry : Str} {rest : List Str}

/-- **`DirNode::linkdst`** with `force`: what has the name is removed, and the name gets an entry. -/
theorem wp_linkdst {K : World → World → Prop} (h : TInv E L none none w)
    (hd : (w.graph E none none).find .top p = some (.mem d)) (hdir : (w.fil d).cls.isDir = true)
    (hkid : ∀ w₁ w₂, K w₁ w₂ → (w₂.fil d).cls.isDir = true ∧ w₂.kid E (.mem d) e = none)
    (hfree : ∀ w₁, Down E L none w w₁ → w₁.kid E (.mem d) e = none → K w₁ w₁)
    (hused : ∀ w₁ g, Down E L none w w₁ → w₁.kid E (.mem d) e = some (.mem g) →
      wp (removeEntry d e) (fun _ w₂ => K w₁ w₂) (fun _ _ => False) w₁) :
    wp (linkdst E d e r true)
      (fun _ w' => ∃ w₁ w₂, Down E L none w w₁ ∧ K w₁ w₂ ∧ w' = w₂.named d e r none fun i => i)
      (Fails E L none Lost P w) w := by
  rw [linkdst]
  refine wp_seq (wp_lookup h ⟨.top, p, hd⟩ hdir (by simp) false) ?_ fun _ _ hF => hF.fails h
  rintro o w₁ ⟨h₁, hc, hk, hfil⟩
  have hdown : Down E L none w w₁ := ⟨h₁, hc, hfil⟩
  -- The name is in neither collection, so the new entry is the last.
  have htail : ∀ w₂, K w₁ w₂ → wp (do
      modifyDir d fun dir => dir ++ [(e, r)]
      setFilDirty d true
      return (0 : ℤ))
      (fun _ w' => ∃ w₁ w₂, Down E L none w w₁ ∧ K w₁ w₂ ∧ w' = w₂.named d e r none fun i => i)
      (Fails E L none Lost P w) w₂ := by
    intro w₂ hK
    obtain ⟨hdir₂, hk₂⟩ := hkid w₁ w₂ hK
    have hset := dirSet_of_notMem r (lookup_eq_none_iff_notMem.1 (kid_none hdir₂ hk₂).2)
    simp only [modifyDir, setFilDirty, wp_bind, wp_modify, setFil_self, setFil_setFil]
    exact ⟨w₁, w₂, hdown, hK, by rw [World.named, hset]; rfl⟩
  cases o with
  | none => exact htail w₁ (hfree w₁ hdown hk)
  | some g =>
      refine wp_seq (hused w₁ g hdown hk) ?_ fun _ _ hF => hF.elim
      exact fun _ w₂ hK => htail w₂ hK

/-- The exception of a lookup of an entry without a reference. -/
def NotFound (ex : Exn) : Prop := ∃ t, ex = .notFoundError t

/-- The node of an entry without a reference cannot be loaded. -/
theorem wp_lookup_nil (h : TInv E L none none w) (hdir : (w.fil d).cls.isDir = true)
    (hk : w.kid E (.mem d) e = none) :
    wp (lookup E d e false) (fun _ _ => False) (fun ex _ => NotFound ex)
      (w.named d e .nil none fun i => i) := by
  have hno : w.cache.nodemap .nil = none := h.nodes.uncached h.nodes.norm_nil fun hne => absurd rfl hne
  have hdirty := named_lookup (r := .nil) (o := none) (g := fun i => i) hdir hk e
  simp only [Option.isSome_none, Bool.false_eq_true, and_false, if_false, (kid_none hdir hk).1] at hdirty
  have hdirL : ((w.named d e .nil none fun i => i).fil d).dir.lookup e = some .nil := by
    rw [named_self, lookup_dirSet, if_pos rfl]
  have hcache : (w.named d e .nil none fun i => i).cache = w.cache := rfl
  have hload := loadNode_nil_run (E := E) (w := w.named d e .nil none fun i => i) h.nodes.blk.disk.nilFree
  simp only [lookup, wp_bind, wp_get, hdirty, hdirL, cacheLookup, hcache, hno, Bool.false_eq_true, if_false, wp_pure]
  rw [wp, hload]
  exact ⟨_, rfl⟩

/-- **A source that is not there** makes the update of the directory fail. -/
theorem wp_linkNil (h : TInv E L none none w) (hL : ¬ L.links) (hspecial : entry ≠ specialDir) :
    wp (rootTraverse E ntParentUpdate (linkDstFunc E .nil true) rest entry none) (fun _ _ => False)
      (Fails E L none NotFound (RootErrs (w.view E) entry rest fun _ => False) w) w := by
  obtain ⟨p, e, hpe⟩ := (List.eq_nil_or_concat (entry :: rest)).resolve_left (List.cons_ne_nil _ _)
  rw [List.concat_eq_append] at hpe
  have hroot := wp_rootParent (fun d entry => linkdst E d entry .nil true) NotFound (fun _ => False) none
    (Q := fun _ _ => False) (fun _ _ _ _ _ hq => hq) none h hspecial (clear_none _) hpe
    fun w₁ d o hdown hd hdir _ => by
      refine wp_mono (wp_linkdst (K := fun _ w₂ => TInv E L none none w₂ ∧ (w₂.fil d).cls.isDir = true ∧
        w₂.kid E (.mem d) e = none) hdown.inv hd hdir (fun _ _ hK => hK.2) ?_ ?_) ?_ fun _ _ hF => hF
      · intro w₂ hdown₂ hk
        refine ⟨hdown₂.inv, ?_, hk⟩
        rw [hdown₂.fil d (hdown.inv.live_valid ⟨.top, _, hd⟩).lt]
        exact hdir
      · intro w₂ g hdown₂ hk
        have hd₂ := hdown₂.calm.find_mem hd
        have hs : w₂.step E none (.mem d) e = some (.mem g) := (step_none _ _).trans hk
        have hlt := (hdown₂.inv.live_valid ⟨.top, _, hd₂⟩).lt
        refine wp_mono (wp_removeEntry hdown₂.inv ⟨.top, _, hd₂⟩ hs) ?_ fun _ _ hF => hF
        rintro - w₃ hu
        refine ⟨(hu.drop hdown₂.inv hL hd₂ hs rfl (X := ∅)).1, by rw [hu.later.cls d hlt]; exact isDir_of_kid hk, ?_⟩
        exact hu.kid_none (isDir_of_kid hk) (hdown₂.inv.nodes.mem_of_kid hlt hk) (hdown₂.inv.nodes.node d hlt).names
      · rintro - w₃ ⟨-, w₂, -, ⟨h₂, hdir₂, hk₂⟩, rfl⟩
        exact .inr (wp_lookup_nil h₂ hdir₂ hk₂)
  exact wp_mono hroot (fun _ _ hr => hr.2.2.2) fun _ _ hF => hF

/-- **The new name gets the source**, and its directory is updated. -/
theorem wp_lastLink (h : TInv E L none none w) (hX : Reg E none none ∅ w) (hL : ¬ L.links) (ha : x.Apart)
    (hs : Source w x.d₁ x.e₁ x.f x.r) (hsrc : (w.graph E none none).find .top x.p₁ = some (.mem x.d₁))
    (hd : (w.graph E none none).find .top x.p₂ = some (.mem d)) (hdir : (w.fil d).cls.isDir = true) (v : Option ℤ) :
    wp (nodeTraverse E ntParentUpdate (linkDstFunc E x.r true) [] d x.e₂ v)
      (fun _ w' => Back E L none (x.mask d) x.p₂ d w w' ∧ (w'.fil d).isdirty = true ∧
        Arrived E (w.view E) x d w' ∧ (w'.fil d).dirty.lookup x.e₂ = some x.f)
      (Fails E L none Lost P w) w := by
  have hlt := (h.live_valid ⟨.top, _, hd⟩).lt
  have hlt₁ := (h.live_valid ⟨.top, _, hsrc⟩).lt
  have hltf := (h.live_valid ⟨.top, _, (hs.moving hsrc hd).node⟩).lt
  rw [nodeTraverse]
  refine wp_seq (wp_lookup h ⟨.top, _, hd⟩ hdir (by simp) _) ?_ fun _ _ hF => hF.fails h
  rintro o w₁ ⟨h₁, hc, -, hfil⟩
  have hdown : Down E L none w w₁ := ⟨h₁, hc, hfil⟩
  have hd₁ := hc.find_mem hd
  have hdir₁ : (w₁.fil d).cls.isDir = true := by rw [hfil d hlt]; exact hdir
  have hmoving : ∀ {w₂}, Down E L none w₁ w₂ →
      Moving E none x d w₂ ∧ Reg E none none ∅ w₂ ∧ w₂.cache.nodemap x.r = some (.fil x.f) := by
    intro w₂ hdown₂
    have hs₂ := hs.down hlt₁ hltf (hdown.trans hdown₂)
    exact ⟨hs₂.moving ((hdown.trans hdown₂).calm.find_mem hsrc) ((hdown.trans hdown₂).calm.find_mem hd),
      (hdown.trans hdown₂).calm.reg _ hX, hs₂.cached⟩
  simp only [ntParentUpdate, linkDstFunc, parentFunc, if_true, bind_assoc, pure_bind]
  refine wp_seq (wp_linkdst (K := fun w₁ w₂ => Cleared E L x d w₁ w₂) h₁ hd₁ hdir₁ (fun _ _ hK => ⟨hK.isDir, hK.kid⟩)
    ?_ ?_) ?_ fun _ _ hF => hF.down hdown fun _ hen => hen
  · intro w₂ hdown₂ hk
    obtain ⟨hp, hX₂, hr⟩ := hmoving hdown₂
    refine hp.cleared_none hdown₂.inv hX₂ hr ?_ hk
    rw [hdown₂.fil d (h₁.live_valid ⟨.top, _, hd₁⟩).lt]
    exact hdir₁
  · intro w₂ g hdown₂ hk
    obtain ⟨hp, hX₂, hr⟩ := hmoving hdown₂
    exact wp_clear hp ha hL hdown₂.inv hX₂ hr hk
  rintro rv w₄ ⟨w₂, w₃, hdown₂, hK, rfl⟩
  obtain ⟨hb, hkn, hl, hk⟩ := hK.arrived ha hL
  have hdone : Acted E L none (x.mask d) (fun _ => False) x.p₂ d x.e₂ (fun w₅ => Arrived E (w₂.view E) x d w₅) w₁
      (w₃.named d x.e₂ x.r none fun i => i) := .inl ⟨hb.after hdown₂.calm.toSim, hkn, hl⟩
  have hupd := Acted.update rv (Q := fun _ w₅ => Arrived E (w₂.view E) x d w₅) hdone
    (fun _ _ _ h₅ hs₅ hq => hq.sim h₅ hs₅) h₁ hd₁ hdir₁
  rw [← bind_assoc]
  refine wp_seq hupd ?_ fun _ _ hF => hF.elim
  rintro - w₅ ⟨hb₅, hmark, hl₅, hdy⟩
  rw [funext hdown₂.calm.toSim.view, funext hc.toSim.view] at hl₅
  exact ⟨hb₅.after hc.toSim, hmark, hl₅, hdy _ hk⟩

/-- **The second traversal.** -/
theorem wp_linkTarget (h : TInv E L none none w) (hX : Reg E none none ∅ w) (hL : ¬ L.links) (ha : x.Apart)
    (hs : Source w x.d₁ x.e₁ x.f x.r) (hsrc : (w.graph E none none).find .top x.p₁ = some (.mem x.d₁))
    (hspecial : entry ≠ specialDir) (hpe : entry :: rest = x.new) :
    wp (rootTraverse E ntParentUpdate (linkDstFunc E x.r true) rest entry none)
      (fun _ w' => entry ≠ [] ∧ blocked (w.view E) [] (entry :: rest) = none ∧ ∃ d, Changed E L (x.mask d) w w' ∧
        Arrived E (w.view E) x d w' ∧ (w'.fil d).dirty.lookup x.e₂ = some x.f)
      (Fails E L none NotFound (RootErrs (w.view E) entry rest fun _ => False) w) w := by
  have hdrop : (entry :: rest).dropLast = x.p₂ := by rw [hpe, Ends.new, List.dropLast_concat]
  have hlast : (entry :: rest).getLast (List.cons_ne_nil _ _) = x.e₂ := by simp [hpe, Ends.new]
  have hltf := (h.live_valid ⟨.top, _, find_step hsrc ((step_none _ _).trans hs.kid)⟩).lt
  refine wp_rootPath rfl h hspecial fun dt hr => ?_
  refine wp_mono (wp_nodeTraverse_update (Q := fun M _ w' => ∃ d, M = x.mask d ∧ Arrived E (w.view E) x d w' ∧
    (w'.fil d).dirty.lookup x.e₂ = some x.f) NotFound (fun _ => False) rfl ?_ none rest [] dt entry w h
    (find_top.2 hr) (h.nodes.top dt hr).isDir (clear_none _) ?_) ?_ fun _ _ hF => hF
  · rintro M - w₂ w₃ h₂ hsim ⟨d, rfl, hl, hdy⟩
    exact ⟨d, rfl, hl.sim h₂ hsim,
      (hsim.still (by simp [Ends.mask])).dirty d (h₂.live_valid ⟨.top, _, hl.dst⟩).lt _ _ hdy⟩
  · intro w₁ d hdown hd hdir
    rw [List.nil_append, hdrop] at hd ⊢
    rw [hlast]
    have hs₁ := hs.down (h.live_valid ⟨.top, _, hsrc⟩).lt hltf hdown
    refine wp_mono (wp_lastLink hdown.inv (hdown.calm.reg _ hX) hL ha hs₁ (hdown.calm.find_mem hsrc) hd hdir none) ?_
      fun _ _ hF => hF
    rintro r w₂ ⟨hb, hmark, hl, hdy⟩
    rw [funext hdown.calm.toSim.view] at hl
    exact ⟨x.mask d, hb, hmark, d, rfl, hl, hdy⟩
  · rintro - w' ⟨hb, M, hback, hmark, d, rfl, hl, hdy⟩
    exact ⟨hb, d, hback.changed hr (.inl hmark), hl, hdy⟩

end link

/-! ### The third traversal -/

section unlink

variable {x : Ends} {d : ℕ} {n : List Str → Option NodeView} {entry : Str} {rest : List Str}

/-- Nothing of what had the new name is below the old one. -/
theorem Ends.Apart.moved_pruned (ha : x.Apart) (n : List Str → Option NodeView) :
    moved (pruned n x.new) x.old x.new = moved n x.old x.new := by
  funext q
  rw [moved, moved]
  split
  case isTrue hq =>
    rw [pruned, if_neg]
    intro hc
    rcases List.prefix_or_prefix_of_prefix hc (List.prefix_append x.old _) with hp | hp
    · exact ha.new hp
    · exact ha.old hp
  case isFalse hq => rw [pruned, if_neg hq]

/-- **The source has left its old name**, and the new one is unmasked. -/
theorem Arrived.unlinked (hl : Arrived E n x d w) (ha : x.Apart) (hL : ¬ L.links) (h : TInv E L (x.mask d) none w)
    (hX : Reg E (x.mask d) none ∅ w) (hdy : (w.fil d).dirty.lookup x.e₂ = some x.f)
    (hu : Unlinked x.d₁ x.e₁ x.r x.f w w') :
    Back E L (x.mask d) none x.p₁ x.d₁ w w' ∧ Resolved E x.d₁ x.e₁ w' ∧ w'.view E = moved n x.old x.new := by
  have hs : w.step E (x.mask d) (.mem x.d₁) x.e₁ = some (.mem x.f) := by
    have hnode := hl.node
    rw [Ends.old, LGraph.find_snoc_of hl.src] at hnode
    exact hnode
  have hk := kid_of_step hs
  have hdir := isDir_of_kid hk
  have hlt := (h.live_valid ⟨.top, _, hl.src⟩).lt
  have hltd := (h.live_valid ⟨.top, _, hl.dst⟩).lt
  have hin := h.nodes.mem_of_kid hlt hk
  have hnd := (h.nodes.node x.d₁ hlt).names
  have hne : Loc.mem d = .mem x.d₁ → x.e₂ ≠ x.e₁ := fun hc he => hl.ne_name ha h hc.symm he.symm
  have hdird' : (w'.fil d).cls.isDir = true := by rw [hu.later.cls d hltd]; exact hl.isDir
  -- The new directory has the source as one of its dirty nodes.
  have hdy' : (w'.fil d).dirty.lookup x.e₂ = some x.f := by
    rw [hu.fil]
    by_cases hdd : d = x.d₁
    · subst hdd
      rw [unlinked_self]
      dsimp only
      rw [lookup_dirtyErase, if_neg (hne rfl)]
      exact hdy
    · rw [unlinked_onlyFil.other d hdd]
      exact hdy
  have hk' : w'.kid E (.mem d) x.e₂ = some (.mem x.f) := by rw [kid_mem hdird', hdy']
  obtain ⟨ht, ⟨hcut, hhand⟩, hreg⟩ := hu.hand h hL hl.src hs hl.entry hl.ref (hl.ne_src h) (X := ∅)
  have hdst : (w'.graph E (x.mask d) (some (.mem x.f, x.r))).find .top x.p₂ = some (.mem d) := by
    rw [hcut.other .top _ (by simp) fun hc => ha.old (hc.2.trans (List.prefix_append _ _))]
    exact hl.dst
  have hent : w'.entryRef E (.mem d) x.e₂ = x.r := by
    rw [hu.entryRef hdir hin hnd hne]
    exact hl.target
  obtain ⟨ht', hatt, hreg'⟩ := ht.attached hdst hk' hent (X := {x.d₁})
  change LGraph.AttachedAt (w'.graph E (x.mask d) _) _ _ _ _ at hatt
  have huniq : ∀ i q, (w'.graph E (x.mask d) (some (.mem x.f, x.r))).find i q = some (.mem d) → i = .top ∧ q = x.p₂ :=
    fun i q hq => ht.find_mem_inj hq hdst
  have hother : ∀ q, ¬ x.new <+: q → ¬ x.old <+: q →
      (w'.graph E none none).find .top q = (w.graph E (x.mask d) none).find .top q := by
    intro q hq hq'
    rw [hatt.find_eq huniq .top q (by simp) fun hc => hq hc.2, hcut.other .top q (by simp) fun hc => hq' hc.2]
  refine ⟨⟨ht', fun q hq g hg => ?_, ?_, hu.later⟩, ⟨none, hu.kid_none hdir hin hnd, fun f hf => by simp at hf⟩, ?_⟩
  · rw [hother q (fun hc => ha.new (hc.trans (hq.trans (List.prefix_append _ _)))) fun hc => ?_]
    · exact hg
    · have := (hc.trans hq).length_le
      simp [Ends.old] at this
  · have hr := hreg hX
    rw [insert_empty_eq] at hr
    refine hreg' hr fun g hg => .inr (.inl ?_)
    obtain rfl := Loc.mem.inj hg
    simp only [World.dirtyOf, hdird', if_true, hdy']
  · rw [← ha.moved_pruned, ← hl.sees]
    funext q
    rw [moved]
    split
    case isTrue hq =>
      obtain ⟨s, rfl⟩ := hq
      rw [List.drop_left, World.view, World.sees, Ends.new, List.append_assoc, List.singleton_append,
        hatt.find_below hdst huniq (by simp), hhand, Ends.old, List.append_assoc, List.singleton_append]
      exact congrArg _ (funext hu.out)
    case isFalse hq =>
      split
      case isTrue hq' =>
        obtain ⟨s, rfl⟩ := hq'
        rw [World.view, hatt.find_eq huniq .top _ (by simp) fun hc => hq hc.2, Ends.old, List.append_assoc,
          List.singleton_append, hcut.below]
        rfl
      case isFalse hq' =>
        rw [World.view, hother q hq hq', World.sees]
        exact congrArg _ (funext hu.out)

/-- The way to the old name is free of the new one. -/
theorem Ends.Apart.blocked_pruned (ha : x.Apart) (n : List Str → Option NodeView) :
    blocked (pruned n x.new) [] x.old = blocked n [] x.old := by
  refine blocked_congr _ _ fun q hq => ?_
  rw [List.nil_append] at hq
  rw [pruned, if_neg fun hc => ha.new (hc.trans (hq.trans (List.dropLast_prefix _)))]

/-- **The third traversal.** -/
theorem wp_unlinkSource (h : TInv E L (x.mask d) none w) (hX : Reg E (x.mask d) none ∅ w) (hL : ¬ L.links)
    (ha : x.Apart) (hl : Arrived E n x d w) (hdy : (w.fil d).dirty.lookup x.e₂ = some x.f)
    (hblocked : blocked n [] x.old = none) (hspecial : entry ≠ specialDir) (hentry : entry ≠ [])
    (hpe : entry :: rest = x.old) :
    wp (rootTraverse E ntParentUpdate (parentFunc fun d entry => unlink E d entry true) rest entry none)
      (fun r w' => r = some 0 ∧ Changed E L none w w' ∧ w'.view E = moved n x.old x.new)
      (fun ex _ => ∀ en, ex ≠ .errno en) w := by
  have hclear : Clear E (x.mask d) w (entry :: rest) := by
    intro d' e' hM
    obtain ⟨hd, rfl⟩ := Prod.mk.inj (Option.some.inj hM)
    obtain rfl := Loc.mem.inj hd
    exact ⟨x.p₂, hl.dst, by rw [hpe]; exact ha.new⟩
  have hroot := wp_rootParent (fun d entry => unlink E d entry true) (fun _ => False) (fun _ => False) none
    (Q := fun r w' => r = some (0 : ℤ) ∧ w'.view E = moved n x.old x.new)
    (fun r w₂ w₃ _ hs hq => by rwa [funext hs.view]) none h hspecial hclear (hpe.trans rfl)
    fun w₁ d₁ o hdown hd₁ hdir₁ _ => by
      obtain rfl : d₁ = x.d₁ := Loc.mem.inj (Option.some.inj (hd₁.symm.trans (hdown.calm.find_mem hl.src)))
      have hm : x.mask d ≠ some (.mem x.d₁, x.e₁) :=
        (hclear.sim hdown.calm.toSim).ne hdown.inv hd₁ (by rw [hpe]; exact List.prefix_refl _)
      rw [unlink]
      refine wp_seq (wp_lookup hdown.inv ⟨.top, _, hd₁⟩ hdir₁ hm false) ?_ fun _ _ hF => hF.fails hdown.inv
      rintro o w₂ ⟨h₂, hc, hk, hfil⟩
      have hl₂ := (hl.sim h hdown.calm.toSim).sim hdown.inv hc.toSim
      have hs : w₂.step E (x.mask d) (.mem x.d₁) x.e₁ = some (.mem x.f) := by
        have hnode := hl₂.node
        rw [Ends.old, LGraph.find_snoc_of hl₂.src] at hnode
        exact hnode
      have hk' := kid_of_step hs
      rw [hk] at hk'
      obtain ⟨f, rfl, -⟩ := Option.map_eq_some_iff.1 hk'
      simp only [Bool.not_true, Bool.false_and, Bool.false_eq_true, if_false, wp_bind, wp_get]
      have hrem := wp_removeEntry h₂ ⟨.top, _, hl₂.src⟩ hs
      rw [hl₂.entry] at hrem
      refine wp_mono hrem ?_ fun _ _ hF => hF.elim
      rintro - w₃ hu
      have hst := (hdown.calm.toSim.still (by simp [Ends.mask])).dirty d (h.live_valid ⟨.top, _, hl.dst⟩).lt _ _ hdy
      have hdy₂ : (w₂.fil d).dirty.lookup x.e₂ = some x.f := by
        rw [hfil d (hdown.inv.live_valid ⟨.top, _, hdown.calm.find_mem hl.dst⟩).lt]
        exact hst
      obtain ⟨hb, hkn, hv⟩ := hl₂.unlinked ha hL h₂ (hc.reg _ (hdown.calm.reg _ hX)) hdy₂ hu
      exact .inl ⟨hb.after hc.toSim, hkn, rfl, hv⟩
  refine wp_mono hroot ?_ ?_
  · rintro r w' ⟨-, -, hch, rfl, hv⟩
    exact ⟨rfl, hch, hv⟩
  · rintro ex w' (hF | hF | ⟨-, -, hen⟩) en rfl
    · exact hF
    · exact hF
    · rcases hen en rfl with ⟨he, -⟩ | ⟨-, hb | ⟨-, hF⟩⟩
      · exact hentry he
      · rw [hl.sees, hpe, ha.blocked_pruned, hblocked] at hb
        simp at hb
      · exact hF

end unlink

/-! ### The operation -/

section rename

variable {opath npath oentry nentry : Str} {orest nrest : List Str}

/-- An `errno` becomes the value of an operation. -/
theorem wp_catchErrno_of {m : UTFS.M ℤ} {R : ℤ → World → Prop}
    (hm : wp m R (fun ex w' => ∀ en, ex = .errno en → R (-en.code) w') w) :
    wp (catchErrno m) R (fun ex _ => ∀ en, ex ≠ .errno en) w := by
  rw [catchErrno, wp_tryCatch]
  refine wp_mono hm (fun _ _ hR => hR) fun ex w' hF => ?_
  cases ex with
  | errno en => exact hF en rfl
  | _ => exact fun en hen => by simp at hen

/-- How a move ends: the source has its new path, or a path leads nowhere and the tree is as it was. -/
def RenameEnds (E : Env) (L : Laws) (oentry : Str) (orest : List Str) (nentry : Str) (nrest : List Str) (w : World)
    (rv : ℤ) (w' : World) : Prop :=
  (rv = 0 ∧ oentry ≠ [] ∧ nentry ≠ [] ∧ w.view E (oentry :: orest) ≠ none ∧
      blocked (w.view E) [] (oentry :: orest) = none ∧ blocked (w.view E) [] (nentry :: nrest) = none ∧
      Changed E L none w w' ∧ w'.view E = moved (w.view E) (oentry :: orest) (nentry :: nrest)) ∨
    ∃ en, (RootErrs (w.view E) oentry orest (fun _ => False) en ∨
        RootErrs (w.view E) nentry nrest (fun _ => False) en) ∧
      rv = -en.code ∧ TInv E L none none w' ∧ Calm E none none w w' ∧ ∀ t, w.rdh = some t → Unflushed t w w'

/-- **`fs_rename` moves the source**, with all that is below it; a source that is not there is an exception. -/
theorem wp_fsRename (hopath : splitPath opath = pure (oentry, orest))
    (hnpath : splitPath npath = pure (nentry, nrest)) (h : TInv E L none none w) (hX : Reg E none none ∅ w) (hN : L.nonil) (hL : ¬ L.links)
    (hospecial : oentry ≠ specialDir) (hnspecial : nentry ≠ specialDir)
    (hold : ¬ oentry :: orest <+: nentry :: nrest) (hnew : ¬ nentry :: nrest <+: oentry :: orest) :
    wp (fsRename E opath npath) (RenameEnds E L oentry orest nentry nrest w)
      (fun ex _ => ∀ en, ex ≠ .errno en) w := by
  obtain ⟨p₁, e₁, ho⟩ := (List.eq_nil_or_concat (oentry :: orest)).resolve_left (List.cons_ne_nil _ _)
  obtain ⟨p₂, e₂, hn⟩ := (List.eq_nil_or_concat (nentry :: nrest)).resolve_left (List.cons_ne_nil _ _)
  rw [List.concat_eq_append] at ho hn
  -- The tree is as it was when an `errno` leaves the first or the second traversal.
  have hfails : ∀ {Lost : Exn → Prop} {P : Errno → Prop} {w₁ ex w₂}, (∀ en, ¬ Lost (.errno en)) →
      (∀ en, P en → RootErrs (w.view E) oentry orest (fun _ => False) en ∨
        RootErrs (w.view E) nentry nrest (fun _ => False) en) → TInv E L none none w₁ → Calm E none none w w₁ →
      (∀ t, w.rdh = some t → Unflushed t w w₁) → Fails E L none Lost P w₁ ex w₂ →
      ∀ en, ex = .errno en → RenameEnds E L oentry orest nentry nrest w (-en.code) w₂ := by
    rintro Lost P w₁ ex w₂ hlost hP h₁ hc hu (hF | hF | ⟨h₂, hc₂, hen⟩) en rfl
    · exact hF.elim
    · exact absurd hF (hlost en)
    · obtain ⟨hen, hfil⟩ := hen en rfl
      refine .inr ⟨en, hP en hen, rfl, h₂, hc.trans hc₂, fun t ht => (hu t ht).trans (.of_fil (hfil t ?_))⟩
      exact (h₁.nodes.top t (hc.toSim.rdh.trans ht)).held.lt
  have hfound : ∀ en, ¬ NotFound (.errno en) := by simp [NotFound]
  rw [fsRename]
  refine wp_catchErrno_of ?_
  rw [hopath, hnpath]
  simp only [pure_bind]
  refine wp_seq (wp_linkSource (fun _ => False) h hX hospecial ho) ?_
    fun ex w₂ hF => hfails (fun _ => id) (fun en => .inl) h (.refl h) (fun _ _ => .of_fil rfl) hF
  rintro r w₁ ⟨hone, hob, h₁, hc, ⟨d₁, hd₁, ⟨f, hs⟩ | ⟨-, rfl⟩⟩, hu⟩
  swap
  · refine wp_seq (wp_linkNil h₁ hL hnspecial) (fun _ _ hF => hF.elim) fun ex w₂ hF => ?_
    rw [funext hc.toSim.view] at hF
    exact hfails hfound (fun en => .inr) h₁ hc hu hF
  have ha : Ends.Apart ⟨p₁, d₁, e₁, f, r, p₂, e₂⟩ := ⟨by rw [Ends.old, Ends.new, ← ho, ← hn]; exact hold,
    by rw [Ends.old, Ends.new, ← ho, ← hn]; exact hnew⟩
  have hX₁ := hc.reg _ hX
  refine wp_seq (wp_linkTarget (x := ⟨p₁, d₁, e₁, f, r, p₂, e₂⟩) h₁ hX₁ hL ha hs hd₁ hnspecial hn) ?_
    fun ex w₂ hF => ?_
  swap
  · rw [funext hc.toSim.view] at hF
    exact hfails hfound (fun en => .inr) h₁ hc hu hF
  rintro - w₂ ⟨hnne, hnb, d, hch, hl, hdy⟩
  rw [funext hc.toSim.view] at hl hnb
  have hob' := hob
  rw [ho] at hob'
  refine wp_seq (wp_unlinkSource hch.inv hch.reg hL ha hl hdy hob' hospecial hone ho) ?_ ?_
  swap
  · exact fun ex w₃ hF en hen => absurd hen (hF en)
  rintro r w₃ ⟨rfl, hch₃, hv⟩
  refine .inl ⟨rfl, hone, hnne, ?_, hob, hnb,
    ⟨hch₃.inv, hch₃.reg, hc.later.trans (hch.later.trans hch₃.later), hch₃.rdh.trans (hch.rdh.trans hc.rdh),
      fun t ht => ?_⟩, ?_⟩
  · have hnode := find_step hd₁ ((step_none _ _).trans hs.kid)
    have := h₁.view_isSome hN hnode
    rw [funext hc.toSim.view, ← ho] at this
    exact Option.isSome_iff_ne_none.1 this
  · have ht₁ := hc.toSim.rdh.trans ht
    exact (hu t ht).trans ((hch.root t ht₁).trans (hch₃.root t (hch.rdh.trans ht₁)))
  · rw [hv, Ends.old, Ends.new, ← ho, ← hn]

end rename

end UTFS

end Utopfs
