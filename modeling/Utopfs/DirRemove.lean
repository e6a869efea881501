/-
**Taking a name away.**

`DirNode::remove` takes the entry of a name from both collections of a directory and its reference from the
clean cache.  The node of the name is let go, with all that is below it, or it is taken in hand because it has
been given another name before.

Main definitions:

* `UTFS.World.unlinked` — a directory without a name;
* `UTFS.Unlinked` — what `remove` leaves behind.

Main results:

* `UTFS.wp_removeEntry` — `DirNode::remove`;
* `UTFS.Unlinked.hand`, `UTFS.Unlinked.drop` — **the tree without the name**;
* `UTFS.wp_fsUnlink`, `UTFS.wp_fsRmdir` — **the operations that remove a name**.
-/

import Utopfs.DirChange

set_option relaxedAutoImplicit false
set_option autoImplicit false

namespace Utopfs

namespace UTFS

open Prog

variable {E : Env} {w w' : World} {M : Option (Loc × Str)} {L : Laws} {d f : ℕ} {e : Str} {i : Rt}
  {p : List Str} {r : BlockRef} {X : Set ℕ}

/-! ### The directory without the name -/

/-- The directory `d` without the name `e`. -/
def World.unlinked (w : World) (d : ℕ) (e : Str) : World :=
  w.setFil d { w.fil d with
    dir := (dirRemove e (w.fil d).dir).2
    dirty := dirtyErase e (w.fil d).dirty
    isdirty := true }

theorem unlinked_self : (w.unlinked d e).fil d = { w.fil d with
    dir := (dirRemove e (w.fil d).dir).2
    dirty := dirtyErase e (w.fil d).dirty
    isdirty := true } := setFil_self ..

theorem unlinked_onlyFil : OnlyFil d w (w.unlinked d e) := .setFil w w.ticks rfl rfl rfl rfl rfl

section unlinked

variable (hdir : (w.fil d).cls.isDir = true) (hin : e ∈ (w.fil d).dir.map Prod.fst)
  (hnd : ((w.fil d).dir.map Prod.fst).Nodup)

include hdir hin hnd

theorem unlinked_onlyName : OnlyName E d e w (w.unlinked d e) := by
  refine ⟨unlinked_onlyFil, by rw [unlinked_self], fun n hn => ?_, fun n hn => ?_⟩
  · simp only [World.dirtyOf, unlinked_self, hdir, if_true, lookup_dirtyErase, if_neg hn]
  · simp only [World.dirOf, unlinked_self, hdir, if_true, lookup_dirRemove hin hnd, if_neg hn]

theorem unlinked_kid : (w.unlinked d e).kid E (.mem d) e = none := by
  rw [kid_mem (by rw [unlinked_self]; exact hdir), unlinked_self]
  simp only [lookup_dirtyErase, lookup_dirRemove hin hnd, if_true, Option.map_none]

end unlinked

/-- A name that leads to a node has an entry. -/
theorem NInv.mem_of_kid (h : NInv E L w) (hd : d < w.nfil) {y : Loc} (hk : w.kid E (.mem d) e = some y) :
    e ∈ (w.fil d).dir.map Prod.fst := by
  have hdir := isDir_of_kid hk
  rw [kid_mem hdir] at hk
  cases hdy : (w.fil d).dirty.lookup e with
  | some g => exact (h.node d hd).dirtyIn _ (mem_of_lookup hdy)
  | none =>
      rw [hdy] at hk
      obtain ⟨r, hr, -⟩ := Option.map_eq_some_iff.1 hk
      exact mem_names_of_lookup hr

/-- The directory is in order, but for its link count. -/
theorem NodeOk.unlinked (h : NodeOk E L w d) (hL : ¬ L.links) (hin : e ∈ (w.fil d).dir.map Prod.fst) :
    NodeOk E L (w.unlinked d e) d := by
  have hnames := names_dirRemove_nodup hin h.names
  have hl := (unlinked_onlyFil (w := w) (d := d) (e := e)).later
  have hdirty : ∀ x ∈ dirtyErase e (w.fil d).dirty, x ∈ (w.fil d).dirty ∧ x.1 ≠ e := fun x hx => by
    simpa [dirtyErase] using hx
  refine ⟨?_, ?_, ?_, ?_, ?_, ?_, ?_, ?_, fun hc => absurd hc hL⟩
  all_goals rw [unlinked_self]
  · exact h.iv
  · simp
  · simp
  · exact hnames.1
  · exact fun x hx hr => h.refs x (mem_of_mem_dirRemove hin hx) hr
  · intro x hx
    obtain ⟨hx, hne⟩ := hdirty x hx
    have hmem := (names_dirRemove_perm hin).mem_iff.1 (h.dirtyIn x hx)
    exact (List.mem_cons.1 hmem).resolve_left hne
  · exact fun x hx => (h.held x (hdirty x hx).1).later hl
  · intro hN x hx hr
    obtain ⟨y, hy, hyx⟩ := List.mem_map.1 (h.nonil hN x (mem_of_mem_dirRemove hin hx) hr)
    refine List.mem_map.2 ⟨y, ?_, hyx⟩
    have hne : x.1 ≠ e := by
      rintro rfl
      exact hnames.2 (List.mem_map_of_mem hx)
    simp [dirtyErase, hy, hyx, hne]

/-! ### Removing -/

/-- The directory has lost the name, and the clean cache the reference `r` of its entry, if it was looked for
and found. -/
def Unlinked (d : ℕ) (e : Str) (r : BlockRef) (f : ℕ) (w w' : World) : Prop :=
  w' = w.unlinked d e ∨ (w.cache.nodemap r = some (.fil f) ∧
    w' = (w.unlinked d e).setCache ((w.unlinked d e).cache.removed r (.fil f)))

/-- **`DirNode::remove`** of a name in a directory of the tree. -/
theorem wp_removeEntry (h : TInv E L M none w) (hd : (w.graph E M none).Live (.mem d))
    (hs : w.step E M (.mem d) e = some (.mem f)) :
    wp (removeEntry d e) (fun _ w' => Unlinked d e (w.entryRef E (.mem d) e) f w w') (fun _ _ => False) w := by
  have hlt := (h.live_valid hd).lt
  have hk := kid_of_step hs
  have hdir := isDir_of_kid hk
  have hin := h.nodes.mem_of_kid hlt hk
  have hnd := (h.nodes.node d hlt).names
  have hne : (w.fil d).dir ≠ [] := by
    intro hnil
    rw [hnil] at hin
    simp at hin
  simp only [removeEntry, wp_bind, wp_get, if_neg hne, modifyDir, modifyDirty, wp_modify, setFilDirty]
  split
  case isFalse =>
    rw [wp_modify]
    left
    simp [World.unlinked, World.setFil]
  case isTrue hr =>
    have hent : w.entryRef E (.mem d) e = (dirRemove e (w.fil d).dir).1 := by
      rw [entryRef_mem hdir, ref_dirRemove hin hnd hr, Option.getD_some]
    have hst : (dirRemove e (w.fil d).dir).1 ≠ .nil → Stored w.log (dirRemove e (w.fil d).dir).1 .inode := by
      rw [← hent]
      exact h.nodes.entryRef_stored (h.live_valid hd)
    -- The reference leads to the node of the name, if to anything.
    have hfil : ∀ o, w.cache.nodemap (dirRemove e (w.fil d).dir).1 = some o → o = .fil f ∧ w.cache.Placed o := by
      intro o ho
      cases o with
      | blk n =>
          have := (h.nodes.blk.key _ n ho).stored.kind_eq (hst hr)
          simp at this
      | fil g =>
          obtain ⟨hfg, hl⟩ := h.own _ hd e _ hs _ g (.entry (hent ▸ hr)) (hent ▸ ho)
          obtain rfl := Loc.mem.inj hfg
          exact ⟨rfl, hl⟩
    rw [hent, wp_bind]
    refine wp_cacheRemove ?_ ?_ ?_
    · exact fun o ho => (hfil o ho).2
    · intro _
      rw [wp_modify]
      left
      simp [World.unlinked, World.setFil]
    · intro o ho
      obtain ⟨rfl, -⟩ := hfil o ho
      rw [wp_modify]
      refine .inr ⟨ho, ?_⟩
      simp [World.unlinked, World.setFil, World.setCache]

/-- The other nodes, and those below the name. -/
structure CutOff (G G' : LGraph Rt Loc Str) (i₀ : Rt) (p : List Str) (e : Str) : Prop where
  other : ∀ i q, i ≠ .hand → ¬ (i = i₀ ∧ p ++ [e] <+: q) → G'.find i q = G.find i q
  below : ∀ s, G'.find i₀ (p ++ e :: s) = none

section cut

variable (hu : Unlinked d e r f w w')

include hu

theorem Unlinked.out (x : Loc) : w'.out E x = w.out E x := by
  have hout : (w.unlinked d e).out E x = w.out E x := by
    by_cases hx : x = .mem d
    · subst hx
      have hb : fileBytes E (w.unlinked d e) d = fileBytes E w d :=
        funext ((unlinked_onlyFil (w := w) (d := d) (e := e)).fileBytes d)
      simp only [World.out, hb, unlinked_self]
    · exact unlinked_onlyFil.out hx
  rcases hu with rfl | ⟨-, rfl⟩
  · exact hout
  · rw [out_setCache, hout]

theorem Unlinked.later : Later w w' := by
  have hl := (unlinked_onlyFil (w := w) (d := d) (e := e)).later
  rcases hu with rfl | ⟨-, rfl⟩
  · exact hl
  · exact ⟨hl.logLe, hl.rand, hl.nfil, hl.cls, hl.kind⟩

theorem Unlinked.kid_none (hdir : (w.fil d).cls.isDir = true) (hin : e ∈ (w.fil d).dir.map Prod.fst)
    (hnd : ((w.fil d).dir.map Prod.fst).Nodup) : w'.kid E (.mem d) e = none := by
  have hfil : w'.fil d = (w.unlinked d e).fil d := by
    rcases hu with rfl | ⟨-, rfl⟩ <;> rfl
  rw [kid_mem (by rw [hfil, unlinked_self]; exact hdir), hfil, unlinked_self]
  simp only [lookup_dirtyErase, lookup_dirRemove hin hnd, if_true, Option.map_none]

end cut

/-- A reference that is a key of what is in hand is none of an edge. -/
theorem TInv.not_edgeKey_ref (h : TInv E L M (some (.mem f, r)) w) (hr : r ≠ .nil) {x : Loc}
    (hx : (w.graph E M (some (.mem f, r))).Live x) {a : Str} : ¬ w.edgeKey E M x a (.ref r) := by
  obtain ⟨j, q, hq⟩ := hx
  exact h.unshared.rootEdge .hand (.ref r) ⟨_, _, rfl, .entry hr⟩ j q x a hq

/-- The clean cache leads to the node in hand from no key of an edge. -/
theorem TInv.not_edgeKey_cached (h : TInv E L M (some (.mem f, r)) w) {x : Loc}
    (hx : (w.graph E M (some (.mem f, r))).Live x) {a : Str} {r' : BlockRef}
    (hk : w.edgeKey E M x a (.ref r')) : w.cache.nodemap r' ≠ some (.fil f) := by
  intro hmap
  obtain ⟨y, hy, hk⟩ := hk
  obtain ⟨rfl, -⟩ := h.own x hx a y hy r' f hk hmap
  obtain ⟨j, q, hq⟩ := hx
  exact h.unshared.rootEdge .hand (.mem f) ⟨_, _, rfl, .node rfl⟩ j q x a hq ⟨_, hy, .node rfl⟩

theorem NInv.ne_nil_of_cached (h : NInv E L w) (hr : w.cache.nodemap r = some (.fil f)) : r ≠ .nil := by
  rintro rfl
  obtain ⟨b, hb⟩ := h.blk.keyFil _ _ hr
  rw [h.blk.disk.nilFree] at hb
  simp at hb

section cut

variable (hu : Unlinked d e r f w w') (h : TInv E L M none w) (hL : ¬ L.links)
  (hd : (w.graph E M none).find i p = some (.mem d)) (hs : w.step E M (.mem d) e = some (.mem f))
  (hr : w.entryRef E (.mem d) e = r)

include h hL hd hs hr

theorem TInv.unlinked : TInv E L M (some (.mem f, r)) (w.unlinked d e) ∧
    (CutOff (w.graph E M none) ((w.unlinked d e).graph E M (some (.mem f, r))) i p e ∧
      ∀ s, ((w.unlinked d e).graph E M (some (.mem f, r))).find .hand s =
        (w.graph E M none).find i (p ++ e :: s)) ∧
    (Reg E M none X w → Reg E M (some (.mem f, r)) (insert d X) (w.unlinked d e)) := by
  have hlt := (h.live_valid ⟨i, p, hd⟩).lt
  have hk := kid_of_step hs
  have hdir := isDir_of_kid hk
  have hin := h.nodes.mem_of_kid hlt hk
  have hok := h.nodes.node d hlt
  obtain ⟨ht, hdet, hreg⟩ := h.detached hd hs (unlinked_onlyName hdir hin hok.names) (hok.unlinked hL hin)
    (unlinked_kid hdir hin hok.names) hr (X := X)
  obtain ⟨hother, hhand⟩ := hdet.find_eq hd fun j q hq => h.find_mem_inj hq hd
  exact ⟨ht, ⟨⟨hother, hdet.find_none hd⟩, hhand⟩, hreg⟩

include hu

/-- **The node of the name is in hand**, and has no other reference. -/
theorem Unlinked.hand (href : (w.fil f).ref = r) (hfd : f ≠ d) : TInv E L M (some (.mem f, r)) w' ∧
    (CutOff (w.graph E M none) (w'.graph E M (some (.mem f, r))) i p e ∧
      ∀ s, (w'.graph E M (some (.mem f, r))).find .hand s = (w.graph E M none).find i (p ++ e :: s)) ∧
    (Reg E M none X w → Reg E M (some (.mem f, r)) (insert d X) w') := by
  obtain ⟨ht, ⟨hcut, hhand⟩, hreg⟩ := h.unlinked hL hd hs hr (X := X)
  rcases hu with rfl | ⟨hmap, rfl⟩
  · exact ⟨ht, ⟨hcut, hhand⟩, hreg⟩
  have hne := h.nodes.ne_nil_of_cached hmap
  have href' : ((w.unlinked d e).fil f).ref = r := by
    rw [unlinked_onlyFil.other f hfd]
    exact href
  -- The node in hand has no key but its reference.
  have hkeys : ∀ z r₀, some (Loc.mem f, r) = some (z, r₀) → ∀ r', (w.unlinked d e).KeyOf z r₀ (.ref r') → r' = r := by
    intro z r₀ hH r' hk
    obtain ⟨rfl, rfl⟩ := Prod.mk.inj (Option.some.inj hH)
    cases hk with
    | own hg _ =>
        obtain rfl := Loc.mem.inj hg
        exact href'
    | entry _ => rfl
  obtain ⟨ht', hfind, hreg'⟩ := ht.forgotten (X := insert d X) (show (w.unlinked d e).cache.nodemap r = _ from hmap)
    (fun x hx a z hz hk => absurd ⟨z, hz, by rw [hk]; exact .entry hne⟩ (ht.not_edgeKey_ref hne hx (a := a)))
    (fun x hx a r' hk _ => ht.not_edgeKey_cached hx hk) (fun z r₀ hH r' hk hr' => absurd (hkeys z r₀ hH r' hk) hr')
  refine ⟨ht', ⟨⟨fun j q hj hq => ?_, fun s => ?_⟩, fun s => ?_⟩, fun hX => hreg' (hreg hX)⟩
  · rw [hfind, hcut.other j q hj hq]
  · rw [hfind, hcut.below]
  · rw [hfind, hhand]

/-- **The node of the name is let go**, with all that is below it. -/
theorem Unlinked.drop : TInv E L M none w' ∧ CutOff (w.graph E M none) (w'.graph E M none) i p e ∧
    (Reg E M none X w → Reg E M none (insert d X) w') := by
  obtain ⟨ht, ⟨hcut, -⟩, hreg⟩ := h.unlinked hL hd hs hr (X := X)
  obtain ⟨htd, hfindd, hregd⟩ := ht.dropped (X := insert d X)
  have hi : i ≠ .hand := by
    rintro rfl
    have hnone : (w.graph E M none).find .hand p = none := rfl
    rw [hnone] at hd
    simp at hd
  have hcut' : CutOff (w.graph E M none) ((w.unlinked d e).graph E M none) i p e :=
    ⟨fun j q hj hq => by rw [hfindd j hj, hcut.other j q hj hq], fun s => by rw [hfindd i hi, hcut.below]⟩
  rcases hu with rfl | ⟨hmap, rfl⟩
  · exact ⟨htd, hcut', fun hX => hregd (hreg hX)⟩
  have hne := h.nodes.ne_nil_of_cached hmap
  have hlive : ∀ {x}, ((w.unlinked d e).graph E M none).Live x →
      ((w.unlinked d e).graph E M (some (.mem f, r))).Live x := by
    rintro x ⟨j, q, hx⟩
    refine ⟨j, q, ?_⟩
    rw [← hfindd j ?_]
    · exact hx
    · rintro rfl
      have hnone : ((w.unlinked d e).graph E M none).find .hand q = none := rfl
      rw [hnone] at hx
      simp at hx
  obtain ⟨ht', hfind, hreg'⟩ := htd.forgotten (X := insert d X) (show (w.unlinked d e).cache.nodemap r = _ from hmap)
    (fun x hx a z hz hk => absurd ⟨z, hz, by rw [hk]; exact .entry hne⟩ (ht.not_edgeKey_ref hne (hlive hx) (a := a)))
    (fun x hx a r' hk _ => ht.not_edgeKey_cached (hlive hx) hk) (fun z r₀ hH => by simp at hH)
  refine ⟨ht', ⟨fun j q hj hq => ?_, fun s => ?_⟩, fun hX => hreg' (hregd (hreg hX))⟩
  · rw [hfind, hcut'.other j q hj hq]
  · rw [hfind, hcut'.below]

end cut

/-! ### The operations -/

/-- What can be seen without what is below a path. -/
def pruned (n : List Str → Option NodeView) (path : List Str) : List Str → Option NodeView :=
  fun q => if path <+: q then none else n q

section ops

/-- The rest of the tree looks as before. -/
theorem Unlinked.view (hu : Unlinked d e r f w w')
    (hcut : CutOff (w.graph E none none) (w'.graph E none none) .top p e) :
    w'.view E = pruned (w.view E) (p ++ [e]) := by
  funext q
  rw [pruned]
  split
  case isTrue hq =>
    obtain ⟨s, rfl⟩ := hq
    rw [World.view, List.append_assoc]
    exact congrArg (Option.bind · _) (hcut.below s)
  case isFalse hq =>
    rw [World.view, hcut.other .top q (by simp) fun hc => hq hc.2, World.view]
    exact congrArg _ (funext hu.out)

/-- **A name is removed** from a directory of the tree. -/
theorem wp_remove (h : TInv E L none none w) (hX : Reg E none none ∅ w) (hL : ¬ L.links)
    (hd : (w.graph E none none).find .top p = some (.mem d)) (hk : w.kid E (.mem d) e = some (.mem f)) :
    wp (removeEntry d e)
      (fun _ w' => Back E L none none p d w w' ∧ Resolved E d e w' ∧ w'.view E = pruned (w.view E) (p ++ [e]))
      (fun _ _ => False) w := by
  have hs : w.step E none (.mem d) e = some (.mem f) := (step_none _ e).trans hk
  have hlt := (h.live_valid ⟨.top, p, hd⟩).lt
  refine wp_mono (wp_removeEntry h ⟨.top, p, hd⟩ hs) ?_ fun _ _ hF => hF
  rintro - w' hu
  obtain ⟨ht, hcut, hreg⟩ := hu.drop h hL hd hs rfl (X := ∅)
  have hreg' := hreg hX
  rw [insert_empty_eq] at hreg'
  refine ⟨⟨ht, fun q hq g hg => ?_, hreg', hu.later⟩, ⟨none, ?_, fun g hg => by simp at hg⟩, hu.view hcut⟩
  · rw [hcut.other .top q (by simp) fun hc => ?_]
    · exact hg
    · have := (hc.2.trans hq).length_le
      simp at this
  · exact hu.kid_none (isDir_of_kid hk) (h.nodes.mem_of_kid hlt hk) (h.nodes.node d hlt).names

variable {entry : Str} {rest : List Str} {path : Str}

/-- The view of a name. -/
theorem Reached.view_kid {w₁ : World} (hre : Reached E L w w₁)
    (hd : (w₁.graph E none none).find .top p = some (.mem d)) :
    w.view E (p ++ [e]) = (w₁.kid E (.mem d) e).bind (w₁.out E) := by
  rw [← hre.view, World.view, LGraph.find_snoc_of hd]
  exact congrArg (Option.bind · _) (step_none _ e)

theorem Reached.after {w₁ w₂ : World} (hre : Reached E L w w₁) (ht : TInv E L none none w₂)
    (hc : Calm E none none w₁ w₂) : Reached E L w w₂ :=
  ⟨ht, hc.reg _ hre.reg, (funext hc.toSim.view).trans hre.view⟩

/-- A lookup of a name during an operation. -/
theorem wp_lookup_reached {w₁ : World} (hre : Reached E L w w₁)
    (hd : (w₁.graph E none none).find .top p = some (.mem d)) (hdir : (w₁.fil d).cls.isDir = true)
    {Lost : Exn → Prop} {P : Errno → Prop} :
    wp (lookup E d e false)
      (fun o w₂ => Reached E L w w₂ ∧ Calm E none none w₁ w₂ ∧
        (w₂.graph E none none).find .top p = some (.mem d) ∧ (w₂.fil d).cls.isDir = true ∧
        w₂.kid E (.mem d) e = o.map .mem ∧ ∀ g, g < w₁.nfil → w₂.fil g = w₁.fil g)
      (Fails E L none Lost P w₁) w₁ := by
  have hlive : (w₁.graph E none none).Live (.mem d) := ⟨.top, p, hd⟩
  refine wp_mono (wp_lookup hre.inv hlive hdir (by simp) false) ?_ fun ex w₂ hF => hF.fails hre.inv
  rintro o w₂ ⟨h₂, hc, hk, hfil⟩
  exact ⟨hre.after h₂ hc, hc, hc.find_mem hd, by rw [hfil d (hre.inv.live_valid hlive).lt]; exact hdir, hk, hfil⟩

/-- The name is removed once it has been looked up. -/
theorem wp_remove_return {w₁ w₂ : World} (hre : Reached E L w w₂) (hL : ¬ L.links)
    (hd : (w₂.graph E none none).find .top p = some (.mem d)) (hk : w₂.kid E (.mem d) e = some (.mem f))
    (hc : Calm E none none w₁ w₂) (Lost : Exn → Prop) {P : Errno → Prop}
    {C : ℤ → (List Str → Option NodeView) → Prop} (hC : C 0 (pruned (w.view E) (p ++ [e]))) :
    wp (do
        removeEntry d e
        return (0 : ℤ))
      (fun rv w₃ => Acted E L none none Lost p d e (fun w₄ => C rv (w₄.view E)) w₁ w₃)
      (Fails E L none Lost P w₁) w₂ := by
  refine wp_seq (wp_remove hre.inv hre.reg hL hd hk) ?_ fun _ _ hF => hF.elim
  rintro - w₃ ⟨hb, hkn, hv⟩
  refine .inl ⟨hb.after hc.toSim, hkn, ?_⟩
  change C 0 (w₃.view E)
  rwa [hv, hre.view]

/-- The errors of `unlink`. -/
def unlinkErrno (dirstoo : Bool) : Option NodeView → Option Errno
  | none => some .enoent
  | some v => if !dirstoo && sIsdir v.inode.mode then some .eisdir else none

/-- **`fs_unlink`.** -/
theorem wp_fsUnlink (hpath : splitPath path = pure (entry, rest)) (h : TInv E L none none w)
    (hX : Reg E none none ∅ w) (hL : ¬ L.links) (hspecial : entry ≠ specialDir) :
    wp (fsUnlink E path)
      (ParentEnds E L entry rest w (fun en => unlinkErrno false (w.view E (entry :: rest)) = some en)
        fun rv n => rv = 0 ∧ unlinkErrno false (w.view E (entry :: rest)) = none ∧
          n = pruned (w.view E) (entry :: rest))
      (Fails E L none (fun _ => False) (fun _ => False) w) w := by
  obtain ⟨p, e, hpe⟩ := (List.eq_nil_or_concat (entry :: rest)).resolve_left (List.cons_ne_nil _ _)
  rw [List.concat_eq_append] at hpe
  refine wp_changeParent _ _ (fun _ => id) hpath h hX hspecial hpe fun w₁ d hre hd hdir => ?_
  rw [hpe, unlink]
  refine wp_seq (wp_lookup_reached hre hd hdir) ?_ fun _ _ hF => hF
  rintro o w₂ ⟨hre₂, hc, hd₂, hdir₂, hk, hfil⟩
  have hview := hre₂.view_kid hd₂ (e := e)
  rw [hk] at hview
  cases o with
  | none =>
      refine .inr (.inr ⟨hre₂.inv, hc, fun en hen => ⟨?_, hfil⟩⟩)
      obtain rfl := Exn.errno.inj hen
      rw [hview]
      rfl
  | some f =>
      have hf : Held w₂ f := hre₂.inv.nodes.valid_kid (hre₂.inv.live_valid ⟨.top, p, hd₂⟩) hk
      obtain ⟨v, hv, hm⟩ := hf.out (E := E)
      have hview' : w.view E (p ++ [e]) = some v := hview.trans hv
      have hmode : sIsdir v.inode.mode = sIsdir (w₂.fil f).inode.mode := hm.trans hf.kind
      simp only [wp_bind, wp_get, Bool.not_false, Bool.true_and]
      split
      case isTrue hisdir =>
        refine .inr (.inr ⟨hre₂.inv, hc, fun en hen => ⟨?_, hfil⟩⟩)
        obtain rfl := Exn.errno.inj hen
        rw [hview']
        simp only [unlinkErrno, Bool.not_false, Bool.true_and, hmode, hisdir, if_true]
      case isFalse hisdir =>
        have hret := wp_remove_return
          (P := fun en => unlinkErrno false (w.view E (p ++ [e])) = some en)
          (C := fun rv n => rv = 0 ∧ unlinkErrno false (w.view E (p ++ [e])) = none ∧
            n = pruned (w.view E) (p ++ [e])) hre₂ hL hd₂ hk hc (fun _ => False)
          ⟨rfl, by rw [hview']; simp [unlinkErrno, hmode, hisdir], rfl⟩
        exact hret

open Classical in
/-- The errors of `rmdir`. -/
noncomputable def rmdirErrno (n : List Str → Option NodeView) (path : List Str) : Option Errno :=
  match n path with
  | none => some .enoent
  | some v =>
      if sIsdir v.inode.mode = false then some .enotdir
      else if ∃ a, n (path ++ [a]) ≠ none then some .enotempty
      else none

/-- **`fs_rmdir`.** -/
theorem wp_fsRmdir (hpath : splitPath path = pure (entry, rest)) (h : TInv E L none none w)
    (hX : Reg E none none ∅ w) (hN : L.nonil) (hL : ¬ L.links) (hspecial : entry ≠ specialDir) :
    wp (fsRmdir E path)
      (ParentEnds E L entry rest w (fun en => rmdirErrno (w.view E) (entry :: rest) = some en)
        fun rv n => rv = 0 ∧ rmdirErrno (w.view E) (entry :: rest) = none ∧
          n = pruned (w.view E) (entry :: rest))
      (Fails E L none (fun _ => False) (fun _ => False) w) w := by
  obtain ⟨p, e, hpe⟩ := (List.eq_nil_or_concat (entry :: rest)).resolve_left (List.cons_ne_nil _ _)
  rw [List.concat_eq_append] at hpe
  refine wp_changeParent _ _ (fun _ => id) hpath h hX hspecial hpe fun w₁ d hre hd hdir => ?_
  rw [hpe, rmdir]
  refine wp_seq (wp_lookup_reached hre hd hdir) ?_ fun _ _ hF => hF
  rintro o w₂ ⟨hre₂, hc, hd₂, hdir₂, hk, hfil⟩
  have hview := hre₂.view_kid hd₂ (e := e)
  rw [hk] at hview
  cases o with
  | none =>
      refine .inr (.inr ⟨hre₂.inv, hc, fun en hen => ⟨?_, hfil⟩⟩)
      obtain rfl := Exn.errno.inj hen
      rw [Option.map_none, Option.bind_none] at hview
      rw [rmdirErrno, hview]
  | some f =>
      have hat : (w₂.graph E none none).find .top (p ++ [e]) = some (.mem f) := by
        rw [LGraph.find_snoc_of hd₂]
        exact (step_none _ e).trans hk
      have hf : Held w₂ f := hre₂.inv.live_valid ⟨.top, _, hat⟩
      obtain ⟨v, hv, hm⟩ := hf.out (E := E)
      have hview' : w.view E (p ++ [e]) = some v := hview.trans hv
      have hmode : sIsdir v.inode.mode = sIsdir (w₂.fil f).inode.mode := hm.trans hf.kind
      simp only [wp_bind, wp_get]
      split
      case isTrue hisdir =>
        refine .inr (.inr ⟨hre₂.inv, hc, fun en hen => ⟨?_, hfil⟩⟩)
        obtain rfl := Exn.errno.inj hen
        rw [rmdirErrno, hview']
        simp [hmode, show sIsdir (w₂.fil f).inode.mode = false by simpa using hisdir]
      case isFalse hisdir =>
        split
        case isTrue => exact .inl trivial
        case isFalse hcls =>
          have hempty := hre₂.inv.dir_eq_nil hN hat (by simpa using hcls)
          rw [hre₂.view] at hempty
          split
          case isTrue hlen =>
            refine .inr (.inr ⟨hre₂.inv, hc, fun en hen => ⟨?_, hfil⟩⟩)
            obtain rfl := Exn.errno.inj hen
            have hex : ∃ a, w.view E (p ++ [e] ++ [a]) ≠ none := by
              rw [← not_forall]
              exact fun hall => hlen (by rw [hempty.2 hall]; rfl)
            rw [rmdirErrno, hview']
            simp only [hmode]
            rw [if_neg (by simpa using hisdir), if_pos hex]
          case isFalse hlen =>
            have hall := hempty.1 (List.length_eq_zero_iff.1 (not_not.1 hlen))
            have hno : ¬ ∃ a, w.view E (p ++ [e] ++ [a]) ≠ none := not_exists.2 fun a => not_not.2 (hall a)
            have hret := wp_remove_return
              (P := fun en => rmdirErrno (w.view E) (p ++ [e]) = some en)
              (C := fun rv n => rv = 0 ∧ rmdirErrno (w.view E) (p ++ [e]) = none ∧
                n = pruned (w.view E) (p ++ [e])) hre₂ hL hd₂ hk hc (fun _ => False)
              ⟨rfl, by
                rw [rmdirErrno, hview']
                simp only [hmode]
                rw [if_neg (by simpa using hisdir), if_neg hno], rfl⟩
            exact hret

end ops

end UTFS

end Utopfs
