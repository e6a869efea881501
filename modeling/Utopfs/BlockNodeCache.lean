/-
**The clean cache.**

A node of the cache remembers its place in the most-recently-used list by an iterator, one for the
node and not one for each key under which the node is cached.  This module says when the iterators
of a class of nodes can be trusted, and what the operations of the cache then do.

Main definitions:

* `UTFS.CacheRep` — list nodes are distinct, an iterator points at the node's own place, and the
  nodes of the class `G` that are in the map are those in the list, where their iterator says;
* `UTFS.SameFil` — two caches that agree about the file nodes;
* `UTFS.BlockNodeCache.touched`, `UTFS.BlockNodeCache.inserted`, `UTFS.BlockNodeCache.removed` — the
  caches that the operations leave behind.

Main results:

* `UTFS.wp_cacheLookup`, `UTFS.wp_cacheInsert`, `UTFS.wp_cacheRemove` — the operations never use a bad
  iterator on nodes of the class, and keep the representation;
* `UTFS.CacheRep.inserted`, `UTFS.CacheRep.removed` — a node may be removed when no other key holds
  it;
* `UTFS.keepsCache_cacheLookup`, `UTFS.keepsCache_cacheInsert`, `UTFS.keepsCache_cacheRemove` — they
  keep what does not depend on the cache.
-/

import Mathlib.Tactic
import Utopfs.Node

set_option relaxedAutoImplicit false
set_option autoImplicit false

namespace Utopfs

namespace UTFS

open Prog

/-! ### The representation -/

/-- The iterators can be trusted for the nodes of the class `G`. -/
structure CacheRep (G : Obj → Prop) (c : BlockNodeCache) : Prop where
  posNodup : (c.nodemru.map Prod.fst).Nodup
  posLt : ∀ x ∈ c.nodemru, x.1 < c.npos
  lposLt : ∀ o p, c.lpos o = some p → p < c.npos
  lposOwn : ∀ o p, c.lpos o = some p → ∀ o', (p, o') ∈ c.nodemru → o' = o
  lpos : ∀ r o, G o → c.nodemap r = some o → ∃ p, c.lpos o = some p ∧ (p, o) ∈ c.nodemru
  listed : ∀ p o, G o → (p, o) ∈ c.nodemru → c.lpos o = some p ∧ ∃ r, c.nodemap r = some o

/-- The list without the place of `o`, and `o` at its front. -/
def BlockNodeCache.touched (c : BlockNodeCache) (o : Obj) : BlockNodeCache where
  nodemap := c.nodemap
  nodemru := (c.npos, o) :: c.nodemru.filter fun x => some x.1 ≠ c.lpos o
  npos := c.npos + 1
  lpos := Function.update c.lpos o (some c.npos)

/-- A new key. -/
def BlockNodeCache.inserted (c : BlockNodeCache) (r : BlockRef) (o : Obj) : BlockNodeCache where
  nodemap := Function.update c.nodemap r (some o)
  nodemru := (c.npos, o) :: c.nodemru
  npos := c.npos + 1
  lpos := Function.update c.lpos o (some c.npos)

/-- Without the key `r`, which holds `o`. -/
def BlockNodeCache.removed (c : BlockNodeCache) (r : BlockRef) (o : Obj) : BlockNodeCache where
  nodemap := Function.update c.nodemap r none
  nodemru := c.nodemru.filter fun x => some x.1 ≠ c.lpos o
  npos := c.npos
  lpos := Function.update c.lpos o none

/-- Pushing a node of the map to the front of a list from which nothing but its own place was
taken. -/
theorem CacheRep.pushed {G : Obj → Prop} {c : BlockNodeCache} (h : CacheRep G c) (o : Obj)
    (keep : ℕ × Obj → Bool) (hkeep : ∀ x ∈ c.nodemru, keep x = false → x.2 = o)
    (hout : G o → ∀ p, (p, o) ∈ c.nodemru → keep (p, o) = false)
    (nodemap : BlockRef → Option Obj)
    (hmap : ∀ r o', o' ≠ o → (nodemap r = some o' ↔ c.nodemap r = some o'))
    (hheld : ∃ r, nodemap r = some o) :
    CacheRep G
      { nodemap := nodemap
        nodemru := (c.npos, o) :: c.nodemru.filter keep
        npos := c.npos + 1
        lpos := Function.update c.lpos o (some c.npos) } where
  posNodup := by
    refine List.nodup_cons.2 ⟨?_, h.posNodup.sublist (List.filter_sublist.map _)⟩
    intro hmem
    obtain ⟨x, hx, hxp⟩ := List.mem_map.1 hmem
    have := h.posLt x (List.mem_of_mem_filter hx)
    omega
  posLt := by
    intro x hx
    rcases List.mem_cons.1 hx with rfl | hx
    · exact Nat.lt_succ_self _
    · exact Nat.lt_succ_of_lt (h.posLt x (List.mem_of_mem_filter hx))
  lposLt := by
    intro o' p hp
    by_cases ho : o' = o
    · subst ho
      have : c.npos = p := by simpa using hp
      change p < c.npos + 1
      omega
    · simp only [Function.update_of_ne ho] at hp
      exact Nat.lt_succ_of_lt (h.lposLt o' p hp)
  lposOwn := by
    intro o' p hp o'' hmem
    by_cases ho : o' = o
    · subst ho
      have hpn : p = c.npos := by simpa using hp.symm
      rcases List.mem_cons.1 hmem with heq | hmem
      · exact (Prod.mk.inj heq).2
      · have := h.posLt _ (List.mem_of_mem_filter hmem)
        change p < c.npos at this
        omega
    · simp only [Function.update_of_ne ho] at hp
      rcases List.mem_cons.1 hmem with heq | hmem
      · have := h.lposLt o' p hp
        have hpn : p = c.npos := (Prod.mk.inj heq).1
        omega
      · exact h.lposOwn o' p hp o'' (List.mem_of_mem_filter hmem)
  lpos := by
    intro r o' hG ho'
    by_cases ho : o' = o
    · subst ho
      exact ⟨c.npos, by simp, List.mem_cons_self⟩
    · obtain ⟨p, hp, hmem⟩ := h.lpos r o' hG ((hmap r o' ho).1 ho')
      refine ⟨p, by simpa only [Function.update_of_ne ho] using hp, List.mem_cons_of_mem _ ?_⟩
      refine List.mem_filter.2 ⟨hmem, ?_⟩
      by_contra hk
      exact ho (hkeep _ hmem (by simpa using hk))
  listed := by
    intro p o' hG hmem
    by_cases ho : o' = o
    · subst ho
      refine ⟨?_, hheld⟩
      rcases List.mem_cons.1 hmem with heq | hmem
      · rw [(Prod.mk.inj heq).1]
        simp
      · obtain ⟨hmem, hk⟩ := List.mem_filter.1 hmem
        rw [hout hG p hmem] at hk
        simp at hk
    · rcases List.mem_cons.1 hmem with heq | hmem
      · exact absurd (Prod.mk.inj heq).2 ho
      · obtain ⟨hp, r, hr⟩ := h.listed p o' hG (List.mem_of_mem_filter hmem)
        exact ⟨by simpa only [Function.update_of_ne ho] using hp, r, (hmap r o' ho).2 hr⟩

theorem CacheRep.touched {G : Obj → Prop} {c : BlockNodeCache} (h : CacheRep G c) {r : BlockRef}
    {o : Obj} (hr : c.nodemap r = some o) : CacheRep G (c.touched o) := by
  refine h.pushed o _ ?_ ?_ c.nodemap (fun _ _ _ => Iff.rfl) ⟨r, hr⟩
  · intro x hx hk
    have hx' : some x.1 = c.lpos o := by simpa using hk
    exact h.lposOwn o x.1 hx'.symm x.2 hx
  · intro hG p hp
    simp [(h.listed p o hG hp).1]

/-- A node that is not in the map, or not of the class, may enter it under a new key. -/
theorem CacheRep.inserted {G : Obj → Prop} {c : BlockNodeCache} (h : CacheRep G c) {r : BlockRef}
    (hr : c.nodemap r = none) {o : Obj} (ho : G o → ∀ r', c.nodemap r' ≠ some o) :
    CacheRep G (c.inserted r o) := by
  have := h.pushed o (fun _ => true) (by simp) ?_ (Function.update c.nodemap r (some o)) ?_
    ⟨r, by simp⟩
  · simpa [BlockNodeCache.inserted] using this
  · intro hG p hp
    obtain ⟨-, r', hr'⟩ := h.listed p o hG hp
    exact absurd hr' (ho hG r')
  · intro r' o' ho'
    by_cases heq : r' = r
    · subst heq
      simp [hr, Ne.symm ho']
    · rw [Function.update_of_ne heq]

/-- A node that no other key holds, or that is not of the class, can be removed. -/
theorem CacheRep.removed {G : Obj → Prop} {c : BlockNodeCache} (h : CacheRep G c) {r : BlockRef}
    {o : Obj} (hr : c.nodemap r = some o) (honly : G o → ∀ r', c.nodemap r' = some o → r' = r) :
    CacheRep G (c.removed r o) where
  posNodup := h.posNodup.sublist (List.filter_sublist.map _)
  posLt x hx := h.posLt x (List.mem_of_mem_filter hx)
  lposLt := by
    intro o' p hp
    by_cases ho : o' = o
    · subst ho
      simp [BlockNodeCache.removed] at hp
    · simp only [BlockNodeCache.removed, Function.update_of_ne ho] at hp
      exact h.lposLt o' p hp
  lposOwn := by
    intro o' p hp o'' hmem
    by_cases ho : o' = o
    · subst ho
      simp [BlockNodeCache.removed] at hp
    · simp only [BlockNodeCache.removed, Function.update_of_ne ho] at hp
      exact h.lposOwn o' p hp o'' (List.mem_of_mem_filter hmem)
  lpos := by
    intro r' o' hG hr'
    by_cases heq : r' = r
    · subst heq
      simp [BlockNodeCache.removed] at hr'
    · simp only [BlockNodeCache.removed, Function.update_of_ne heq] at hr'
      have ho : o' ≠ o := by
        rintro rfl
        exact heq (honly hG r' hr')
      obtain ⟨p, hp, hmem⟩ := h.lpos r' o' hG hr'
      refine ⟨p, by simpa [BlockNodeCache.removed, Function.update_of_ne ho] using hp, ?_⟩
      refine List.mem_filter.2 ⟨hmem, ?_⟩
      simp only [ne_eq, decide_eq_true_eq]
      intro hpo
      exact ho (h.lposOwn o p hpo.symm o' hmem)
  listed := by
    intro p o' hG hmem
    obtain ⟨hmem, hk⟩ := List.mem_filter.1 hmem
    obtain ⟨hp, r', hr'⟩ := h.listed p o' hG hmem
    have ho : o' ≠ o := by
      rintro rfl
      simp [hp] at hk
    refine ⟨by simpa [BlockNodeCache.removed, Function.update_of_ne ho] using hp, r', ?_⟩
    have heq : r' ≠ r := by
      rintro rfl
      rw [hr] at hr'
      exact ho (Option.some.inj hr').symm
    simpa [BlockNodeCache.removed, Function.update_of_ne heq] using hr'

/-! ### The file nodes in the cache -/

/-- The file nodes are where they were. -/
structure SameFil (c c' : BlockNodeCache) : Prop where
  nodemap : ∀ r f, c'.nodemap r = some (.fil f) ↔ c.nodemap r = some (.fil f)
  lpos : ∀ f, c'.lpos (.fil f) = c.lpos (.fil f)
  nodemru : ∀ p f, (p, Obj.fil f) ∈ c'.nodemru ↔ (p, Obj.fil f) ∈ c.nodemru

theorem SameFil.refl (c : BlockNodeCache) : SameFil c c :=
  ⟨fun _ _ => Iff.rfl, fun _ => rfl, fun _ _ => Iff.rfl⟩

theorem SameFil.trans {c c' c'' : BlockNodeCache} (h : SameFil c c') (h' : SameFil c' c'') :
    SameFil c c'' where
  nodemap r f := (h'.nodemap r f).trans (h.nodemap r f)
  lpos f := (h'.lpos f).trans (h.lpos f)
  nodemru p f := (h'.nodemru p f).trans (h.nodemru p f)

/-- Taking the place of a block node from the list leaves the file nodes there. -/
theorem CacheRep.mem_filter_fil {G : Obj → Prop} {c : BlockNodeCache} (h : CacheRep G c) (n p f : ℕ) :
    ((p, Obj.fil f) ∈ c.nodemru.filter fun x => some x.1 ≠ c.lpos (.blk n)) ↔
      (p, Obj.fil f) ∈ c.nodemru := by
  refine ⟨fun hm => List.mem_of_mem_filter hm, fun hm => List.mem_filter.2 ⟨hm, ?_⟩⟩
  simp only [ne_eq, decide_eq_true_eq]
  intro hp
  have := h.lposOwn (.blk n) p hp.symm _ hm
  simp at this

theorem CacheRep.sameFil_touched {G : Obj → Prop} {c : BlockNodeCache} (h : CacheRep G c) (n : ℕ) :
    SameFil c (c.touched (.blk n)) where
  nodemap _ _ := Iff.rfl
  lpos f := by simp [BlockNodeCache.touched]
  nodemru p f := by
    rw [BlockNodeCache.touched, List.mem_cons, h.mem_filter_fil]
    simp

theorem sameFil_inserted {c : BlockNodeCache} {r : BlockRef} (hr : c.nodemap r = none) (n : ℕ) :
    SameFil c (c.inserted r (.blk n)) where
  nodemap r' f := by
    by_cases heq : r' = r
    · subst heq
      simp [BlockNodeCache.inserted, hr]
    · simp [BlockNodeCache.inserted, Function.update_of_ne heq]
  lpos f := by simp [BlockNodeCache.inserted]
  nodemru p f := by
    rw [BlockNodeCache.inserted, List.mem_cons]
    simp

theorem CacheRep.sameFil_removed {G : Obj → Prop} {c : BlockNodeCache} (h : CacheRep G c)
    {r : BlockRef} {n : ℕ} (hr : c.nodemap r = some (.blk n)) :
    SameFil c (c.removed r (.blk n)) where
  nodemap r' f := by
    by_cases heq : r' = r
    · subst heq
      simp [BlockNodeCache.removed, hr]
    · simp [BlockNodeCache.removed, Function.update_of_ne heq]
  lpos f := by simp [BlockNodeCache.removed]
  nodemru p f := by
    rw [BlockNodeCache.removed]
    exact h.mem_filter_fil n p f

/-! ### The operations -/

/-- Changing the cache. -/
@[simps]
def World.setCache (w : World) (c : BlockNodeCache) : World := { w with cache := c }

/-- Erasing the place of a node that is in the list. -/
theorem wp_mruErase {w : World} {it : Option ℕ} {p : ℕ} {o : Obj} (hit : it = some p)
    (hmem : (p, o) ∈ w.cache.nodemru) {Q : Unit → World → Prop} {F : Exn → World → Prop}
    (hQ : Q () (w.setCache { w.cache with
      nodemru := w.cache.nodemru.filter fun x => some x.1 ≠ it })) :
    wp (mruErase it) Q F w := by
  subst hit
  have hp : p ∈ w.cache.nodemru.map Prod.fst := List.mem_map.2 ⟨_, hmem, rfl⟩
  simp only [mruErase, wp_bind, wp_get, if_pos hp, wp_set]
  simpa [World.setCache] using hQ

/-- The iterator of a node can be used. -/
def BlockNodeCache.Placed (c : BlockNodeCache) (o : Obj) : Prop :=
  ∃ p, c.lpos o = some p ∧ (p, o) ∈ c.nodemru

section placed

variable {G : Obj → Prop} {c : BlockNodeCache} {o o' : Obj} {r : BlockRef}

theorem placed_touched_self : (c.touched o).Placed o :=
  ⟨c.npos, Function.update_self .., List.mem_cons_self⟩

theorem placed_inserted_self : (c.inserted r o).Placed o :=
  ⟨c.npos, Function.update_self .., List.mem_cons_self⟩

/-- Taking the place of another node from the list. -/
theorem CacheRep.placed_filter (h : CacheRep G c) (hne : o' ≠ o) {p : ℕ} (hmem : (p, o') ∈ c.nodemru) :
    (p, o') ∈ c.nodemru.filter fun x => some x.1 ≠ c.lpos o := by
  refine List.mem_filter.2 ⟨hmem, ?_⟩
  simp only [ne_eq, decide_eq_true_eq]
  intro hp
  exact hne (h.lposOwn o p hp.symm o' hmem)

theorem CacheRep.placed_touched (h : CacheRep G c) (ho : c.Placed o') : (c.touched o).Placed o' := by
  by_cases hne : o' = o
  · subst hne
    exact placed_touched_self
  · obtain ⟨p, hp, hmem⟩ := ho
    refine ⟨p, ?_, List.mem_cons_of_mem _ (h.placed_filter hne hmem)⟩
    simp only [BlockNodeCache.touched, Function.update_of_ne hne]
    exact hp

theorem placed_inserted (ho : c.Placed o') : (c.inserted r o).Placed o' := by
  by_cases hne : o' = o
  · subst hne
    exact placed_inserted_self
  · obtain ⟨p, hp, hmem⟩ := ho
    refine ⟨p, ?_, List.mem_cons_of_mem _ hmem⟩
    simp only [BlockNodeCache.inserted, Function.update_of_ne hne]
    exact hp

theorem SameFil.placed {c' : BlockNodeCache} (h : SameFil c c') {f : ℕ} (hf : c.Placed (.fil f)) :
    c'.Placed (.fil f) := by
  obtain ⟨p, hp, hmem⟩ := hf
  exact ⟨p, (h.lpos f).trans hp, (h.nodemru p f).2 hmem⟩

end placed

theorem wp_cacheTouch {w : World} {o : Obj} (ho : w.cache.Placed o) {Q : Unit → World → Prop}
    {F : Exn → World → Prop} (hQ : Q () (w.setCache (w.cache.touched o))) :
    wp (cacheTouch o) Q F w := by
  obtain ⟨p, hp, hmem⟩ := ho
  simp only [cacheTouch, wp_bind, wp_get]
  exact wp_mruErase hp hmem hQ

/-- Looking up a key that holds nothing, or a node with its iterator. -/
theorem wp_cacheLookup {w : World} {r : BlockRef}
    (hp : ∀ o, w.cache.nodemap r = some o → w.cache.Placed o) {Q : Option Obj → World → Prop}
    {F : Exn → World → Prop} (hmiss : w.cache.nodemap r = none → Q none w)
    (hhit : ∀ o, w.cache.nodemap r = some o → Q (some o) (w.setCache (w.cache.touched o))) :
    wp (cacheLookup r) Q F w := by
  simp only [cacheLookup, wp_bind, wp_get]
  cases hr : w.cache.nodemap r with
  | none => exact hmiss hr
  | some o =>
      simp only [wp_bind]
      exact wp_cacheTouch (hp o hr) (hhit o hr)

/-- Inserting a node; if its key is there already, the node it holds is touched. -/
theorem wp_cacheInsert {w : World} {o : Obj}
    (hp : ∀ o', w.cache.nodemap (w.refOf o) = some o' → w.cache.Placed o') {Q : Unit → World → Prop}
    {F : Exn → World → Prop}
    (hnew : w.cache.nodemap (w.refOf o) = none →
      Q () (w.setCache (w.cache.inserted (w.refOf o) o)))
    (hold : ∀ o', w.cache.nodemap (w.refOf o) = some o' →
      Q () (w.setCache (w.cache.touched o'))) :
    wp (cacheInsert o) Q F w := by
  simp only [cacheInsert, wp_bind, wp_get]
  cases hr : w.cache.nodemap (w.refOf o) with
  | none =>
      simp only [wp_bind, wp_set, mruPushFront, wp_modify]
      exact hnew hr
  | some o' => exact wp_cacheTouch (hp o' hr) (hold o' hr)

/-- Removing a key. -/
theorem wp_cacheRemove {w : World} {r : BlockRef}
    (hp : ∀ o, w.cache.nodemap r = some o → w.cache.Placed o) {Q : Unit → World → Prop}
    {F : Exn → World → Prop} (hmiss : w.cache.nodemap r = none → Q () w)
    (hhit : ∀ o, w.cache.nodemap r = some o → Q () (w.setCache (w.cache.removed r o))) :
    wp (cacheRemove r) Q F w := by
  simp only [cacheRemove, wp_bind, wp_get]
  cases hr : w.cache.nodemap r with
  | none => exact hmiss hr
  | some o =>
      obtain ⟨p, hp, hmem⟩ := hp o hr
      simp only [wp_bind, wp_set]
      refine wp_mruErase (w := w.setCache { w.cache with
        nodemap := Function.update w.cache.nodemap r none }) hp hmem ?_
      exact hhit o hr

/-- The nodes of the class that are in the map have their iterators. -/
theorem CacheRep.placed {G : Obj → Prop} {c : BlockNodeCache} (h : CacheRep G c) {r : BlockRef}
    (hG : ∀ o, c.nodemap r = some o → G o) (o : Obj) (hr : c.nodemap r = some o) : c.Placed o :=
  h.lpos r o (hG o hr) hr

/-! ### Programs that keep an invariant -/

section keeps

variable {I : World → Prop} {F : Exn → Prop} (hI : ∀ w c, I w → I (w.setCache c))
  (hF : ∀ text, F (.undefined text))

include hI hF

/-- The operations of the cache change the cache, and fail by a bad iterator. -/
theorem keepsCache_mruErase (it : Option ℕ) : Keeps I F (mruErase it) := by
  intro w h
  simp only [mruErase, wp_bind, wp_get]
  cases it with
  | none => exact ⟨hF _, h⟩
  | some p =>
      simp only
      split
      case isTrue => exact hI w _ h
      case isFalse => exact ⟨hF _, h⟩

theorem keepsCache_cacheTouch (o : Obj) : Keeps I F (cacheTouch o) := by
  refine .bind .get fun w => .bind (keepsCache_mruErase hI hF _) fun _ => ?_
  exact .modify fun w h => hI w _ h

theorem keepsCache_cacheLookup (r : BlockRef) : Keeps I F (cacheLookup r) := by
  refine .bind .get fun w => ?_
  cases w.cache.nodemap r with
  | none => exact .pure _
  | some o => exact .bind (keepsCache_cacheTouch hI hF o) fun _ => .pure _

theorem keepsCache_cacheInsert (o : Obj) : Keeps I F (cacheInsert o) := by
  intro w h
  simp only [cacheInsert, wp_bind, wp_get]
  cases w.cache.nodemap (w.refOf o) with
  | some o' => exact keepsCache_cacheTouch hI hF o' w h
  | none => exact hI w _ h

theorem keepsCache_cacheRemove (r : BlockRef) : Keeps I F (cacheRemove r) := by
  intro w h
  simp only [cacheRemove, wp_bind, wp_get]
  cases w.cache.nodemap r with
  | none => exact h
  | some o =>
      simp only [wp_bind, wp_set]
      refine wp_mono (keepsCache_mruErase hI hF _ (w.setCache _) (hI w _ h)) ?_ (fun _ _ hF => hF)
      exact fun _ w' h' => hI w' _ h'

end keeps

end UTFS

end Utopfs
