/-
**Reading does not depend on the order of the clean cache.**

Two states that differ in the order of the most-recently-used list only cannot be told apart by reading:
looking names up, loading nodes and reading files return the same from both, or fail with the same
exception, and leave two states that again differ in that order only.  None of this asks for a second
attempt, as a lookup with `NT_READONLY` does.

Main definitions:

* `UTFS.Shuffled`, `UTFS.Reordered` — two caches, and two states, that differ in the order of the list;
* `UTFS.AsksRetry` — the exception of a lookup with `NT_READONLY`;
* `UTFS.Steady` — programs that do not depend on the order, and do not ask for a second attempt.

Main results:

* `UTFS.steady_fileRead` — `FileNode::read`;
* `UTFS.steady_lookup` — `DirNode::lookup` without `NT_READONLY`.
-/

import Utopfs.BlockNodeCache
import Utopfs.DirNode

set_option relaxedAutoImplicit false
set_option autoImplicit false

namespace Utopfs

namespace UTFS

open Prog

/-! ### The order of the list -/

/-- The two caches have the same nodes, in lists of perhaps another order. -/
structure Shuffled (c c' : BlockNodeCache) : Prop where
  left : CacheRep (fun _ => False) c
  right : CacheRep (fun _ => False) c'
  nodemap : c'.nodemap = c.nodemap
  lpos : ∀ o, c'.lpos o = none ↔ c.lpos o = none
  placed : ∀ o, c'.Placed o ↔ c.Placed o

/-- The two states differ in the order of the list only. -/
def Reordered (w w' : World) : Prop := ∃ c, w' = w.setCache c ∧ Shuffled w.cache c

section order

variable {c c' : BlockNodeCache} {o : Obj} {r : BlockRef}

theorem CacheRep.placed_touched_iff {G : Obj → Prop} (h : CacheRep G c) (o' : Obj) :
    (c.touched o).Placed o' ↔ o' = o ∨ c.Placed o' := by
  constructor
  · rintro ⟨p, hp, hmem⟩
    by_cases hne : o' = o
    · exact .inl hne
    · simp only [BlockNodeCache.touched, Function.update_of_ne hne] at hp
      rcases List.mem_cons.1 hmem with heq | hmem
      · exact absurd (Prod.mk.inj heq).2 hne
      · exact .inr ⟨p, hp, List.mem_of_mem_filter hmem⟩
  · rintro (rfl | ho)
    · exact placed_touched_self
    · exact h.placed_touched ho

theorem placed_inserted_iff (o' : Obj) : (c.inserted r o).Placed o' ↔ o' = o ∨ c.Placed o' := by
  constructor
  · rintro ⟨p, hp, hmem⟩
    by_cases hne : o' = o
    · exact .inl hne
    · simp only [BlockNodeCache.inserted, Function.update_of_ne hne] at hp
      rcases List.mem_cons.1 hmem with heq | hmem
      · exact absurd (Prod.mk.inj heq).2 hne
      · exact .inr ⟨p, hp, hmem⟩
  · rintro (rfl | ho)
    · exact placed_inserted_self
    · exact placed_inserted ho

/-- The places at the front of the two lists need not be the same. -/
theorem update_eq_none (f : Obj → Option ℕ) (p : ℕ) (o' : Obj) :
    Function.update f o (some p) o' = none ↔ o' ≠ o ∧ f o' = none := by
  by_cases hne : o' = o
  · subst hne
    simp
  · simp [hne]

theorem Shuffled.touched (h : Shuffled c c') (hr : c.nodemap r = some o) :
    Shuffled (c.touched o) (c'.touched o) where
  left := h.left.touched hr
  right := h.right.touched (by rw [h.nodemap]; exact hr)
  nodemap := h.nodemap
  lpos o' := by simp only [BlockNodeCache.touched, update_eq_none, h.lpos]
  placed o' := by rw [h.left.placed_touched_iff, h.right.placed_touched_iff, h.placed]

theorem Shuffled.inserted (h : Shuffled c c') (hr : c.nodemap r = none) :
    Shuffled (c.inserted r o) (c'.inserted r o) where
  left := h.left.inserted hr (fun hG => hG.elim)
  right := h.right.inserted (by rw [h.nodemap]; exact hr) (fun hG => hG.elim)
  nodemap := by simp only [BlockNodeCache.inserted, h.nodemap]
  lpos o' := by simp only [BlockNodeCache.inserted, update_eq_none, h.lpos]
  placed o' := by rw [placed_inserted_iff, placed_inserted_iff, h.placed]

theorem Shuffled.refl (h : CacheRep (fun _ => False) c) : Shuffled c c :=
  ⟨h, h, rfl, fun _ => Iff.rfl, fun _ => Iff.rfl⟩

theorem Shuffled.trans {c'' : BlockNodeCache} (h : Shuffled c c') (h' : Shuffled c' c'') : Shuffled c c'' where
  left := h.left
  right := h'.right
  nodemap := h'.nodemap.trans h.nodemap
  lpos o := (h'.lpos o).trans (h.lpos o)
  placed o := (h'.placed o).trans (h.placed o)

/-- Touching a node changes the order only. -/
theorem Shuffled.touch (h : CacheRep (fun _ => False) c) (hr : c.nodemap r = some o) (ho : c.Placed o) :
    Shuffled c (c.touched o) where
  left := h
  right := h.touched hr
  nodemap := rfl
  lpos o' := by
    obtain ⟨p, hp, -⟩ := ho
    rw [BlockNodeCache.touched, update_eq_none]
    refine ⟨fun hn => hn.2, fun hn => ⟨?_, hn⟩⟩
    rintro rfl
    simp [hp] at hn
  placed o' := by
    rw [h.placed_touched_iff]
    refine ⟨?_, .inr⟩
    rintro (rfl | ho')
    · exact ho
    · exact ho'

end order

variable {w w' : World}

theorem Reordered.refl (h : CacheRep (fun _ => False) w.cache) : Reordered w w := ⟨w.cache, rfl, .refl h⟩

theorem Reordered.trans {w'' : World} (h : Reordered w w') (h' : Reordered w' w'') : Reordered w w'' := by
  obtain ⟨c, rfl, hc⟩ := h
  obtain ⟨c', rfl, hc'⟩ := h'
  exact ⟨c', rfl, hc.trans hc'⟩

/-! ### Programs -/

/-- The exception that asks for a second attempt. -/
def AsksRetry : Exn → Prop
  | .operationError _ => True
  | _ => False

/-- The two runs go the same way, up to the order of the list. -/
abbrev Agree {α : Type} (m m' : M α) (w w' : World) : Prop :=
  Alike Reordered (fun e => ¬ AsksRetry e) m m' w w'

/-- The program does not depend on the order of the list, and does not ask for a second attempt. -/
def Steady {α : Type} (m : M α) : Prop := ∀ w w', Reordered w w' → Agree m m w w'

variable {α β : Type}

theorem Steady.pure (a : α) : Steady (pure a) := fun _ _ h => .pure h a

theorem Steady.throw {e : Exn} (he : ¬ AsksRetry e) : Steady (throw e : M α) := fun _ _ h => .throw h he

theorem Steady.bind {m : M α} {f : α → M β} (hm : Steady m) (hf : ∀ a, Steady (f a)) : Steady (m >>= f) :=
  fun w w' h => (hm w w' h).bind fun a => hf a

theorem Steady.ite {c : Prop} [Decidable c] {m m' : M α} (hm : Steady m) (hm' : Steady m') :
    Steady (if c then m else m') := by
  split
  · exact hm
  · exact hm'

/-- A conditional that is followed by the same program. -/
theorem Steady.choice {c : Prop} [Decidable c] {m m' : M α} {f : α → M β} (hm : Steady m) (hm' : Steady m')
    (hf : ∀ a, Steady (f a)) : Steady (if c then m >>= f else m' >>= f) := .ite (hm.bind hf) (hm'.bind hf)

/-- A conditional without an alternative that is followed by a program. -/
theorem Steady.when {c : Prop} [Decidable c] {m : M Unit} {f : Unit → M β} (hm : Steady m)
    (hf : Steady (f ())) : Steady (if c then m >>= f else f ()) := .ite (hm.bind fun _ => hf) hf

/-- What is read of the state is the same in both. -/
theorem Steady.get {f : World → M α} (hf : ∀ w c, f (w.setCache c) = f w)
    (hs : ∀ w, Steady (f w)) : Steady (get >>= f) := by
  rintro w w' ⟨c, rfl, hc⟩
  refine Alike.get ?_
  rw [hf]
  exact hs w _ _ ⟨c, rfl, hc⟩

/-- What is changed of the state is not the cache. -/
theorem Steady.modify {f : World → World} (hf : ∀ w c, f (w.setCache c) = (f w).setCache c)
    (hc : ∀ w, (f w).cache = w.cache) : Steady (modify f) := by
  rintro w w' ⟨c, rfl, hs⟩
  refine Alike.modify ⟨c, hf w c, ?_⟩
  rw [hc]
  exact hs

/-! ### The clean cache -/

section cache

variable {o : Obj} {r : BlockRef}

/-- Touching a node with its iterator. -/
theorem cacheTouch_run (ho : w.cache.Placed o) :
    cacheTouch o w = .ok () (w.setCache (w.cache.touched o)) := by
  obtain ⟨_, w', hrun, rfl⟩ := exists_ok (wp_cacheTouch (Q := fun _ w' => w' = w.setCache (w.cache.touched o))
    (F := fun _ _ => False) ho rfl)
  exact hrun

/-- The exception of an iterator that cannot be used. -/
def badIterator (it : Option ℕ) : Exn :=
  if it = none then .undefined "m_nodemru.erase of the end iterator"
  else .undefined "m_nodemru.erase of an invalid iterator"

/-- Touching a node without its iterator. -/
theorem cacheTouch_fails (h : CacheRep (fun _ => False) w.cache) (ho : ¬ w.cache.Placed o) :
    cacheTouch o w = .error (badIterator (w.cache.lpos o)) w := by
  simp only [cacheTouch, mruErase, bind_apply, get_apply]
  cases hl : w.cache.lpos o with
  | none => rfl
  | some p =>
      have hmem : ¬ p ∈ w.cache.nodemru.map Prod.fst := by
        intro hp
        obtain ⟨⟨p', o'⟩, hp', rfl⟩ := List.mem_map.1 hp
        obtain rfl := h.lposOwn o p' hl o' hp'
        exact ho ⟨p', hl, hp'⟩
      simp only [if_neg hmem, throw_apply]
      rfl

theorem badIterator_eq {it it' : Option ℕ} (h : it' = none ↔ it = none) : badIterator it' = badIterator it := by
  simp only [badIterator, h]

theorem not_asksRetry_badIterator (it : Option ℕ) : ¬ AsksRetry (badIterator it) := by
  rw [badIterator]
  split <;> exact id

theorem agree_cacheTouch {c : BlockNodeCache} (hc : Shuffled w.cache c) (hr : w.cache.nodemap r = some o) :
    Agree (cacheTouch o) (cacheTouch o) w (w.setCache c) := by
  by_cases ho : w.cache.Placed o
  · have ho' : (w.setCache c).cache.Placed o := (hc.placed o).2 ho
    simp only [Alike, cacheTouch_run ho, cacheTouch_run ho']
    exact ⟨trivial, c.touched o, rfl, hc.touched hr⟩
  · have ho' : ¬ (w.setCache c).cache.Placed o := fun hp => ho ((hc.placed o).1 hp)
    simp only [Alike, cacheTouch_fails hc.left ho, cacheTouch_fails (w := w.setCache c) hc.right ho']
    exact ⟨(badIterator_eq (hc.lpos o)).symm, not_asksRetry_badIterator _, c, rfl, hc⟩

theorem steady_cacheLookup (r : BlockRef) : Steady (cacheLookup r) := by
  rintro w w' ⟨c, rfl, hc⟩
  refine Alike.get ?_
  simp only [World.setCache_cache, hc.nodemap]
  cases hr : w.cache.nodemap r with
  | none => exact .pure ⟨c, rfl, hc⟩ none
  | some o => exact (agree_cacheTouch hc hr).bind fun _ _ _ h => .pure h _

theorem steady_cacheInsert (o : Obj) : Steady (cacheInsert o) := by
  rintro w w' ⟨c, rfl, hc⟩
  refine Alike.get ?_
  have href : (w.setCache c).refOf o = w.refOf o := by cases o <;> rfl
  simp only [World.setCache_cache, hc.nodemap, href]
  cases hr : w.cache.nodemap (w.refOf o) with
  | none => exact ⟨rfl, c.inserted (w.refOf o) o, by simp [BlockNodeCache.inserted, World.setCache, hc.nodemap],
      hc.inserted hr⟩
  | some o' => exact agree_cacheTouch hc hr

end cache

/-! ### Reading blocks -/

section blocks

variable (E : Env)

theorem steady_bsBlockGet (r : BlockRef) : Steady (bsBlockGet r) := by
  refine .get (fun _ _ => rfl) fun w => ?_
  cases getBlock r w.log with
  | none => exact .throw id
  | some b => exact .pure b.1

theorem steady_readBlock (r : BlockRef) : Steady (readBlock E r) := by
  refine (steady_bsBlockGet r).bind fun b => ?_
  exact .bind (.ite (.throw id) (.pure _)) fun _ => .pure _

theorem steady_allocBlk (b : BlkNode) : Steady (allocBlk b) := by
  rintro w w' ⟨c, rfl, hc⟩
  exact ⟨rfl, c, rfl, hc⟩

theorem steady_loadBlk (level : ℕ) (r : BlockRef) : Steady (loadBlk E level r) :=
  (steady_readBlock E r).bind fun _ => steady_allocBlk _

theorem steady_castBlk (level : ℕ) (o : Obj) : Steady (castBlk level o) := by
  cases o with
  | blk n => exact .get (fun _ _ => rfl) fun w => .ite (.pure n) (.throw id)
  | fil f => exact .throw id

theorem steady_faultBlk (nocache : Bool) (level : ℕ) (r : BlockRef) : Steady (faultBlk E nocache level r) := by
  refine (steady_cacheLookup r).bind fun o => ?_
  cases o with
  | some o => exact steady_castBlk level o
  | none =>
      refine (steady_loadBlk E level r).bind fun n => ?_
      exact .when (steady_cacheInsert _) (.pure n)

variable {V : Type} (t : Traversal V) (hread : t.modifyX = false)

include hread

theorem steady_findBlk (level : ℕ) (s : Slot) : Steady (findBlk E t level s) := by
  refine .get (fun w c => ?_) fun w => ?_
  · cases s <;> rfl
  · cases w.slotObj s with
    | some n => exact steady_castBlk level (.blk n)
    | none =>
        refine .ite (steady_faultBlk E _ level _) ?_
        simp only [hread, Bool.false_eq_true, if_false]
        cases w.zobj level with
        | some n => exact .pure n
        | none => exact .throw id

theorem steady_traverseSlot {visit : ℕ → ℕ → V → M (Bool × V)} (hvisit : ∀ n off v, Steady (visit n off v))
    (level : ℕ) (s : Slot) (off : ℕ) (v : V) : Steady (traverseSlot E t visit level s off v) := by
  refine (steady_findBlk E t hread level s).bind fun n => (hvisit n off v).bind ?_
  rintro ⟨changed, v⟩
  refine .ite ?_ (.pure v)
  simp only [hread, Bool.false_eq_true, if_false]
  split
  · exact Steady.bind (.throw id) fun _ => .pure v
  · exact .pure v

omit hread in
theorem steady_traverseLoop {beyond : ℕ → Bool} {body : ℕ → V → M V} (hbody : ∀ i v, Steady (body i v))
    (count ndx : ℕ) (v : V) : Steady (traverseLoop beyond body count ndx v) := by
  induction count generalizing ndx v with
  | zero => exact .pure v
  | succ count ih => exact .ite (.pure v) ((hbody ndx v).bind fun v => ih (ndx + 1) v)

theorem steady_rbTraverse (level n off : ℕ) (v : V) : Steady (rbTraverse E t level n off v) := by
  induction level generalizing n off v with
  | zero =>
      rintro w w' ⟨c, rfl, hc⟩
      exact ⟨rfl, c, rfl, hc⟩
  | succ level ih =>
      refine .choice (.pure v) ?_ fun v => .get (fun _ _ => rfl) fun w => .pure _
      exact steady_traverseLoop (fun i v => steady_traverseSlot E t hread ih level _ _ v) _ _ v

theorem steady_traverseInd (f : ℕ) (l : List FSlot) (v : V) : Steady (traverseInd E t f l v) := by
  induction l generalizing v with
  | nil => exact .throw id
  | cons s l ih =>
      refine .choice ?_ (.pure v) fun v => .ite (.pure v) (ih v)
      exact steady_traverseSlot E t hread (steady_rbTraverse E t hread s.level) s.level _ _ v

omit hread in
theorem steady_traverseInl (f : ℕ) (v : V) : Steady (traverseInl t f v) := by
  refine .ite ?_ (.pure v)
  rintro w w' ⟨c, rfl, hc⟩
  refine Alike.get ?_
  simp only [World.setCache_fil]
  refine Alike.bind (.set ⟨c, rfl, hc⟩) ?_
  rintro - w₁ w₂ h
  have hmark : Steady (setFilDirty f true) := .modify (fun _ _ => rfl) fun _ => rfl
  split
  · exact hmark.bind (fun _ => .pure _) w₁ w₂ h
  · exact .pure h _

theorem steady_traverseRefs (f : ℕ) (v : V) : Steady (traverseRefs E t f v) := by
  have hdir : ∀ v, Steady (traverseDir E t f v) := fun v =>
    steady_traverseLoop
      (fun i v => .ite (steady_traverseSlot E t hread (steady_rbTraverse E t hread 0) 0 _ _ v) (.pure v)) _ _ v
  refine .ite (.pure v) (.choice (.pure v) (hdir v) fun v => ?_)
  exact .ite (.pure v) (steady_traverseInd E t hread f _ v)

theorem steady_rbTraverseFile (f : ℕ) (v : V) : Steady (rbTraverseFile E t f v) :=
  (steady_traverseInl t f v).bind fun v => (steady_traverseRefs E t hread f v).bind fun _ =>
    .get (fun _ _ => rfl) fun _ => .pure _

omit hread

/-- **`FileNode::read`.** -/
theorem steady_fileRead (f : ℕ) (buf : ℕ → UInt8) (size off : ℕ) : Steady (fileRead E f buf size off) := by
  intro w w' h
  refine Alike.tryCatch (Steady.bind (steady_rbTraverseFile E _ rfl f _) (fun _ => .pure _) w w' h) ?_
  intro e w₁ w₂ he h'
  cases e with
  | notFoundError d => exact .pure h' _
  | errno e => exact .pure h' _
  | _ => exact .throw h' he

end blocks

/-! ### Loading nodes -/

section nodes

variable (E : Env)

theorem steady_allocFil (x : FileNode) : Steady (allocFil x) := by
  rintro w w' ⟨c, rfl, hc⟩
  exact ⟨rfl, c, rfl, hc⟩

theorem steady_deserialize (d : ℕ) : Steady (deserialize E d) := by
  refine .get (fun _ _ => rfl) fun w => (steady_fileRead E d _ _ _).bind ?_
  rintro ⟨rv, buf⟩
  refine Steady.ite (.throw id) ?_
  dsimp only
  cases E.parseDir ((List.range (w.fil d).inode.size).map buf) with
  | some dir => exact .modify (fun _ _ => rfl) fun _ => rfl
  | none => exact .throw id

theorem steady_upgradeDir (x : FileNode) : Steady (upgradeDir E x) :=
  (steady_allocFil _).bind fun d => (steady_deserialize E d).bind fun _ => .pure d

theorem steady_loadNode (r : BlockRef) : Steady (loadNode E r) := by
  have hload : Steady (loadFileNode E r) := by
    refine Steady.bind ((steady_readBlock E r).bind fun b => ?_) fun x => steady_allocFil x
    cases E.parseINode (unpackMsg b) with
    | some i => exact .pure _
    | none => exact .throw id
  refine hload.bind fun f => .get (fun _ _ => rfl) fun w => ?_
  exact .ite (steady_upgradeDir E _) (.ite (steady_allocFil _) (.pure f))

/-- **`DirNode::lookup` without `NT_READONLY`.** -/
theorem steady_lookup (d : ℕ) (entry : Str) : Steady (lookup E d entry false) := by
  refine .get (fun _ _ => rfl) fun w => ?_
  cases (w.fil d).dirty.lookup entry with
  | some f => exact .pure _
  | none =>
      dsimp only
      cases (w.fil d).dir.lookup entry with
      | none => exact .pure _
      | some ref =>
          refine (steady_cacheLookup ref).bind fun o => ?_
          match o with
          | some (.fil f) => exact .pure _
          | some (.blk m) => exact .pure _
          | none =>
              refine (steady_loadNode E ref).bind fun f => ?_
              exact (steady_cacheInsert _).bind fun _ => .pure _

end nodes

end UTFS

end Utopfs
