/-
**Stopping the file system in the middle of an operation.**

The process may stop between any two puts.  What is then in the store is also in the store after a run of
the same operation in which the next put finds no space, for no part of an operation goes on after that;
`fs_refresh`, which goes on after a flush, is taken apart.  Meanwhile no head node is inserted: only the
last step of `fs_sync`, `fs_umount` and `fs_mkfs` does that.

Main definitions:

* `UTFS.Moved` — what all steps of an operation have in common;
* `UTFS.plan` — the puts that find no space, as a plan of faults;
* `UTFS.Halts` — a program that may stop at any put.

Main results:

* `UTFS.halts_bnFlush` — a flush;
* `UTFS.halts_rootTraverse` — following a path.
-/

import Utopfs.Faults
import Utopfs.FsPaths

set_option relaxedAutoImplicit false
set_option autoImplicit false

namespace Utopfs

namespace UTFS

open Prog

/-! ### Steps -/

/-- No head node has been inserted, the members for the root are as they were, and a node has the
reference it had, or one with an initvec that was not used before. -/
structure Moved (w w' : World) : Prop where
  log : ∃ l, w'.log = l ++ w.log ∧ heads l = []
  rdh : w'.rdh = w.rdh
  rbr : w'.rbr = w.rbr
  hn : w'.hn = w.hn
  rand : w'.rand <:+ w.rand
  nfil : w.nfil ≤ w'.nfil
  ref : ∀ f, f < w.nfil → (w'.fil f).ref = (w.fil f).ref ∨ (w'.fil f).ref.iv ∈ w.rand

theorem heads_append (l l' : List Effect) : heads (l ++ l') = heads l ++ heads l' := by
  induction l with
  | nil => rfl
  | cons e l ih =>
      cases e with
      | headInsert prev root => simp only [List.cons_append, heads, ih]
      | _ => exact ih

theorem Moved.of_log {w w' : World} (hlog : w'.log = w.log) (hmem : (w'.rdh, w'.rbr, w'.hn) = (w.rdh, w.rbr, w.hn))
    (hrand : w'.rand <:+ w.rand) (hnfil : w.nfil ≤ w'.nfil)
    (href : ∀ f, f < w.nfil → (w'.fil f).ref = (w.fil f).ref) : Moved w w' where
  log := ⟨[], by rw [hlog]; rfl, rfl⟩
  rdh := congrArg Prod.fst hmem
  rbr := congrArg (fun x => x.2.1) hmem
  hn := congrArg (fun x => x.2.2) hmem
  rand := hrand
  nfil := hnfil
  ref f hf := .inl (href f hf)

theorem Moved.refl (w : World) : Moved w w := .of_log rfl rfl (List.suffix_refl _) (Nat.le_refl _) fun _ _ => rfl

theorem Moved.trans {w w' w'' : World} (h : Moved w w') (h' : Moved w' w'') : Moved w w'' where
  log := by
    obtain ⟨l, hl, hh⟩ := h.log
    obtain ⟨l', hl', hh'⟩ := h'.log
    exact ⟨l' ++ l, by rw [hl', hl, List.append_assoc], by rw [heads_append, hh, hh']; rfl⟩
  rdh := h'.rdh.trans h.rdh
  rbr := h'.rbr.trans h.rbr
  hn := h'.hn.trans h.hn
  rand := h'.rand.trans h.rand
  nfil := h.nfil.trans h'.nfil
  ref f hf := by
    rcases h'.ref f (hf.trans_le h.nfil) with heq | hiv
    · rw [heq]
      exact h.ref f hf
    · exact .inr (h.rand.subset hiv)

/-- The puts that will find no space. -/
def World.setFull (w : World) (full : List Bool) : World := { w with full := full }

/-- The puts that find no space are a plan of faults. -/
def plan : Faulty Exn World Effect where
  setFaults l w := w.setFull l
  log w := w.log
  fault := .noSpaceError "insufficent space"
  Step := Moved
  refl := .refl
  trans := .trans
  grows h := by
    obtain ⟨l, hl, -⟩ := h.log
    exact ⟨l, hl.symm⟩
  log_setFaults _ _ := rfl

/-- The program may stop at any put. -/
abbrev Halts {α : Type} (m : M α) : Prop := Stops plan m

variable {α β : Type}

/-- A change of something else than the log, the members, the random bytes and the references. -/
theorem halts_modify {g : World → World} (hg : ∀ l w, g (w.setFull l) = (g w).setFull l)
    (hlog : ∀ w, (g w).log = w.log) (hmem : ∀ w, ((g w).rdh, (g w).rbr, (g w).hn) = (w.rdh, w.rbr, w.hn))
    (hrand : ∀ w, (g w).rand = w.rand) (hnfil : ∀ w, (g w).nfil = w.nfil)
    (href : ∀ w f, ((g w).fil f).ref = (w.fil f).ref) : Halts (modify g : M Unit) := by
  refine Stops.modify hg (fun w => .of_log (hlog w) (hmem w) ?_ (hnfil w).ge fun f _ => href w f) hlog
  rw [hrand]

/-- A change of one file node. -/
theorem halts_modifyFil (f : ℕ) {g : World → FileNode} (hg : ∀ l w, g (w.setFull l) = g w)
    (href : ∀ w, (g w).ref = (w.fil f).ref) : Halts (modify fun w : World => w.setFil f (g w) : M Unit) := by
  refine halts_modify (fun l w => ?_) (fun _ => rfl) (fun _ => rfl) (fun _ => rfl) (fun _ => rfl) fun w f' => ?_
  · rw [hg]
    rfl
  · by_cases hf : f' = f
    · subst hf
      rw [setFil_self, href]
    · rw [setFil_of_ne w _ hf]

/-- A change of one block node. -/
theorem halts_modifyBlk (n : ℕ) {g : World → BlkNode} (hg : ∀ l w, g (w.setFull l) = g w) :
    Halts (modify fun w : World => w.setBlk n (g w) : M Unit) := by
  refine halts_modify (fun l w => ?_) (fun _ => rfl) (fun _ => rfl) (fun _ => rfl) (fun _ => rfl) fun _ _ => rfl
  rw [hg]
  rfl

/-! ### Nodes and the clean cache -/

section nodes

theorem halts_setSlotRef (s : Slot) (r : BlockRef) : Halts (setSlotRef s r) := by
  cases s with
  | fil f s => exact halts_modifyFil f (fun _ _ => rfl) fun _ => rfl
  | sub n i => exact halts_modifyBlk n fun _ _ => rfl

theorem halts_setSlotObj (s : Slot) (o : Option ℕ) : Halts (setSlotObj s o) := by
  cases s with
  | fil f s => exact halts_modifyFil f (fun _ _ => rfl) fun _ => rfl
  | sub n i => exact halts_modifyBlk n fun _ _ => rfl

theorem halts_setFilDirty (f : ℕ) (b : Bool) : Halts (setFilDirty f b) :=
  halts_modifyFil f (fun _ _ => rfl) fun _ => rfl

theorem halts_modifyINode (f : ℕ) (g : INode → INode) : Halts (modifyINode f g) :=
  halts_modifyFil f (fun _ _ => rfl) fun _ => rfl

theorem halts_setBlkDirty (n : ℕ) (b : Bool) : Halts (setBlkDirty n b) := by
  refine .of_eq (c := fun w => ((w.blk n).zero && b && decide ((w.blk n).level ≤ 1), (w.blk n).level))
    (f := fun x =>
      if x.1 then throw (.internalError ("dirtying the " ++ zeroName x.2 ++ " block makes me sad"))
      else modify fun w => w.setBlk n { w.blk n with isdirty := b })
    (fun w => ?_) (fun _ _ => rfl) fun x => .ite (.throw _) (halts_modifyBlk n fun _ _ => rfl)
  simp only [setBlkDirty, bind_apply, get_apply]
  split <;> rfl

theorem halts_setOwnerDirty (s : Slot) : Halts (setOwnerDirty s) := by
  cases s with
  | fil f s => exact halts_setFilDirty f true
  | sub n i => exact halts_setBlkDirty n true

theorem halts_now : Halts now :=
  .quiet (fun _ _ => rfl) (fun _ => .of_log rfl rfl (List.suffix_refl _) (Nat.le_refl _) fun _ _ => rfl)
    fun _ => rfl

/-- A change of the clean cache. -/
theorem halts_setCache (g : World → BlockNodeCache) (hg : ∀ l w, g (w.setFull l) = g w) :
    Halts (modify fun w => { w with cache := g w } : M Unit) := by
  refine halts_modify (fun l w => ?_) (fun _ => rfl) (fun _ => rfl) (fun _ => rfl) (fun _ => rfl) fun _ _ => rfl
  rw [hg]
  rfl

theorem halts_mruErase (it : Option ℕ) : Halts (mruErase it) := by
  cases it with
  | none => exact .get (fun _ _ => rfl) fun w => .throw _
  | some p =>
      refine .of_eq (c := fun w => decide (p ∈ w.cache.nodemru.map Prod.fst))
        (f := fun x =>
          if x then modify fun w => { w with
            cache := { w.cache with nodemru := w.cache.nodemru.filter fun x => x.1 ≠ p } }
          else throw (.undefined "m_nodemru.erase of an invalid iterator"))
        (fun w => ?_) (fun _ _ => rfl) fun x => .ite (halts_setCache _ fun _ _ => rfl) (.throw _)
      simp only [mruErase, bind_apply, get_apply, decide_eq_true_eq]
      split <;> rfl

theorem halts_cacheTouch (o : Obj) : Halts (cacheTouch o) :=
  .get (fun _ _ => rfl) fun _ => (halts_mruErase _).bind fun _ => halts_setCache _ fun _ _ => rfl

theorem halts_cacheInsert (o : Obj) : Halts (cacheInsert o) := by
  have href : ∀ l w, (World.setFull w l).refOf o = w.refOf o := fun l w => by cases o <;> rfl
  -- The node that is there is touched; else there is a new key.
  refine .of_eq (c := fun w => w.cache.nodemap (w.refOf o))
    (f := fun x => x.elim
      (do
        modify fun w => { w with cache := { w.cache with
          nodemap := Function.update w.cache.nodemap (w.refOf o) (some o) } }
        mruPushFront o)
      cacheTouch)
    (fun w => ?_) (fun l w => ?_) fun x => ?_
  · simp only [cacheInsert, bind_apply, get_apply]
    cases w.cache.nodemap (w.refOf o) <;> rfl
  · exact congrArg w.cache.nodemap (href l w)
  · cases x with
    | some o' => exact halts_cacheTouch o'
    | none =>
        refine Stops.bind (halts_setCache _ fun l w => ?_) fun _ => halts_setCache _ fun _ _ => rfl
        simp only [href]
        rfl

theorem halts_cacheLookup (r : BlockRef) : Halts (cacheLookup r) := by
  refine .get (fun _ _ => rfl) fun w => ?_
  cases w.cache.nodemap r with
  | none => exact .pure _
  | some o => exact (halts_cacheTouch o).bind fun _ => .pure _

theorem halts_cacheRemove (r : BlockRef) : Halts (cacheRemove r) := by
  -- The key goes, and the node loses its place.
  refine .of_eq (c := fun w => w.cache.nodemap r)
    (f := fun x => x.elim (pure ()) fun o => do
      modify fun w => { w with cache := { w.cache with
        nodemap := Function.update w.cache.nodemap r none } }
      let w ← get
      mruErase (w.cache.lpos o)
      modify fun w => { w with cache := { w.cache with lpos := Function.update w.cache.lpos o none } })
    (fun w => ?_) (fun _ _ => rfl) fun x => ?_
  · simp only [cacheRemove, bind_apply, get_apply]
    cases w.cache.nodemap r <;> rfl
  · cases x with
    | none => exact .pure _
    | some o =>
        refine Stops.bind (halts_setCache _ fun _ _ => rfl) fun _ => .get (fun _ _ => rfl) fun _ => ?_
        exact (halts_mruErase _).bind fun _ => halts_setCache _ fun _ _ => rfl

end nodes

/-! ### Blocks -/

section blocks

theorem halts_bsBlockGet (r : BlockRef) : Halts (bsBlockGet r) := by
  refine .get (fun _ _ => rfl) fun w => ?_
  cases getBlock r w.log with
  | none => exact .throw _
  | some b => exact .pure _

theorem halts_randomFill : Halts randomFill := by
  refine .of_eq (c := fun w => w.rand.head?)
    (f := fun x => x.elim (throw (.internalError "trouble in RAND_pseudo_bytes")) fun iv => do
      modify fun w => { w with rand := w.rand.tail }
      return iv)
    (fun w => ?_) (fun _ _ => rfl) fun x => ?_
  · simp only [randomFill, bind_apply, get_apply]
    cases hr : w.rand with
    | nil => rfl
    | cons iv rand =>
        simp only [Option.elim, List.head?_cons, bind_apply, set_apply, pure_apply, modify_apply, hr, List.tail_cons]
  · cases x with
    | none => exact .throw _
    | some iv =>
        refine Stops.bind (Stops.modify (fun _ _ => rfl) (fun w => ?_) fun _ => rfl) fun _ => .pure _
        exact .of_log rfl rfl (List.tail_suffix _) (Nat.le_refl _) fun _ _ => rfl

theorem halts_bsBlockPut (r : BlockRef) (b : Block) (kind : Kind) : Halts (bsBlockPut r b kind) := by
  intro w
  have hput : Moved w { w with full := w.full.tail, log := .put r b kind :: w.log } :=
    { Moved.refl w with log := ⟨[.put r b kind], rfl, rfl⟩ }
  have hfail : bsBlockPut r b kind (w.setFull [true]) = .error plan.fault (w.setFull []) := rfl
  have hlogged : w.full.head? ≠ some true →
      bsBlockPut r b kind w = .ok () { w with full := w.full.tail, log := .put r b kind :: w.log } := by
    intro hhead
    simp only [bsBlockPut, bind_apply, get_apply]
    cases hfull : w.full with
    | nil => rfl
    | cons b full =>
        cases b with
        | false => rfl
        | true => simp [hfull] at hhead
  -- The put finds no space, or it is logged.
  by_cases hhead : w.full.head? = some true
  · obtain ⟨full, hfull⟩ := List.head?_eq_some_iff.1 hhead
    have hrun : bsBlockPut r b kind w = .error plan.fault (w.setFull full) := by
      simp only [bsBlockPut, bind_apply, get_apply, hfull]
      rfl
    have hend := final_error hrun
    refine .request (b := true) (x := .put r b kind) ?_ (fun rest => ?_) ⟨[true], _, hfail, rfl⟩ (.inl ?_)
    · rw [hend]
      exact .of_log rfl rfl (List.suffix_refl _) (Nat.le_refl _) fun _ _ => rfl
    · rw [hrun]
      rfl
    · rw [hend]
      rfl
  · have hend := final_ok (hlogged hhead)
    refine .request (b := false) (x := .put r b kind) ?_ (fun rest => ?_) ⟨[true], _, hfail, rfl⟩ (.inr ?_)
    · rw [hend]
      exact hput
    · rw [hlogged hhead]
      rfl
    · rw [hend]
      rfl

variable (E : Env)

theorem halts_readBlock (r : BlockRef) : Halts (readBlock E r) :=
  (halts_bsBlockGet r).bind fun _ => .bind (.ite (.throw _) (.pure _)) fun _ => .pure _

theorem halts_allocBlk (b : BlkNode) : Halts (allocBlk b) :=
  .quiet (fun _ _ => rfl) (fun _ => .of_log rfl rfl (List.suffix_refl _) (Nat.le_refl _) fun _ _ => rfl)
    fun _ => rfl

theorem halts_castBlk (level : ℕ) (o : Obj) : Halts (castBlk level o) := by
  cases o with
  | blk n => exact .get (fun _ _ => rfl) fun w => .ite (.pure n) (.throw _)
  | fil f => exact .throw _

theorem halts_faultBlk (nocache : Bool) (level : ℕ) (r : BlockRef) : Halts (faultBlk E nocache level r) := by
  refine (halts_cacheLookup r).bind fun o => ?_
  cases o with
  | some o => exact halts_castBlk level o
  | none =>
      refine Stops.bind ((halts_readBlock E r).bind fun _ => halts_allocBlk _) fun n => ?_
      exact .when (halts_cacheInsert _) (.pure n)

theorem halts_keepDirty (s : Slot) (n : ℕ) : Halts (keepDirty s n) :=
  .get (fun _ _ => rfl) fun _ => (halts_cacheRemove _).bind fun _ => (halts_setSlotObj s _).bind fun _ =>
    halts_setOwnerDirty s

end blocks

/-! ### Traversing the blocks of a file -/

section traverse

variable (E : Env) {V : Type} (t : Traversal V)

theorem halts_findBlk (level : ℕ) (s : Slot) : Halts (findBlk E t level s) := by
  refine .get (fun l w => ?_) fun w => ?_
  · cases s <;> rfl
  · cases w.slotObj s with
    | some n => exact halts_castBlk level (.blk n)
    | none =>
        refine .ite (halts_faultBlk E _ level _) (.ite ?_ ?_)
        · refine (halts_allocBlk _).bind fun n => (halts_setSlotObj s _).bind fun _ => ?_
          exact (halts_modifyINode _ _).bind fun _ => .pure n
        · cases w.zobj level with
          | some n => exact .pure n
          | none => exact .throw _

theorem halts_traverseSlot {visit : ℕ → ℕ → V → M (Bool × V)} (hvisit : ∀ n off v, Halts (visit n off v))
    (level : ℕ) (s : Slot) (off : ℕ) (v : V) : Halts (traverseSlot E t visit level s off v) := by
  refine (halts_findBlk E t level s).bind fun n => (hvisit n off v).bind ?_
  rintro ⟨changed, v⟩
  have hdirty : Halts (do
      if level = 0 then setBlkDirty n true
      keepDirty s n
      return v) :=
    .when (halts_setBlkDirty n true) ((halts_keepDirty s n).bind fun _ => .pure v)
  refine .ite (.ite hdirty ?_) (.pure v)
  split
  · exact Stops.bind (.throw _) fun _ => .pure v
  · exact .pure v

theorem halts_traverseLoop {beyond : ℕ → Bool} {body : ℕ → V → M V} (hbody : ∀ i v, Halts (body i v))
    (count ndx : ℕ) (v : V) : Halts (traverseLoop beyond body count ndx v) := by
  induction count generalizing ndx v with
  | zero => exact .pure v
  | succ count ih => exact .ite (.pure v) ((hbody ndx v).bind fun v => ih (ndx + 1) v)

theorem halts_rbTraverse (level n off : ℕ) (v : V) : Halts (rbTraverse E t level n off v) := by
  induction level generalizing n off v with
  | zero =>
      exact .quiet (fun _ _ => rfl)
        (fun _ => .of_log rfl rfl (List.suffix_refl _) (Nat.le_refl _) fun _ _ => rfl) fun _ => rfl
  | succ level ih =>
      refine .choice (.pure v) ?_ fun v => .get (fun _ _ => rfl) fun w => .pure _
      exact halts_traverseLoop (fun i v => halts_traverseSlot E t ih level _ _ v) _ _ v

theorem halts_traverseInd (f : ℕ) (l : List FSlot) (v : V) : Halts (traverseInd E t f l v) := by
  induction l generalizing v with
  | nil => exact .throw _
  | cons s l ih =>
      refine .choice ?_ (.pure v) fun v => .ite (.pure v) (ih v)
      exact halts_traverseSlot E t (halts_rbTraverse E t s.level) s.level _ _ v

theorem halts_traverseInl (f : ℕ) (v : V) : Halts (traverseInl t f v) := by
  refine .ite ?_ (.pure v)
  refine .of_eq (c := fun w => t.btVisit v 4096 (w.fil f).inl 0 (w.fil f).inode.size)
    (f := fun x => do
      modify fun w => w.setFil f { w.fil f with inl := x.2.2 }
      if x.1 then setFilDirty f true
      return x.2.1)
    (fun w => ?_) (fun _ _ => rfl) fun x => ?_
  · rfl
  · refine Stops.bind (halts_modifyFil f (fun _ _ => rfl) fun _ => rfl) fun _ => ?_
    exact .when (halts_setFilDirty f true) (.pure _)

theorem halts_rbTraverseFile (f : ℕ) (v : V) : Halts (rbTraverseFile E t f v) := by
  have hdir : ∀ v, Halts (traverseDir E t f v) := fun v =>
    halts_traverseLoop
      (fun i v => .ite (halts_traverseSlot E t (halts_rbTraverse E t 0) 0 _ _ v) (.pure v)) _ _ v
  have hrefs : ∀ v, Halts (traverseRefs E t f v) := fun v => by
    refine .ite (.pure v) (.choice (.pure v) (hdir v) fun v => ?_)
    exact .ite (.pure v) (halts_traverseInd E t f _ v)
  exact (halts_traverseInl t f v).bind fun v => (hrefs v).bind fun _ => .get (fun _ _ => rfl) fun _ => .pure _

theorem halts_fileRead (f : ℕ) (buf : ℕ → UInt8) (size off : ℕ) : Halts (fileRead E f buf size off) := by
  refine .tryCatch (Stops.bind (halts_rbTraverseFile E _ f _) fun _ => .pure _) (fun e => ?_) rfl
  cases e <;> first | exact .pure _ | exact .throw _

theorem halts_fileWrite (f : ℕ) (data : List UInt8) (off : ℕ) : Halts (fileWrite E f data off) := by
  refine .tryCatch ((halts_rbTraverseFile E _ f _).bind ?_) (fun e => ?_) rfl
  · rintro ⟨changed, retval⟩
    refine .ite ?_ (.pure _)
    exact (halts_modifyINode f _).bind fun _ => (halts_setFilDirty f true).bind fun _ => .pure _
  · cases e <;> first | exact .pure _ | exact .throw _

end traverse

/-! ### Flushing and truncating a file -/

section flush

variable (E : Env)

theorem halts_persistBlk (n : ℕ) : Halts (persistBlk E n) := by
  refine .get (fun _ _ => rfl) fun w => ?_
  have hblock : Halts (persistBlock E
      (if (w.blk n).level = 0 then (w.blk n).data else packRefs (w.blk n).blkref) (.blk (w.blk n).level)
      (fun r => modify fun w => w.setBlk n { w.blk n with ref := r }) (setBlkDirty n false)) := by
    refine halts_randomFill.bind fun iv => Stops.bind (halts_modifyBlk n fun _ _ => rfl) fun _ => ?_
    exact (halts_bsBlockPut _ _ _).bind fun _ => (halts_setBlkDirty n false).bind fun _ => .pure _
  exact .when (.throw _) hblock

theorem halts_flushSlot {flush : ℕ → M BlockRef} (hflush : ∀ c, Halts (flush c)) (s : Slot) :
    Halts (flushSlot flush s) := by
  refine .get (fun l w => ?_) fun w => ?_
  · cases s <;> rfl
  · cases w.slotObj s with
    | none => exact .pure _
    | some c =>
        refine (hflush c).bind fun r => (halts_setSlotRef s r).bind fun _ => ?_
        exact (halts_cacheInsert _).bind fun _ => halts_setSlotObj s none

theorem halts_bnFlushBlk (level : ℕ) : ∀ n, Halts (bnFlushBlk E level n) := by
  induction level with
  | zero => exact halts_persistBlk E
  | succ level ih =>
      intro n
      refine .get (fun _ _ => rfl) fun w => .ite (.pure _) ?_
      exact (Stops.forM (fun i => halts_flushSlot ih _) _).bind fun _ => halts_persistBlk E n

/-- The reference of a node is made from unused random bytes. -/
def restamp (f : ℕ) (make : IV → BlockRef) : M IV := do
  let iv ← randomFill
  modify fun w => w.setFil f { w.fil f with ref := make iv }
  return iv

theorem restamp_nil {w : World} (f : ℕ) (make : IV → BlockRef) (hrand : w.rand = []) :
    restamp f make w = .error (.internalError "trouble in RAND_pseudo_bytes") w := by
  simp only [restamp, randomFill, bind_apply, get_apply, hrand]
  rfl

theorem restamp_cons {w : World} {iv : IV} {rand : List IV} (f : ℕ) (make : IV → BlockRef)
    (hrand : w.rand = iv :: rand) :
    restamp f make w = .ok iv ({ w with rand := rand }.setFil f { w.fil f with ref := make iv }) := by
  simp only [restamp, randomFill, bind_apply, get_apply, hrand]
  rfl

theorem halts_restamp (f : ℕ) {make : IV → BlockRef} (hmake : ∀ iv, (make iv).iv = iv) :
    Halts (restamp f make) := by
  intro w
  cases hrand : w.rand with
  | nil =>
      have hrun := restamp_nil f make hrand
      refine .quiet (fun l => ?_) ?_ (congrArg World.log (final_error hrun))
      · rw [hrun]
        exact restamp_nil (w := w.setFull l) f make hrand
      · rw [final_error hrun]
        exact .refl w
  | cons iv rand =>
      have hrun := restamp_cons f make hrand
      refine .quiet (fun l => ?_) ?_ ?_
      · rw [hrun]
        exact restamp_cons (w := w.setFull l) f make hrand
      · rw [final_ok hrun]
        refine { Moved.refl w with rand := ⟨[iv], hrand.symm⟩, ref := fun g _ => ?_ }
        by_cases hg : g = f
        · subst hg
          refine .inr ?_
          rw [hrand, setFil_self, hmake]
          exact List.mem_cons_self
        · exact .inl (congrArg FileNode.ref (setFil_of_ne _ _ hg))
      · rw [final_ok hrun]
        rfl

theorem halts_persistFile (f : ℕ) : Halts (persistFile E f) := by
  refine .get (fun _ _ => rfl) fun w => .when (.throw _) ?_
  -- The random bytes and the reference are one step.
  have hblock : ∀ (contents : Block), persistBlock E contents .inode
      (fun r => modify fun w => w.setFil f { w.fil f with ref := r }) (setFilDirty f false) =
      (do
        let iv ← restamp f fun iv => BlockRef.make (E.digest (E.encrypt iv contents)) iv
        let buf := E.encrypt iv contents
        let ref := BlockRef.make (E.digest buf) iv
        bsBlockPut ref buf .inode
        setFilDirty f false
        return ref) := by
    intro contents
    simp only [persistBlock, restamp, bind_assoc, pure_bind]
  rw [hblock]
  refine (halts_restamp f fun iv => BlockRef.iv_make _ iv).bind fun iv => ?_
  exact (halts_bsBlockPut _ _ _).bind fun _ => (halts_setFilDirty f false).bind fun _ => .pure _

theorem halts_bnFlushFile (f : ℕ) : Halts (bnFlushFile E f) := by
  refine .get (fun _ _ => rfl) fun w => .ite (.pure _) ?_
  refine (Stops.forM (fun s => halts_flushSlot (halts_bnFlushBlk E s.level) _) fslots).bind fun _ => ?_
  exact halts_persistFile E f

theorem halts_findExisting (level : ℕ) (s : Slot) : Halts (findExisting E level s) := by
  refine .get (fun l w => ?_) fun w => ?_
  · cases s <;> rfl
  · cases w.slotObj s with
    | some n => exact (halts_castBlk level (.blk n)).bind fun _ => .pure _
    | none => exact .ite ((halts_faultBlk E false level _).bind fun _ => .pure _) (.pure _)

theorem halts_clearSlot (s : Slot) : Halts (clearSlot s) := by
  refine .get (fun l w => ?_) fun w => ?_
  · cases s <;> rfl
  · refine (halts_cacheRemove _).bind fun _ => (halts_setSlotRef s _).bind fun _ => ?_
    exact (halts_setSlotObj s _).bind fun _ => halts_setOwnerDirty s

theorem halts_truncateDataSlot (s : Slot) (off size : ℕ) : Halts (truncateDataSlot E s off size) := by
  refine .get (fun l w => ?_) fun w => .ite (.pure _) (.ite ?_ ?_)
  · cases s <;> rfl
  · refine (halts_findExisting E 0 s).bind fun n => ?_
    cases n with
    | none => exact .pure _
    | some n =>
        refine Stops.bind (halts_modifyBlk n fun _ _ => rfl) fun _ => (halts_setBlkDirty n true).bind fun _ => ?_
        exact (halts_keepDirty s n).bind fun _ => .pure _
  · exact (halts_clearSlot s).bind fun _ => .pure _

theorem halts_truncateIndSlot {truncate : ℕ → M ℕ} (ht : ∀ n, Halts (truncate n)) (level : ℕ) (s : Slot) :
    Halts (truncateIndSlot E truncate level s) := by
  refine (halts_findExisting E level s).bind fun n => ?_
  cases n with
  | none => exact .throw _
  | some n =>
      refine (ht n).bind fun nb => .get (fun _ _ => rfl) fun w => ?_
      refine .when (halts_keepDirty s n) (.ite (.pure nb) ?_)
      exact (halts_clearSlot s).bind fun _ => .pure _

theorem halts_sumM {γ : Type} {body : γ → M ℕ} (hbody : ∀ a, Halts (body a)) (l : List γ) :
    Halts (sumM body l) := by
  induction l with
  | nil => exact .pure _
  | cons a l ih => exact (hbody a).bind fun _ => ih.bind fun _ => .pure _

theorem halts_rbTruncate (level n base size : ℕ) : Halts (rbTruncate E level n base size) := by
  induction level generalizing n base with
  | zero => exact (halts_sumM (fun i => halts_truncateDataSlot E _ _ _) _).bind fun _ => .pure _
  | succ level ih =>
      refine (halts_sumM (fun i => ?_) _).bind fun _ => .pure _
      refine .get (fun _ _ => rfl) fun w => .ite (.ite ?_ (.pure _)) ?_
      · exact halts_truncateIndSlot E (fun c => ih c _) _ _
      · exact (halts_clearSlot _).bind fun _ => .pure _

theorem halts_rbTruncateFile (f size : ℕ) : Halts (rbTruncateFile E f size) := by
  have hrest : Halts (do
      let off := if size < 4096 then 8192 else 4096
      let k ← sumM
        (fun i : Fin 20 => truncateDataSlot E (.fil f (.dir i)) (off + i * 8192) size)
        (List.finRange 20)
      let off := off + 20 * 8192
      let s := Slot.fil f .sin
      let w ← get
      let nb ←
        if (w.slotObj s).isSome ∨ w.slotRef s ≠ .nil then
          if off < size then truncateIndSlot E (fun c => rbTruncate E 0 c off size) 1 s
          else do
            clearSlot s
            pure 0
        else pure 0
      return 1 + k + nb) := by
    refine (halts_sumM (fun i => halts_truncateDataSlot E _ _ _) _).bind fun k => ?_
    refine .get (fun _ _ => rfl) fun w => .ite (.ite ?_ ?_) (.pure _)
    · exact (halts_truncateIndSlot E (fun c => halts_rbTruncate E 0 c _ size) 1 _).bind fun _ => .pure _
    · exact (halts_clearSlot _).bind fun _ => .pure _
  refine .ite (Stops.bind (halts_modifyFil f (fun _ _ => rfl) fun _ => rfl) fun _ => ?_) hrest
  exact (halts_setFilDirty f true).bind fun _ => hrest

theorem halts_fileTruncate (f size : ℕ) : Halts (fileTruncate E f size) := by
  refine (halts_rbTruncateFile E f size).bind fun _ => (halts_modifyINode f _).bind fun _ => ?_
  exact halts_now.bind fun _ => (halts_modifyINode f _).bind fun _ => halts_setFilDirty f true

end flush

/-! ### Directories -/

section dirs

variable (E : Env)

theorem halts_allocFil (x : FileNode) : Halts (allocFil x) := by
  refine .quiet (fun _ _ => rfl) (fun w => ?_) fun _ => rfl
  refine .of_log rfl rfl (List.suffix_refl _) (Nat.le_succ _) fun f hf => ?_
  exact congrArg FileNode.ref (allocFil_of_lt w x hf)

theorem halts_newFileNode (mode : UInt32) (uname gname : Str) : Halts (newFileNode mode uname gname) :=
  halts_now.bind fun _ => halts_allocFil _

theorem halts_newDirNode (mode : UInt32) (uname gname : Str) : Halts (newDirNode mode uname gname) :=
  halts_now.bind fun _ => halts_allocFil _

theorem halts_newSymlinkNode (path : Str) : Halts (newSymlinkNode path) :=
  halts_now.bind fun _ => .when (.throw _) (halts_allocFil _)

theorem halts_readFileNode (r : BlockRef) : Halts (readFileNode E r) := by
  refine (halts_readBlock E r).bind fun b => ?_
  cases E.parseINode (unpackMsg b) with
  | some i => exact .pure _
  | none => exact .throw _

theorem halts_modifyDir (d : ℕ) (g : Directory → Directory) : Halts (modifyDir d g) :=
  halts_modifyFil d (fun _ _ => rfl) fun _ => rfl

theorem halts_modifyDirty (d : ℕ) (g : List (Str × ℕ) → List (Str × ℕ)) : Halts (modifyDirty d g) :=
  halts_modifyFil d (fun _ _ => rfl) fun _ => rfl

theorem halts_deserialize (d : ℕ) : Halts (deserialize E d) := by
  refine .get (fun _ _ => rfl) fun w => (halts_fileRead E d _ _ _).bind ?_
  rintro ⟨rv, buf⟩
  refine .when (.throw _) ?_
  dsimp only
  cases E.parseDir ((List.range (w.fil d).inode.size).map buf) with
  | some dir => exact halts_modifyDir d _
  | none => exact .throw _

theorem halts_upgradeDir (x : FileNode) : Halts (upgradeDir E x) :=
  (halts_allocFil _).bind fun d => (halts_deserialize E d).bind fun _ => .pure d

theorem halts_loadNode (r : BlockRef) : Halts (loadNode E r) := by
  have hload : Halts (loadFileNode E r) := (halts_readFileNode E r).bind fun x => halts_allocFil x
  refine hload.bind fun f => .get (fun _ _ => rfl) fun w => ?_
  exact .ite (halts_upgradeDir E _) (.ite (halts_allocFil _) (.pure f))

theorem halts_lookup (d : ℕ) (entry : Str) (readonly : Bool) : Halts (lookup E d entry readonly) := by
  refine .get (fun _ _ => rfl) fun w => ?_
  cases (w.fil d).dirty.lookup entry with
  | some f => exact .pure _
  | none =>
      dsimp only
      cases (w.fil d).dir.lookup entry with
      | none => exact .pure _
      | some ref =>
          refine (halts_cacheLookup ref).bind fun o => ?_
          match o with
          | some (.fil f) => exact .pure _
          | some (.blk m) => exact .pure _
          | none =>
              refine .when (.throw _) ((halts_loadNode E ref).bind fun f => ?_)
              exact (halts_cacheInsert _).bind fun _ => .pure _

theorem halts_updateNode (d : ℕ) (entry : Str) (fnh : Option ℕ) : Halts (updateNode d entry fnh) := by
  refine halts_now.bind fun _ => (halts_modifyINode d _).bind fun _ => ?_
  cases fnh with
  | some f => exact (halts_modifyDirty d _).bind fun _ => halts_setFilDirty d true
  | none => exact halts_setFilDirty d true

theorem halts_removeEntry (d : ℕ) (entry : Str) : Halts (removeEntry d entry) := by
  refine .get (fun _ _ => rfl) fun w => .when (.throw _) ?_
  refine (halts_modifyDir d _).bind fun _ => (halts_modifyDirty d _).bind fun _ => ?_
  exact .when (halts_cacheRemove _) (halts_setFilDirty d true)

theorem halts_flushDirty {flush : ℕ → M BlockRef} (hflush : ∀ f, Halts (flush f)) (d count : ℕ) :
    Halts (flushDirty flush d count) := by
  induction count with
  | zero => exact .pure _
  | succ count ih =>
      refine .get (fun _ _ => rfl) fun w => ?_
      match (w.fil d).dirty with
      | [] => exact .pure _
      | (entry, f) :: _ =>
          refine (hflush f).bind fun ref => (halts_modifyDir d _).bind fun _ => ?_
          exact (halts_cacheInsert _).bind fun _ => (halts_modifyDirty d _).bind fun _ => ih

theorem halts_flushDirData (d : ℕ) : Halts (flushDirData E d) := by
  refine .get (fun _ _ => rfl) fun w => (halts_fileWrite E d _ 0).bind fun rv => ?_
  exact .when (.throw _) (.when (halts_fileTruncate E d _) (halts_bnFlushFile E d))

theorem halts_nodeFlush (fuel : ℕ) : ∀ f, Halts (nodeFlush E fuel f) := by
  induction fuel with
  | zero => exact fun _ => .throw _
  | succ fuel ih =>
      refine fun f => .get (fun _ _ => rfl) fun w => .ite (.ite (.pure _) ?_) (halts_bnFlushFile E f)
      exact (halts_flushDirty ih f _).bind fun _ => halts_flushDirData E f

/-- **A flush may stop at any put.** -/
theorem halts_bnFlush (f : ℕ) : Halts (bnFlush E f) :=
  .get (fun _ _ => rfl) fun _ => halts_nodeFlush E _ f

theorem halts_findBlkref (d : ℕ) (entry : Str) : Halts (findBlkref E d entry) := by
  refine .get (fun _ _ => rfl) fun w => ?_
  cases (w.fil d).dirty.lookup entry with
  | some f =>
      refine (halts_bnFlush E f).bind fun ref => (halts_cacheInsert _).bind fun _ => ?_
      exact (halts_modifyDirty d _).bind fun _ => (halts_modifyDir d _).bind fun _ => .pure _
  | none => exact .pure _

theorem halts_addNode (d : ℕ) (entry : Str) {make : M ℕ} (hmake : Halts make) : Halts (addNode E d entry make) := by
  refine (halts_lookup E d entry false).bind fun o => ?_
  cases o with
  | some _ => exact .throw _
  | none => exact hmake.bind fun f => (halts_modifyDirty d _).bind fun _ => halts_modifyDir d _

theorem halts_mknod (d : ℕ) (entry : Str) (mode : UInt32) (uname gname : Str) :
    Halts (mknod E d entry mode uname gname) :=
  (halts_addNode E d entry (halts_newFileNode mode uname gname)).bind fun _ =>
    (halts_setFilDirty d true).bind fun _ => .pure _

theorem halts_mkdir (d : ℕ) (entry : Str) (mode : UInt32) (uname gname : Str) :
    Halts (mkdir E d entry mode uname gname) :=
  (halts_addNode E d entry (halts_newDirNode mode uname gname)).bind fun _ =>
    (halts_modifyINode d _).bind fun _ => (halts_setFilDirty d true).bind fun _ => .pure _

theorem halts_unlink (d : ℕ) (entry : Str) (dirstoo : Bool) : Halts (unlink E d entry dirstoo) := by
  refine (halts_lookup E d entry false).bind fun o => ?_
  cases o with
  | none => exact .throw _
  | some f =>
      refine .get (fun _ _ => rfl) fun w => .when (.throw _) ?_
      exact (halts_removeEntry d entry).bind fun _ => .pure _

theorem halts_rmdir (d : ℕ) (entry : Str) : Halts (rmdir E d entry) := by
  refine (halts_lookup E d entry false).bind fun o => ?_
  cases o with
  | none => exact .throw _
  | some f =>
      refine .get (fun _ _ => rfl) fun w => .when (.throw _) (.when (.throw _) (.when (.throw _) ?_))
      exact (halts_removeEntry d entry).bind fun _ => .pure _

theorem halts_symlink (d : ℕ) (entry opath : Str) : Halts (symlink E d entry opath) := by
  refine .get (fun _ _ => rfl) fun w => .ite (.ite (.pure _) ?_) ?_
  · refine (halts_newSymlinkNode opath).bind fun f => Stops.bind ?_ fun _ => .pure _
    exact halts_modify (fun _ _ => rfl) (fun _ => rfl) (fun _ => rfl) (fun _ => rfl) (fun _ => rfl) fun _ _ => rfl
  · exact (halts_addNode E d entry (halts_newSymlinkNode opath)).bind fun _ =>
      (halts_setFilDirty d true).bind fun _ => .pure _

theorem halts_linkdst (d : ℕ) (entry : Str) (blkref : BlockRef) (force : Bool) :
    Halts (linkdst E d entry blkref force) := by
  refine (halts_lookup E d entry false).bind fun o => ?_
  have hlink : Halts (do
      modifyDir d fun dir => dir ++ [(entry, blkref)]
      setFilDirty d true
      return (0 : ℤ)) :=
    (halts_modifyDir d _).bind fun _ => (halts_setFilDirty d true).bind fun _ => .pure _
  cases o with
  | none => exact hlink
  | some f => exact .choice (halts_removeEntry d entry) (.throw _) fun _ => hlink

theorem halts_openEntry (d : ℕ) (entry : Str) (flags : UInt32) : Halts (openEntry E d entry flags) := by
  refine .get (fun _ _ => rfl) fun w => .ite (.pure _) ((halts_lookup E d entry false).bind fun o => ?_)
  cases o with
  | none => exact .throw _
  | some _ => exact .pure _

theorem halts_readdir (d : ℕ) : Halts (readdir d) :=
  .get (fun _ _ => rfl) fun _ => .ite (.pure _) (.pure _)

end dirs

/-! ### Paths -/

section paths

variable (E : Env) {R : Type} (fl : TraverseFlags) {t : NodeTraverseFunc R}

/-- The functor may stop at any put. -/
structure HaltsFunc (t : NodeTraverseFunc R) : Prop where
  leaf : ∀ f v, Halts (t.ntLeaf f v)
  parent : ∀ d entry v, Halts (t.ntParent d entry v)

theorem halts_nodeTraverse (ht : HaltsFunc t) : ∀ (rest : List Str) (d : ℕ) (entry : Str) (v : R),
    Halts (nodeTraverse E fl t rest d entry v) := by
  intro rest
  induction rest with
  | nil =>
      intro d entry v
      refine (halts_lookup E d entry _).bind fun fnh => .ite ?_ ?_
      · refine (ht.parent d entry v).bind fun v => .ite ?_ (.pure _)
        exact (halts_lookup E d entry _).bind fun fnh => (halts_updateNode d entry fnh).bind fun _ => .pure _
      · cases fnh with
        | none => exact .throw _
        | some f =>
            refine (ht.leaf f v).bind fun v => ?_
            exact .when (halts_updateNode d entry _) (.pure _)
  | cons next rest ih =>
      intro d entry v
      refine (halts_lookup E d entry _).bind fun fnh => ?_
      cases fnh with
      | none => exact .throw _
      | some f =>
          refine .get (fun _ _ => rfl) fun w => .when (.throw _) ((ih f next v).bind fun v => ?_)
          exact .when (halts_updateNode d entry _) (.pure _)

theorem halts_member (h : Option ℕ) : Halts (member h) := by
  cases h with
  | none => exact .throw _
  | some f => exact .pure f

theorem halts_specialTraverse (ht : HaltsFunc t) (rest : List Str) (d : ℕ) (entry : Str) (v : R) :
    Halts (specialTraverse t rest d entry v) := by
  refine .ite ?_ (.ite ?_ (.throw _))
  · refine (ht.parent d entry v).bind fun v' => .get (fun _ _ => rfl) fun w => ?_
    exact (halts_member w.version).bind fun f => ht.leaf f v'
  · refine (ht.parent d entry v).bind fun v' => .get (fun _ _ => rfl) fun w => ?_
    cases w.control with
    | none => exact .throw _
    | some f => exact ht.leaf f v'

/-- **Following a path may stop at any put.** -/
theorem halts_rootTraverse (ht : HaltsFunc t) (rest : List Str) (entry : Str) (v : R) :
    Halts (rootTraverse E fl t rest entry v) := by
  refine .get (fun _ _ => rfl) fun w => (halts_member w.rdh).bind fun d => ?_
  refine .ite (.when (.throw _) (ht.leaf d v)) (.ite ?_ (halts_nodeTraverse E fl ht rest d entry v))
  refine (halts_member w.sdh).bind fun s => ?_
  cases rest with
  | nil => exact ht.leaf s v
  | cons next rest => exact halts_specialTraverse ht rest s next v

theorem halts_splitPath (path : Str) : Halts (splitPath path) := by
  rcases splitPath_eq path with ⟨x, hx⟩ | ⟨text, hx⟩
  · rw [hx]
    exact .pure x
  · rw [hx]
    exact Stops.throw (Exn.internalError text)

theorem halts_ntRetval (v : Option ℤ) : Halts (ntRetval v) := by
  cases v with
  | none => exact .throw _
  | some rv => exact .pure rv

theorem halts_catchErrno {m : M ℤ} (hm : Halts m) : Halts (catchErrno m) := by
  refine hm.tryCatch (fun e => ?_) rfl
  cases e <;> first | exact .pure _ | exact .throw _

theorem haltsFunc_parent {act : ℕ → Str → M ℤ} (hact : ∀ d entry, Halts (act d entry)) :
    HaltsFunc (parentFunc act) :=
  ⟨fun _ _ => .pure _, fun d entry _ => (hact d entry).bind fun _ => .pure _⟩

theorem haltsFunc_leaf {act : ℕ → M ℤ} (hact : ∀ f, Halts (act f)) : HaltsFunc (leafFunc act) :=
  ⟨fun f _ => (hact f).bind fun _ => .pure _, fun _ _ _ => .pure _⟩

theorem halts_changeParent {act : ℕ → Str → M ℤ} (hact : ∀ d entry, Halts (act d entry)) (path : Str) :
    Halts (changeParent E act path) := by
  refine halts_catchErrno ((halts_splitPath path).bind fun x => ?_)
  exact (halts_rootTraverse E _ (haltsFunc_parent hact) _ _ _).bind halts_ntRetval

theorem halts_changeLeaf {act : ℕ → M ℤ} (hact : ∀ f, Halts (act f)) (path : Str) :
    Halts (changeLeaf E act path) := by
  refine halts_catchErrno ((halts_splitPath path).bind fun x => ?_)
  exact (halts_rootTraverse E _ (haltsFunc_leaf hact) _ _ _).bind halts_ntRetval

theorem haltsFunc_linkSrc : HaltsFunc (linkSrcFunc E) :=
  ⟨fun _ _ => .pure _, fun d entry _ => halts_findBlkref E d entry⟩

theorem halts_fsRename (opath npath : Str) : Halts (fsRename E opath npath) := by
  refine halts_catchErrno ((halts_splitPath opath).bind fun x => (halts_splitPath npath).bind fun y => ?_)
  refine (halts_rootTraverse E _ (haltsFunc_linkSrc E) _ _ _).bind fun ref => ?_
  refine (halts_rootTraverse E _ (haltsFunc_parent fun d entry => halts_linkdst E d entry ref true) _ _ _).bind
    fun _ => ?_
  exact (halts_rootTraverse E _ (haltsFunc_parent fun d entry => halts_unlink E d entry true) _ _ _).bind
    halts_ntRetval

theorem halts_fsLink (opath npath : Str) : Halts (fsLink E opath npath) := by
  refine halts_catchErrno ((halts_splitPath opath).bind fun x => (halts_splitPath npath).bind fun y => ?_)
  refine (halts_rootTraverse E _ (haltsFunc_linkSrc E) _ _ _).bind fun ref => ?_
  exact (halts_rootTraverse E _ (haltsFunc_parent fun d entry => halts_linkdst E d entry ref false) _ _ _).bind
    halts_ntRetval

end paths

/-! ### Reading -/

section reading

variable (E : Env) {α : Type}

theorem halts_readAttempt (parent : Bool) {t : NodeTraverseFunc (Option ℤ × α)} (ht : HaltsFunc t) (path : Str)
    (out : α) (readonly : Bool) : Halts (readAttempt E parent t path out readonly) := by
  refine (halts_splitPath path).bind fun x => (halts_rootTraverse E _ ht _ _ _).bind ?_
  rintro ⟨v, out⟩
  exact (halts_ntRetval v).bind fun _ => .pure _

theorem halts_tryReadonly (out : α) {attempt : Bool → M (ℤ × α)} (h : ∀ b, Halts (attempt b)) :
    Halts (tryReadonly out attempt) := by
  refine (h true).tryCatch (fun e => ?_) rfl
  cases e with
  | errno e => exact .pure _
  | operationError s =>
      refine (h false).tryCatch (fun e => ?_) rfl
      cases e <;> first | exact .pure _ | exact .throw _
  | _ => exact .throw _

theorem haltsFunc_leafOut {act : ℕ → α → M (ℤ × α)} (hact : ∀ f out, Halts (act f out)) :
    HaltsFunc (leafOut act) := by
  refine ⟨fun f v => (hact f v.2).bind ?_, fun _ _ _ => .pure _⟩
  rintro ⟨rv, out⟩
  exact .pure _

theorem halts_readLeaf {act : ℕ → α → M (ℤ × α)} (hact : ∀ f out, Halts (act f out)) (path : Str) (out : α) :
    Halts (tryReadonly out (readAttempt E false (leafOut act) path out)) :=
  halts_tryReadonly out (halts_readAttempt E false (haltsFunc_leafOut hact) path out)

theorem halts_getattr (f : ℕ) (st : Stat) : Halts (getattr f st) := by
  refine .get (fun _ _ => rfl) fun w => ?_
  cases (w.fil f).cls <;> exact .pure _

theorem halts_readlink (size f : ℕ) (obuf : ℕ → UInt8) : Halts (readlink size f obuf) := by
  refine .get (fun _ _ => rfl) fun w => .when (.throw _) (.when (.throw _) ?_)
  dsimp only
  split
  · exact .pure _
  · exact .throw _

theorem halts_readNode (size off f : ℕ) (buf : ℕ → UInt8) : Halts (readNode E size off f buf) :=
  .get (fun _ _ => rfl) fun _ => .ite (.pure _) (halts_fileRead E f buf size off)

theorem halts_emitEntries (f : ℕ) (names : List Str) : Halts (emitEntries f names) := by
  refine .get (fun _ _ => rfl) fun w => .when (.throw _) ?_
  exact (halts_readdir f).bind fun _ => .pure _

theorem halts_fsOpen (path : Str) (flags : UInt32) : Halts (fsOpen E path flags) := by
  refine halts_tryReadonly () (halts_readAttempt E true ⟨fun _ _ => .pure _, fun d entry _ => ?_⟩ path ())
  exact (halts_openEntry E d entry flags).bind fun _ => .pure _

theorem halts_fsAccess (path : Str) : Halts (fsAccess E path) := by
  have htry : ∀ readonly, Halts (do
      let x ← splitPath path
      let v ← rootTraverse E ⟨false, false, readonly⟩ (leafFunc fun _ => return 0) x.2 x.1 none
      ntRetval v) := fun readonly =>
    (halts_splitPath path).bind fun _ =>
      (halts_rootTraverse E _ (haltsFunc_leaf fun _ => .pure _) _ _ _).bind halts_ntRetval
  refine (htry true).tryCatch (fun e => ?_) rfl
  cases e with
  | errno e => exact .pure _
  | operationError s => exact halts_catchErrno (htry false)
  | _ => exact .throw _

end reading

end UTFS

end Utopfs
