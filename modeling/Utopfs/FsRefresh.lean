/-
**Refreshing the file system.**

`fs_refresh` follows the references of the file system from the root directory and tells the block store of
each, in a cycle that has an id of its own.  Nothing is changed on the way: nodes that are not in memory are
made from their blocks, and nothing but the recursion leads to them.  Before the cycle the root directory is
flushed, and once more after it if there was no space for that.

Main definitions:

* `UTFS.Refreshed` — what is left behind on the way;
* `UTFS.Rereads` — a program that keeps the invariant and leaves no more than that behind.

Main results:

* `UTFS.rereads_rbRefresh`, `UTFS.rereads_rbRefreshFile` — `rb_refresh` of blocks and of files;
* `UTFS.rereads_refreshRoot` — **a refresh leaves nothing behind but what it tells the block store**.
-/

import Utopfs.FsReads
import Utopfs.FsStops

set_option relaxedAutoImplicit false
set_option autoImplicit false

namespace Utopfs

namespace UTFS

open Prog

/-- What a refresh tells the block store. -/
def Effect.isRefresh : Effect → Bool
  | .put _ _ _ | .headInsert _ _ => false
  | _ => true

/-- The block store has been told of something. -/
def World.told (w : World) (l : List Effect) : World := { w with log := l ++ w.log }

/-- The block store has been told of a refresh, and a part of a program has been run that inserts no head node. -/
structure Refreshed (w w' : World) : Prop where
  log : ∃ l, w'.log = l ++ w.log ∧ ∀ x ∈ l, x.isRefresh = true
  later : Later w w'
  moved : Moved w w'

/-- The block nodes are as they were, and there may be more. -/
structure OldBlks (w w' : World) : Prop where
  nblk : w.nblk ≤ w'.nblk
  blk : ∀ m, m < w.nblk → w'.blk m = w.blk m

variable (E : Env)

/-- The program keeps the invariant and leaves only what a refresh does, also when it fails; what it returns
satisfies `Q`. -/
def Rereads {α : Type} (n : ℕ) (m : M α) (Q : α → World → Prop) (w : World) : Prop :=
  wp m (fun a w' => FsOk E n w' ∧ Refreshed w w' ∧ Q a w') (fun _ w' => FsOk E n w' ∧ Refreshed w w') w

variable {E} {n : ℕ} {w w' : World} {α β : Type}

/-! ### Rules -/

section rules

theorem getBlock_told {l : List Effect} (h : ∀ x ∈ l, x.isRefresh = true) (log : List Effect) (r : BlockRef) :
    getBlock r (l ++ log) = getBlock r log := by
  induction l with
  | nil => rfl
  | cons x l ih =>
      have hl := ih fun y hy => h y (List.mem_cons_of_mem x hy)
      cases x with
      | put key data kind => exact absurd (h _ List.mem_cons_self) (by simp [Effect.isRefresh])
      | _ => exact hl

theorem heads_told {l : List Effect} (h : ∀ x ∈ l, x.isRefresh = true) : heads l = [] := by
  induction l with
  | nil => rfl
  | cons x l ih =>
      have hl := ih fun y hy => h y (List.mem_cons_of_mem x hy)
      cases x with
      | headInsert prev root => exact absurd (h _ List.mem_cons_self) (by simp [Effect.isRefresh])
      | _ => exact hl

/-- **What the block store is told in a refresh changes nothing.** -/
theorem FsOk.told (h : FsOk E n w) {l : List Effect} (hl : ∀ x ∈ l, x.isRefresh = true) :
    FsOk E n (w.told l) ∧ Refreshed w (w.told l) := by
  have hlog := getBlock_told hl w.log
  have hle : LogLe w.log (w.told l).log := fun r x hx => (hlog r).trans hx
  have hb : BInv E ∅ (w.told l) := h.blk.logged hlog
  have hheads : heads (w.told l).log = heads w.log := by
    change heads (l ++ w.log) = heads w.log
    rw [heads_append, heads_told hl, List.nil_append]
  have hst : StoreFit E (w.told l).log := by
    refine h.store.mono h.blk.disk hle hb.disk.nilFree (h.store.head.mono hle hheads) fun r x hs hs' => ?_
    obtain ⟨b, hr⟩ := hs
    exact absurd ⟨b, (hlog r).symm.trans hr⟩ hs'
  have hlater : Later w (w.told l) := ⟨hle, fun _ hi => hi, Nat.le_refl _, fun _ _ => rfl, fun _ _ => rfl⟩
  refine ⟨h.step_one (f := 0) hb hlater hst rfl rfl (.refl _) (fun _ _ => rfl)
    fun h0 => (h.node 0 h0).mono hlater rfl, ⟨l, rfl, hl⟩, hlater, ⟨l, rfl, heads_told hl⟩, rfl, rfl, rfl,
    List.suffix_refl _, Nat.le_refl _, fun _ _ => .inl rfl⟩

theorem Refreshed.refl (w : World) : Refreshed w w := ⟨⟨[], rfl, by simp⟩, .refl w, .refl w⟩

theorem Refreshed.trans {w'' : World} (h : Refreshed w w') (h' : Refreshed w' w'') : Refreshed w w'' where
  log := by
    obtain ⟨l, hl, hx⟩ := h.log
    obtain ⟨l', hl', hx'⟩ := h'.log
    refine ⟨l' ++ l, by rw [hl', hl, List.append_assoc], fun x hmem => ?_⟩
    exact (List.mem_append.1 hmem).elim (hx' x) (hx x)
  later := h.later.trans h'.later
  moved := h.moved.trans h'.moved

theorem OldBlks.refl (w : World) : OldBlks w w := ⟨Nat.le_refl _, fun _ _ => rfl⟩

theorem OldBlks.trans {w'' : World} (h : OldBlks w w') (h' : OldBlks w' w'') : OldBlks w w'' where
  nblk := h.nblk.trans h'.nblk
  blk m hm := (h'.blk m (hm.trans_le h.nblk)).trans (h.blk m hm)

variable {Q : α → World → Prop} {Q' : β → World → Prop}

theorem Rereads.ret (h : FsOk E n w) {a : α} (hQ : Q a w) : Rereads E n (pure a) Q w := ⟨h, .refl w, hQ⟩

theorem Rereads.raise (h : FsOk E n w) (e : Exn) : Rereads E n (throw e : M α) Q w := ⟨h, .refl w⟩

/-- What has happened before is told too. -/
theorem Rereads.later {m : M α} {w₁ : World} (hm : Rereads E n m Q w₁) (hr : Refreshed w w₁) :
    wp m (fun a w' => FsOk E n w' ∧ Refreshed w w' ∧ Q a w') (fun _ w' => FsOk E n w' ∧ Refreshed w w') w₁ := by
  refine wp_mono hm ?_ ?_
  · exact fun a w₂ ⟨h₂, hr₂, hq⟩ => ⟨h₂, hr.trans hr₂, hq⟩
  · exact fun e w₂ ⟨h₂, hr₂⟩ => ⟨h₂, hr.trans hr₂⟩

theorem Rereads.bind {m : M α} {f : α → M β} (hm : Rereads E n m Q w)
    (hf : ∀ a w', FsOk E n w' → Refreshed w w' → Q a w' → Rereads E n (f a) Q' w') :
    Rereads E n (m >>= f) Q' w := by
  refine wp_seq hm ?_ (fun _ _ hF => hF)
  rintro a w₁ ⟨h₁, hr₁, hq⟩
  exact (hf a w₁ h₁ hr₁ hq).later hr₁

theorem Rereads.mono {m : M α} {Q₂ : α → World → Prop} (hm : Rereads E n m Q w)
    (hQ : ∀ a w', FsOk E n w' → Refreshed w w' → Q a w' → Q₂ a w') : Rereads E n m Q₂ w :=
  wp_mono hm (fun a w' ⟨h', hr', hq⟩ => ⟨h', hr', hQ a w' h' hr' hq⟩) fun _ _ hF => hF

/-- Reading the state. -/
theorem Rereads.read {m : World → M β} (hm : Rereads E n (m w) Q' w) : Rereads E n (get >>= m) Q' w := hm

/-- A program that only reads. -/
theorem Rereads.of_reads {m : M α} (hm : Reads E n m Q w) (hhalts : Halts m) : Rereads E n m Q w := by
  have hmoved : Moved w (final m w) := (hhalts w).step
  have hquiet : ∀ {w'}, Undisturbed E w w' → Moved w w' → Refreshed w w' :=
    fun hu hm => ⟨⟨[], hu.log, by simp⟩, hu.later, hm⟩
  cases hrun : m w with
  | ok a w' =>
      obtain ⟨h', hu, hq⟩ := wp_ok hm hrun
      rw [final_ok hrun] at hmoved
      rw [Rereads, wp, hrun]
      exact ⟨h', hquiet hu hmoved, hq⟩
  | error e w' =>
      obtain ⟨h', hu⟩ := wp_error hm hrun
      rw [final_error hrun] at hmoved
      rw [Rereads, wp, hrun]
      exact ⟨h', hquiet hu hmoved⟩

/-- A refresh is safe. -/
theorem Rereads.safe {m : M α} (hm : Rereads E n m Q w) : Safe E n m Q w :=
  wp_mono hm (fun _ _ ⟨h', hr', hq⟩ => ⟨h', hr'.later, hq⟩) fun _ _ ⟨h', hr'⟩ => .inr ⟨h', hr'.later⟩

/-- A loop that keeps `P`. -/
theorem rereads_sumM {γ : Type} {P : World → Prop} {body : γ → M ℕ} {l : List γ} (h : FsOk E n w) (hP : P w)
    (hbody : ∀ a ∈ l, ∀ w', FsOk E n w' → Refreshed w w' → P w' → Rereads E n (body a) (fun _ w'' => P w'') w') :
    Rereads E n (sumM body l) (fun _ w' => P w') w := by
  induction l generalizing w with
  | nil => exact .ret h hP
  | cons a l ih =>
      rw [sumM]
      refine (hbody a List.mem_cons_self w h (.refl w) hP).bind ?_
      intro k w₁ h₁ hr₁ hP₁
      refine Rereads.bind (ih h₁ hP₁ fun b hb w' h' hr' => ?_) ?_
      · exact hbody b (List.mem_cons_of_mem a hb) w' h' (hr₁.trans hr')
      · exact fun k' w₂ h₂ _ hP₂ => .ret h₂ hP₂

end rules

/-! ### Blocks -/

section blocks

variable {rid : ℕ}

theorem rereads_bsRefreshBlocks (h : FsOk E n w) (keys : List BlockRef) :
    Rereads E n (bsRefreshBlocks rid keys) (fun _ w' => OldBlks w w') w := by
  rw [bsRefreshBlocks]
  refine Rereads.read ?_
  dsimp only
  split
  case isTrue => exact .raise h _
  case isFalse =>
    obtain ⟨h', hr'⟩ := h.told (l := [.refreshBlocks rid keys]) (by simp [Effect.isRefresh])
    exact ⟨h', hr', Nat.le_refl _, fun _ _ => rfl⟩

/-- The object for a reference in a slot. -/
theorem rereads_findRefresh (h : FsOk E n w) {s : Slot} (hlive : w.Live s) (hr : w.slotRef s ≠ .nil) :
    Rereads E n (findRefresh E (w.slotLevel s) s) (fun m w' => OldBlks w w' ∧ m < w'.nblk ∧
      (w'.blk m).zero = false ∧ (w'.blk m).level = w.slotLevel s) w := by
  rw [findRefresh]
  refine Rereads.read ?_
  cases hobj : w.slotObj s with
  | some m =>
      have ho := h.blk.obj s m hlive hobj
      simp only [castBlk, Rereads, wp_bind, wp_get, ho.level, if_true, wp_pure]
      exact ⟨h, .refl w, .refl w, ho.lt, ho.zero, trivial⟩
  | none =>
      refine Rereads.of_reads ?_ (halts_faultBlk E true _ _)
      refine wp_mono (wp_faultBlk h.blk true (h.blk.refOk s hlive hr) (fun x hx => hx.elim)) ?_ fun _ _ hF => hF
      intro m w' hf
      exact ⟨(h.grew hf.inv hf.grew).1, .grew h hf.inv hf.grew, ⟨hf.grew.nblk, hf.grew.blk⟩, hf.lt, hf.zero,
        hf.levelEq⟩

/-- The reference in a slot and what is below it. -/
theorem rereads_refreshSlot (h : FsOk E n w) (refresh : ℕ → M ℕ) {s : Slot} (hlive : w.Live s)
    (hrefresh : ∀ m w', FsOk E n w' → m < w'.nblk → (w'.blk m).zero = false →
      (w'.blk m).level = w.slotLevel s → Rereads E n (refresh m) (fun _ w'' => OldBlks w' w'') w') :
    Rereads E n (refreshSlot E refresh (w.slotLevel s) s) (fun _ w' => OldBlks w w') w := by
  rw [refreshSlot]
  refine Rereads.read ?_
  split
  case isTrue => exact .ret h (.refl w)
  case isFalse hr =>
    refine (rereads_findRefresh h hlive hr).bind ?_
    rintro m w₁ h₁ - ⟨ho₁, hlt, hz, hl⟩
    refine (hrefresh m w₁ h₁ hlt hz hl).bind ?_
    exact fun k w₂ h₂ _ ho₂ => .ret h₂ (ho₁.trans ho₂)

/-- The keys of an indirect node, which must not be missing. -/
theorem rereads_keys (h : FsOk E n w) (keys : List BlockRef) (k : ℕ) :
    Rereads E n (do
      let missing ← bsRefreshBlocks rid keys
      if missing ≠ [] then throw (.internalError "missing blocks encountered")
      return k) (fun _ w' => OldBlks w w') w := by
  refine (rereads_bsRefreshBlocks h keys).bind ?_
  intro missing w₁ h₁ _ ho₁
  split
  · exact .raise h₁ _
  · exact .ret h₁ ho₁

/-- **`rb_refresh` of an indirect node.** -/
theorem rereads_rbRefresh (level : ℕ) : ∀ (m : ℕ) {w : World}, FsOk E n w → m < w.nblk →
    (w.blk m).zero = false → (w.blk m).level = level + 1 →
    Rereads E n (rbRefresh E rid level m) (fun _ w' => OldBlks w w') w := by
  induction level with
  | zero =>
      intro m w h _ _ _
      exact Rereads.read (rereads_keys h _ _)
  | succ level ih =>
      intro m w h hm hz hl
      rw [rbRefresh]
      refine Rereads.read ?_
      have hslots : Rereads E n (sumM (fun i => refreshSlot E (rbRefresh E rid level) (level + 1) (.sub m i))
          (List.finRange 256)) (fun _ w' => OldBlks w w') w := by
        refine rereads_sumM h (.refl w) fun i _ w' h' _ ho => ?_
        have hblk := ho.blk m hm
        have hlive : w'.Live (.sub m i) :=
          ⟨hm.trans_le ho.nblk, by rw [hblk]; exact hz, by rw [hblk, hl]; exact Nat.succ_pos _⟩
        have hlevel : w'.slotLevel (.sub m i) = level + 1 := by simp only [World.slotLevel, hblk, hl]; rfl
        have hslot := rereads_refreshSlot h' (rbRefresh E rid level) hlive fun c w'' h'' hc hcz hcl =>
          ih c h'' hc hcz (hcl.trans hlevel)
        rw [hlevel] at hslot
        exact hslot.mono fun _ _ _ _ ho' => ho.trans ho'
      refine hslots.bind ?_
      intro k w₁ h₁ _ ho₁
      exact (rereads_keys h₁ _ _).mono fun _ _ _ _ ho₂ => ho₁.trans ho₂

/-- **`FileNode::rb_refresh`.** -/
theorem rereads_rbRefreshFile (h : FsOk E n w) {f : ℕ} (hf : f < w.nfil) :
    Rereads E n (rbRefreshFile E rid f) (fun _ _ => True) w := by
  rw [rbRefreshFile]
  refine Rereads.read ?_
  have hslots : Rereads E n (sumM (fun s => refreshSlot E (rbRefresh E rid (s.level - 1)) s.level (.fil f s))
      [.sin, .din, .tin]) (fun _ _ => True) w := by
    refine rereads_sumM h trivial fun s hs w' h' hr' _ => ?_
    have hlevel : s.level = s.level - 1 + 1 := by
      simp only [List.mem_cons, List.not_mem_nil, or_false] at hs
      rcases hs with rfl | rfl | rfl <;> rfl
    have hslot := rereads_refreshSlot (s := .fil f s) h' (rbRefresh E rid (s.level - 1))
      (hf.trans_le hr'.later.nfil) fun c w'' h'' hc hcz hcl => rereads_rbRefresh _ c h'' hc hcz (hcl.trans hlevel)
    exact hslot.mono fun _ _ _ _ _ => trivial
  refine hslots.bind ?_
  intro k w₁ h₁ _ _
  refine (rereads_bsRefreshBlocks h₁ _).bind ?_
  exact fun _ w₂ h₂ _ _ => .ret h₂ trivial

end blocks

/-! ### Nodes -/

section nodes

variable {rid : ℕ}

theorem halts_findRefreshNode (d : ℕ) (entry : Str) (ref : BlockRef) : Halts (findRefreshNode E d entry ref) := by
  refine .get (fun _ _ => rfl) fun w => ?_
  cases (w.fil d).dirty.lookup entry with
  | some f => exact .pure _
  | none =>
      refine (halts_cacheLookup ref).bind fun o => ?_
      match o with
      | some (.fil f) => exact .pure _
      | some (.blk m) => exact .throw _
      | none => exact halts_loadNode E ref

/-- The node of an entry. -/
theorem rereads_findRefreshNode (h : FsOk E n w) {d : ℕ} (hd : d < w.nfil) (entry : Str) {ref : BlockRef}
    (hs : ref ≠ .nil → Stored w.log ref .inode) :
    Rereads E n (findRefreshNode E d entry ref) (fun f w' => f < w'.nfil) w := by
  refine Rereads.of_reads ?_ (halts_findRefreshNode d entry ref)
  rw [findRefreshNode]
  refine Reads.read ?_
  cases hf : (w.fil d).dirty.lookup entry with
  | some f => exact .ret h ((h.node d hd).held _ (mem_of_lookup hf)).lt
  | none =>
      refine (reads_cacheLookup h ref).bind ?_
      rintro o w₁ h₁ hu₁ ⟨rfl, -, hmiss⟩
      cases ho : w.cache.nodemap ref with
      | some o =>
          cases o with
          | fil f => exact .ret h₁ ((h.key ref f ho).later hu₁.later).lt
          | blk m => exact .raise h₁ _
      | none =>
          obtain rfl := hmiss ho
          exact (reads_loadNode h₁ hs).mono fun f w₂ _ _ hl => hl.held.lt

/-- **`rb_refresh` of a node.** -/
theorem rereads_nodeRefresh (fuel : ℕ) : ∀ (f : ℕ) {w : World}, FsOk E n w → f < w.nfil →
    Rereads E n (nodeRefresh E rid fuel f) (fun _ _ => True) w := by
  induction fuel with
  | zero => exact fun f w h _ => .raise h _
  | succ fuel ih =>
      intro f w h hf
      rw [nodeRefresh]
      refine Rereads.read ?_
      split
      case isFalse => exact rereads_rbRefreshFile h hf
      case isTrue =>
        have hentries : Rereads E n (sumM (fun e => do
            let g ← findRefreshNode E f e.1 e.2
            nodeRefresh E rid fuel g) (w.fil f).dir) (fun _ _ => True) w := by
          refine rereads_sumM h trivial fun e he w' h' hr' _ => ?_
          have hs : e.2 ≠ .nil → Stored w'.log e.2 .inode :=
            fun hne => hr'.later.logLe.stored ((h.node f hf).refs e he hne)
          refine (rereads_findRefreshNode h' (hf.trans_le hr'.later.nfil) e.1 hs).bind ?_
          exact fun g w'' h'' _ hg => ih g h'' hg
        refine hentries.bind ?_
        intro k w₁ h₁ hr₁ _
        refine (rereads_rbRefreshFile h₁ (hf.trans_le hr₁.later.nfil)).bind ?_
        exact fun k' w₂ h₂ _ _ => .ret h₂ trivial

theorem rereads_tell (h : FsOk E n w) {x : Effect} (hx : x.isRefresh = true) :
    Rereads E n (modify fun w => { w with log := x :: w.log }) (fun _ _ => True) w := by
  obtain ⟨h', hr'⟩ := h.told (l := [x]) (by simpa using hx)
  exact ⟨h', hr', trivial⟩

/-- **`rb_refresh` of the root directory.** -/
theorem rereads_refreshRoot (h : FsOk E n w) (rid : ℕ) : Rereads E n (refreshRoot E rid) (fun _ _ => True) w := by
  rw [refreshRoot]
  refine Rereads.read ?_
  cases hd : w.rdh with
  | none => exact .raise h _
  | some d => exact rereads_nodeRefresh _ d h (h.top d hd).held.lt

end nodes

end UTFS

end Utopfs
