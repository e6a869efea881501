/-
**What every operation of the file system keeps.**

The operations on paths are made of steps on single nodes: a node is looked up, made, changed or written.
Each of them keeps the block nodes in order, and what they need of the file nodes: that a node which is
not dirty is stored, that the class of a node in use is that of its mode, and that the references in a
directory name stored inodes, in memory and in the store.

Names need not be distinct for this, nor nodes be in one directory only; so hard links do no harm, nor
does a directory that has become its own descendant.  A step may raise an exception and still keep all
this, unless the program ends there.

Main definitions:

* `UTFS.Fatal` — exceptions after which there is no state;
* `UTFS.StoreFit`, `UTFS.NodeFit`, `UTFS.FsOk` — the invariant of the store, of a node and of all;
* `UTFS.StoreLeft` — what is in order where the program ends;
* `UTFS.Safe` — a program that keeps the invariant.

Main results:

* `UTFS.FsOk.step` — what a step has to show;
* `UTFS.safe_lookup` — `DirNode::lookup`.
-/

import Utopfs.FlushPuts
import Utopfs.Truncate

set_option relaxedAutoImplicit false
set_option autoImplicit false

namespace Utopfs

namespace UTFS

open Prog

/-! ### The invariant -/

/-- The program crashes, or it does not return. -/
def Fatal : Exn → Prop
  | .nullHandle => True
  | .hang _ => True
  | .undefined _ => True
  | _ => False

variable (E : Env)

/-- The roots are stored directories, and the references in a stored directory name stored inodes. -/
structure StoreFit (log : List Effect) : Prop where
  head : HeadsOk E log
  dir : ∀ r x, Stored log r .inode → decodeFile E log r = some x → sIsdir x.inode.mode = true →
    x.inode.size ≤ maxSize ∧ ∃ d, storedDir E log r = some d ∧
      ∀ e ∈ d, e.2 ≠ .nil → Stored log e.2 .inode

/-- A node of the heap. -/
structure NodeFit (w : World) (f : ℕ) : Prop where
  clean : (w.fil f).isdirty = false → Stored w.log (w.fil f).ref .inode ∧
    storedIsDir E w.log (w.fil f).ref = sIsdir (w.fil f).inode.mode
  refs : ∀ e ∈ (w.fil f).dir, e.2 ≠ .nil → Stored w.log e.2 .inode
  held : ∀ e ∈ (w.fil f).dirty, Held w e.2

/-- **The invariant of the file system**; the first `n` levels have their zero singletons. -/
structure FsOk (n : ℕ) (w : World) : Prop where
  blk : BInv E ∅ w
  store : StoreFit E w.log
  node : ∀ f, f < w.nfil → NodeFit E w f
  key : ∀ r f, w.cache.nodemap r = some (.fil f) → Held w f
  top : ∀ d, w.rdh = some d → DirMember w d
  special : ∀ d, w.sdh = some d → DirMember w d
  version : ∀ v, w.version = some v → v < w.nfil
  control : ∀ c, w.control = some c → c < w.nfil
  zero : ∀ l, w.zobj l ≠ none ↔ l < n

/-- The store is in order where the program ends, whatever is in memory. -/
structure StoreLeft (w w' : World) : Prop where
  disk : DiskOk E w'.log w'.rand
  store : StoreFit E w'.log
  logLe : LogLe w.log w'.log

/-- The program keeps the invariant, and what it returns satisfies `Q`. -/
def Safe {α : Type} (n : ℕ) (m : M α) (Q : α → World → Prop) (w : World) : Prop :=
  wp m (fun a w' => FsOk E n w' ∧ Later w w' ∧ Q a w')
    (fun e w' => (Fatal e ∧ StoreLeft E w w') ∨ (FsOk E n w' ∧ Later w w')) w

variable {E} {n : ℕ} {w w' : World} {α β : Type}

/-! ### Rules -/

section rules

variable {Q : α → World → Prop} {Q' : β → World → Prop}

theorem Safe.ret (h : FsOk E n w) {a : α} (hQ : Q a w) : Safe E n (pure a) Q w := ⟨h, .refl w, hQ⟩

theorem Safe.raise (h : FsOk E n w) (e : Exn) : Safe E n (throw e : M α) Q w := .inr ⟨h, .refl w⟩

/-- Nothing but the cache has changed. -/
theorem FsOk.left (h : FsOk E n w) (cache : BlockNodeCache) : StoreLeft E w (w.setCache cache) :=
  ⟨h.blk.disk, h.store, .refl _⟩

/-- What has happened before is told too. -/
theorem Safe.later {m : M α} {w₁ : World} (hm : Safe E n m Q w₁) (hl : Later w w₁) :
    wp m (fun a w' => FsOk E n w' ∧ Later w w' ∧ Q a w')
      (fun e w' => (Fatal e ∧ StoreLeft E w w') ∨ (FsOk E n w' ∧ Later w w')) w₁ := by
  refine wp_mono hm ?_ ?_
  · exact fun a w₂ ⟨h₂, hl₂, hq⟩ => ⟨h₂, hl.trans hl₂, hq⟩
  · rintro e w₂ (⟨he, hleft⟩ | ⟨h₂, hl₂⟩)
    · exact .inl ⟨he, hleft.disk, hleft.store, hl.logLe.trans hleft.logLe⟩
    · exact .inr ⟨h₂, hl.trans hl₂⟩

theorem Safe.bind {m : M α} {f : α → M β} (hm : Safe E n m Q w)
    (hf : ∀ a w', FsOk E n w' → Later w w' → Q a w' → Safe E n (f a) Q' w') :
    Safe E n (m >>= f) Q' w := by
  refine wp_seq hm ?_ (fun _ _ hF => hF)
  rintro a w₁ ⟨h₁, hl₁, hq⟩
  exact (hf a w₁ h₁ hl₁ hq).later hl₁

theorem Safe.mono {m : M α} {Q₂ : α → World → Prop} (hm : Safe E n m Q w)
    (hQ : ∀ a w', FsOk E n w' → Later w w' → Q a w' → Q₂ a w') : Safe E n m Q₂ w :=
  wp_mono hm (fun a w' ⟨h', hl', hq⟩ => ⟨h', hl', hQ a w' h' hl' hq⟩) fun _ _ hF => hF

/-- Reading the state. -/
theorem Safe.read {m : World → M β} (hm : Safe E n (m w) Q' w) : Safe E n (get >>= m) Q' w := hm

/-- Exceptions are caught, except those that end the program. -/
theorem Safe.rescue {m : M α} {handler : Exn → M α} (hm : Safe E n m Q w)
    (hfatal : ∀ e, Fatal e → handler e = throw e)
    (hf : ∀ e w', FsOk E n w' → Later w w' → Safe E n (handler e) Q w') :
    Safe E n (tryCatch m handler) Q w := by
  rw [Safe, wp_tryCatch]
  refine wp_mono hm (fun _ _ hQ => hQ) ?_
  rintro e w₁ (⟨he, hleft⟩ | ⟨h₁, hl₁⟩)
  · rw [hfatal e he]
    exact .inl ⟨he, hleft⟩
  · exact (hf e w₁ h₁ hl₁).later hl₁

end rules

/-! ### Steps -/

section step

theorem StoreFit.mono {log log' : List Effect} {rand : List IV} (h : StoreFit E log)
    (hd : DiskOk E log rand) (hle : LogLe log log') (hnil : getBlock .nil log' = none)
    (hhead : HeadsOk E log')
    (hnew : ∀ r x, Stored log' r .inode → ¬ Stored log r .inode → decodeFile E log' r = some x →
      sIsdir x.inode.mode = true → x.inode.size ≤ maxSize ∧ ∃ d, storedDir E log' r = some d ∧
        ∀ e ∈ d, e.2 ≠ .nil → Stored log' e.2 .inode) : StoreFit E log' where
  head := hhead
  dir r x hs hx hm := by
    by_cases ho : Stored log r .inode
    · rw [hle.decodeFile ho] at hx
      obtain ⟨hsize, d, hd', href⟩ := h.dir r x ho hx hm
      exact ⟨hsize, d, by rw [storedDir_mono hd hle hnil ho]; exact hd',
        fun e he hr => hle.stored (href e he hr)⟩
    · exact hnew r x hs ho hx hm

theorem HeadsOk.mono {log log' : List Effect} (h : HeadsOk E log) (hle : LogLe log log')
    (hheads : heads log' = heads log) : HeadsOk E log' := by
  intro root hr
  rw [hheads] at hr
  obtain ⟨hs, hm⟩ := h root hr
  exact ⟨hle.stored hs, by rw [storedIsDir_mono hle hs]; exact hm⟩

/-- An unchanged node stays fit. -/
theorem NodeFit.mono {f : ℕ} (h : NodeFit E w f) (hl : Later w w') (hf : w'.fil f = w.fil f) :
    NodeFit E w' f where
  clean := by
    rw [hf]
    intro hc
    obtain ⟨hs, hk⟩ := h.clean hc
    exact ⟨hl.logLe.stored hs, by rw [storedIsDir_mono hl.logLe hs]; exact hk⟩
  refs := by
    rw [hf]
    exact fun e he hr => hl.logLe.stored (h.refs e he hr)
  held := by
    rw [hf]
    exact fun e he => (h.held e he).later hl

/-- **What a step has to show.** -/
theorem FsOk.step (h : FsOk E n w) (hb : BInv E ∅ w') (hl : Later w w') (hst : StoreFit E w'.log)
    (hnode : ∀ f, f < w'.nfil → (f < w.nfil ∧ w'.fil f = w.fil f) ∨ NodeFit E w' f)
    (hkey : ∀ r f, w'.cache.nodemap r = some (.fil f) →
      w.cache.nodemap r = some (.fil f) ∨ Held w' f)
    (htop : ∀ d, w'.rdh = some d → w.rdh = some d ∨ DirMember w' d)
    (hspecial : ∀ d, w'.sdh = some d → w.sdh = some d ∨ DirMember w' d)
    (hversion : ∀ v, w'.version = some v → w.version = some v ∨ v < w'.nfil)
    (hcontrol : ∀ c, w'.control = some c → w.control = some c ∨ c < w'.nfil)
    (hzobj : w'.zobj = w.zobj) : FsOk E n w' where
  blk := hb
  store := hst
  node f hf := by
    rcases hnode f hf with ⟨hlt, heq⟩ | hok
    · exact (h.node f hlt).mono hl heq
    · exact hok
  key r f hr := (hkey r f hr).elim (fun ho => (h.key r f ho).later hl) id
  top d hd := (htop d hd).elim (fun ho => (h.top d ho).later hl) id
  special d hd := (hspecial d hd).elim (fun ho => (h.special d ho).later hl) id
  version v hv := (hversion v hv).elim (fun ho => (h.version v ho).trans_le hl.nfil) id
  control c hc := (hcontrol c hc).elim (fun ho => (h.control c ho).trans_le hl.nfil) id
  zero l := by
    rw [hzobj]
    exact h.zero l

/-- The members of the file system. -/
def World.crew (w : World) := (w.zobj, w.rdh, w.sdh, w.version, w.control)

/-- A step that leaves the members alone, and all nodes but one. -/
theorem FsOk.step_one (h : FsOk E n w) {f : ℕ} (hb : BInv E ∅ w') (hl : Later w w')
    (hst : StoreFit E w'.log) (hnfil : w'.nfil = w.nfil) (hcrew : w'.crew = w.crew)
    (hcache : SameFil w.cache w'.cache) (hother : ∀ g, g ≠ f → w'.fil g = w.fil g)
    (hnode : f < w.nfil → NodeFit E w' f) : FsOk E n w' := by
  refine h.step hb hl hst ?_ (fun r g hr => .inl ((hcache.nodemap r g).1 hr))
    (fun d hd => .inl ((congrArg (fun x => x.2.1) hcrew).symm.trans hd))
    (fun d hd => .inl ((congrArg (fun x => x.2.2.1) hcrew).symm.trans hd))
    (fun d hd => .inl ((congrArg (fun x => x.2.2.2.1) hcrew).symm.trans hd))
    (fun d hd => .inl ((congrArg (fun x => x.2.2.2.2) hcrew).symm.trans hd)) (congrArg (fun x => x.1) hcrew)
  intro g hg
  rw [hnfil] at hg
  by_cases hgf : g = f
  · subst hgf
    exact .inr (hnode hg)
  · exact .inl ⟨hg, hother g hgf⟩

/-- The store grows by nothing that counts. -/
theorem FsOk.storeFit_log (h : FsOk E n w) (hlog : w'.log = w.log) : StoreFit E w'.log := by
  rw [hlog]
  exact h.store

/-- The clean cache forgets keys, reorders its list or gets a key for a stored inode. -/
theorem FsOk.setCache (h : FsOk E n w) {c : BlockNodeCache} (hrep : CacheRep Obj.IsBlk c)
    (hmap : ∀ r o, c.nodemap r = some o → w.cache.nodemap r = some o ∨
      (∃ f, o = .fil f ∧ Stored w.log r .inode ∧ Held w f)) :
    FsOk E n (w.setCache c) ∧ Later w (w.setCache c) := by
  have hl : Later w (w.setCache c) :=
    ⟨.refl _, fun _ hi => hi, Nat.le_refl _, fun _ _ => rfl, fun _ _ => rfl⟩
  refine ⟨h.step (h.blk.setCacheFil hrep ?_) hl h.store (fun f hf => .inl ⟨hf, rfl⟩) ?_ (fun _ hd => .inl hd)
    (fun _ hd => .inl hd) (fun _ hd => .inl hd) (fun _ hd => .inl hd) rfl, hl⟩
  · intro r o hr
    exact (hmap r o hr).imp_right fun ⟨f, ho, hs, _⟩ => ⟨⟨f, ho⟩, hs⟩
  · intro r f hr
    refine (hmap r _ hr).imp_right fun ⟨g, ho, _, hg⟩ => ?_
    injection ho with ho
    subst ho
    exact hg.later hl

/-- One node is changed; its blocks, its class and its kind stay the same. -/
theorem FsOk.setFil (h : FsOk E n w) {f : ℕ} {x : FileNode} (hr : x.refs = (w.fil f).refs)
    (ho : x.objs = (w.fil f).objs) (hcls : x.cls = (w.fil f).cls)
    (hkind : sIsdir x.inode.mode = sIsdir (w.fil f).inode.mode)
    (hclean : f < w.nfil → x.isdirty = false → Stored w.log x.ref .inode ∧
      storedIsDir E w.log x.ref = sIsdir x.inode.mode)
    (hrefs : f < w.nfil → ∀ e ∈ x.dir, e.2 ≠ .nil → Stored w.log e.2 .inode)
    (hheld : f < w.nfil → ∀ e ∈ x.dirty, Held w e.2) :
    FsOk E n (w.setFil f x) ∧ Later w (w.setFil f x) := by
  have hself : (w.setFil f x).fil f = x := setFil_self w f x
  have hother : ∀ g, g ≠ f → (w.setFil f x).fil g = w.fil g := fun g hg => setFil_of_ne w x hg
  have hl : Later w (w.setFil f x) := by
    refine ⟨.refl _, fun _ hi => hi, Nat.le_refl _, fun g _ => ?_, fun g _ => ?_⟩
    · by_cases hg : g = f
      · rw [hg, hself, hcls]
      · rw [hother g hg]
    · by_cases hg : g = f
      · rw [hg, hself, hkind]
      · rw [hother g hg]
  refine ⟨h.step_one (h.blk.sameShape (.setFil w hr ho) (fun _ => .inl rfl) fun _ _ _ => rfl) hl h.store rfl rfl
    (.refl _) hother fun hf => ⟨?_, ?_, ?_⟩, hl⟩
  · rw [hself]
    exact hclean hf
  · rw [hself]
    exact hrefs hf
  · rw [hself]
    exact fun e he => (hheld hf e he).later hl

/-- The clock is read. -/
theorem FsOk.tick (h : FsOk E n w) :
    FsOk E n { w with ticks := w.ticks + 1 } ∧ Later w { w with ticks := w.ticks + 1 } := by
  have hs : SameShape w { w with ticks := w.ticks + 1 } :=
    ⟨fun _ => rfl, fun _ => rfl, fun _ => rfl, fun _ => rfl, fun _ => rfl, fun _ => rfl, rfl, rfl, rfl,
      rfl, List.Sublist.refl _, rfl⟩
  have hl : Later w { w with ticks := w.ticks + 1 } :=
    ⟨.refl _, fun _ hi => hi, Nat.le_refl _, fun _ _ => rfl, fun _ _ => rfl⟩
  exact ⟨h.step_one (f := 0) (h.blk.sameShape hs (fun _ => .inl rfl) fun _ _ _ => rfl) hl h.store rfl rfl
    (.refl _) (fun _ _ => rfl) fun h0 => (h.node 0 h0).mono hl rfl, hl⟩

theorem safe_now (h : FsOk E n w) : Safe E n now (fun _ _ => True) w := by
  obtain ⟨h', hl⟩ := h.tick
  exact ⟨h', hl, trivial⟩

/-- A node without handles is made. -/
theorem FsOk.allocFil (h : FsOk E n w) {x : FileNode} (hobjs : ∀ s, x.objs s = none)
    (hrefs : ∀ s, x.refs s ≠ .nil → Stored w.log (x.refs s) (.blk s.level))
    (hclean : x.isdirty = false → Stored w.log x.ref .inode ∧ storedIsDir E w.log x.ref = sIsdir x.inode.mode)
    (hdir : x.dir = []) (hdirty : x.dirty = []) :
    FsOk E n (w.allocFil x) ∧ Later w (w.allocFil x) := by
  have hself := allocFil_self w x
  have hl : Later w (w.allocFil x) :=
    ⟨.refl _, fun _ hi => hi, Nat.le_succ _, fun g hg => by rw [allocFil_of_lt w x hg],
      fun g hg => by rw [allocFil_of_lt w x hg]⟩
  refine ⟨h.step (h.blk.allocFil hobjs hrefs) hl h.store ?_ (fun _ _ hr => .inl hr) (fun _ hd => .inl hd)
    (fun _ hd => .inl hd) (fun _ hd => .inl hd) (fun _ hd => .inl hd) rfl, hl⟩
  intro g hg
  have hg' : g < w.nfil + 1 := hg
  rcases Nat.lt_succ_iff_lt_or_eq.1 hg' with hlt | rfl
  · exact .inl ⟨hlt, allocFil_of_lt w x hlt⟩
  · refine .inr ⟨by rw [hself]; exact hclean, ?_, ?_⟩
    · rw [hself, hdir]
      simp
    · rw [hself, hdirty]
      simp

/-- Blocks are read. -/
theorem FsOk.grew (h : FsOk E n w) (hb : BInv E ∅ w') (hg : Grew w w') : FsOk E n w' ∧ Later w w' := by
  have hlog := outer_log hg.outer
  have hnfil := outer_nfil hg.outer
  have hl : Later w w' := ⟨by rw [hlog]; exact .refl _, by rw [outer_rand hg.outer]; exact fun _ hi => hi,
    hnfil.ge, fun _ _ => by rw [hg.fil], fun _ _ => by rw [hg.fil]⟩
  have hcrew : w'.crew = w.crew :=
    congrArg (fun x => (x.2.2.2.2.2.1, x.2.2.2.2.2.2.2.1, x.2.2.2.2.2.2.2.2.1, x.2.2.2.2.2.2.2.2.2.1,
      x.2.2.2.2.2.2.2.2.2.2.1)) hg.outer
  exact ⟨h.step_one (f := 0) hb hl (h.storeFit_log hlog) hnfil hcrew hg.cacheFil (fun g _ => by rw [hg.fil])
    fun h0 => (h.node 0 h0).mono hl (by rw [hg.fil]), hl⟩

end step

/-! ### The clean cache -/

section cache

/-- Touching a node whose place is not in the list ends the program. -/
theorem wp_cacheTouch_any {o : Obj} {Q : Unit → World → Prop} {F : Exn → World → Prop}
    (hQ : Q () (w.setCache (w.cache.touched o))) (hF : ∀ e, Fatal e → F e w) :
    wp (cacheTouch o) Q F w := by
  by_cases hp : w.cache.Placed o
  · exact wp_cacheTouch hp hQ
  · simp only [cacheTouch, mruErase, wp_bind, wp_get]
    cases hl : w.cache.lpos o with
    | none => exact hF _ trivial
    | some p =>
        dsimp only
        split
        case isFalse => exact hF _ trivial
        case isTrue hmem =>
          simp only [wp_set, mruPushFront, wp_modify]
          have htouched : w.cache.touched o = { w.cache with
              nodemru := (w.cache.npos, o) :: w.cache.nodemru.filter fun x => x.1 ≠ p
              npos := w.cache.npos + 1
              lpos := Function.update w.cache.lpos o (some w.cache.npos) } := by
            simp [BlockNodeCache.touched, hl]
          rw [htouched] at hQ
          exact hQ

theorem FsOk.touched (h : FsOk E n w) {r : BlockRef} {o : Obj} (hr : w.cache.nodemap r = some o) :
    FsOk E n (w.setCache (w.cache.touched o)) ∧ Later w (w.setCache (w.cache.touched o)) :=
  h.setCache (h.blk.rep.touched hr) fun _ _ hr => .inl hr

theorem safe_cacheLookup (h : FsOk E n w) (r : BlockRef) :
    Safe E n (cacheLookup r)
      (fun o w' => o = w.cache.nodemap r ∧ (o = none → w' = w)) w := by
  simp only [Safe, cacheLookup, wp_bind, wp_get]
  cases hr : w.cache.nodemap r with
  | none => exact ⟨h, .refl w, rfl, fun _ => rfl⟩
  | some o =>
      simp only [wp_bind]
      obtain ⟨h', hl⟩ := h.touched hr
      exact wp_cacheTouch_any ⟨h', hl, rfl, by simp⟩ fun _ _ => .inr ⟨h, .refl w⟩

/-- A node has entered the clean cache, unless there is one under its reference. -/
structure Keyed (f : ℕ) (w w' : World) : Prop where
  fil : w'.fil = w.fil
  nfil : w'.nfil = w.nfil
  log : w'.log = w.log
  key : ∀ r, w'.cache.nodemap r =
    if w.cache.nodemap r = none ∧ r = (w.fil f).ref then some (.fil f) else w.cache.nodemap r
  placed : ∀ o, w.cache.Placed o → w'.cache.Placed o
  self : w.cache.nodemap (w.fil f).ref = none → w'.cache.Placed (.fil f)

/-- A stored node enters the clean cache. -/
theorem safe_cacheInsert (h : FsOk E n w) {f : ℕ} (hs : Stored w.log (w.fil f).ref .inode)
    (hheld : Held w f) : Safe E n (cacheInsert (.fil f)) (fun _ w' => Keyed f w w') w := by
  simp only [Safe, cacheInsert, wp_bind, wp_get]
  cases hr : w.cache.nodemap (w.refOf (.fil f)) with
  | none =>
      simp only [wp_bind, wp_set, mruPushFront, wp_modify]
      have hins : FsOk E n (w.setCache (w.cache.inserted (w.refOf (.fil f)) (.fil f))) ∧
          Later w (w.setCache (w.cache.inserted (w.refOf (.fil f)) (.fil f))) := by
        refine h.setCache (h.blk.rep.inserted hr ?_) fun r o ho => ?_
        · rintro ⟨m, hm⟩
          simp at hm
        · by_cases heq : r = w.refOf (.fil f)
          · subst heq
            have : Obj.fil f = o := by simpa [BlockNodeCache.inserted] using ho
            exact .inr ⟨f, this.symm, hs, hheld⟩
          · exact .inl (by simpa only [BlockNodeCache.inserted, Function.update_of_ne heq] using ho)
      refine ⟨hins.1, hins.2, rfl, rfl, rfl, fun r => ?_, fun o ho => placed_inserted ho,
        fun _ => placed_inserted_self⟩
      change w.cache.nodemap (w.fil f).ref = none at hr
      change Function.update w.cache.nodemap (w.fil f).ref (some (.fil f)) r = _
      by_cases heq : r = (w.fil f).ref
      · rw [heq, Function.update_self, if_pos ⟨hr, rfl⟩]
      · rw [Function.update_of_ne heq, if_neg fun hn => heq hn.2]
  | some o =>
      obtain ⟨h', hl⟩ := h.touched hr
      change w.cache.nodemap (w.fil f).ref = some o at hr
      refine wp_cacheTouch_any ⟨h', hl, rfl, rfl, rfl, fun r => ?_, fun _ => h.blk.rep.placed_touched,
        fun hn => ?_⟩ fun _ _ => .inr ⟨h, .refl w⟩
      case refine_2 =>
        rw [hr] at hn
        simp at hn
      rw [if_neg]
      · rfl
      · rintro ⟨hn, rfl⟩
        rw [hr] at hn
        simp at hn

theorem safe_cacheRemove (h : FsOk E n w) (r : BlockRef) :
    Safe E n (cacheRemove r) (fun _ w' => w'.fil = w.fil) w := by
  cases hr : w.cache.nodemap r with
  | none =>
      simp only [Safe, cacheRemove, wp_bind, wp_get, hr]
      exact ⟨h, .refl w, rfl⟩
  | some o =>
      have hrem : FsOk E n (w.setCache (w.cache.removed r o)) ∧
          Later w (w.setCache (w.cache.removed r o)) := by
        refine h.setCache (h.blk.rep.removed hr ?_) fun r' o' hr' => .inl ?_
        · rintro ⟨m, rfl⟩ r' hr'
          rw [← (h.blk.key r' m hr').ref, (h.blk.key r m hr).ref]
        · by_cases heq : r' = r
          · subst heq
            simp [BlockNodeCache.removed] at hr'
          · simpa only [BlockNodeCache.removed, Function.update_of_ne heq] using hr'
      by_cases hp : w.cache.Placed o
      · refine wp_cacheRemove ?_ (fun hn => ?_) fun o' ho' => ?_
        · rintro o' ho'
          rw [hr] at ho'
          rwa [← Option.some.inj ho']
        · rw [hr] at hn
          simp at hn
        · rw [hr] at ho'
          obtain rfl := Option.some.inj ho'
          exact ⟨hrem.1, hrem.2, rfl⟩
      · -- The place of the node is not in the list, or is that of another.
        simp only [Safe, cacheRemove, mruErase, wp_bind, wp_get, hr, wp_set]
        cases hl : w.cache.lpos o with
        | none => exact .inl ⟨trivial, h.left _⟩
        | some p =>
            dsimp only
            split
            case isFalse => exact .inl ⟨trivial, h.left _⟩
            case isTrue hmem =>
              simp only [wp_set, wp_modify]
              have hremoved : w.cache.removed r o = { w.cache with
                  nodemap := Function.update w.cache.nodemap r none
                  nodemru := w.cache.nodemru.filter fun x => x.1 ≠ p
                  lpos := Function.update w.cache.lpos o none } := by
                simp [BlockNodeCache.removed, hl]
              rw [hremoved] at hrem
              exact ⟨hrem.1, hrem.2, trivial⟩

end cache

/-! ### Loading -/

section load

variable {r : BlockRef} {x : FileNode}

/-- The fields of a node made from a stored block. -/
theorem FsOk.loaded (h : FsOk E n w) (hs : Stored w.log r .inode) (hx : decodeFile E w.log r = some x)
    (cls : Cls) : FsOk E n (w.allocFil { x with cls := cls }) ∧ Later w (w.allocFil { x with cls := cls }) := by
  have hrefs := fun s => h.blk.disk.decodeFile_refs hs hx s
  have hkind : storedIsDir E w.log r = sIsdir x.inode.mode := by rw [storedIsDir, hx]
  simp only [decodeFile, Option.bind_eq_some_iff, Option.map_eq_some_iff] at hx
  obtain ⟨b, -, i, -, rfl⟩ := hx
  exact h.allocFil (fun _ => rfl) hrefs (fun _ => ⟨hs, hkind⟩) rfl rfl

theorem wp_readFileNode_any (hd : DiskOk E w.log w.rand) (hr : r ≠ .nil → Stored w.log r .inode) :
    wp (readFileNode E r)
      (fun x w' => w' = w ∧ Stored w.log r .inode ∧ decodeFile E w.log r = some x ∧ x.ref = r)
      (fun _ w' => w' = w) w := by
  by_cases hnil : r = .nil
  · subst hnil
    simp only [readFileNode, readBlock, bsBlockGet, wp_bind, wp_get, hd.nilFree]
    trivial
  · have hs := hr hnil
    cases hx : decodeFile E w.log r with
    | some x =>
        rw [wp, readFileNode_run hd hs hx]
        refine ⟨rfl, hs, rfl, ?_⟩
        simp only [decodeFile, Option.bind_eq_some_iff, Option.map_eq_some_iff] at hx
        obtain ⟨b, -, i, -, rfl⟩ := hx
        rfl
    | none =>
        obtain ⟨b, hb⟩ := hs
        simp only [decodeFile, decode, hb, Option.map_some, Option.bind_some, Option.map_eq_none_iff] at hx
        rw [readFileNode, wp_bind, wp, readBlock_run hd hb]
        simp only [hx]
        trivial

/-- **A directory is made from its stored block.** -/
theorem safe_upgradeDir (h : FsOk E n w) (hs : Stored w.log r .inode) (hx : decodeFile E w.log r = some x)
    (href : x.ref = r) (hmode : sIsdir x.inode.mode = true) :
    Safe E n (upgradeDir E x) (fun d w' => DirMember w' d ∧ (w'.fil d).ref = r) w := by
  obtain ⟨hsize, dir, hdir, hrefs⟩ := h.store.dir r x hs hx hmode
  have hparse : E.parseDir ((List.range x.inode.size).map (nodeBytes E w.log x)) = some dir := by
    rw [storedDir, hx, Option.bind_some, if_pos hmode] at hdir
    exact hdir
  obtain ⟨h₁, hl₁⟩ := h.loaded hs hx .dir
  have hobjs : ∀ s, x.objs s = none ∧ x.dirty = [] ∧ x.isdirty = false := by
    simp only [decodeFile, Option.bind_eq_some_iff, Option.map_eq_some_iff] at hx
    obtain ⟨b, -, i, -, rfl⟩ := hx
    exact fun _ => ⟨rfl, rfl, rfl⟩
  generalize hy : ({ x with cls := .dir } : FileNode) = y at h₁ hl₁
  have hself := allocFil_self w y
  have hyi : y.inode = x.inode := by rw [← hy]
  have hread := wp_fileRead h₁.blk (f := w.nfil) (Nat.lt_succ_self _) (fun _ => 0) x.inode.size 0
  have hbytes := fileBytes_allocFil_self (E := E) (x := y) w (by rw [← hy]; exact fun s => (hobjs s).1)
  have halloc : allocFil y w = .ok w.nfil (w.allocFil y) := rfl
  rw [upgradeDir, hy, Safe, wp_bind, wp, halloc]
  simp only [deserialize, wp_bind, wp_get, hself, hyi]
  refine wp_mono hread ?_ ?_
  · rintro ⟨rv, buf⟩ w₂ ⟨hb₂, hg, hrv, hbuf⟩
    obtain ⟨h₂, hl₂⟩ := h₁.grew hb₂ hg
    have hmin : min (min (0 + x.inode.size) maxSize) x.inode.size = x.inode.size := by omega
    rw [hself, hyi, hmin] at hrv hbuf
    have hneg : ¬ rv < 0 := by
      have : rv = ((x.inode.size - 0 : ℕ) : ℤ) := hrv
      omega
    have hmap : (List.range x.inode.size).map buf = (List.range x.inode.size).map (nodeBytes E w.log x) := by
      refine List.map_congr_left fun j hj => ?_
      have hb : buf j = _ := hbuf j
      have hj' : 0 + j < x.inode.size := by
        rw [Nat.zero_add]
        exact List.mem_range.1 hj
      rw [hb, if_pos hj', hbytes, Nat.zero_add, ← hy]
      rfl
    simp only [if_neg hneg, hmap, hparse, modifyDir, wp_modify, wp_pure]
    have hfil : w₂.fil w.nfil = y := by rw [hg.fil, hself]
    have hl := hl₁.trans hl₂
    have hdirty : (w₂.fil w.nfil).dirty = [] := by
      rw [hfil, ← hy]
      exact (hobjs .sin).2.1
    obtain ⟨h₃, hl₃⟩ := h₂.setFil (f := w.nfil) (x := { w₂.fil w.nfil with dir := dir }) rfl rfl rfl rfl
      (fun hlt => (h₂.node w.nfil hlt).clean) (fun _ e he hne => hl.logLe.stored (hrefs e he hne))
      (fun _ e he => by simp [hdirty] at he)
    refine ⟨h₃, hl.trans hl₃, ⟨⟨?_, ?_, ?_⟩, ?_⟩, ?_⟩
    · exact (Nat.lt_succ_self w.nfil).trans_le hl₂.nfil
    · rw [setFil_self, hfil, ← hy]
      exact hmode.symm
    · rw [setFil_self, hfil, ← hy]
      simp
    · rw [setFil_self, hfil, ← hy]
      rfl
    · rw [setFil_self, hfil, ← hy]
      exact href
  · rintro ex w₂ ⟨hb₂, hg, -⟩
    obtain ⟨h₂, hl₂⟩ := h₁.grew hb₂ hg
    exact .inr ⟨h₂, hl₁.trans hl₂⟩

/-- **The node of a reference in a directory is loaded.** -/
theorem safe_loadNode (h : FsOk E n w) (hr : r ≠ .nil → Stored w.log r .inode) :
    Safe E n (loadNode E r) (fun f w' => Held w' f ∧ Stored w'.log (w'.fil f).ref .inode) w := by
  rw [loadNode, loadFileNode, Safe, wp_bind, wp_bind]
  refine wp_mono (wp_readFileNode_any h.blk.disk hr) ?_ ?_
  · rintro x w' ⟨rfl, hs, hx, href⟩
    obtain ⟨h₁, hl₁⟩ := h.loaded hs hx x.cls
    have hx₁ : decodeFile E (w'.allocFil x).log r = some x := hx
    have hcls : x.cls = .file := by
      simp only [decodeFile, Option.bind_eq_some_iff, Option.map_eq_some_iff] at hx
      obtain ⟨b, -, i, -, rfl⟩ := hx
      rfl
    have halloc : allocFil x w' = .ok w'.nfil (w'.allocFil x) := rfl
    have hself := allocFil_self w' x
    rw [wp, halloc]
    change FsOk E n (w'.allocFil x) at h₁
    change Later w' (w'.allocFil x) at hl₁
    simp only [wp_bind, wp_get, hself]
    cases hm : sIsdir x.inode.mode with
    | true =>
        rw [if_pos rfl]
        refine wp_mono ((safe_upgradeDir h₁ hs hx₁ href hm).later hl₁) ?_ (fun _ _ hF => hF)
        rintro d w₂ ⟨h₂, hl₂, hd, hdr⟩
        refine ⟨h₂, hl₂, hd.held, ?_⟩
        rw [hdr]
        exact hl₂.logLe.stored hs
    | false =>
        rw [if_neg (by simp)]
        split
        case isTrue =>
          obtain ⟨h₂, hl₂⟩ := h₁.loaded hs hx₁ .symlink
          generalize hy : ({ x with cls := .symlink } : FileNode) = y at h₂ hl₂ ⊢
          have halloc₂ : allocFil y (w'.allocFil x) = .ok (w'.nfil + 1) ((w'.allocFil x).allocFil y) := rfl
          have hself₂ : ((w'.allocFil x).allocFil y).fil (w'.nfil + 1) = y := allocFil_self _ y
          rw [wp, halloc₂]
          refine ⟨h₂, hl₁.trans hl₂, .of_fil ⟨Nat.lt_succ_self _, hself₂⟩ (by rw [← hy]; exact hm.symm)
            (by rw [← hy]; simp), ?_⟩
          · rw [hself₂, ← hy]
            change Stored w'.log x.ref .inode
            rw [href]
            exact hs
        case isFalse =>
          refine ⟨h₁, hl₁, .of_fil ⟨Nat.lt_succ_self _, hself⟩ (by rw [hm, hcls]; rfl) (by rw [hcls]; simp), ?_⟩
          · rw [hself, href]
            exact hs
  · rintro e w' rfl
    exact .inr ⟨h, .refl w'⟩

/-- **`DirNode::lookup`.** -/
theorem safe_lookup (h : FsOk E n w) {d : ℕ} (hd : d < w.nfil) (entry : Str) (readonly : Bool) :
    Safe E n (lookup E d entry readonly) (fun o w' => ∀ f, o = some f → Held w' f) w := by
  have hn := h.node d hd
  rw [lookup]
  refine Safe.read ?_
  cases hf : (w.fil d).dirty.lookup entry with
  | some f =>
      refine .ret h fun f' hf' => ?_
      obtain rfl := Option.some.inj hf'
      exact hn.held _ (mem_of_lookup hf)
  | none =>
      dsimp only
      cases href : (w.fil d).dir.lookup entry with
      | none => exact .ret h (by simp)
      | some ref =>
          have hstored := hn.refs _ (mem_of_lookup href)
          refine (safe_cacheLookup h ref).bind ?_
          rintro o w₂ h₂ hl₂ ⟨rfl, hmiss⟩
          cases ho : w.cache.nodemap ref with
          | some o =>
              cases o with
              | blk m => exact .ret h₂ (by simp)
              | fil f =>
                  refine .ret h₂ fun f' hf' => ?_
                  obtain rfl := Option.some.inj hf'
                  exact (h.key ref f ho).later hl₂
          | none =>
              obtain rfl := hmiss ho
              dsimp only
              split
              case isTrue => exact .raise h₂ _
              case isFalse =>
                refine (safe_loadNode h₂ hstored).bind ?_
                rintro f w₃ h₃ hl₃ ⟨hheld, hs⟩
                refine (safe_cacheInsert h₃ hs hheld).bind ?_
                rintro - w₄ h₄ hl₄ -
                refine .ret h₄ fun f' hf' => ?_
                obtain rfl := Option.some.inj hf'
                exact hheld.later hl₄

end load

end UTFS

end Utopfs
