/-
**Reading leaves the file system as it is.**

Looking a name up may bring nodes into memory: a node is made from its stored block and enters the clean
cache.  Nothing of this can be seen.  Every path leads to the node it led to before, or to a copy that was
made of it, and the attributes, the names and the contents there are the same.

Main definitions:

* `UTFS.World.sight`, `UTFS.World.nodeAt`, `UTFS.World.pathView` — what is at a node, the node that a path
  leads to as `RootDirNode::node_traverse` follows it, and what is there;
* `UTFS.CopyOf` — a node in memory that agrees with a stored one;
* `UTFS.Undisturbed` — the nodes are as they were, and there may be copies of stored ones;
* `UTFS.Reads` — a program that keeps the invariant and leaves the file system as it is.

Main results:

* `UTFS.Undisturbed.pathView` — **every path shows the same**;
* `UTFS.reads_lookup` — `DirNode::lookup`.
-/

import Utopfs.CacheOrder
import Utopfs.DirTree
import Utopfs.FsOk

set_option relaxedAutoImplicit false
set_option autoImplicit false

namespace Utopfs

namespace UTFS

open Prog

variable (E : Env)

/-! ### What is at a path -/

/-- The attributes, the names and the contents of a node. -/
structure Sight where
  inode : INode
  names : List Str
  bytes : ℕ → UInt8

/-- What is at a node. -/
def World.sight (w : World) : Loc → Option Sight
  | .mem f => some ⟨(w.fil f).inode, (w.dirOf E (.mem f)).map Prod.fst, fileBytes E w f⟩
  | .ref r => (decodeFile E w.log r).map fun x =>
      ⟨x.inode, (w.dirOf E (.ref r)).map Prod.fst, nodeBytes E w.log x⟩

/-- The node that a path leads to, as `RootDirNode::node_traverse` and `SpecialDirNode::node_traverse`
follow it. -/
def World.nodeAt (w : World) (entry : Str) (rest : List Str) : Option Loc :=
  if entry = [] then w.rdh.map .mem
  else if entry = specialDir then
    if rest = [] then w.sdh.map .mem
    else if rest = [Str.ofText "version"] then w.version.map .mem
    else if rest = [Str.ofText "control"] then w.control.map .mem
    else none
  else (w.graph E none none).find .top (entry :: rest)

/-- What is at a path. -/
def World.pathView (w : World) (entry : Str) (rest : List Str) : Option Sight :=
  (w.nodeAt E entry rest).bind (w.sight E)

/-! ### Copies -/

/-- The node in memory agrees with the one that is stored. -/
structure CopyOf (w : World) (r : BlockRef) (f : ℕ) : Prop where
  lt : f < w.nfil
  dirty : w.dirtyOf (.mem f) = []
  dir : w.dirOf E (.mem f) = w.dirOf E (.ref r)
  sight : w.sight E (.mem f) = w.sight E (.ref r)

/-- The nodes are as they were, and there may be copies of stored ones. -/
structure Undisturbed (w w' : World) : Prop where
  later : Later w w'
  log : w'.log = w.log
  crew : w'.crew = w.crew
  fil : ∀ f, f < w.nfil → w'.fil f = w.fil f
  bytes : ∀ f, f < w.nfil → fileBytes E w' f = fileBytes E w f
  keep : ∀ r f, w.cache.nodemap r = some (.fil f) → w'.cache.nodemap r = some (.fil f)
  copy : ∀ r f, w'.cache.nodemap r = some (.fil f) →
    w.cache.nodemap r = some (.fil f) ∨ CopyOf E w' r f

/-- A node of the graph: one in memory, or one that is only stored. -/
structure Known (w : World) (x : Loc) : Prop where
  norm : w.norm x = x
  lt : ∀ f, x = .mem f → f < w.nfil

variable {E} {n : ℕ} {w w' : World} {α β : Type} {f : ℕ} {r : BlockRef} {x : Loc}

theorem Known.mem (h : f < w.nfil) : Known w (.mem f) where
  norm := rfl
  lt g hg := by
    injection hg with hg
    rwa [← hg]

section undisturbed

theorem dirOf_mem (hf : w'.fil f = w.fil f) : w'.dirOf E (.mem f) = w.dirOf E (.mem f) := by
  simp only [World.dirOf, hf]

theorem dirtyOf_mem (hf : w'.fil f = w.fil f) : w'.dirtyOf (.mem f) = w.dirtyOf (.mem f) := by
  simp only [World.dirtyOf, hf]

theorem dirOf_ref (hlog : w'.log = w.log) : w'.dirOf E (.ref r) = w.dirOf E (.ref r) := by
  simp only [World.dirOf, hlog]

theorem sight_ref (hlog : w'.log = w.log) : w'.sight E (.ref r) = w.sight E (.ref r) := by
  simp only [World.sight, World.dirOf, hlog]

theorem Undisturbed.sight_mem (hu : Undisturbed E w w') (hf : f < w.nfil) :
    w'.sight E (.mem f) = w.sight E (.mem f) := by
  simp only [World.sight, World.dirOf, hu.fil f hf, hu.bytes f hf]

theorem CopyOf.mono (hc : CopyOf E w r f) (hu : Undisturbed E w w') : CopyOf E w' r f where
  lt := hc.lt.trans_le hu.later.nfil
  dirty := (dirtyOf_mem (hu.fil f hc.lt)).trans hc.dirty
  dir := by rw [dirOf_mem (hu.fil f hc.lt), hc.dir, dirOf_ref hu.log]
  sight := by rw [hu.sight_mem hc.lt, hc.sight, sight_ref hu.log]

theorem Undisturbed.refl (w : World) : Undisturbed E w w :=
  ⟨.refl w, rfl, rfl, fun _ _ => rfl, fun _ _ => rfl, fun _ _ hr => hr, fun _ _ hr => .inl hr⟩

theorem Undisturbed.trans {w'' : World} (h : Undisturbed E w w') (h' : Undisturbed E w' w'') :
    Undisturbed E w w'' where
  later := h.later.trans h'.later
  log := h'.log.trans h.log
  crew := h'.crew.trans h.crew
  fil f hf := (h'.fil f (hf.trans_le h.later.nfil)).trans (h.fil f hf)
  bytes f hf := (h'.bytes f (hf.trans_le h.later.nfil)).trans (h.bytes f hf)
  keep r f hr := h'.keep r f (h.keep r f hr)
  copy r f hr := by
    rcases h'.copy r f hr with hr' | hc
    · exact (h.copy r f hr').imp_right fun hc => hc.mono h'
    · exact .inr hc

/-- The node that takes the place of a stored one. -/
theorem Undisturbed.norm_ref (hu : Undisturbed E w w') (hx : Known w (.ref r)) :
    w'.norm (.ref r) = .ref r ∨ ∃ f, w'.norm (.ref r) = .mem f ∧ CopyOf E w' r f := by
  change w'.locAt r = .ref r ∨ ∃ f, w'.locAt r = .mem f ∧ _
  cases hl : w'.locAt r with
  | ref r' => exact .inl (by rw [← locAt_eq_ref hl])
  | mem f =>
      refine .inr ⟨f, rfl, ?_⟩
      rcases hu.copy r f (locAt_eq_mem.1 hl) with hr | hc
      · have hmem : w.norm (.ref r) = .mem f := locAt_eq_mem.2 hr
        rw [hx.norm] at hmem
        simp at hmem
      · exact hc

theorem Undisturbed.dirtyOf (hu : Undisturbed E w w') (hx : Known w x) :
    w'.dirtyOf (w'.norm x) = w.dirtyOf x := by
  cases x with
  | mem f => exact dirtyOf_mem (hu.fil f (hx.lt f rfl))
  | ref r =>
      rcases hu.norm_ref hx with hn | ⟨f, hn, hc⟩
      · rw [hn]
        rfl
      · rw [hn, hc.dirty]
        rfl

theorem Undisturbed.dirOf (hu : Undisturbed E w w') (hx : Known w x) :
    w'.dirOf E (w'.norm x) = w.dirOf E x := by
  cases x with
  | mem f => exact dirOf_mem (hu.fil f (hx.lt f rfl))
  | ref r =>
      rcases hu.norm_ref hx with hn | ⟨f, hn, hc⟩
      · rw [hn, dirOf_ref hu.log]
      · rw [hn, hc.dir, dirOf_ref hu.log]

theorem Undisturbed.sight (hu : Undisturbed E w w') (hx : Known w x) :
    w'.sight E (w'.norm x) = w.sight E x := by
  cases x with
  | mem f => exact hu.sight_mem (hx.lt f rfl)
  | ref r =>
      rcases hu.norm_ref hx with hn | ⟨f, hn, hc⟩
      · rw [hn, sight_ref hu.log]
      · rw [hn, hc.sight, sight_ref hu.log]

/-- The nodes of names stay the same. -/
theorem Undisturbed.kid (hu : Undisturbed E w w') (hx : Known w x) (e : Str) :
    w'.kid E (w'.norm x) e = (w.kid E x e).map w'.norm := by
  rw [World.kid, World.kid, hu.dirtyOf hx, hu.dirOf hx]
  cases (w.dirtyOf x).lookup e with
  | some g => rfl
  | none =>
      cases (w.dirOf E x).lookup e with
      | none => rfl
      | some r => exact congrArg some (norm_norm hu.keep (.ref r)).symm

theorem Undisturbed.kid_mem (hu : Undisturbed E w w') {d : ℕ} (hd : d < w.nfil) {e : Str}
    (hk : w.kid E (.mem d) e = some (.mem f)) : w'.kid E (.mem d) e = some (.mem f) := by
  have := hu.kid (.mem hd) e
  rwa [norm_mem, hk, Option.map_some, norm_mem] at this

/-- The nodes of names are known. -/
theorem FsOk.known_kid (h : FsOk E n w) (hx : Known w x) {e : Str} {y : Loc} (hk : w.kid E x e = some y) :
    Known w y := by
  refine ⟨norm_of_kid hk, ?_⟩
  rintro g rfl
  rw [World.kid] at hk
  cases hd : (w.dirtyOf x).lookup e with
  | some g' =>
      rw [hd] at hk
      obtain rfl : g' = g := by simpa using hk
      cases x with
      | ref r => simp [World.dirtyOf] at hd
      | mem d =>
          rw [World.dirtyOf] at hd
          split at hd
          · exact ((h.node d (hx.lt d rfl)).held _ (mem_of_lookup hd)).lt
          · simp at hd
  | none =>
      rw [hd] at hk
      obtain ⟨r, -, hr⟩ := Option.map_eq_some_iff.1 hk
      exact (h.key r g (locAt_eq_mem.1 hr)).lt

theorem FsOk.known_live (h : FsOk E n w) (hx : (w.graph E none none).Live x) : Known w x := by
  obtain ⟨i, p, hp⟩ := hx
  induction p using List.reverseRecOn generalizing x with
  | nil =>
      rw [LGraph.find_nil] at hp
      cases i with
      | top =>
          obtain ⟨d, hd, rfl⟩ := Option.map_eq_some_iff.1 hp
          exact .mem (h.top d hd).held.lt
      | special =>
          obtain ⟨d, hd, rfl⟩ := Option.map_eq_some_iff.1 hp
          exact .mem (h.special d hd).held.lt
      | hand => simp [World.graph, World.root] at hp
  | append_singleton p e ih =>
      obtain ⟨y, hy, hs⟩ := LGraph.find_snoc_eq_some hp
      have hk : w.step E none y e = some x := hs
      exact h.known_kid (ih hy) (kid_of_step hk)

theorem Undisturbed.members (hu : Undisturbed E w w') :
    w'.rdh = w.rdh ∧ w'.sdh = w.sdh ∧ w'.version = w.version ∧ w'.control = w.control := by
  have hc := hu.crew
  simp only [World.crew, Prod.mk.injEq] at hc
  exact hc.2

theorem Undisturbed.find (hu : Undisturbed E w w') (h : FsOk E n w) (i : Rt) (p : List Str) :
    (w'.graph E none none).find i p = ((w.graph E none none).find i p).map w'.norm := by
  obtain ⟨hr, hs, -, -⟩ := hu.members
  refine LGraph.find_map (fun i => ?_) (fun x hx e => ?_) i p
  · cases i with
    | top =>
        simp only [World.graph, World.root, hr]
        cases w.rdh <;> rfl
    | special =>
        simp only [World.graph, World.root, hs]
        cases w.sdh <;> rfl
    | hand => rfl
  · simp only [World.graph, step_none]
    exact hu.kid (h.known_live hx) e

theorem map_norm_mem (w' : World) (o : Option ℕ) : (o.map Loc.mem).map w'.norm = o.map Loc.mem := by
  cases o <;> rfl

/-- A path leads to the node it led to before, or to a copy of it. -/
theorem Undisturbed.nodeAt (hu : Undisturbed E w w') (h : FsOk E n w) (entry : Str) (rest : List Str) :
    w'.nodeAt E entry rest = (w.nodeAt E entry rest).map w'.norm := by
  obtain ⟨hr, hs, hv, hc⟩ := hu.members
  simp only [World.nodeAt, hr, hs, hv, hc, hu.find h]
  repeat' split
  all_goals first | exact (map_norm_mem _ _).symm | rfl

theorem FsOk.known_nodeAt (h : FsOk E n w) {entry : Str} {rest : List Str}
    (hx : w.nodeAt E entry rest = some x) : Known w x := by
  simp only [World.nodeAt] at hx
  split at hx
  · obtain ⟨d, hd, rfl⟩ := Option.map_eq_some_iff.1 hx
    exact .mem (h.top d hd).held.lt
  split at hx
  · split at hx
    · obtain ⟨d, hd, rfl⟩ := Option.map_eq_some_iff.1 hx
      exact .mem (h.special d hd).held.lt
    split at hx
    · obtain ⟨v, hv, rfl⟩ := Option.map_eq_some_iff.1 hx
      exact .mem (h.version v hv)
    split at hx
    · obtain ⟨c, hc, rfl⟩ := Option.map_eq_some_iff.1 hx
      exact .mem (h.control c hc)
    · simp at hx
  · exact h.known_live ⟨.top, _, hx⟩

/-- **Every path shows the same.** -/
theorem Undisturbed.pathView (hu : Undisturbed E w w') (h : FsOk E n w) (entry : Str) (rest : List Str) :
    w'.pathView E entry rest = w.pathView E entry rest := by
  rw [World.pathView, World.pathView, hu.nodeAt h]
  cases hx : w.nodeAt E entry rest with
  | none => rfl
  | some x => exact hu.sight (h.known_nodeAt hx)

end undisturbed

/-! ### Programs that only read -/

variable (E) in
/-- The program keeps the invariant and leaves the file system as it is, also when it fails; what it
returns satisfies `Q`. -/
def Reads {α : Type} (n : ℕ) (m : M α) (Q : α → World → Prop) (w : World) : Prop :=
  wp m (fun a w' => FsOk E n w' ∧ Undisturbed E w w' ∧ Q a w') (fun _ w' => FsOk E n w' ∧ Undisturbed E w w') w

section rules

variable {Q : α → World → Prop} {Q' : β → World → Prop}

theorem Reads.ret (h : FsOk E n w) {a : α} (hQ : Q a w) : Reads E n (pure a) Q w := ⟨h, .refl w, hQ⟩

theorem Reads.raise (h : FsOk E n w) (e : Exn) : Reads E n (throw e : M α) Q w := ⟨h, .refl w⟩

/-- What has happened before is told too. -/
theorem Reads.later {m : M α} {w₁ : World} (hm : Reads E n m Q w₁) (hu : Undisturbed E w w₁) :
    wp m (fun a w' => FsOk E n w' ∧ Undisturbed E w w' ∧ Q a w')
      (fun _ w' => FsOk E n w' ∧ Undisturbed E w w') w₁ := by
  refine wp_mono hm ?_ ?_
  · exact fun a w₂ ⟨h₂, hu₂, hq⟩ => ⟨h₂, hu.trans hu₂, hq⟩
  · exact fun e w₂ ⟨h₂, hu₂⟩ => ⟨h₂, hu.trans hu₂⟩

theorem Reads.bind {m : M α} {f : α → M β} (hm : Reads E n m Q w)
    (hf : ∀ a w', FsOk E n w' → Undisturbed E w w' → Q a w' → Reads E n (f a) Q' w') :
    Reads E n (m >>= f) Q' w := by
  refine wp_seq hm ?_ (fun _ _ hF => hF)
  rintro a w₁ ⟨h₁, hu₁, hq⟩
  exact (hf a w₁ h₁ hu₁ hq).later hu₁

theorem Reads.mono {m : M α} {Q₂ : α → World → Prop} (hm : Reads E n m Q w)
    (hQ : ∀ a w', FsOk E n w' → Undisturbed E w w' → Q a w' → Q₂ a w') : Reads E n m Q₂ w :=
  wp_mono hm (fun a w' ⟨h', hu', hq⟩ => ⟨h', hu', hQ a w' h' hu' hq⟩) fun _ _ hF => hF

/-- Reading the state. -/
theorem Reads.read {m : World → M β} (hm : Reads E n (m w) Q' w) : Reads E n (get >>= m) Q' w := hm

/-- Exceptions are caught. -/
theorem Reads.rescue {m : M α} {handler : Exn → M α} (hm : Reads E n m Q w)
    (hf : ∀ e w', FsOk E n w' → Undisturbed E w w' → Reads E n (handler e) Q w') :
    Reads E n (tryCatch m handler) Q w := by
  rw [Reads, wp_tryCatch]
  refine wp_mono hm (fun _ _ hQ => hQ) ?_
  rintro e w₁ ⟨h₁, hu₁⟩
  exact (hf e w₁ h₁ hu₁).later hu₁

/-- A program that only reads is safe. -/
theorem Reads.safe {m : M α} (hm : Reads E n m Q w) : Safe E n m Q w :=
  wp_mono hm (fun _ _ ⟨h', hu', hq⟩ => ⟨h', hu'.later, hq⟩) fun _ _ ⟨h', hu'⟩ => .inr ⟨h', hu'.later⟩

end rules

/-! ### The clean cache -/

section cache

theorem sight_setCache (c : BlockNodeCache) : (w.setCache c).sight E x = w.sight E x := by
  cases x with
  | mem f =>
      have hbytes := funext (@fileBytes_of_fil E w (w.setCache c) f rfl rfl rfl)
      simp only [World.sight, hbytes]
      rfl
  | ref r => rfl

theorem CopyOf.setCache (hc : CopyOf E w r f) (c : BlockNodeCache) : CopyOf E (w.setCache c) r f :=
  ⟨hc.lt, hc.dirty, hc.dir, by rw [sight_setCache, sight_setCache]; exact hc.sight⟩

/-- The clean cache gets another order, and keys for copies. -/
theorem Undisturbed.setCache {c : BlockNodeCache}
    (hkeep : ∀ r f, w.cache.nodemap r = some (.fil f) → c.nodemap r = some (.fil f))
    (hcopy : ∀ r f, c.nodemap r = some (.fil f) → w.cache.nodemap r = some (.fil f) ∨ CopyOf E w r f) :
    Undisturbed E w (w.setCache c) where
  later := ⟨.refl _, fun _ hi => hi, Nat.le_refl _, fun _ _ => rfl, fun _ _ => rfl⟩
  log := rfl
  crew := rfl
  fil _ _ := rfl
  bytes f _ := funext (@fileBytes_of_fil E w (w.setCache c) f rfl rfl rfl)
  keep := hkeep
  copy r f hr := (hcopy r f hr).imp_right fun hc => hc.setCache c

theorem CacheRep.weaken {G G' : Obj → Prop} {c : BlockNodeCache} (h : CacheRep G c) (hG : ∀ o, G' o → G o) :
    CacheRep G' c where
  posNodup := h.posNodup
  posLt := h.posLt
  lposLt := h.lposLt
  lposOwn := h.lposOwn
  lpos r o ho := h.lpos r o (hG o ho)
  listed p o ho := h.listed p o (hG o ho)

/-- There is no block under the reference of a stored inode. -/
theorem FsOk.key_ne_blk (h : FsOk E n w) (hs : Stored w.log r .inode) (m : ℕ) :
    w.cache.nodemap r ≠ some (.blk m) := by
  intro ho
  have hkind := (h.blk.key r m ho).stored.kind_eq hs
  simp at hkind

/-- The iterators point at their own places. -/
theorem FsOk.ordered (h : FsOk E n w) : CacheRep (fun _ => False) w.cache := h.blk.rep.weaken fun _ => False.elim

theorem reads_cacheTouch (h : FsOk E n w) {o : Obj} (hr : w.cache.nodemap r = some o) :
    Reads E n (cacheTouch o) (fun _ w' => w' = w.setCache (w.cache.touched o)) w := by
  by_cases ho : w.cache.Placed o
  · rw [Reads, wp, cacheTouch_run ho]
    exact ⟨(h.touched hr).1, .setCache (fun _ _ hr => hr) fun _ _ hr => .inl hr, rfl⟩
  · rw [Reads, wp, cacheTouch_fails h.ordered ho]
    exact ⟨h, .refl w⟩

theorem reads_cacheLookup (h : FsOk E n w) (r : BlockRef) :
    Reads E n (cacheLookup r)
      (fun o w' => o = w.cache.nodemap r ∧ w'.cache.nodemap = w.cache.nodemap ∧ (o = none → w' = w)) w := by
  rw [cacheLookup]
  refine Reads.read ?_
  cases hr : w.cache.nodemap r with
  | none => exact .ret h ⟨rfl, rfl, fun _ => rfl⟩
  | some o =>
      refine (reads_cacheTouch h hr).bind ?_
      rintro - w₁ h₁ - rfl
      exact .ret h₁ ⟨rfl, rfl, by simp⟩

/-- A copy of a stored node enters the clean cache. -/
theorem reads_cacheInsert (h : FsOk E n w) (hs : Stored w.log (w.fil f).ref .inode) (hheld : Held w f)
    (hc : CopyOf E w (w.fil f).ref f) (hnone : w.cache.nodemap (w.fil f).ref = none) :
    Reads E n (cacheInsert (.fil f)) (fun _ w' => w'.cache.nodemap (w.fil f).ref = some (.fil f)) w := by
  rw [cacheInsert]
  refine Reads.read ?_
  rw [show w.cache.nodemap (w.refOf (.fil f)) = none from hnone]
  have hins : FsOk E n (w.setCache (w.cache.inserted (w.fil f).ref (.fil f))) := by
    refine (h.setCache (h.blk.rep.inserted hnone ?_) fun r o ho => ?_).1
    · rintro ⟨m, hm⟩
      simp at hm
    · by_cases heq : r = (w.fil f).ref
      · subst heq
        have : Obj.fil f = o := by simpa [BlockNodeCache.inserted] using ho
        exact .inr ⟨f, this.symm, hs, hheld⟩
      · exact .inl (by simpa only [BlockNodeCache.inserted, Function.update_of_ne heq] using ho)
  have hu : Undisturbed E w (w.setCache (w.cache.inserted (w.fil f).ref (.fil f))) := by
    refine .setCache (fun r g hr => ?_) (fun r g hr => ?_)
    · have hne : r ≠ (w.fil f).ref := by
        rintro rfl
        simp [hnone] at hr
      simpa only [BlockNodeCache.inserted, Function.update_of_ne hne] using hr
    · by_cases heq : r = (w.fil f).ref
      · subst heq
        have : f = g := by simpa [BlockNodeCache.inserted] using hr
        rw [← this]
        exact .inr hc
      · exact .inl (by simpa only [BlockNodeCache.inserted, Function.update_of_ne heq] using hr)
  exact ⟨hins, hu, by simp [World.refOf]⟩

end cache

/-! ### Loading -/

section load

variable {x : FileNode}

/-- A node is made that nothing leads to. -/
theorem Undisturbed.allocFil (w : World) (x : FileNode) : Undisturbed E w (w.allocFil x) where
  later := ⟨.refl _, fun _ hi => hi, Nat.le_succ _, fun g hg => by rw [allocFil_of_lt w x hg],
    fun g hg => by rw [allocFil_of_lt w x hg]⟩
  log := rfl
  crew := rfl
  fil g hg := allocFil_of_lt w x hg
  bytes g hg := funext (fileBytes_allocFil w x hg)
  keep _ _ hr := hr
  copy _ _ hr := .inl hr

/-- Blocks are read. -/
theorem Undisturbed.grew (h : FsOk E n w) (hb : BInv E ∅ w') (hg : Grew w w') : Undisturbed E w w' where
  later := (h.grew hb hg).2
  log := outer_log hg.outer
  crew := congrArg (fun x => (x.2.2.2.2.2.1, x.2.2.2.2.2.2.2.1, x.2.2.2.2.2.2.2.2.1, x.2.2.2.2.2.2.2.2.2.1,
      x.2.2.2.2.2.2.2.2.2.2.1)) hg.outer
  fil f _ := by rw [hg.fil]
  bytes f hf := funext fun a => hg.fileBytes h.blk hf a
  keep r f hr := (hg.cacheFil.nodemap r f).2 hr
  copy r f hr := .inl ((hg.cacheFil.nodemap r f).1 hr)

/-- Only the entries of a new directory are set. -/
theorem Undisturbed.setNew {w₁ : World} (hu : Undisturbed E w w₁) {d : ℕ} (hd : w.nfil ≤ d)
    (hcache : ∀ r f, w₁.cache.nodemap r = some (.fil f) → w.cache.nodemap r = some (.fil f)) (dir : Directory) :
    Undisturbed E w (w₁.setFil d { w₁.fil d with dir := dir }) := by
  have hold : ∀ f, f < w.nfil → (w₁.setFil d { w₁.fil d with dir := dir }).fil f = w.fil f := by
    intro f hf
    rw [setFil_of_ne _ _ (Nat.ne_of_lt (hf.trans_le hd)), hu.fil f hf]
  refine ⟨⟨hu.later.logLe, hu.later.rand, hu.later.nfil, ?_, ?_⟩, hu.log, hu.crew, hold, ?_, hu.keep, ?_⟩
  · exact fun f hf => by rw [hold f hf]
  · exact fun f hf => by rw [hold f hf]
  · intro f hf
    rw [← hu.bytes f hf]
    exact funext (fileBytes_setFil (x := { w₁.fil d with dir := dir }) w₁ d rfl rfl rfl f)
  · exact fun r f hr => .inl (hcache r f hr)

/-- A node with the fields of a stored one is a copy of it. -/
theorem copyOf_stored (hx : decodeFile E w.log r = some x) (hlt : f < w.nfil) (cls : Cls) (dir : Directory)
    (hf : w.fil f = { x with cls := cls, dir := dir }) (hkind : cls.isDir = sIsdir x.inode.mode)
    (hdir : cls.isDir = true → storedDir E w.log r = some dir)
    (hbytes : ∀ a, fileBytes E w f a = nodeBytes E w.log x a) : CopyOf E w r f := by
  have hdirty : x.dirty = [] := by
    simp only [decodeFile, Option.bind_eq_some_iff, Option.map_eq_some_iff] at hx
    obtain ⟨b, -, i, -, rfl⟩ := hx
    rfl
  have hentries : w.dirOf E (.mem f) = w.dirOf E (.ref r) := by
    simp only [World.dirOf, hf]
    cases hc : cls.isDir with
    | true => simp [hdir hc]
    | false => simp [storedDir, hx, hkind.symm.trans hc]
  refine ⟨hlt, ?_, hentries, ?_⟩
  · simp only [World.dirtyOf, hf, hdirty, ite_self]
  · simp only [World.sight, hx, Option.map_some, hentries, funext hbytes, hf]

/-- What loading a node makes. -/
structure NodeLoaded (E : Env) (w : World) (r : BlockRef) (f : ℕ) (w' : World) : Prop where
  stored : Stored w.log r .inode
  held : Held w' f
  ref : (w'.fil f).ref = r
  copy : CopyOf E w' r f
  cache : SameFil w.cache w'.cache

/-- A directory of this size cannot be read: below a reference field that it reaches, a zero singleton
may be missing. -/
def Unread (n size : ℕ) (e : Exn) : Prop := e = .nullHandle ∧ ∃ s : FSlot, s.base < size ∧ n ≤ s.level

/-- **A directory is made from its stored block.** -/
theorem wp_upgradeDir_ok (h : FsOk E n w) (hs : Stored w.log r .inode) (hx : decodeFile E w.log r = some x)
    (href : x.ref = r) (hmode : sIsdir x.inode.mode = true) :
    wp (upgradeDir E x)
      (fun d w' => FsOk E n w' ∧ Undisturbed E w w' ∧ NodeLoaded E w r d w' ∧ DirMember w' d)
      (fun e w' => FsOk E n w' ∧ Undisturbed E w w' ∧ Unread n x.inode.size e) w := by
  obtain ⟨hsize, dir, hdir, hrefs⟩ := h.store.dir r x hs hx hmode
  have hparse : E.parseDir ((List.range x.inode.size).map (nodeBytes E w.log x)) = some dir := by
    rw [storedDir, hx, Option.bind_some, if_pos hmode] at hdir
    exact hdir
  obtain ⟨h₁, hl₁⟩ := h.loaded hs hx .dir
  have hobjs : ∀ s, x.objs s = none ∧ x.dirty = [] := by
    simp only [decodeFile, Option.bind_eq_some_iff, Option.map_eq_some_iff] at hx
    obtain ⟨b, -, i, -, rfl⟩ := hx
    exact fun _ => ⟨rfl, rfl⟩
  generalize hy : ({ x with cls := .dir } : FileNode) = y at h₁ hl₁
  have hself := allocFil_self w y
  have hyi : y.inode = x.inode := by rw [← hy]
  have hu₁ : Undisturbed E w (w.allocFil y) := .allocFil w y
  have hread := wp_fileRead_stopped h₁.blk (f := w.nfil) (Nat.lt_succ_self _) (fun _ => 0) x.inode.size 0
  have hbytes := fileBytes_allocFil_self (E := E) (x := y) w (by rw [← hy]; exact fun s => (hobjs s).1)
  have halloc : allocFil y w = .ok w.nfil (w.allocFil y) := rfl
  rw [upgradeDir, hy, wp_bind, wp, halloc]
  simp only [deserialize, wp_bind, wp_get, hself, hyi]
  refine wp_mono hread ?_ ?_
  · rintro ⟨rv, buf⟩ w₂ ⟨hb₂, hg, hrv, hbuf⟩
    obtain ⟨h₂, hl₂⟩ := h₁.grew hb₂ hg
    have hmin : min (min (0 + x.inode.size) maxSize) x.inode.size = x.inode.size := by omega
    rw [hself, hyi, hmin] at hrv hbuf
    have hneg : ¬ rv < 0 := by
      have : rv = ((x.inode.size - 0 : ℕ) : ℤ) := hrv
      omega
    have hmap : (List.range x.inode.size).map buf = (List.range x.inode.size).map (nodeBytes E w.log x) := by
      refine List.map_congr_left fun j hj => ?_
      have hb : buf j = _ := hbuf j
      have hj' : 0 + j < x.inode.size := by
        rw [Nat.zero_add]
        exact List.mem_range.1 hj
      rw [hb, if_pos hj', hbytes, Nat.zero_add, ← hy]
      rfl
    simp only [if_neg hneg, hmap, hparse, modifyDir, wp_modify, wp_pure]
    have hfil : w₂.fil w.nfil = y := by rw [hg.fil, hself]
    have hlog : w₂.log = w.log := outer_log (w := w.allocFil y) hg.outer
    have hlt : w.nfil < w₂.nfil := (Nat.lt_succ_self w.nfil).trans_le hl₂.nfil
    have hdirty : (w₂.fil w.nfil).dirty = [] := by
      rw [hfil, ← hy]
      exact (hobjs .sin).2
    obtain ⟨h₃, -⟩ := h₂.setFil (f := w.nfil) (x := { w₂.fil w.nfil with dir := dir }) rfl rfl rfl rfl
      (fun hlt => (h₂.node w.nfil hlt).clean)
      (fun _ e he hne => (hl₁.trans hl₂).logLe.stored (hrefs e he hne))
      (fun _ e he => by simp [hdirty] at he)
    have hself₃ : (w₂.setFil w.nfil { w₂.fil w.nfil with dir := dir }).fil w.nfil =
        { x with cls := .dir, dir := dir } := by
      rw [setFil_self, hfil, ← hy]
    have hheld : Held (w₂.setFil w.nfil { w₂.fil w.nfil with dir := dir }) w.nfil :=
      .of_fil ⟨hlt, hself₃⟩ hmode.symm (by simp)
    refine ⟨h₃, ?_, ⟨hs, hheld, by rw [hself₃]; exact href, ?_, hg.cacheFil⟩, hheld, by rw [hself₃]; rfl⟩
    · exact (hu₁.trans (.grew h₁ hb₂ hg)).setNew (Nat.le_refl _) (fun r f hr => (hg.cacheFil.nodemap r f).1 hr)
        dir
    · refine copyOf_stored (x := x) (by rw [← hx, ← hlog]; rfl) hlt .dir dir hself₃ hmode.symm
        (fun _ => by rw [← hdir, ← hlog]; rfl) fun a => ?_
      rw [fileBytes_setFil (x := { w₂.fil w.nfil with dir := dir }) w₂ w.nfil rfl rfl rfl,
        hg.fileBytes h₁.blk (Nat.lt_succ_self _), hbytes, ← hy]
      exact congrArg (fun log => nodeBytes E log x a) hlog.symm
  · rintro ex w₂ ⟨hb₂, hg, ⟨rfl, s, l, -, hbase, hl, hzero⟩ | ⟨-, hlt⟩⟩
    · refine ⟨(h₁.grew hb₂ hg).1, hu₁.trans (.grew h₁ hb₂ hg), rfl, s, by simpa using hbase, ?_⟩
      have hn : n ≤ l := Nat.le_of_not_lt fun hln => (h₁.zero l).2 hln hzero
      exact hn.trans hl.le
    · omega

theorem ref_decodeFile {log : List Effect} (hx : decodeFile E log r = some x) : x.ref = r := by
  simp only [decodeFile, Option.bind_eq_some_iff, Option.map_eq_some_iff] at hx
  obtain ⟨b, -, i, -, rfl⟩ := hx
  rfl

/-- **The node of a stored directory is loaded.** -/
theorem wp_loadDir (h : FsOk E n w) (hs : Stored w.log r .inode) (hx : decodeFile E w.log r = some x)
    (hmode : sIsdir x.inode.mode = true) :
    wp (loadNode E r)
      (fun d w' => FsOk E n w' ∧ Undisturbed E w w' ∧ NodeLoaded E w r d w' ∧ DirMember w' d)
      (fun e w' => FsOk E n w' ∧ Undisturbed E w w' ∧ Unread n x.inode.size e) w := by
  have h₁ : FsOk E n (w.allocFil x) := (h.loaded hs hx x.cls).1
  have hu₁ : Undisturbed E w (w.allocFil x) := .allocFil w x
  rw [loadNode, wp_bind, wp, loadFileNode_run h.blk.disk hs hx]
  simp only [wp_bind, wp_get, allocFil_self, hmode, if_true]
  refine wp_mono (wp_upgradeDir_ok h₁ hs hx (ref_decodeFile hx) hmode) ?_ ?_
  · rintro d w₂ ⟨h₂, hu₂, hn, hd⟩
    exact ⟨h₂, hu₁.trans hu₂, ⟨hs, hn.held, hn.ref, hn.copy, hn.cache⟩, hd⟩
  · exact fun e w₂ ⟨h₂, hu₂, he⟩ => ⟨h₂, hu₁.trans hu₂, he⟩

/-- The node of a stored symbolic link is loaded. -/
theorem loadNode_link (hd : DiskOk E w.log w.rand) (hs : Stored w.log r .inode)
    (hx : decodeFile E w.log r = some x) (hmode : sIsdir x.inode.mode = false) (hlnk : sIslnk x.inode.mode = true) :
    loadNode E r w = .ok (w.nfil + 1) ((w.allocFil x).allocFil { x with cls := .symlink }) := by
  rw [loadNode, bind_apply, loadFileNode_run hd hs hx]
  simp only [bind_apply, get_apply, allocFil_self, hmode, hlnk, Bool.false_eq_true, if_false, if_true]
  rfl

/-- A node without a directory is a copy of the stored one it is made from. -/
theorem copyOf_made (w : World) (hx : decodeFile E w.log r = some x) (cls : Cls)
    (hkind : cls.isDir = sIsdir x.inode.mode) (hfile : cls.isDir = false) :
    CopyOf E (w.allocFil { x with cls := cls }) r w.nfil := by
  have hself := allocFil_self w { x with cls := cls }
  have hfields : x.dir = [] ∧ ∀ s, x.objs s = none := by
    simp only [decodeFile, Option.bind_eq_some_iff, Option.map_eq_some_iff] at hx
    obtain ⟨b, -, i, -, rfl⟩ := hx
    exact ⟨rfl, fun _ => rfl⟩
  refine copyOf_stored (x := x) hx (Nat.lt_succ_self _) cls [] ?_ hkind (fun hd => ?_) fun a => ?_
  · rw [hself, ← hfields.1]
  · rw [hfile] at hd
    simp at hd
  · exact fileBytes_allocFil_self (E := E) (x := { x with cls := cls }) w hfields.2 a

/-- **The node of a reference in a directory is loaded.** -/
theorem reads_loadNode (h : FsOk E n w) (hr : r ≠ .nil → Stored w.log r .inode) :
    Reads E n (loadNode E r) (fun f w' => NodeLoaded E w r f w') w := by
  cases hread : readFileNode E r w with
  | error e w' =>
      have hw : w' = w := wp_error (E := fun _ w' => w' = w) (wp_readFileNode_any h.blk.disk hr) hread
      rw [Reads, wp, loadNode, bind_apply, loadFileNode, bind_apply, hread, hw]
      exact ⟨h, .refl w⟩
  | ok x w' =>
      obtain ⟨-, hs, hx, href⟩ := wp_ok (wp_readFileNode_any h.blk.disk hr) hread
      cases hm : sIsdir x.inode.mode with
      | true =>
          refine wp_mono (wp_loadDir h hs hx hm) ?_ ?_
          · rintro d w₂ ⟨h₂, hu₂, hn, -⟩
            exact ⟨h₂, hu₂, hn⟩
          · rintro e w₂ ⟨h₂, hu₂, -⟩
            exact ⟨h₂, hu₂⟩
      | false =>
          have hcls : x.cls = .file := by
            simp only [decodeFile, Option.bind_eq_some_iff, Option.map_eq_some_iff] at hx
            obtain ⟨b, -, i, -, rfl⟩ := hx
            rfl
          have h₁ : FsOk E n (w.allocFil x) := (h.loaded hs hx x.cls).1
          have hself := allocFil_self w x
          cases hlnk : sIslnk x.inode.mode with
          | true =>
              rw [Reads, wp, loadNode_link h.blk.disk hs hx hm hlnk]
              have hself₂ := allocFil_self (w.allocFil x) { x with cls := .symlink }
              refine ⟨(h₁.loaded hs hx .symlink).1, (Undisturbed.allocFil w x).trans (.allocFil _ _),
                hs, .of_fil ⟨Nat.lt_succ_self _, hself₂⟩ hm.symm (by simp), ?_,
                copyOf_made (w.allocFil x) hx .symlink hm.symm rfl, .refl _⟩
              · rw [show w.nfil + 1 = (w.allocFil x).nfil from rfl, hself₂]
                exact href
          | false =>
              rw [Reads, wp, loadNode, bind_apply, loadFileNode_run h.blk.disk hs hx]
              simp only [bind_apply, get_apply, hself, hm, hlnk, Bool.false_eq_true, if_false, pure_apply]
              refine ⟨h₁, .allocFil w x, hs, .of_fil ⟨Nat.lt_succ_self _, hself⟩ (by rw [hm, hcls]; rfl)
                (by rw [hcls]; simp), ?_, ?_, .refl _⟩
              · rw [hself, href]
              · have hcopy := copyOf_made w hx x.cls (by rw [hcls, hm]; rfl) (by rw [hcls]; rfl)
                exact hcopy

/-- The entry of a name that has no dirty node leads to the node of its reference. -/
theorem kid_of_entry {d : ℕ} {entry : Str} (hdir : (w.fil d).cls.isDir = true)
    (hd : (w.fil d).dirty.lookup entry = none) (href : (w.fil d).dir.lookup entry = some r)
    (hr : w.cache.nodemap r = some (.fil f)) : w.kid E (.mem d) entry = some (.mem f) := by
  rw [kid_mem hdir, hd, href]
  exact congrArg some (locAt_eq_mem.2 hr)

/-- **`DirNode::lookup`** leaves the file system as it is, and finds the node of the name. -/
theorem reads_lookup (h : FsOk E n w) {d : ℕ} (hd : d < w.nfil) (entry : Str) (readonly : Bool) :
    Reads E n (lookup E d entry readonly) (fun o w' => ∀ f, o = some f →
      Held w' f ∧ ((w.fil d).cls.isDir = true → w'.kid E (.mem d) entry = some (.mem f))) w := by
  have hn := h.node d hd
  rw [lookup]
  refine Reads.read ?_
  cases hf : (w.fil d).dirty.lookup entry with
  | some f =>
      refine .ret h fun f' hf' => ?_
      obtain rfl := Option.some.inj hf'
      exact ⟨hn.held _ (mem_of_lookup hf), fun hdir => by rw [kid_mem hdir, hf]⟩
  | none =>
      dsimp only
      cases href : (w.fil d).dir.lookup entry with
      | none => exact .ret h (by simp)
      | some ref =>
          have hstored := hn.refs _ (mem_of_lookup href)
          -- The directory itself is not touched.
          have hkid : ∀ {w' : World} {f : ℕ}, Undisturbed E w w' → w'.cache.nodemap ref = some (.fil f) →
              (w.fil d).cls.isDir = true → w'.kid E (.mem d) entry = some (.mem f) := by
            intro w' f hu hr hdir
            have hfil := hu.fil d hd
            exact kid_of_entry (by rw [hfil, hdir]) (by rw [hfil, hf]) (by rw [hfil, href]) hr
          refine (reads_cacheLookup h ref).bind ?_
          rintro o w₁ h₁ hu₁ ⟨rfl, hmap, hmiss⟩
          cases ho : w.cache.nodemap ref with
          | some o =>
              cases o with
              | blk m => exact .ret h₁ (by simp)
              | fil f =>
                  refine .ret h₁ fun f' hf' => ?_
                  obtain rfl := Option.some.inj hf'
                  exact ⟨(h.key ref f ho).later hu₁.later, hkid hu₁ (by rw [hmap, ho])⟩
          | none =>
              obtain rfl := hmiss ho
              dsimp only
              split
              case isTrue => exact .raise h₁ _
              case isFalse =>
                refine (reads_loadNode h₁ hstored).bind ?_
                rintro f w₂ h₂ hu₂ hl
                have hs : Stored w₂.log (w₂.fil f).ref .inode := by
                  rw [hl.ref, hu₂.log]
                  exact hl.stored
                refine (reads_cacheInsert h₂ hs hl.held (by rw [hl.ref]; exact hl.copy) ?_).bind ?_
                · rw [hl.ref]
                  cases ho₂ : w₂.cache.nodemap ref with
                  | none => rfl
                  | some o =>
                      cases o with
                      | fil g =>
                          rw [(hl.cache.nodemap ref g).1 ho₂] at ho
                          simp at ho
                      | blk m =>
                          rw [hl.ref] at hs
                          exact absurd ho₂ (h₂.key_ne_blk hs m)
                · rintro - w₃ h₃ hu₃ hkey
                  refine .ret h₃ fun f' hf' => ?_
                  obtain rfl := Option.some.inj hf'
                  rw [hl.ref] at hkey
                  exact ⟨hl.held.later hu₃.later, hkid ((hu₁.trans hu₂).trans hu₃) hkey⟩

end load

end UTFS

end Utopfs
