/-
**Operations that only read.**

They try with a read lock first, when no node may be brought into memory, and once more with the write
lock if a node is missing.  The first attempt then has gone along nodes in memory only, which changes the
order of the clean cache and nothing else; so the second one goes the way it would have gone without the
first.

Main definitions:

* `UTFS.Tries` — an attempt that goes the way of another, or asks for a second attempt;
* `UTFS.SteadyFunc`, `UTFS.ReadsFunc` — functors that only read;
* `UTFS.SameOutcome`, `UTFS.KeepsPaths` — what two runs have in common, and what a run leaves alone.

Main results:

* `UTFS.tries_rootTraverse` — a traversal with `NT_READONLY` and without;
* `UTFS.alike_tryReadonly` — two attempts and the second one alone;
* `UTFS.readonly_agrees` — **every operation that only reads**.
-/

import Utopfs.FsHistory
import Utopfs.Symlinks

set_option relaxedAutoImplicit false
set_option autoImplicit false

namespace Utopfs

namespace UTFS

open Prog

variable (E : Env)

/-! ### Two attempts -/

section attempts

variable {α β : Type} {w : World}

/-- The attempt goes the way of the other, unless it asks for a second one; then it has changed the order
of the list only. -/
def Tries (m m' : M α) (w : World) : Prop :=
  m w = m' w ∨ ∃ e w', m w = .error e w' ∧ AsksRetry e ∧ Reordered w w'

theorem Tries.bind {m m' : M α} {f f' : α → M β} (hm : Tries m m' w)
    (hok : ∀ a w', m w = .ok a w' → Reordered w w')
    (hf : ∀ a w', Reordered w w' → Tries (f a) (f' a) w') : Tries (m >>= f) (m' >>= f') w := by
  rcases hm with heq | ⟨e, w', hrun, he, hw⟩
  · simp only [Tries, bind_apply, ← heq]
    cases hrun : m w with
    | error e w' => exact .inl rfl
    | ok a w' =>
        have hw := hok a w' hrun
        rcases hf a w' hw with heq' | ⟨e, w'', hrun', he, hw'⟩
        · exact .inl heq'
        · exact .inr ⟨e, w'', hrun', he, hw.trans hw'⟩
  · exact .inr ⟨e, w', by rw [bind_apply, hrun], he, hw⟩

/-- The same is done with what both return. -/
theorem Tries.map {m m' : M α} (hm : Tries m m' w) (f : α → M β) : Tries (m >>= f) (m' >>= f) w := by
  rcases hm with heq | ⟨e, w', hrun, he, hw⟩
  · exact .inl (by rw [bind_apply, bind_apply, heq])
  · exact .inr ⟨e, w', by rw [bind_apply, hrun], he, hw⟩

theorem Reordered.rep {w' : World} (h : Reordered w w') : CacheRep (fun _ => False) w'.cache := by
  obtain ⟨c, rfl, hc⟩ := h
  exact hc.right

/-- **`DirNode::lookup`** with `NT_READONLY` and without. -/
theorem tries_lookup (h : CacheRep (fun _ => False) w.cache) (d : ℕ) (entry : Str) :
    Tries (lookup E d entry true) (lookup E d entry false) w ∧
      ∀ o w', lookup E d entry true w = .ok o w' → Reordered w w' := by
  simp only [Tries, lookup, bind_apply, get_apply]
  cases (w.fil d).dirty.lookup entry with
  | some f => exact ⟨.inl rfl, fun _ _ hrun => by cases hrun; exact .refl h⟩
  | none =>
      cases (w.fil d).dir.lookup entry with
      | none => exact ⟨.inl rfl, fun _ _ hrun => by cases hrun; exact .refl h⟩
      | some ref =>
          simp only [cacheLookup, bind_apply, get_apply]
          cases hr : w.cache.nodemap ref with
          | none => exact ⟨.inr ⟨_, w, rfl, trivial, .refl h⟩, fun _ _ hrun => by cases hrun⟩
          | some o =>
              by_cases ho : w.cache.Placed o
              · have hw : Reordered w (w.setCache (w.cache.touched o)) := ⟨_, rfl, .touch h hr ho⟩
                simp only [bind_apply, cacheTouch_run ho, pure_apply]
                cases o with
                | fil f => exact ⟨.inl rfl, fun _ _ hrun => by cases hrun; exact hw⟩
                | blk m => exact ⟨.inl rfl, fun _ _ hrun => by cases hrun; exact hw⟩
              · simp only [bind_apply, cacheTouch_fails h ho]
                exact ⟨.inl trivial, fun _ _ hrun => by cases hrun⟩

variable {R : Type} (t : NodeTraverseFunc R) (parent : Bool)

/-- **`DirNode::node_traverse`**, by recursion on the components of the remainder. -/
theorem tries_nodeTraverse : ∀ (rest : List Str) (d : ℕ) (entry : Str) (v : R) (w : World),
    CacheRep (fun _ => False) w.cache →
    Tries (nodeTraverse E ⟨parent, false, true⟩ t rest d entry v)
      (nodeTraverse E ⟨parent, false, false⟩ t rest d entry v) w := by
  intro rest
  induction rest with
  | nil =>
      intro d entry v w h
      obtain ⟨hl, hok⟩ := tries_lookup E h d entry
      rw [nodeTraverse, nodeTraverse]
      refine hl.bind hok fun fnh w' _ => .inl ?_
      simp only [Bool.false_eq_true, if_false]
  | cons next rest ih =>
      intro d entry v w h
      obtain ⟨hl, hok⟩ := tries_lookup E h d entry
      rw [nodeTraverse, nodeTraverse]
      refine hl.bind hok fun fnh w' hw => ?_
      cases fnh with
      | none => exact .inl rfl
      | some f =>
          simp only [Bool.false_eq_true, if_false, bind_pure]
          simp only [Tries, bind_apply, get_apply]
          by_cases hdir : (w'.fil f).cls.isDir = true
          · simpa [hdir, Tries] using ih f next v w' hw.rep
          · refine .inl ?_
            rw [if_pos (by simpa using hdir), if_pos (by simpa using hdir)]
            rfl

/-- **`RootDirNode::node_traverse`.** -/
theorem tries_rootTraverse (h : CacheRep (fun _ => False) w.cache) (rest : List Str) (entry : Str) (v : R) :
    Tries (rootTraverse E ⟨parent, false, true⟩ t rest entry v)
      (rootTraverse E ⟨parent, false, false⟩ t rest entry v) w := by
  change Tries (member w.rdh >>= _) (member w.rdh >>= _) w
  cases w.rdh with
  | none => exact .inl rfl
  | some d =>
      change Tries (if entry = [] then _ else _) (if entry = [] then _ else _) w
      by_cases hentry : entry = []
      · rw [if_pos hentry, if_pos hentry]
        exact .inl rfl
      · rw [if_neg hentry, if_neg hentry]
        by_cases hspecial : entry = specialDir
        · rw [if_pos hspecial, if_pos hspecial]
          exact .inl rfl
        · rw [if_neg hspecial, if_neg hspecial]
          exact tries_nodeTraverse E t parent rest d entry v w h

end attempts

/-! ### Functors that do not depend on the order of the list -/

section steady

variable {R α : Type} {t : NodeTraverseFunc R} {parent : Bool}

/-- The functor does not depend on the order of the list, and does not ask for a second attempt. -/
structure SteadyFunc (t : NodeTraverseFunc R) : Prop where
  leaf : ∀ f v, Steady (t.ntLeaf f v)
  parent : ∀ d entry v, Steady (t.ntParent d entry v)

theorem steady_member (h : Option ℕ) : Steady (member h) := by
  cases h with
  | none => exact .throw id
  | some f => exact .pure f

theorem steady_nodeTraverse (ht : SteadyFunc t) : ∀ (rest : List Str) (d : ℕ) (entry : Str) (v : R),
    Steady (nodeTraverse E ⟨parent, false, false⟩ t rest d entry v) := by
  intro rest
  induction rest with
  | nil =>
      intro d entry v
      rw [nodeTraverse]
      refine (steady_lookup E d entry).bind fun fnh => ?_
      simp only [Bool.false_eq_true, if_false, bind_pure]
      refine .ite (ht.parent d entry v) ?_
      cases fnh with
      | none => exact .throw id
      | some f => exact ht.leaf f v
  | cons next rest ih =>
      intro d entry v
      rw [nodeTraverse]
      refine (steady_lookup E d entry).bind fun fnh => ?_
      cases fnh with
      | none => exact .throw id
      | some f =>
          refine .get (fun _ _ => rfl) fun w => ?_
          simp only [Bool.false_eq_true, if_false, bind_pure]
          exact .ite (Steady.bind (.throw id) fun _ => ih f next v) (ih f next v)

theorem steady_specialTraverse (ht : SteadyFunc t) (rest : List Str) (d : ℕ) (entry : Str) (v : R) :
    Steady (specialTraverse t rest d entry v) := by
  rw [specialTraverse]
  refine .ite ?_ (.ite ?_ (.throw id))
  · refine (ht.parent d entry v).bind fun v' => .get (fun _ _ => rfl) fun w => ?_
    exact (steady_member w.version).bind fun f => ht.leaf f v'
  · refine (ht.parent d entry v).bind fun v' => .get (fun _ _ => rfl) fun w => ?_
    cases w.control with
    | none => exact .throw id
    | some f => exact ht.leaf f v'

theorem steady_rootTraverse (ht : SteadyFunc t) (rest : List Str) (entry : Str) (v : R) :
    Steady (rootTraverse E ⟨parent, false, false⟩ t rest entry v) := by
  refine .get (fun _ _ => rfl) fun w => (steady_member w.rdh).bind fun d => ?_
  refine .ite ?_ (.ite ?_ (steady_nodeTraverse E ht rest d entry v))
  · exact .ite (Steady.bind (.throw id) fun _ => ht.leaf d v) (ht.leaf d v)
  · refine (steady_member w.sdh).bind fun s => ?_
    cases rest with
    | nil => exact ht.leaf s v
    | cons next rest => exact steady_specialTraverse ht rest s next v

theorem steady_ntRetval (v : Option ℤ) : Steady (ntRetval v) := by
  cases v with
  | none => exact .throw id
  | some rv => exact .pure rv

/-- One traversal of a path, and what is done with its result. -/
theorem steady_traverse {β : Type} (ht : SteadyFunc t) (path : Str) (v : R) {next : R → M β}
    (hnext : ∀ v', Steady (next v')) : Steady (do
      let (entry, rest) ← splitPath path
      let v' ← rootTraverse E ⟨parent, false, false⟩ t rest entry v
      next v') := by
  rcases splitPath_eq path with ⟨x, hx⟩ | ⟨text, hx⟩
  · rw [hx, pure_bind]
    exact (steady_rootTraverse E ht x.2 x.1 v).bind hnext
  · rw [hx]
    exact Steady.throw (e := .internalError text) id

theorem tries_traverse {β : Type} {w : World} (h : CacheRep (fun _ => False) w.cache) (path : Str) (v : R)
    (next : R → M β) :
    Tries
      (do
        let (entry, rest) ← splitPath path
        let v' ← rootTraverse E ⟨parent, false, true⟩ t rest entry v
        next v')
      (do
        let (entry, rest) ← splitPath path
        let v' ← rootTraverse E ⟨parent, false, false⟩ t rest entry v
        next v') w := by
  rcases splitPath_eq path with ⟨x, hx⟩ | ⟨text, hx⟩
  · rw [hx, pure_bind, pure_bind]
    exact (tries_rootTraverse E t parent h x.2 x.1 v).map next
  · rw [hx]
    exact .inl rfl

/-- **Two attempts, and the second one alone.**  The exceptions of the first, unless they ask for a second
attempt, are handled as those of the second are. -/
theorem alike_attempts {w : World} {m m' : M α} {g g' : Exn → M α} (h : CacheRep (fun _ => False) w.cache)
    (ht : Tries m m' w) (hs : Steady m') (hg : ∀ e, ¬ AsksRetry e → g e = g' e)
    (hretry : ∀ e, AsksRetry e → g e = tryCatch m' g')
    (hhandler : ∀ e, ¬ AsksRetry e → (∃ a, g' e = pure a) ∨ g' e = throw e) :
    Alike Reordered (fun e => ¬ AsksRetry e) (tryCatch m' g') (tryCatch m g) w w := by
  have hcaught : ∀ e t t', ¬ AsksRetry e → Reordered t t' →
      Alike Reordered (fun e => ¬ AsksRetry e) (g' e) (g' e) t t' := by
    intro e t t' he hR
    rcases hhandler e he with ⟨a, ha⟩ | ha
    · rw [ha]
      exact .pure hR a
    · rw [ha]
      exact .throw hR he
  rcases ht with heq | ⟨e, w', hrun, he, hw⟩
  · refine Alike.tryCatch (F := fun e => ¬ AsksRetry e) ?_ fun e t t' he hR => ?_
    · have hself := hs w w (.refl h)
      rw [Alike, heq]
      exact hself
    · rw [hg e he]
      exact hcaught e t t' he hR
  · have hagain : tryCatch m g w = tryCatch m' g' w' := by
      simp only [MonadExcept.tryCatch, tryCatchThe, MonadExceptOf.tryCatch, EStateM.tryCatch, hrun]
      exact congrFun (hretry e he) w'
    rw [Alike, hagain]
    exact Alike.tryCatch (hs w w' hw) hcaught

/-- **`tryReadonly`.** -/
theorem alike_tryReadonly {w : World} {out : α} {attempt : Bool → M (ℤ × α)}
    (h : CacheRep (fun _ => False) w.cache) (ht : Tries (attempt true) (attempt false) w)
    (hs : Steady (attempt false)) :
    Alike Reordered (fun e => ¬ AsksRetry e) (catchErrnoOut out (attempt false)) (tryReadonly out attempt) w w := by
  refine alike_attempts h ht hs (fun e he => ?_) (fun e he => ?_) fun e he => ?_
  · cases e <;> first | rfl | exact absurd trivial he
  · cases e <;> first | rfl | exact he.elim
  · cases e with
    | errno e => exact .inl ⟨_, rfl⟩
    | _ => exact .inr rfl

end steady

/-! ### Functors that only read -/

section reads

variable {E} {n : ℕ} {R α : Type} {t : NodeTraverseFunc R} {parent readonly : Bool} {w : World}

variable (E n) in
/-- The functor leaves the file system as it is. -/
structure ReadsFunc (t : NodeTraverseFunc R) : Prop where
  leaf : ∀ f v w, FsOk E n w → f < w.nfil → Reads E n (t.ntLeaf f v) (fun _ _ => True) w
  parent : ∀ d entry v w, FsOk E n w → DirMember w d → Reads E n (t.ntParent d entry v) (fun _ _ => True) w

theorem reads_nodeTraverse (ht : ReadsFunc E n t) : ∀ (rest : List Str) (d : ℕ) (entry : Str) (v : R)
    (w : World), FsOk E n w → DirMember w d →
    Reads E n (nodeTraverse E ⟨parent, false, readonly⟩ t rest d entry v) (fun _ _ => True) w := by
  intro rest
  induction rest with
  | nil =>
      intro d entry v w h hd
      rw [nodeTraverse]
      refine (reads_lookup h hd.held.lt entry readonly).bind ?_
      intro fnh w₁ h₁ hu₁ hfnh
      simp only [Bool.false_eq_true, if_false, bind_pure]
      split
      case isTrue => exact ht.parent d entry v w₁ h₁ (hd.later hu₁.later)
      case isFalse =>
        cases fnh with
        | none => exact .raise h₁ _
        | some f => exact ht.leaf f v w₁ h₁ (hfnh f rfl).1.lt
  | cons next rest ih =>
      intro d entry v w h hd
      rw [nodeTraverse]
      refine (reads_lookup h hd.held.lt entry readonly).bind ?_
      intro fnh w₁ h₁ hu₁ hfnh
      cases fnh with
      | none => exact .raise h₁ _
      | some f =>
          refine Reads.read ?_
          simp only [Bool.false_eq_true, if_false, bind_pure]
          split
          case isTrue => exact ⟨h₁, .refl w₁⟩
          case isFalse hdir => exact ih f next v w₁ h₁ ⟨(hfnh f rfl).1, by simpa using hdir⟩

theorem reads_specialTraverse (ht : ReadsFunc E n t) (h : FsOk E n w) {d : ℕ} (hd : DirMember w d)
    (rest : List Str) (entry : Str) (v : R) :
    Reads E n (specialTraverse t rest d entry v) (fun _ _ => True) w := by
  rw [specialTraverse]
  split
  case isTrue =>
    refine (ht.parent d entry v w h hd).bind ?_
    rintro v₁ w₁ h₁ - -
    refine Reads.read ?_
    cases hv : w₁.version with
    | none => exact ⟨h₁, .refl w₁⟩
    | some f => exact ht.leaf f v₁ w₁ h₁ (h₁.version f hv)
  case isFalse =>
    split
    case isTrue =>
      refine (ht.parent d entry v w h hd).bind ?_
      rintro v₁ w₁ h₁ - -
      refine Reads.read ?_
      cases hc : w₁.control with
      | none => exact .raise h₁ _
      | some f => exact ht.leaf f v₁ w₁ h₁ (h₁.control f hc)
    case isFalse => exact .raise h _

theorem reads_rootTraverse (ht : ReadsFunc E n t) (h : FsOk E n w) (rest : List Str) (entry : Str) (v : R) :
    Reads E n (rootTraverse E ⟨parent, false, readonly⟩ t rest entry v) (fun _ _ => True) w := by
  rw [rootTraverse]
  refine Reads.read ?_
  cases hd : w.rdh with
  | none => exact ⟨h, .refl w⟩
  | some d =>
      have hdir := h.top d hd
      change Reads E n (if entry = [] then _ else _) _ w
      split
      case isTrue =>
        split
        case isTrue => exact ⟨h, .refl w⟩
        case isFalse => exact ht.leaf d v w h hdir.held.lt
      case isFalse =>
        split
        case isTrue =>
          cases hs : w.sdh with
          | none => exact ⟨h, .refl w⟩
          | some s =>
              have hspecial := h.special s hs
              cases rest with
              | nil => exact ht.leaf s v w h hspecial.held.lt
              | cons next rest => exact reads_specialTraverse ht h hspecial rest next v
        case isFalse => exact reads_nodeTraverse ht rest d entry v w h hdir

/-- One traversal of a path, and what is done with its result. -/
theorem reads_traverse (ht : ReadsFunc E n t) (h : FsOk E n w) (path : Str) (v : R) {β : Type} {next : R → M β}
    (hnext : ∀ v' w', FsOk E n w' → Reads E n (next v') (fun _ _ => True) w') :
    Reads E n (do
      let (entry, rest) ← splitPath path
      let v' ← rootTraverse E ⟨parent, false, readonly⟩ t rest entry v
      next v') (fun _ _ => True) w := by
  rcases splitPath_eq path with ⟨x, hx⟩ | ⟨text, hx⟩
  · rw [hx, pure_bind]
    refine (reads_rootTraverse ht h x.2 x.1 v).bind ?_
    exact fun v' w' h' _ _ => hnext v' w' h'
  · rw [hx]
    exact ⟨h, .refl w⟩

theorem reads_ntRetval (h : FsOk E n w) (v : Option ℤ) : Reads E n (ntRetval v) (fun _ _ => True) w := by
  cases v with
  | none => exact .raise h _
  | some rv => exact .ret h trivial

theorem reads_readAttempt {t : NodeTraverseFunc (Option ℤ × α)} (ht : ReadsFunc E n t) (h : FsOk E n w)
    (path : Str) (out : α) :
    Reads E n (readAttempt E parent t path out readonly) (fun _ _ => True) w := by
  refine reads_traverse ht h path (none, out) fun v w' h' => ?_
  refine (reads_ntRetval h' v.1).bind ?_
  exact fun rv w'' h'' _ _ => .ret h'' trivial

theorem reads_tryReadonly {out : α} {attempt : Bool → M (ℤ × α)}
    (ha : ∀ readonly w, FsOk E n w → Reads E n (attempt readonly) (fun _ _ => True) w) (h : FsOk E n w) :
    Reads E n (tryReadonly out attempt) (fun _ _ => True) w := by
  refine (ha true w h).rescue fun e w' h' _ => ?_
  cases e with
  | errno e => exact .ret h' trivial
  | operationError text =>
      refine (ha false w' h').rescue fun e w'' h'' _ => ?_
      cases e <;> first | exact .ret h'' trivial | exact .raise h'' _
  | _ => exact .raise h' _

end reads

/-! ### The leaves -/

section leaves

variable {E} {n : ℕ} {α : Type} {w : World}

theorem steady_leafOut {act : ℕ → α → M (ℤ × α)} (hact : ∀ f out, Steady (act f out)) :
    SteadyFunc (leafOut act) :=
  ⟨fun f v => (hact f v.2).bind fun _ => .pure _, fun _ _ v => .pure v⟩

theorem reads_leafOut {act : ℕ → α → M (ℤ × α)}
    (hact : ∀ f out w, FsOk E n w → f < w.nfil → Reads E n (act f out) (fun _ _ => True) w) :
    ReadsFunc E n (leafOut act) := by
  refine ⟨fun f v w h hf => (hact f v.2 w h hf).bind ?_, fun _ _ _ _ h _ => .ret h trivial⟩
  exact fun _ w' h' _ _ => .ret h' trivial

theorem steady_getattr (f : ℕ) (st : Stat) : Steady (getattr f st) := by
  refine .get (fun _ _ => rfl) fun w => ?_
  cases (w.fil f).cls <;> exact .pure _

theorem reads_getattr (h : FsOk E n w) (f : ℕ) (st : Stat) : Reads E n (getattr f st) (fun _ _ => True) w := by
  rw [getattr]
  refine Reads.read ?_
  cases (w.fil f).cls <;> exact .ret h trivial

theorem steady_readlink (size f : ℕ) (obuf : ℕ → UInt8) : Steady (readlink size f obuf) := by
  refine .get (fun _ _ => rfl) fun w => ?_
  have hcopy : Steady (if h : min (w.fil f).inode.size (size - 1) ≤ 4096 then
      (pure (0, fun j => if hj : j < min (w.fil f).inode.size (size - 1) then (w.fil f).inl ⟨j, by omega⟩
        else if j = min (w.fil f).inode.size (size - 1) then 0 else obuf j) : M (ℤ × (ℕ → UInt8)))
      else throw (.undefined "memcpy beyond m_inl")) := by
    split
    case isTrue => exact .pure _
    case isFalse => exact .throw id
  exact .ite (Steady.bind (.throw id) fun _ => .ite (Steady.bind (.throw id) fun _ => hcopy) hcopy)
    (.ite (Steady.bind (.throw id) fun _ => hcopy) hcopy)

theorem reads_readlink (h : FsOk E n w) (size f : ℕ) (obuf : ℕ → UInt8) :
    Reads E n (readlink size f obuf) (fun _ _ => True) w := by
  rw [readlink]
  refine Reads.read ?_
  dsimp only
  split
  case isTrue => exact ⟨h, .refl w⟩
  case isFalse =>
    split
    case isTrue => exact ⟨h, .refl w⟩
    case isFalse =>
      split
      case isTrue => exact .ret h trivial
      case isFalse => exact ⟨h, .refl w⟩

theorem steady_readNode (size off f : ℕ) (buf : ℕ → UInt8) : Steady (readNode E size off f buf) :=
  .get (fun _ _ => rfl) fun _ => .ite (.pure _) (steady_fileRead E f buf size off)

theorem reads_readNode (h : FsOk E n w) {f : ℕ} (hf : f < w.nfil) (size off : ℕ) (buf : ℕ → UInt8) :
    Reads E n (readNode E size off f buf) (fun _ _ => True) w := by
  rw [readNode]
  refine Reads.read ?_
  dsimp only
  split
  case isTrue => exact .ret h trivial
  case isFalse =>
    refine wp_mono (wp_fileRead h.blk hf buf size off) ?_ ?_
    · rintro - w' ⟨hb, hg, -⟩
      exact ⟨(h.grew hb hg).1, .grew h hb hg, trivial⟩
    · rintro - w' ⟨hb, hg, -⟩
      exact ⟨(h.grew hb hg).1, .grew h hb hg⟩

/-- The names that `readdir` emits. -/
def World.listing (w : World) (d : ℕ) : List Str :=
  let dots := [Str.ofText ".", Str.ofText ".."]
  if (w.fil d).cls = .specialDir then
    dots ++ Str.ofText "version" :: if w.control.isSome then [Str.ofText "control"] else []
  else
    let names := (w.fil d).dir.map Prod.fst ++ dots
    if w.rdh = some d then names ++ [specialDir] else names

theorem readdir_eq (d : ℕ) : readdir d = get >>= fun w => pure (w.listing d) := by
  funext w
  simp only [readdir, bind_apply, get_apply, World.listing]
  split <;> rfl

theorem steady_emitEntries (f : ℕ) (names : List Str) : Steady (emitEntries f names) := by
  have hdir : Steady (readdir f) := by
    rw [readdir_eq]
    exact .get (fun _ _ => rfl) fun w => .pure _
  refine .get (fun _ _ => rfl) fun w => ?_
  have hemit := hdir.bind fun l => Steady.pure ((0 : ℤ), names ++ l)
  exact .ite (Steady.bind (.throw id) fun _ => hemit) hemit

theorem reads_emitEntries (h : FsOk E n w) (f : ℕ) (names : List Str) :
    Reads E n (emitEntries f names) (fun _ _ => True) w := by
  rw [emitEntries]
  refine Reads.read ?_
  dsimp only
  split
  case isTrue => exact ⟨h, .refl w⟩
  case isFalse =>
    rw [readdir_eq]
    exact ⟨h, .refl w, trivial⟩

theorem steady_openEntry (d : ℕ) (entry : Str) (flags : UInt32) : Steady (openEntry E d entry flags) := by
  refine .get (fun _ _ => rfl) fun w => .ite (.pure _) ((steady_lookup E d entry).bind fun o => ?_)
  cases o with
  | none => exact .throw id
  | some f => exact .pure 0

theorem reads_openEntry (h : FsOk E n w) {d : ℕ} (hd : d < w.nfil) (entry : Str) (flags : UInt32) :
    Reads E n (openEntry E d entry flags) (fun _ _ => True) w := by
  rw [openEntry]
  refine Reads.read ?_
  split
  case isTrue => exact .ret h trivial
  case isFalse =>
    refine (reads_lookup h hd entry false).bind ?_
    rintro o w' h' - -
    cases o with
    | none => exact .raise h' _
    | some f => exact .ret h' trivial

end leaves

/-! ### The operations -/

section ops

variable {α : Type}

/-- The two programs return the same, or raise the same exception. -/
def SameOutcome (m m' : M α) (w : World) : Prop :=
  match m w, m' w with
  | .ok a _, .ok a' _ => a = a'
  | .error e _, .error e' _ => e = e'
  | _, _ => False

/-- After the program every path shows the same. -/
def KeepsPaths (m : M α) (w : World) : Prop :=
  wp m (fun _ w' => ∀ entry rest, w'.pathView E entry rest = w.pathView E entry rest)
    (fun _ w' => ∀ entry rest, w'.pathView E entry rest = w.pathView E entry rest) w

/-- The operation does what its second attempt does alone, and leaves the file system as it is. -/
structure AgreesWith (op alone : M α) (w : World) : Prop where
  same : SameOutcome op alone w
  paths : KeepsPaths E op w

variable {E} {n : ℕ} {w : World}

theorem sameOutcome_of_alike {R : World → World → Prop} {F : Exn → Prop} {m m' : M α}
    (h : Alike R F m' m w w) : SameOutcome m m' w := by
  rw [Alike] at h
  rw [SameOutcome]
  cases hm : m w with
  | ok a w₁ =>
      cases hm' : m' w with
      | ok a' w₂ =>
          rw [hm, hm'] at h
          exact h.1.symm
      | error e' w₂ =>
          rw [hm, hm'] at h
          exact h
  | error e w₁ =>
      cases hm' : m' w with
      | ok a' w₂ =>
          rw [hm, hm'] at h
          exact h
      | error e' w₂ =>
          rw [hm, hm'] at h
          exact h.1.symm

theorem Reads.keepsPaths {m : M α} {Q : α → World → Prop} (hm : Reads E n m Q w) (h : FsOk E n w) :
    KeepsPaths E m w :=
  wp_mono hm (fun _ _ hQ => hQ.2.1.pathView h) fun _ _ hF => hF.2.pathView h

/-- An operation with a functor that only reads. -/
theorem agrees_tryReadonly {t : NodeTraverseFunc (Option ℤ × α)} (h : FsOk E n w) (hs : SteadyFunc t)
    (hr : ReadsFunc E n t) (parent : Bool) (path : Str) (out : α) :
    AgreesWith E (tryReadonly out (readAttempt E parent t path out))
      (catchErrnoOut out (readAttempt E parent t path out false)) w where
  same := by
    refine sameOutcome_of_alike (alike_tryReadonly h.ordered ?_ ?_)
    · exact tries_traverse E h.ordered path (none, out) _
    · refine steady_traverse E hs path (none, out) fun v => ?_
      exact (steady_ntRetval v.1).bind fun _ => .pure _
  paths := (reads_tryReadonly (fun _ _ h' => reads_readAttempt hr h' path out) h).keepsPaths h

theorem agrees_leaf {act : ℕ → α → M (ℤ × α)} (h : FsOk E n w) (hs : ∀ f out, Steady (act f out))
    (hr : ∀ f out w, FsOk E n w → f < w.nfil → Reads E n (act f out) (fun _ _ => True) w) (path : Str) (out : α) :
    AgreesWith E (tryReadonly out (readAttempt E false (leafOut act) path out))
      (catchErrnoOut out (readAttempt E false (leafOut act) path out false)) w :=
  agrees_tryReadonly h (steady_leafOut hs) (reads_leafOut hr) false path out

theorem agrees_fsOpen (h : FsOk E n w) (path : Str) (flags : UInt32) :
    AgreesWith E (fsOpen E path flags)
      (catchErrnoOut () (readAttempt E true (parentOut fun d entry => openEntry E d entry flags) path () false))
      w := by
  refine agrees_tryReadonly h ⟨fun _ v => .pure v, fun d entry v => ?_⟩ ⟨fun _ _ _ h _ => .ret h trivial, ?_⟩ _ _ _
  · exact (steady_openEntry d entry flags).bind fun _ => .pure _
  · intro d entry v w h hd
    refine (reads_openEntry h hd.held.lt entry flags).bind ?_
    exact fun _ w' h' _ _ => .ret h' trivial

/-- `fs_access` without the attempt with `NT_READONLY`. -/
def accessAlone (E : Env) (path : Str) : M ℤ :=
  catchErrno do
    let (entry, rest) ← splitPath path
    let v ← rootTraverse E ⟨false, false, false⟩ (leafFunc fun _ => return 0) rest entry none
    ntRetval v

theorem agrees_fsAccess (h : FsOk E n w) (path : Str) : AgreesWith E (fsAccess E path) (accessAlone E path) w := by
  have hsteady : SteadyFunc (leafFunc fun _ => return 0) := ⟨fun _ _ => .pure _, fun _ _ v => .pure v⟩
  have hreads : ReadsFunc E n (leafFunc fun _ => return 0) :=
    ⟨fun _ _ _ h _ => .ret h trivial, fun _ _ _ _ h _ => .ret h trivial⟩
  constructor
  · rw [fsAccess, accessAlone, catchErrno]
    refine sameOutcome_of_alike (alike_attempts h.ordered ?_ ?_ (fun e he => ?_) (fun e he => ?_) fun e he => ?_)
    · exact tries_traverse E h.ordered path none ntRetval
    · exact steady_traverse E hsteady path none steady_ntRetval
    · cases e <;> first | rfl | exact absurd trivial he
    · cases e <;> first | rfl | exact he.elim
    · cases e with
      | errno e => exact .inl ⟨_, rfl⟩
      | _ => exact .inr rfl
  · have hattempt : ∀ readonly w, FsOk E n w → Reads E n (do
        let (entry, rest) ← splitPath path
        let v ← rootTraverse E ⟨false, false, readonly⟩ (leafFunc fun _ => return 0) rest entry none
        ntRetval v) (fun _ _ => True) w := fun readonly w h =>
      reads_traverse hreads h path none fun v w' h' => reads_ntRetval h' v
    refine Reads.keepsPaths (Q := fun _ _ => True) (n := n) ?_ h
    rw [fsAccess]
    refine (hattempt true w h).rescue fun e w' h' _ => ?_
    cases e with
    | errno e => exact .ret h' trivial
    | operationError text =>
        refine (hattempt false w' h').rescue fun e w'' h'' _ => ?_
        cases e <;> first | exact .ret h'' trivial | exact .raise h'' _
    | _ => exact .raise h' _

/-! ### What `readdir` emits -/

/-- A path that goes on from a directory leads to the node of the next name. -/
theorem find_snoc_kid {w₁ : World} (hu : Undisturbed E w w₁) (h : FsOk E n w) {p : List Str} {d f : ℕ} {entry : Str}
    (hp : (w.graph E none none).find .top p = some (.mem d)) (hk : w₁.kid E (.mem d) entry = some (.mem f)) :
    (w₁.graph E none none).find .top (p ++ [entry]) = some (.mem f) := by
  have hp₁ : (w₁.graph E none none).find .top p = some (.mem d) := by
    rw [hu.find h, hp]
    rfl
  rw [LGraph.find_snoc_of hp₁]
  exact (step_none (.mem d) entry).trans hk

/-- The value of a traversal is that of its leaf, which is at the end of the path. -/
theorem leaf_of_nodeTraverse {R : Type} {t : NodeTraverseFunc R} {readonly : Bool} :
    ∀ (rest : List Str) (d : ℕ) (entry : Str) (v : R) (w : World) (p : List Str) {v' : R} {w' : World},
      FsOk E n w → DirMember w d → (w.graph E none none).find .top p = some (.mem d) →
      nodeTraverse E ⟨false, false, readonly⟩ t rest d entry v w = .ok v' w' →
      ∃ f w₁, FsOk E n w₁ ∧ (w₁.graph E none none).find .top (p ++ entry :: rest) = some (.mem f) ∧
        t.ntLeaf f v w₁ = .ok v' w' := by
  intro rest
  induction rest with
  | nil =>
      intro d entry v w p v' w' h hd hp hrun
      rw [nodeTraverse] at hrun
      obtain ⟨fnh, w₁, hlookup, hrun⟩ := ok_of_bind hrun
      obtain ⟨h₁, hu₁, hfnh⟩ := wp_ok (reads_lookup h hd.held.lt entry readonly) hlookup
      simp only [Bool.false_eq_true, if_false, bind_pure] at hrun
      cases fnh with
      | none => cases hrun
      | some f => exact ⟨f, w₁, h₁, find_snoc_kid hu₁ h hp ((hfnh f rfl).2 hd.isDir), hrun⟩
  | cons next rest ih =>
      intro d entry v w p v' w' h hd hp hrun
      rw [nodeTraverse] at hrun
      obtain ⟨fnh, w₁, hlookup, hrun⟩ := ok_of_bind hrun
      obtain ⟨h₁, hu₁, hfnh⟩ := wp_ok (reads_lookup h hd.held.lt entry readonly) hlookup
      cases fnh with
      | none => cases hrun
      | some f =>
          obtain ⟨hheld, hkid⟩ := hfnh f rfl
          simp only [Bool.false_eq_true, if_false, bind_pure, bind_apply, get_apply] at hrun
          split at hrun
          case isTrue => cases hrun
          case isFalse hdir =>
            have hp₁ := find_snoc_kid hu₁ h hp (hkid hd.isDir)
            have hleaf := ih f next v w₁ (p ++ [entry]) h₁ ⟨hheld, by simpa using hdir⟩ hp₁ hrun
            simpa only [List.append_assoc, List.singleton_append] using hleaf

theorem leaf_of_specialTraverse {R : Type} {t : NodeTraverseFunc R} (ht : ∀ d entry v, t.ntParent d entry v = pure v)
    {rest : List Str} {d : ℕ} {entry : Str} {v v' : R} {w' : World}
    (hrun : specialTraverse t rest d entry v w = .ok v' w') :
    ∃ f, w.nodeAt E specialDir (entry :: rest) = some (.mem f) ∧ t.ntLeaf f v w = .ok v' w' := by
  have hne : specialDir ≠ [] := by decide +kernel
  have hcontrol : Str.ofText "control" ≠ Str.ofText "version" := by decide +kernel
  simp only [specialTraverse, ht, pure_bind] at hrun
  split at hrun
  case isTrue hversion =>
    simp only [bind_apply, get_apply] at hrun
    cases hv : w.version with
    | none =>
        rw [hv] at hrun
        cases hrun
    | some f =>
        rw [hv] at hrun
        refine ⟨f, ?_, hrun⟩
        simp [World.nodeAt, hne, hversion.1, hversion.2, hv]
  case isFalse =>
    split at hrun
    case isTrue hctl =>
      simp only [bind_apply, get_apply] at hrun
      cases hc : w.control with
      | none =>
          rw [hc] at hrun
          cases hrun
      | some f =>
          rw [hc] at hrun
          refine ⟨f, ?_, hrun⟩
          simp [World.nodeAt, hne, hctl.1, hctl.2, hc, hcontrol]
    case isFalse => cases hrun

theorem leaf_of_rootTraverse {R : Type} {t : NodeTraverseFunc R} (ht : ∀ d entry v, t.ntParent d entry v = pure v)
    (h : FsOk E n w) {readonly : Bool} {rest : List Str} {entry : Str} {v v' : R} {w' : World}
    (hrun : rootTraverse E ⟨false, false, readonly⟩ t rest entry v w = .ok v' w') :
    ∃ f w₁, FsOk E n w₁ ∧ w₁.nodeAt E entry rest = some (.mem f) ∧ t.ntLeaf f v w₁ = .ok v' w' := by
  simp only [rootTraverse, bind_apply, get_apply] at hrun
  cases hd : w.rdh with
  | none =>
      rw [hd] at hrun
      cases hrun
  | some d =>
      rw [hd] at hrun
      simp only [member, pure_apply, Bool.false_eq_true, if_false] at hrun
      split at hrun
      case isTrue hentry => exact ⟨d, w, h, by simp [World.nodeAt, hentry, hd], hrun⟩
      case isFalse hentry =>
        split at hrun
        case isTrue hspecial =>
          cases hs : w.sdh with
          | none =>
              simp only [hs, bind_apply] at hrun
              cases hrun
          | some s =>
              simp only [hs, bind_apply, pure_apply] at hrun
              cases rest with
              | nil =>
                  refine ⟨s, w, h, ?_, hrun⟩
                  rw [World.nodeAt, if_neg hentry, if_pos hspecial, if_pos rfl, hs]
                  rfl
              | cons next rest =>
                  obtain ⟨f, hf, hleaf⟩ := leaf_of_specialTraverse (E := E) ht hrun
                  exact ⟨f, w, h, by rw [hspecial]; exact hf, hleaf⟩
        case isFalse hspecial =>
          have hroot : (w.graph E none none).find .top [] = some (.mem d) := by
            rw [LGraph.find_nil]
            exact congrArg (Option.map Loc.mem) hd
          obtain ⟨f, w₁, h₁, hfind, hleaf⟩ := leaf_of_nodeTraverse rest d entry v w [] h (h.top d hd) hroot hrun
          refine ⟨f, w₁, h₁, ?_, hleaf⟩
          rw [World.nodeAt, if_neg hentry, if_neg hspecial]
          exact hfind

variable (E) in
/-- The names of the directory at the path have been emitted, each entry once, or there was an error and
nothing has been emitted. -/
def Emitted (path : Str) (names : List Str) (r : ℤ × List Str) (w : World) : Prop :=
  (r.1 = 0 ∧ ∃ entry rest d, splitPath path = pure (entry, rest) ∧ w.nodeAt E entry rest = some (.mem d) ∧
    (w.fil d).cls.isDir = true ∧ r.2 = names ++ w.listing d) ∨
    ∃ e : Errno, r.1 = -e.code ∧ r.2 = names

theorem emitted_of_attempt (h : FsOk E n w) {path : Str} {names : List Str} {readonly : Bool} {r : ℤ × List Str}
    {w' : World} (hrun : readAttempt E false (leafOut emitEntries) path names readonly w = .ok r w') :
    Emitted E path names r w' := by
  rw [readAttempt] at hrun
  rcases splitPath_eq path with ⟨x, hx⟩ | ⟨text, hx⟩
  · simp only [hx, pure_bind] at hrun
    obtain ⟨v, w₂, htrav, hrun⟩ := ok_of_bind hrun
    obtain ⟨rv, w₃, hret, hrun⟩ := ok_of_bind hrun
    obtain ⟨f, w₄, -, hf, hleaf⟩ := leaf_of_rootTraverse (fun _ _ _ => rfl) h htrav
    obtain ⟨out, w₅, hemit, hleaf⟩ := ok_of_bind hleaf
    cases hleaf
    cases hret
    cases hrun
    simp only [emitEntries, bind_apply, get_apply] at hemit
    split at hemit
    case isTrue => cases hemit
    case isFalse hdir =>
      simp only [readdir_eq, bind_apply, get_apply, pure_apply] at hemit
      cases hemit
      exact .inl ⟨rfl, x.1, x.2, f, hx, hf, by simpa using hdir, rfl⟩
  · rw [hx] at hrun
    cases hrun

theorem emitted_of_fsReaddir (h : FsOk E n w) {path : Str} {off : ℕ} {names : List Str} {r : ℤ × List Str}
    {w' : World} (hrun : fsReaddir E path off names w = .ok r w') : Emitted E path names r w' := by
  have hreads : ReadsFunc E n (leafOut emitEntries) :=
    reads_leafOut fun f names w h _ => reads_emitEntries h f names
  rcases ok_of_tryCatch hrun with hfirst | ⟨e, w₁, hfirst, hrun⟩
  · exact emitted_of_attempt h hfirst
  cases e with
  | errno e =>
      cases hrun
      exact .inr ⟨e, rfl, rfl⟩
  | operationError text =>
      have h₁ : FsOk E n w₁ := (wp_error (reads_readAttempt hreads h path names) hfirst).1
      rcases ok_of_tryCatch hrun with hsecond | ⟨e, w₂, -, hrun⟩
      · exact emitted_of_attempt h₁ hsecond
      cases e with
      | errno e =>
          cases hrun
          exact .inr ⟨e, rfl, rfl⟩
      | _ => cases hrun
  | _ => cases hrun

/-- **Every operation that only reads**: the two attempts return what the second one alone returns, with the
same output or the same `errno`, and every path shows the same afterwards.  `fs_readdir` emits each entry
once. -/
theorem readonly_agrees (h : FsOk E n w) (path : Str) :
    (∀ st, AgreesWith E (fsGetattr E path st)
      (catchErrnoOut st (readAttempt E false (leafOut getattr) path st false)) w) ∧
    (∀ obuf size, AgreesWith E (fsReadlink E path obuf size)
      (catchErrnoOut obuf (readAttempt E false (leafOut (readlink size)) path obuf false)) w) ∧
    (∀ flags, AgreesWith E (fsOpen E path flags)
      (catchErrnoOut () (readAttempt E true (parentOut fun d entry => openEntry E d entry flags) path () false))
      w) ∧
    (∀ buf size off, AgreesWith E (fsRead E path buf size off)
      (catchErrnoOut buf (readAttempt E false (leafOut (readNode E size off)) path buf false)) w) ∧
    AgreesWith E (fsAccess E path) (accessAlone E path) w ∧
    ∀ off names, AgreesWith E (fsReaddir E path off names)
      (catchErrnoOut names (readAttempt E false (leafOut emitEntries) path names false)) w ∧
      ∀ r w', fsReaddir E path off names w = .ok r w' → Emitted E path names r w' := by
  refine ⟨fun st => ?_, fun obuf size => ?_, agrees_fsOpen h path, fun buf size off => ?_,
    agrees_fsAccess h path, fun off names => ⟨?_, fun r w' => emitted_of_fsReaddir h⟩⟩
  · exact agrees_leaf h steady_getattr (fun f st w h _ => reads_getattr h f st) path st
  · exact agrees_leaf h (steady_readlink size) (fun f buf w h _ => reads_readlink h size f buf) path obuf
  · exact agrees_leaf h (steady_readNode size off) (fun f buf w h hf => reads_readNode h hf size off buf) path buf
  · exact agrees_leaf h steady_emitEntries (fun f names w h _ => reads_emitEntries h f names) path names

/-! ### A directory below others -/

/-- Three directories are made, each in the one before, and the file system is mounted again. -/
def nestedRun : M Unit := do
  fsMkfs .sample [] []
  FsOp.run .sample (.mkdir (Str.ofText "/a") 0o755 [] [])
  FsOp.run .sample (.mkdir (Str.ofText "/a/b") 0o755 [] [])
  FsOp.run .sample (.mkdir (Str.ofText "/a/b/c") 0o755 [] [])
  FsOp.run .sample .umount
  modify fun w => w.restarted [] [] id
  fsMount .sample

theorem context_of_nestedRun (h : nestedRun (.boot Env.sampleRand [] id) = .ok () w) :
    Context .sample .mount w := by
  obtain ⟨⟨⟩, w₁, h₁, h₀⟩ := ok_of_bind h
  obtain ⟨⟨⟩, w₂, h₂, h₀⟩ := ok_of_bind h₀
  obtain ⟨⟨⟩, w₃, h₃, h₀⟩ := ok_of_bind h₀
  obtain ⟨⟨⟩, w₄, h₄, h₀⟩ := ok_of_bind h₀
  obtain ⟨⟨⟩, w₅, h₅, h₀⟩ := ok_of_bind h₀
  obtain ⟨⟨⟩, w₆, h₆, h₇⟩ := ok_of_bind h₀
  obtain rfl : w₅.restarted [] [] id = w₆ := by
    injection h₆
  have hmade : Context .sample .mkfs w₁ :=
    .mkfs Env.sampleRand [] id [] [] Env.sampleRand_nodup Env.sampleRand_ne h₁
  have hunmounted : Context .sample .mkfs w₅ :=
    .op .umount (.op _ (.op _ (.op _ hmade (.inl h₂)) (.inl h₃)) (.inl h₄)) (.inl h₅)
  exact .mount [] [] id hunmounted (by simp) (by simp) (by simp) h₇

/-- The attempt asks for a second one. -/
def retries {α : Type} (m : M α) (w : World) : Bool :=
  match m w with
  | .error (.operationError _) _ => true
  | _ => false

theorem exists_of_retries {α : Type} {m : M α} (h : retries m w = true) :
    ∃ e w', m w = .error e w' ∧ AsksRetry e := by
  simp only [retries] at h
  split at h
  case h_1 text w' hm => exact ⟨.operationError text, w', hm, trivial⟩
  case h_2 => cases h

theorem exists_nestedRun : ∃ w, Context .sample .mount w ∧
    (∃ e w', readAttempt .sample false (leafOut emitEntries) (Str.ofText "/a/b") [] true w = .error e w' ∧
      AsksRetry e) ∧
    ∃ w', fsReaddir .sample (Str.ofText "/a/b") 0 [] w =
      .ok (0, [Str.ofText "c", Str.ofText ".", Str.ofText ".."]) w' := by
  obtain ⟨⟨⟩, w, hrun, hw⟩ := exists_of_passes (m := nestedRun)
    (q := fun _ w =>
      retries (readAttempt .sample false (leafOut emitEntries) (Str.ofText "/a/b") [] true) w &&
        passes (fsReaddir .sample (Str.ofText "/a/b") 0 [])
          (fun r _ => decide (r = (0, [Str.ofText "c", Str.ofText ".", Str.ofText ".."]))) w)
    (s := .boot Env.sampleRand [] id) (by decide +kernel)
  obtain ⟨hasks, hpass⟩ := Bool.and_eq_true_iff.1 hw
  obtain ⟨r, w', hread, hr⟩ := exists_of_passes hpass
  obtain rfl := of_decide_eq_true hr
  exact ⟨w, context_of_nestedRun hrun, exists_of_retries hasks, w', hread⟩

/-- Of a directory two names below the root, which the first attempt does not find: the second one lists its
entry. -/
theorem readonly_agrees_nested : ∃ w, Context .sample .mount w ∧
    (∃ e w', readAttempt .sample false (leafOut emitEntries) (Str.ofText "/a/b") [] true w = .error e w' ∧
      AsksRetry e) ∧
    AgreesWith .sample (fsReaddir .sample (Str.ofText "/a/b") 0 [])
      (catchErrnoOut [] (readAttempt .sample false (leafOut emitEntries) (Str.ofText "/a/b") [] false)) w ∧
    ∃ w', fsReaddir .sample (Str.ofText "/a/b") 0 [] w =
        .ok (0, [Str.ofText "c", Str.ofText ".", Str.ofText ".."]) w' ∧
      Emitted .sample (Str.ofText "/a/b") [] (0, [Str.ofText "c", Str.ofText ".", Str.ofText ".."]) w' := by
  obtain ⟨w, h, hasks, w', hread⟩ := exists_nestedRun
  obtain ⟨hagrees, hemitted⟩ := (readonly_agrees h.fsOk (Str.ofText "/a/b")).2.2.2.2.2 0 []
  exact ⟨w, h, hasks, hagrees, w', hread, hemitted _ _ hread⟩

end ops

end UTFS

end Utopfs
