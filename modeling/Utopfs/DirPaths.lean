/-
**Following a path in the tree.**

On the way down a traversal looks up one name after the other, which leaves the tree as it is.  At the last
directory it does what its functor says.  On the way back it updates each directory, so that the next flush
finds the nodes below.

Main definitions:

* `UTFS.World.sees`, `UTFS.blocked` — what can be seen with an edge masked, and the error of a path that does
  not lead through directories;
* `UTFS.Down`, `UTFS.Back` — what has happened on the way down, and on the way back;
* `UTFS.Fails` — what an exception leaves behind.

Main results:

* `UTFS.Updated.reg` — an update registers the node;
* `UTFS.wp_nodeTraverse_update`, `UTFS.wp_nodeTraverse_read` — **`DirNode::node_traverse`** with `NT_UPDATE`
  and without.
-/

import Utopfs.DirMove

set_option relaxedAutoImplicit false
set_option autoImplicit false

namespace Utopfs

namespace UTFS

open Prog

variable (E : Env)

/-! ### What can be seen -/

/-- What can be seen at a path, with an edge masked. -/
def World.sees (w : World) (M : Option (Loc × Str)) (p : List Str) : Option NodeView :=
  ((w.graph E M none).find .top p).bind (w.out E)

/-- The error with which a path ends before its last directory: a name that is not there, or is not that of a
directory. -/
def blocked (n : List Str → Option NodeView) (p : List Str) : List Str → Option Errno
  | [] => none
  | [_] => none
  | a :: b :: rest =>
      match n (p ++ [a]) with
      | none => some .enoent
      | some v => if sIsdir v.inode.mode then blocked n (p ++ [a]) (b :: rest) else some .enotdir

/-- The way down. -/
structure Down (L : Laws) (M : Option (Loc × Str)) (w w' : World) : Prop where
  inv : TInv E L M none w'
  calm : Calm E M none w w'
  fil : ∀ g, g < w.nfil → w'.fil g = w.fil g

/-- The way to the path does not lead through the masked edge. -/
def Clear (M : Option (Loc × Str)) (w : World) (path : List Str) : Prop :=
  ∀ d e, M = some (.mem d, e) →
    ∃ q, (w.graph E M none).find .top q = some (.mem d) ∧ ¬ q ++ [e] <+: path

/-- The way back has led to the directory `d` at the path `p`, which the next flush may not find yet. -/
structure Back (L : Laws) (M M' : Option (Loc × Str)) (p : List Str) (d : ℕ) (w w' : World) : Prop where
  inv : TInv E L M' none w'
  kept : ∀ q, q <+: p → ∀ g, (w.graph E M none).find .top q = some (.mem g) →
    (w'.graph E M' none).find .top q = some (.mem g)
  reg : Reg E M' none {d} w'
  later : Later w w'

/-- The exception is fatal or of a kind that says nothing about the tree; or the tree is as it was, and an
`errno` is one of `P` and comes before any change of a node. -/
def Fails (L : Laws) (M : Option (Loc × Str)) (Lost : Exn → Prop) (P : Errno → Prop) (w : World) (e : Exn)
    (w' : World) : Prop :=
  Fatal e ∨ Lost e ∨ (TInv E L M none w' ∧ Calm E M none w w' ∧
    ∀ en, e = .errno en → P en ∧ ∀ g, g < w.nfil → w'.fil g = w.fil g)

/-- The node has not been flushed, or has been marked since then. -/
def Unflushed (f : ℕ) (w w' : World) : Prop :=
  (w'.fil f).isdirty = true ∨ ((w'.fil f).isdirty = (w.fil f).isdirty ∧ (w'.fil f).ref = (w.fil f).ref)

variable {E} {w w' : World} {M M' : Option (Loc × Str)} {H : Hand} {L : Laws} {d f : ℕ} {e : Str}
  {i : Rt} {p : List Str} {X : Set ℕ}

theorem Sim.sees (hs : Sim E M none w w') : w'.sees E M = w.sees E M := by
  funext p
  rw [World.sees, World.sees, hs.find]
  cases hx : (w.graph E M none).find .top p with
  | none => rfl
  | some x => exact hs.out x ⟨.top, p, hx⟩

/-- A node in memory is seen as a directory if it is one. -/
theorem Held.out (hf : Held w f) : ∃ v, w.out E (.mem f) = some v ∧ sIsdir v.inode.mode = (w.fil f).cls.isDir := by
  cases hc : (w.fil f).cls.isDir with
  | true =>
      refine ⟨⟨(w.fil f).inode.seen, none⟩, by simp only [World.out, hc, if_true], ?_⟩
      exact hf.kind.symm.trans hc
  | false =>
      refine ⟨⟨(w.fil f).inode, some (fileBytes E w f)⟩, by simp [World.out, hc], ?_⟩
      exact hf.kind.symm.trans hc

/-! ### Registering nodes -/

/-- **An update registers the node.** -/
theorem Updated.reg {fnh : Option ℕ} (hu : Updated d e fnh w w') (h : TInv E L M H w)
    (hd : (w.graph E M H).Live (.mem d)) (hdir : (w.fil d).cls.isDir = true)
    (hk : ∀ f, fnh = some f → w.kid E (.mem d) e = some (.mem f)) (hX : Reg E M H X w)
    (hsub : ∀ g ∈ X, g = d ∨ (fnh = some g ∧ w.step E M (.mem d) e = some (.mem g))) : Reg E M H {d} w' := by
  have hcls : (w'.fil d).cls.isDir = true := by rw [hu.only.cls]; exact hdir
  have hent : ∀ n, w'.entryRef E (.mem d) n = w.entryRef E (.mem d) n := by
    intro n
    rw [entryRef_mem hcls, entryRef_mem hdir, hu.dir]
  have hs : SameTree E M H (fun _ _ => False) w w' :=
    hu.only.sameTree hu.ref (fun n => by rw [World.step, World.step, hu.kid hdir hk])
      fun n _ _ k hk => by rwa [hent] at hk
  intro x hx n g hstep
  rw [hs.live] at hx
  rw [hs.step x hx] at hstep
  by_cases hgd : g = d
  · exact .inl hgd
  refine .inr ?_
  by_cases hxe : x = .mem d ∧ n = e ∧ fnh.isSome
  · obtain ⟨rfl, rfl, hsome⟩ := hxe
    obtain ⟨f, rfl⟩ := Option.isSome_iff_exists.1 hsome
    have hf : Loc.mem f = .mem g := Option.some.inj ((hk f rfl).symm.trans (kid_of_step hstep))
    refine .inl ?_
    simp only [World.dirtyOf, hcls, if_true, hu.lookup hdir hk]
    simp [Loc.mem.inj hf]
  · have hreg : RegAt E w x n g := by
      refine (hX x hx n g hstep).resolve_left fun hg => ?_
      obtain ⟨rfl, hse⟩ := (hsub g hg).resolve_left hgd
      obtain ⟨rfl, rfl⟩ := h.edge_unique hd ⟨_, hse, .node rfl⟩ hx ⟨_, hstep, .node rfl⟩
      exact hxe ⟨rfl, rfl, rfl⟩
    by_cases hxd : x = .mem d
    · subst hxd
      have hdy : (w'.dirtyOf (.mem d)).lookup n = (w.dirtyOf (.mem d)).lookup n := by
        simp only [World.dirtyOf, hcls, hdir, if_true, hu.lookup hdir hk]
        rw [if_neg fun hn => hxe ⟨rfl, hn.1, hn.2⟩]
      rw [RegAt, hdy, hent, hu.only.other g hgd]
      exact hreg
    · exact hu.only.regAt hu.ref hxd (fun heq => absurd heq hgd) hreg

/-- No name leads to the root directory. -/
theorem TInv.reg_top (h : TInv E L M none w) (hd : w.rdh = some d) (hX : Reg E M none {d} w) :
    Reg E M none ∅ w := by
  intro x hx n g hstep
  refine .inr ((hX x hx n g hstep).resolve_left ?_)
  rintro rfl
  obtain ⟨j, q, hq⟩ := hx
  exact h.unshared.rootEdge .top (.mem g) ⟨g, hd, rfl⟩ j q x n hq ⟨_, hstep, .node rfl⟩

/-! ### Traversals -/

section traverse

theorem Unflushed.of_fil {w' : World} (h : w'.fil f = w.fil f) : Unflushed f w w' :=
  .inr (by rw [h]; exact ⟨rfl, rfl⟩)

theorem Unflushed.trans {w'' : World} (h : Unflushed f w w') (h' : Unflushed f w' w'') : Unflushed f w w'' := by
  rcases h' with h' | ⟨hd', hr'⟩
  · exact .inl h'
  · rcases h with h | ⟨hd, hr⟩
    · exact .inl (hd'.trans h)
    · exact .inr ⟨hd'.trans hd, hr'.trans hr⟩

theorem Down.refl (h : TInv E L M none w) : Down E L M w w := ⟨h, .refl h, fun _ _ => rfl⟩

theorem Down.trans {w'' : World} (h : Down E L M w w') (h' : Down E L M w' w'') : Down E L M w w'' where
  inv := h'.inv
  calm := h.calm.trans h'.calm
  fil g hg := (h'.fil g (hg.trans_le h.calm.later.nfil)).trans (h.fil g hg)

theorem clear_none (path : List Str) : Clear E none w path := fun _ _ hM => by simp at hM

theorem Clear.sim {path : List Str} (hc : Clear E M w path) (hs : Sim E M none w w') : Clear E M w' path := by
  intro d e hM
  obtain ⟨q, hq, hn⟩ := hc d e hM
  exact ⟨q, hs.find_mem hq, hn⟩

/-- A name on the way is not that of the masked edge. -/
theorem Clear.ne {path : List Str} (hc : Clear E M w path) (h : TInv E L M none w)
    (hd : (w.graph E M none).find .top p = some (.mem d)) (hp : p ++ [e] <+: path) : M ≠ some (.mem d, e) := by
  intro hM
  obtain ⟨q, hq, hn⟩ := hc d e hM
  obtain ⟨-, rfl⟩ := h.find_mem_inj hq hd
  exact hn hp

theorem Fails.down {Lost : Exn → Prop} {P P' : Errno → Prop} {w₁ w₂ : World} {ex : Exn}
    (hf : Fails E L M Lost P w₁ ex w₂) (hd : Down E L M w w₁) (hP : ∀ en, P en → P' en) :
    Fails E L M Lost P' w ex w₂ :=
  hf.imp_right (Or.imp_right fun h => ⟨h.1, hd.calm.trans h.2.1, fun en he =>
    ⟨hP en (h.2.2 en he).1, fun g hg =>
      ((h.2.2 en he).2 g (hg.trans_le hd.calm.later.nfil)).trans (hd.fil g hg)⟩⟩)

theorem LookupFails.fails {Lost : Exn → Prop} {P : Errno → Prop} {ex : Exn} (h : TInv E L M none w)
    (hf : LookupFails E L w ex w') : Fails E L M Lost P w ex w' := by
  rcases hf with hc | ⟨rfl, hne⟩
  · rw [hc.null]
    exact .inl trivial
  · exact .inr (.inr ⟨h, .refl h, fun en he => absurd he (hne en)⟩)

section update

variable {R : Type} {fl : TraverseFlags} {t : NodeTraverseFunc R} {Lost : Exn → Prop} {P : Errno → Prop}

theorem find_step (hd : (w.graph E M H).find i p = some (.mem d)) (hs : w.step E M (.mem d) e = some (.mem f)) :
    (w.graph E M H).find i (p ++ [e]) = some (.mem f) := by
  rw [LGraph.find_snoc_of hd]
  exact hs

theorem Back.after {w'' : World} (hb : Back E L M M' p d w' w'') (hs : Sim E M none w w') :
    Back E L M M' p d w w'' :=
  ⟨hb.inv, fun q hq g hg => hb.kept q hq g (hs.find_mem hg), hb.reg, hs.later.trans hb.later⟩

/-- The update of a directory on the way back. -/
theorem Back.update {d₁ : ℕ} {r : R} (hb : Back E L M M' (p ++ [e]) d₁ w w')
    {Q : R → World → Prop} (hQ : ∀ r w₂ w₃, TInv E L M' none w₂ → Sim E M' none w₂ w₃ → Q r w₂ → Q r w₃)
    (hq : Q r w')
    (h : TInv E L M none w) (hd : (w.graph E M none).find .top p = some (.mem d))
    (hdir : (w.fil d).cls.isDir = true) (hd₁ : (w.graph E M none).find .top (p ++ [e]) = some (.mem d₁)) :
    wp (updateNode d e (some d₁)) (fun _ w₃ => Back E L M M' p d w w₃ ∧ (w₃.fil d).isdirty = true ∧ Q r w₃)
      (fun _ _ => False) w' := by
  have hlt : d < w.nfil := (h.live_valid ⟨.top, p, hd⟩).lt
  have hfind : ∀ q, q <+: p → q <+: p ++ [e] := fun q hq => hq.trans (List.prefix_append p [e])
  have hd' := hb.kept p (hfind p (List.prefix_refl _)) d hd
  have hd₁' := hb.kept _ (List.prefix_refl _) d₁ hd₁
  have hdir' : (w'.fil d).cls.isDir = true := by rw [hb.later.cls d hlt]; exact hdir
  have hstep : w'.step E M' (.mem d) e = some (.mem d₁) := by
    rw [LGraph.find_snoc_of hd'] at hd₁'
    exact hd₁'
  have hk : ∀ g, some d₁ = some g → w'.kid E (.mem d) e = some (.mem g) := by
    rintro g hg
    obtain rfl := Option.some.inj hg
    exact kid_of_step hstep
  refine wp_mono (wp_updateNode hb.inv ⟨.top, p, hd'⟩ hdir' hk) ?_ fun _ _ hF => hF
  rintro - w₃ ⟨h₃, hs₃, hu⟩
  refine ⟨⟨h₃, fun q hq g hg => hs₃.find_mem (hb.kept q (hfind q hq) g hg), ?_, hb.later.trans hs₃.later⟩,
    hu.isdirty, hQ r w' w₃ hb.inv hs₃ hq⟩
  refine hu.reg hb.inv ⟨.top, p, hd'⟩ hdir' hk hb.reg fun g hg => .inr ?_
  obtain rfl : g = d₁ := hg
  exact ⟨rfl, hstep⟩

/-- The errors of a path, and those of what is done at its end. -/
def Errs (n : List Str → Option NodeView) (p l : List Str) (P : Errno → Prop) (en : Errno) : Prop :=
  blocked n p l = some en ∨ blocked n p l = none ∧ P en

/-- **One name on the way down.** -/
theorem wp_descend {entry next : Str} {rest : List Str} {v : R} {Q : R → World → Prop} (h : TInv E L M none w)
    (hd : (w.graph E M none).find .top p = some (.mem d)) (hdir : (w.fil d).cls.isDir = true)
    (hm : M ≠ some (.mem d, entry))
    (hnext : ∀ w₁ g, Down E L M w w₁ → (w₁.graph E M none).find .top (p ++ [entry]) = some (.mem g) →
      (w₁.fil g).cls.isDir = true → wp (do
        let v ← nodeTraverse E fl t rest g next v
        if fl.update then updateNode d entry (some g)
        return v)
        (fun r w₂ => blocked (w.sees E M) (p ++ [entry]) (next :: rest) = none ∧ Q r w₂)
        (Fails E L M Lost (Errs (w.sees E M) (p ++ [entry]) (next :: rest) P) w₁) w₁) :
    wp (nodeTraverse E fl t (next :: rest) d entry v)
      (fun r w₂ => blocked (w.sees E M) p (entry :: next :: rest) = none ∧ Q r w₂)
      (Fails E L M Lost (Errs (w.sees E M) p (entry :: next :: rest) P) w) w := by
  rw [nodeTraverse, wp_bind]
  refine wp_mono (wp_lookup h ⟨.top, p, hd⟩ hdir hm fl.readonly) ?_ fun ex w₁ hF => hF.fails h
  rintro o w₁ ⟨h₁, hc₁, hk₁, hfil₁⟩
  have hd₁ := hc₁.find_mem hd
  have hsees : w₁.sees E M = w.sees E M := hc₁.sees
  have hat : (w₁.graph E M none).find .top (p ++ [entry]) = o.map .mem := by
    rw [LGraph.find_snoc_of hd₁]
    exact (step_of_ne hm).trans hk₁
  cases o with
  | none =>
      refine .inr (.inr ⟨h₁, hc₁, fun en hen => ⟨.inl ?_, hfil₁⟩⟩)
      obtain rfl : Errno.enoent = en := Exn.errno.inj hen
      have hnone : w.sees E M (p ++ [entry]) = none := by
        rw [← hsees, World.sees, hat]
        rfl
      simp only [blocked, hnone]
  | some g =>
      have hheld : Held w₁ g := h₁.live_valid ⟨.top, _, hat⟩
      obtain ⟨v₁, hv₁, hkind⟩ := hheld.out (E := E)
      have hsee : w.sees E M (p ++ [entry]) = some v₁ := by
        rw [← hsees, World.sees, hat]
        exact hv₁
      simp only [wp_bind, wp_get]
      cases hg : (w₁.fil g).cls.isDir with
      | false =>
          refine .inr (.inr ⟨h₁, hc₁, fun en hen => ⟨.inl ?_, hfil₁⟩⟩)
          obtain rfl : Errno.enotdir = en := Exn.errno.inj hen
          simp only [blocked, hsee, hkind, hg, Bool.false_eq_true, if_false]
      | true =>
          have hb : blocked (w.sees E M) p (entry :: next :: rest) =
              blocked (w.sees E M) (p ++ [entry]) (next :: rest) := by
            simp only [blocked, hsee, hkind, hg, if_true]
          have hrest := hnext w₁ g ⟨h₁, hc₁, hfil₁⟩ hat hg
          simp only [Bool.not_true, Bool.false_eq_true, if_false]
          refine wp_mono hrest ?_ ?_
          · intro r w₂ hr
            rw [hb]
            exact hr
          · intro ex w₂ hF
            exact hF.down ⟨h₁, hc₁, hfil₁⟩ fun en hen => by rwa [Errs, hb]

/-- **`DirNode::node_traverse` with `NT_UPDATE`**, from what is done at the last directory. -/
theorem wp_nodeTraverse_update {Q : Option (Loc × Str) → R → World → Prop} (Lost : Exn → Prop) (P : Errno → Prop)
    (hup : fl.update = true)
    (hQ : ∀ M' r w₂ w₃, TInv E L M' none w₂ → Sim E M' none w₂ w₃ → Q M' r w₂ → Q M' r w₃) (v : R) :
    ∀ (rest p : List Str) (d : ℕ) (entry : Str) (w : World), TInv E L M none w →
      (w.graph E M none).find .top p = some (.mem d) → (w.fil d).cls.isDir = true →
      Clear E M w (p ++ (entry :: rest).dropLast) →
      (∀ w₁ d₁, Down E L M w w₁ →
        (w₁.graph E M none).find .top (p ++ (entry :: rest).dropLast) = some (.mem d₁) →
        (w₁.fil d₁).cls.isDir = true →
        wp (nodeTraverse E fl t [] d₁ ((entry :: rest).getLast (List.cons_ne_nil _ _)) v)
          (fun r w₂ => ∃ M', Back E L M M' (p ++ (entry :: rest).dropLast) d₁ w₁ w₂ ∧
            (w₂.fil d₁).isdirty = true ∧ Q M' r w₂)
          (Fails E L M Lost P w₁) w₁) →
      wp (nodeTraverse E fl t rest d entry v)
        (fun r w' => blocked (w.sees E M) p (entry :: rest) = none ∧
          ∃ M', Back E L M M' p d w w' ∧ (w'.fil d).isdirty = true ∧ Q M' r w')
        (Fails E L M Lost (Errs (w.sees E M) p (entry :: rest) P) w) w := by
  intro rest
  induction rest with
  | nil =>
      intro p d entry w h hd hdir _ hbase
      have hp : p ++ [entry].dropLast = p := List.append_nil p
      rw [hp] at hbase
      refine wp_mono (hbase w d (.refl h) hd hdir) ?_ ?_
      · exact fun r w' hr => ⟨rfl, hr⟩
      · exact fun ex w' hF => hF.down (.refl h) fun en hen => .inr ⟨rfl, hen⟩
  | cons next rest ih =>
      intro p d entry w h hd hdir hclear hbase
      have hpath : p ++ (entry :: next :: rest).dropLast = p ++ [entry] ++ (next :: rest).dropLast := by simp
      have hlast : (entry :: next :: rest).getLast (List.cons_ne_nil _ _) =
          (next :: rest).getLast (List.cons_ne_nil _ _) := List.getLast_cons_cons
      rw [hpath] at hclear hbase
      refine wp_descend h hd hdir (hclear.ne h hd (List.prefix_append _ _)) fun w₁ g hdown hat hg => ?_
      have hnext := ih (p ++ [entry]) g next w₁ hdown.inv hat hg (hclear.sim hdown.calm.toSim)
        fun w₂ d₂ hdown₂ hd₂ hdir₂ => by
          rw [← hlast]
          exact hbase w₂ d₂ (hdown.trans hdown₂) hd₂ hdir₂
      rw [hdown.calm.sees] at hnext
      simp only [hup, if_true]
      refine wp_seq hnext ?_ fun _ _ hF => hF
      rintro r w₂ ⟨hblocked, M', hback, -, hq⟩
      rw [wp_bind]
      refine wp_mono (hback.update (hQ M') hq hdown.inv (hdown.calm.find_mem hd) ?_ hat) ?_ fun _ _ hF => hF.elim
      · rw [hdown.fil d (h.live_valid ⟨.top, p, hd⟩).lt]
        exact hdir
      · rintro - w₃ ⟨hback₃, hmark, hq₃⟩
        exact ⟨hblocked, M', hback₃.after hdown.calm.toSim, hmark, hq₃⟩

/-- **`DirNode::node_traverse` without `NT_UPDATE`**, of what leaves the tree as it is. -/
theorem wp_nodeTraverse_read {Q : R → World → Prop} (Lost : Exn → Prop) (P : Errno → Prop)
    (hup : fl.update = false) (v : R) :
    ∀ (rest p : List Str) (d : ℕ) (entry : Str) (w : World), TInv E L M none w →
      (w.graph E M none).find .top p = some (.mem d) → (w.fil d).cls.isDir = true →
      Clear E M w (p ++ (entry :: rest).dropLast) →
      (∀ w₁ d₁, Down E L M w w₁ →
        (w₁.graph E M none).find .top (p ++ (entry :: rest).dropLast) = some (.mem d₁) →
        (w₁.fil d₁).cls.isDir = true →
        wp (nodeTraverse E fl t [] d₁ ((entry :: rest).getLast (List.cons_ne_nil _ _)) v)
          (fun r w₂ => TInv E L M none w₂ ∧ Calm E M none w₁ w₂ ∧ Q r w₂) (Fails E L M Lost P w₁) w₁) →
      wp (nodeTraverse E fl t rest d entry v)
        (fun r w' => blocked (w.sees E M) p (entry :: rest) = none ∧
          TInv E L M none w' ∧ Calm E M none w w' ∧ Q r w')
        (Fails E L M Lost (Errs (w.sees E M) p (entry :: rest) P) w) w := by
  intro rest
  induction rest with
  | nil =>
      intro p d entry w h hd hdir _ hbase
      have hp : p ++ [entry].dropLast = p := List.append_nil p
      rw [hp] at hbase
      refine wp_mono (hbase w d (.refl h) hd hdir) ?_ ?_
      · exact fun r w' hr => ⟨rfl, hr⟩
      · exact fun ex w' hF => hF.down (.refl h) fun en hen => .inr ⟨rfl, hen⟩
  | cons next rest ih =>
      intro p d entry w h hd hdir hclear hbase
      have hpath : p ++ (entry :: next :: rest).dropLast = p ++ [entry] ++ (next :: rest).dropLast := by simp
      have hlast : (entry :: next :: rest).getLast (List.cons_ne_nil _ _) =
          (next :: rest).getLast (List.cons_ne_nil _ _) := List.getLast_cons_cons
      rw [hpath] at hclear hbase
      refine wp_descend h hd hdir (hclear.ne h hd (List.prefix_append _ _)) fun w₁ g hdown hat hg => ?_
      have hnext := ih (p ++ [entry]) g next w₁ hdown.inv hat hg (hclear.sim hdown.calm.toSim)
        fun w₂ d₂ hdown₂ hd₂ hdir₂ => by
          rw [← hlast]
          exact hbase w₂ d₂ (hdown.trans hdown₂) hd₂ hdir₂
      rw [hdown.calm.sees] at hnext
      simp only [hup, Bool.false_eq_true, if_false]
      refine wp_seq hnext ?_ fun _ _ hF => hF
      rintro r w₂ ⟨hblocked, h₂, hc₂, hq⟩
      exact ⟨hblocked, h₂, hdown.calm.trans hc₂, hq⟩

end update

end traverse

end UTFS

end Utopfs
