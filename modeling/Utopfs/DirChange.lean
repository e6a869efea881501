/-
**Changing a directory, or the node at a path.**

An operation follows a path and then acts on the last directory, or on the node there.  The error of a path
that leads nowhere is that of the first name at which it ends, and the tree is then as it was.

Main definitions:

* `UTFS.Resolved` — what a directory has under a name is in memory;
* `UTFS.Acted` — what an action on a directory has to show;
* `UTFS.target` — the names of a path.

Main results:

* `UTFS.TInv.view_isSome` — every node of the tree can be seen;
* `UTFS.wp_changeParent` — **an operation that acts on a directory**;
* `UTFS.wp_changeLeaf` — **an operation that acts on the node at a path**.
-/

import Utopfs.DirPaths
import Utopfs.FsPaths

set_option relaxedAutoImplicit false
set_option autoImplicit false

namespace Utopfs

namespace UTFS

open Prog

variable {E : Env} {w w' : World} {M M' : Option (Loc × Str)} {L : Laws} {d f : ℕ} {e : Str} {p : List Str}
  {Lost : Exn → Prop} {P : Errno → Prop}

/-! ### What can be seen -/

section sees

/-- No entry leads to the nil reference. -/
theorem NInv.kid_ne_nil (h : NInv E L w) (hN : L.nonil) {x : Loc} (hx : Valid w x)
    (hk : w.kid E x e = some (.ref .nil)) : False := by
  rw [World.kid] at hk
  split at hk
  case h_1 => simp at hk
  case h_2 hdy =>
    obtain ⟨r, hr, hloc⟩ := Option.map_eq_some_iff.1 hk
    obtain rfl := locAt_eq_ref hloc
    have hmem := mem_of_lookup hr
    cases x with
    | mem d =>
        simp only [World.dirOf] at hmem
        split at hmem
        case isFalse => simp at hmem
        case isTrue hd =>
          simp only [World.dirtyOf, hd, if_true] at hdy
          exact lookup_eq_none_iff_notMem.1 hdy ((h.node d hx.lt).nonil hN _ hmem rfl)
    | ref r =>
        simp only [World.dirOf] at hmem
        cases hd : storedDir E w.log r with
        | none => simp [hd] at hmem
        | some dir =>
            rw [hd, Option.getD_some] at hmem
            have hd' := hd
            simp only [storedDir, Option.bind_eq_some_iff] at hd
            obtain ⟨y, hy, hif⟩ := hd
            have hne : r ≠ .nil := by
              rintro rfl
              simp [decodeFile, decode, h.blk.disk.nilFree] at hy
            have hm : sIsdir y.inode.mode = true := by
              by_contra hc
              simp [hc] at hif
            obtain ⟨dir', hd'', hok⟩ := h.store.dir r y (hx hne) hy hm
            rw [hd'] at hd''
            obtain rfl := Option.some.inj hd''
            exact hok.nonil hN _ hmem rfl

/-- **Every node of the tree can be seen.** -/
theorem TInv.view_isSome (h : TInv E L none none w) (hN : L.nonil) {q : List Str} {x : Loc}
    (hx : (w.graph E none none).find .top q = some x) : (w.view E q).isSome := by
  rw [World.view, hx, Option.bind_some]
  have hv := h.live_valid ⟨.top, q, hx⟩
  cases x with
  | mem g =>
      obtain ⟨v, hv, -⟩ := Held.out (E := E) hv
      rw [hv]
      rfl
  | ref r =>
      have hne : r ≠ .nil := by
        rintro rfl
        cases q using List.reverseRecOn with
        | nil =>
            rw [LGraph.find_nil] at hx
            obtain ⟨d, -, hd⟩ := Option.map_eq_some_iff.1 hx
            simp at hd
        | append_singleton q n =>
            obtain ⟨y, hy, hs⟩ := LGraph.find_snoc_eq_some hx
            exact h.nodes.kid_ne_nil hN (h.live_valid ⟨.top, q, hy⟩)
              (kid_of_step (show w.step E none y n = _ from hs))
      obtain ⟨x, hx⟩ := h.nodes.store.inode r (hv hne)
      simp only [World.out, hx, Option.map_some, Option.isSome_some]

theorem TInv.view_eq_none (h : TInv E L none none w) (hN : L.nonil) {q : List Str} :
    w.view E q = none ↔ (w.graph E none none).find .top q = none := by
  constructor
  · intro hv
    by_contra hc
    obtain ⟨x, hx⟩ := Option.ne_none_iff_exists'.1 hc
    have := h.view_isSome hN hx
    simp [hv] at this
  · intro hf
    rw [World.view, hf]
    rfl

/-- **The names of a directory** are those at which something can be seen. -/
theorem TInv.mem_names (h : TInv E L none none w) (hN : L.nonil)
    (hd : (w.graph E none none).find .top p = some (.mem d)) (hdir : (w.fil d).cls.isDir = true) :
    e ∈ (w.fil d).dir.map Prod.fst ↔ w.view E (p ++ [e]) ≠ none := by
  have hkid : w.view E (p ++ [e]) = none ↔ w.kid E (.mem d) e = none := by
    rw [h.view_eq_none hN, LGraph.find_snoc_of hd]
    exact iff_of_eq (congrArg (· = none) (step_none _ e))
  rw [ne_eq, hkid, kid_mem hdir]
  constructor
  · intro hmem hk
    obtain ⟨r, hr⟩ := exists_lookup_of_mem hmem
    cases hdy : (w.fil d).dirty.lookup e with
    | some g => simp [hdy] at hk
    | none => simp [hdy, hr] at hk
  · intro hk
    cases hdy : (w.fil d).dirty.lookup e with
    | some g =>
        exact (h.nodes.node d (h.live_valid ⟨.top, p, hd⟩).lt).dirtyIn _ (mem_of_lookup hdy)
    | none =>
        rw [hdy] at hk
        obtain ⟨r, hr⟩ := Option.ne_none_iff_exists'.1 (fun hnone => hk (congrArg (Option.map w.locAt) hnone))
        exact List.mem_map_of_mem (f := Prod.fst) (mem_of_lookup hr)

/-- **A directory has no entries if nothing can be seen in it.** -/
theorem TInv.dir_eq_nil (h : TInv E L none none w) (hN : L.nonil)
    (hd : (w.graph E none none).find .top p = some (.mem d)) (hdir : (w.fil d).cls.isDir = true) :
    (w.fil d).dir = [] ↔ ∀ n, w.view E (p ++ [n]) = none := by
  have hnames : (w.fil d).dir = [] ↔ ∀ n, n ∉ (w.fil d).dir.map Prod.fst := by
    rw [← List.eq_nil_iff_forall_not_mem, List.map_eq_nil_iff]
  rw [hnames]
  exact forall_congr' fun n => (not_congr (h.mem_names hN hd hdir)).trans not_not

end sees

/-! ### At the last directory -/

section parent

variable (E) in
/-- The node of a name is in memory where a lookup finds it, or no node has the name. -/
def Resolved (d : ℕ) (e : Str) (w : World) : Prop :=
  ∃ o : Option ℕ, w.kid E (.mem d) e = o.map .mem ∧
    ∀ f, o = some f → ∀ r, (w.fil d).dir.lookup e = some r → w.cache.nodemap r = some (.fil f) → LposOk w f

/-- A known name is found. -/
theorem wp_lookup_resolved (h : TInv E L M none w) (hdir : (w.fil d).cls.isDir = true) (hk : Resolved E d e w)
    (ro : Bool) : wp (lookup E d e ro)
      (fun o w' => TInv E L M none w' ∧ Calm E M none w w' ∧ w.kid E (.mem d) e = o.map .mem ∧
        w'.kid E (.mem d) e = o.map .mem ∧ w'.fil = w.fil)
      (fun _ _ => False) w := by
  obtain ⟨o, hk, hl⟩ := hk
  cases o with
  | none =>
      refine wp_mono (wp_lookup_none hdir hk ro) ?_ fun _ _ hF => hF
      rintro o w₁ ⟨rfl, rfl⟩
      exact ⟨h, .refl h, hk, hk, rfl⟩
  | some f =>
      refine wp_mono (wp_lookup_mem h hk (hl f rfl) ro) ?_ fun _ _ hF => hF
      rintro o w₁ ⟨rfl, h₁, hc, hk₁, hfil, -⟩
      exact ⟨h₁, hc, hk, hk₁, hfil⟩

/-- What an action on the directory `d` at `p` has to show, which changes it under the name `e`: unless it
is known what the name then leads to, the exception of the next lookup is `Lost`. -/
def Acted (E : Env) (L : Laws) (M M' : Option (Loc × Str)) (Lost : Exn → Prop) (p : List Str) (d : ℕ) (e : Str)
    (Q : World → Prop) (w w' : World) : Prop :=
  (Back E L M M' p d w w' ∧ Resolved E d e w' ∧ Q w') ∨
    wp (lookup E d e false) (fun _ _ => False) (fun ex _ => Lost ex) w'

variable {Q : Option ℤ → World → Prop}

/-- The directory is updated once it has changed. -/
theorem Acted.update (rv : ℤ) (ha : Acted E L M M' Lost p d e (Q (some rv)) w w')
    (hQ : ∀ r w₂ w₃, TInv E L M' none w₂ → Sim E M' none w₂ w₃ → Q r w₂ → Q r w₃)
    (h : TInv E L M none w) (hd : (w.graph E M none).find .top p = some (.mem d))
    (hdir : (w.fil d).cls.isDir = true) :
    wp (do
        let fnh ← lookup E d e false
        updateNode d e fnh)
      (fun _ w₃ => Back E L M M' p d w w₃ ∧ (w₃.fil d).isdirty = true ∧ Q (some rv) w₃ ∧
        ∀ f, w'.kid E (.mem d) e = some (.mem f) → (w₃.fil d).dirty.lookup e = some f)
      (fun ex _ => Lost ex) w' := by
  rcases ha with ⟨hb, hk, hq⟩ | hlost
  swap
  · exact wp_seq hlost (fun _ _ hF => hF.elim) fun _ _ hl => hl
  have hlt := (h.live_valid ⟨.top, p, hd⟩).lt
  have hd' := hb.kept p (List.prefix_refl p) d hd
  have hdir' : (w'.fil d).cls.isDir = true := by rw [hb.later.cls d hlt]; exact hdir
  refine wp_seq (wp_lookup_resolved hb.inv hdir' hk false) ?_ fun _ _ hF => hF.elim
  rintro o w₂ ⟨h₂, hc, hk', hk₂, hfil⟩
  have hdir₂ : (w₂.fil d).cls.isDir = true := by rw [hfil]; exact hdir'
  have hk₃ : ∀ g, o = some g → w₂.kid E (.mem d) e = some (.mem g) := by
    rintro g rfl
    exact hk₂
  refine wp_mono (wp_updateNode h₂ ⟨.top, p, hc.find_mem hd'⟩ hdir₂ hk₃) ?_ fun _ _ hF => hF.elim
  rintro - w₃ ⟨h₃, hs₃, hu⟩
  refine ⟨⟨h₃, fun q hqp g hg => hs₃.find_mem (hc.find_mem (hb.kept q hqp g hg)), ?_,
    hb.later.trans (hc.later.trans hs₃.later)⟩, hu.isdirty, hQ _ _ _ h₂ hs₃ (hQ _ _ _ hb.inv hc.toSim hq),
    fun f hf => ?_⟩
  · exact hu.reg h₂ ⟨.top, p, hc.find_mem hd'⟩ hdir₂ hk₃ (hc.reg _ hb.reg) fun g hg => .inl hg
  · rw [hk'] at hf
    obtain ⟨g, rfl, hg⟩ := Option.map_eq_some_iff.1 hf
    rw [hu.lookup hdir₂ hk₃, if_pos ⟨rfl, rfl⟩, Loc.mem.inj hg]

/-- **The last directory is changed** and updated. -/
theorem wp_lastParent {act : ℕ → Str → UTFS.M ℤ}
    (hQ : ∀ r w₂ w₃, TInv E L M' none w₂ → Sim E M' none w₂ w₃ → Q r w₂ → Q r w₃) (v : Option ℤ)
    (h : TInv E L M none w) (hd : (w.graph E M none).find .top p = some (.mem d))
    (hdir : (w.fil d).cls.isDir = true) (hm : M ≠ some (.mem d, e))
    (hact : ∀ w₁ (o : Option ℕ), Down E L M w w₁ → w₁.kid E (.mem d) e = o.map .mem →
      wp (act d e) (fun rv w₂ => Acted E L M M' Lost p d e (Q (some rv)) w₁ w₂) (Fails E L M Lost P w₁) w₁) :
    wp (nodeTraverse E ntParentUpdate (parentFunc act) [] d e v)
      (fun r w₂ => Back E L M M' p d w w₂ ∧ (w₂.fil d).isdirty = true ∧ Q r w₂) (Fails E L M Lost P w) w := by
  have hlt := (h.live_valid ⟨.top, p, hd⟩).lt
  rw [nodeTraverse]
  refine wp_seq (wp_lookup h ⟨.top, p, hd⟩ hdir hm _) ?_ fun ex w₁ hF => hF.fails h
  rintro o w₁ ⟨h₁, hc, hk, hfil⟩
  have hd₁ := hc.find_mem hd
  have hdir₁ : (w₁.fil d).cls.isDir = true := by rw [hfil d hlt]; exact hdir
  have hdown : Down E L M w w₁ := ⟨h₁, hc, hfil⟩
  simp only [ntParentUpdate, parentFunc, if_true, bind_assoc, pure_bind]
  refine wp_seq (hact w₁ o hdown hk) ?_ fun ex w₂ hF => hF.down hdown fun _ hen => hen
  intro rv w₂ ha
  have hupd := ha.update rv hQ h₁ hd₁ hdir₁
  rw [← bind_assoc]
  refine wp_seq hupd ?_ fun ex w₃ hl => .inr (.inl hl)
  rintro - w₃ ⟨hb, hmark, hq, -⟩
  exact ⟨hb.after hc.toSim, hmark, hq⟩

end parent

/-! ### At the node -/

section leaf

variable {Q : Option ℤ → World → Prop}

/-- **The node of a name**, if there is one. -/
theorem wp_atName {R : Type} {next : ℕ → UTFS.M R} {A : R → World → Prop} (readonly : Bool)
    (h : TInv E L none none w) (hd : (w.graph E none none).find .top p = some (.mem d))
    (hdir : (w.fil d).cls.isDir = true)
    (hnext : ∀ w₁ f, Down E L none w w₁ → (w₁.graph E none none).find .top (p ++ [e]) = some (.mem f) →
      wp (next f) A (Fails E L none Lost P w₁) w₁) :
    wp (do
      match ← lookup E d e readonly with
      | none => throw (.errno .enoent)
      | some f => next f) A
      (Fails E L none Lost (fun en => P en ∨ en = .enoent ∧ w.view E (p ++ [e]) = none) w) w := by
  refine wp_seq (wp_lookup h ⟨.top, p, hd⟩ hdir (by simp) _) ?_ fun ex w₁ hF => hF.fails h
  rintro o w₁ ⟨h₁, hc, hk, hfil⟩
  have hat : (w₁.graph E none none).find .top (p ++ [e]) = o.map .mem := by
    rw [LGraph.find_snoc_of (hc.find_mem hd)]
    exact (step_none _ e).trans hk
  cases o with
  | none =>
      refine .inr (.inr ⟨h₁, hc, fun en hen => ⟨.inr ⟨(Exn.errno.inj hen).symm, ?_⟩, hfil⟩⟩)
      rw [← hc.toSim.view, World.view, hat]
      rfl
  | some f =>
      exact wp_mono (hnext w₁ f ⟨h₁, hc, hfil⟩ hat) (fun _ _ hA => hA) fun ex w₂ hF =>
        hF.down ⟨h₁, hc, hfil⟩ fun _ hen => .inl hen

/-- **The node at a path is changed**, and its directory updated. -/
theorem wp_lastLeaf (Lost : Exn → Prop) (P : Errno → Prop) (act : ℕ → UTFS.M ℤ)
    (hQ : ∀ r w₂ w₃, TInv E L none none w₂ → Sim E none none w₂ w₃ → Q r w₂ → Q r w₃) (v : Option ℤ)
    (h : TInv E L none none w) (hd : (w.graph E none none).find .top p = some (.mem d))
    (hdir : (w.fil d).cls.isDir = true)
    (hact : ∀ w₁ f, Down E L none w w₁ → (w₁.graph E none none).find .top (p ++ [e]) = some (.mem f) →
      wp (act f) (fun rv w₂ => Back E L none none (p ++ [e]) f w₁ w₂ ∧ Q (some rv) w₂)
        (Fails E L none Lost P w₁) w₁) :
    wp (nodeTraverse E ntUpdate (leafFunc act) [] d e v)
      (fun r w₂ => Back E L none none p d w w₂ ∧ (w₂.fil d).isdirty = true ∧ Q r w₂)
      (Fails E L none Lost (fun en => P en ∨ en = .enoent ∧ w.view E (p ++ [e]) = none) w) w := by
  have hlt := (h.live_valid ⟨.top, p, hd⟩).lt
  rw [nodeTraverse]
  refine wp_atName false h hd hdir fun w₁ f hdown hf => ?_
  have hdir₁ : (w₁.fil d).cls.isDir = true := by rw [hdown.fil d hlt]; exact hdir
  simp only [ntUpdate, leafFunc, if_true, bind_assoc, pure_bind]
  refine wp_seq (hact w₁ f hdown hf) ?_ fun _ _ hF => hF
  rintro rv w₂ ⟨hb, hq⟩
  refine wp_seq (hb.update hQ hq hdown.inv (hdown.calm.find_mem hd) hdir₁ hf) ?_ fun _ _ hF => hF.elim
  rintro - w₃ ⟨hb₃, hmark, hq₃⟩
  exact ⟨hb₃.after hdown.calm.toSim, hmark, hq₃⟩

end leaf

/-! ### From the root -/

section root

variable {entry : Str} {rest : List Str} {Q : Option ℤ → World → Prop}

/-- The names of a path; that of the root directory has none. -/
def target (entry : Str) (rest : List Str) : List Str := if entry = [] then [] else entry :: rest

variable (E) in
/-- The tree has changed, and a flush finds all that has. -/
structure Changed (L : Laws) (M' : Option (Loc × Str)) (w w' : World) : Prop where
  inv : TInv E L M' none w'
  reg : Reg E M' none ∅ w'
  later : Later w w'
  rdh : w'.rdh = w.rdh
  root : ∀ d, w.rdh = some d → Unflushed d w w'

theorem find_top : (w.graph E M none).find .top [] = some (.mem d) ↔ w.rdh = some d := by
  rw [LGraph.find_nil]
  constructor
  · intro h
    obtain ⟨g, hg, hd⟩ := Option.map_eq_some_iff.1 h
    rw [hg, Loc.mem.inj hd]
  · exact fun h => congrArg (Option.map Loc.mem) h

/-- No name leads to the root directory. -/
theorem Back.changed (hb : Back E L M M' [] d w w') (hd : w.rdh = some d) (hu : Unflushed d w w') :
    Changed E L M' w w' := by
  have hd' : w'.rdh = some d := find_top.1 (hb.kept [] (List.prefix_refl _) d (find_top.2 hd))
  refine ⟨hb.inv, hb.inv.reg_top hd' hb.reg, hb.later, hd'.trans hd.symm, fun g hg => ?_⟩
  obtain rfl := Option.some.inj (hd.symm.trans hg)
  exact hu

/-- The errors of a path to a name in a directory. -/
def RootErrs (n : List Str → Option NodeView) (entry : Str) (rest : List Str) (P : Errno → Prop) (en : Errno) :
    Prop :=
  entry = [] ∧ en = .enoent ∨ entry ≠ [] ∧ Errs n [] (entry :: rest) P en

/-- A path to a name, from the root. -/
theorem wp_rootPath {R : Type} {fl : TraverseFlags} {t : NodeTraverseFunc R} {v : R} {A : R → World → Prop}
    (hparent : fl.parent = true) (h : TInv E L M none w) (hspecial : entry ≠ specialDir)
    (hnode : ∀ d, w.rdh = some d → wp (nodeTraverse E fl t rest d entry v) A
      (Fails E L M Lost (Errs (w.sees E M) [] (entry :: rest) P) w) w) :
    wp (rootTraverse E fl t rest entry v) (fun r w' => entry ≠ [] ∧ A r w')
      (Fails E L M Lost (RootErrs (w.sees E M) entry rest P) w) w := by
  simp only [rootTraverse, wp_bind, wp_get]
  cases hr : w.rdh with
  | none => exact .inl trivial
  | some d =>
      change wp (if entry = [] then _ else _) _ _ w
      by_cases he : entry = []
      · rw [if_pos he, hparent]
        exact .inr (.inr ⟨h, .refl h, fun en hen => ⟨.inl ⟨he, (Exn.errno.inj hen).symm⟩, fun _ _ => rfl⟩⟩)
      rw [if_neg he, if_neg hspecial]
      refine wp_mono (hnode d hr) (fun r w' hA => ⟨he, hA⟩) fun ex w' hF => ?_
      exact hF.down (.refl h) fun en hen => .inr ⟨he, hen⟩

theorem Clear.dropLast (hc : Clear E M w (entry :: rest)) : Clear E M w ([] ++ (entry :: rest).dropLast) := by
  intro d' e' hM
  obtain ⟨q, hq, hn⟩ := hc d' e' hM
  exact ⟨q, hq, fun hp => hn (hp.trans (List.dropLast_prefix _))⟩

/-- **An operation on a directory, from the root.** -/
theorem wp_rootParent (act : ℕ → Str → UTFS.M ℤ) (Lost : Exn → Prop) (P : Errno → Prop) (M' : Option (Loc × Str))
    (hQ : ∀ r w₂ w₃, TInv E L M' none w₂ → Sim E M' none w₂ w₃ → Q r w₂ → Q r w₃) (v : Option ℤ)
    (h : TInv E L M none w) (hspecial : entry ≠ specialDir) (hclear : Clear E M w (entry :: rest))
    (hpe : entry :: rest = p ++ [e])
    (hact : ∀ w₁ d (o : Option ℕ), Down E L M w w₁ → (w₁.graph E M none).find .top p = some (.mem d) →
      (w₁.fil d).cls.isDir = true → w₁.kid E (.mem d) e = o.map .mem →
      wp (act d e) (fun rv w₂ => Acted E L M M' Lost p d e (Q (some rv)) w₁ w₂) (Fails E L M Lost P w₁) w₁) :
    wp (rootTraverse E ntParentUpdate (parentFunc act) rest entry v)
      (fun r w' => entry ≠ [] ∧ blocked (w.sees E M) [] (entry :: rest) = none ∧ Changed E L M' w w' ∧ Q r w')
      (Fails E L M Lost (RootErrs (w.sees E M) entry rest P) w) w := by
  have hdrop : (entry :: rest).dropLast = p := by rw [hpe, List.dropLast_concat]
  have hlast : (entry :: rest).getLast (List.cons_ne_nil _ _) = e := by simp [hpe]
  refine wp_rootPath rfl h hspecial fun d hr => ?_
  refine wp_mono (wp_nodeTraverse_update (Q := fun M r w => M = M' ∧ Q r w) Lost P rfl ?_ v rest [] d entry w h
    (find_top.2 hr) (h.nodes.top d hr).isDir hclear.dropLast ?_) ?_ fun _ _ hF => hF
  · rintro M r w₂ w₃ h₂ hs ⟨rfl, hq⟩
    exact ⟨rfl, hQ r w₂ w₃ h₂ hs hq⟩
  · intro w₁ d₁ hdown hd₁ hdir₁
    rw [List.nil_append, hdrop] at hd₁ ⊢
    rw [hlast]
    have hm : M ≠ some (.mem d₁, e) := (hclear.sim hdown.calm.toSim).ne hdown.inv hd₁ (by rw [hpe])
    refine wp_mono (wp_lastParent hQ v hdown.inv hd₁ hdir₁ hm fun w₂ o hdown₂ hk =>
      hact w₂ d₁ o (hdown.trans hdown₂) (hdown₂.calm.find_mem hd₁)
        (by rw [hdown₂.fil d₁ (hdown.inv.live_valid ⟨.top, _, hd₁⟩).lt]; exact hdir₁) hk) ?_ fun _ _ hF => hF
    rintro r w₂ ⟨hb, hmark, hq⟩
    exact ⟨M', hb, hmark, rfl, hq⟩
  · rintro r w' ⟨hb, M, hback, hmark, rfl, hq⟩
    exact ⟨hb, hback.changed hr (.inl hmark), hq⟩

/-- **An operation on a node, from the root.** -/
theorem wp_rootLeaf (act : ℕ → UTFS.M ℤ)
    (hQ : ∀ r w₂ w₃, TInv E L none none w₂ → Sim E none none w₂ w₃ → Q r w₂ → Q r w₃) (v : Option ℤ)
    (h : TInv E L none none w) (hspecial : entry ≠ specialDir)
    (hact : ∀ w₁ f, Down E L none w w₁ → (w₁.graph E none none).find .top (target entry rest) = some (.mem f) →
      wp (act f)
        (fun rv w₂ => Back E L none none (target entry rest) f w₁ w₂ ∧ Unflushed f w₁ w₂ ∧ Q (some rv) w₂)
        (Fails E L none Lost P w₁) w₁) :
    wp (rootTraverse E ntUpdate (leafFunc act) rest entry v)
      (fun r w' => blocked (w.view E) [] (target entry rest) = none ∧ Changed E L none w w' ∧ Q r w')
      (Fails E L none Lost (Errs (w.view E) [] (target entry rest)
        fun en => P en ∨ en = .enoent ∧ w.view E (target entry rest) = none) w) w := by
  simp only [rootTraverse, wp_bind, wp_get]
  cases hr : w.rdh with
  | none => exact .inl trivial
  | some d =>
      change wp (if entry = [] then _ else _) _ _ w
      have hd : (w.graph E none none).find .top [] = some (.mem d) := find_top.2 hr
      by_cases he : entry = []
      · rw [if_pos he]
        have ht : target entry rest = [] := if_pos he
        rw [ht] at hact ⊢
        simp only [ntUpdate, leafFunc, Bool.false_eq_true, if_false]
        refine wp_seq (hact w d (.refl h) hd) ?_ fun ex w₁ hF => hF.down (.refl h) fun en hen => .inr ⟨rfl, .inl hen⟩
        rintro rv w₁ ⟨hb, hu, hq⟩
        exact ⟨rfl, hb.changed hr hu, hq⟩
      have ht : target entry rest = entry :: rest := if_neg he
      rw [if_neg he, if_neg hspecial]
      rw [ht] at hact ⊢
      have hpath : (entry :: rest).dropLast ++ [(entry :: rest).getLast (List.cons_ne_nil _ _)] = entry :: rest :=
        List.dropLast_append_getLast _
      refine wp_mono (wp_nodeTraverse_update (Q := fun M r w => M = none ∧ Q r w) Lost
        (fun en => P en ∨ en = .enoent ∧ w.view E (entry :: rest) = none) rfl ?_ v rest [] d entry w h hd
        (h.nodes.top d hr).isDir (clear_none _) ?_) ?_ fun _ _ hF => hF
      · rintro M r w₂ w₃ h₂ hs ⟨rfl, hq⟩
        exact ⟨rfl, hQ r w₂ w₃ h₂ hs hq⟩
      · intro w₁ d₁ hdown hd₁ hdir₁
        have hleaf := wp_lastLeaf Lost P act hQ v hdown.inv hd₁ hdir₁
          fun w₂ f hdown₂ hf => by
            rw [List.nil_append, hpath] at hf ⊢
            refine wp_mono (hact w₂ f (hdown.trans hdown₂) hf) ?_ fun _ _ hF => hF
            rintro rv w₃ ⟨hb, -, hq⟩
            exact ⟨hb, hq⟩
        rw [List.nil_append, hpath, funext hdown.calm.toSim.view] at hleaf
        refine wp_mono hleaf ?_ fun _ _ hF => hF
        rintro r w₂ ⟨hb, hmark, hq⟩
        exact ⟨none, hb, hmark, rfl, hq⟩
      · rintro r w' ⟨hb, M, hback, hmark, rfl, hq⟩
        exact ⟨hb, hback.changed hr (.inl hmark), hq⟩

/-- An `errno` that leaves an operation becomes its value. -/
theorem wp_catchErrno {m : UTFS.M ℤ} {R : ℤ → World → Prop} (hlost : ∀ en, ¬ Lost (.errno en))
    (hm : wp m R (Fails E L M Lost P w) w) :
    wp (catchErrno m)
      (fun rv w' => R rv w' ∨ ∃ en, P en ∧ rv = -en.code ∧ Down E L M w w')
      (Fails E L M Lost (fun _ => False) w) w := by
  rw [catchErrno, wp_tryCatch]
  refine wp_mono hm (fun rv w' hR => .inl hR) fun ex w' hF => ?_
  cases ex with
  | errno en =>
      rcases hF with hF | hF | ⟨h', hc, hen⟩
      · exact hF.elim
      · exact absurd hF (hlost en)
      · exact .inr ⟨en, (hen en rfl).1, rfl, h', hc, (hen en rfl).2⟩
  | _ => exact hF.imp_right (Or.imp_right fun h' => ⟨h'.1, h'.2.1, fun en hen => by simp at hen⟩)

/-- How an operation on the directory `p` of a path ends: with a change of what can be seen, or with the error
of a path that leads nowhere, or one of `P`. -/
def ParentEnds (E : Env) (L : Laws) (entry : Str) (rest : List Str) (w : World) (P : Errno → Prop)
    (C : ℤ → (List Str → Option NodeView) → Prop) (rv : ℤ) (w' : World) : Prop :=
  (entry ≠ [] ∧ blocked (w.view E) [] (entry :: rest) = none ∧ Changed E L none w w' ∧ C rv (w'.view E)) ∨
  ∃ en, RootErrs (w.view E) entry rest P en ∧ rv = -en.code ∧ Down E L none w w'

/-- How an operation on the node at a path ends: with a change of what can be seen there, or with an error that
says why there is no such node. -/
def LeafEnds (E : Env) (L : Laws) (t : List Str) (w : World) (C : ℤ → NodeView → NodeView → Prop) (rv : ℤ)
    (w' : World) : Prop :=
  (blocked (w.view E) [] t = none ∧ Changed E L none w w' ∧
    ∃ v v', w.view E t = some v ∧ C rv v v' ∧ w'.view E = Function.update (w.view E) t (some v')) ∨
  ∃ en, Errs (w.view E) [] t (fun en => en = .enoent ∧ w.view E t = none) en ∧ rv = -en.code ∧
    Down E L none w w'

/-- The tree before an action of an operation, which is the tree before the operation. -/
structure Reached (E : Env) (L : Laws) (w w₁ : World) : Prop where
  inv : TInv E L none none w₁
  reg : Reg E none none ∅ w₁
  view : w₁.view E = w.view E

theorem Down.reached {w₁ : World} (hd : Down E L none w w₁) (hX : Reg E none none ∅ w) : Reached E L w w₁ :=
  ⟨hd.inv, hd.calm.reg _ hX, funext hd.calm.toSim.view⟩

/-- **`changeParent`**: an operation that acts on a directory. -/
theorem wp_changeParent {act : ℕ → Str → UTFS.M ℤ} {C : ℤ → (List Str → Option NodeView) → Prop} {path : Str}
    (Lost : Exn → Prop) (P : Errno → Prop) (hlost : ∀ en, ¬ Lost (.errno en))
    (hpath : splitPath path = pure (entry, rest)) (h : TInv E L none none w) (hX : Reg E none none ∅ w)
    (hspecial : entry ≠ specialDir) (hpe : entry :: rest = p ++ [e])
    (hact : ∀ w₁ d, Reached E L w w₁ → (w₁.graph E none none).find .top p = some (.mem d) →
      (w₁.fil d).cls.isDir = true →
      wp (act d e) (fun rv w₂ => Acted E L none none Lost p d e (fun w₃ => C rv (w₃.view E)) w₁ w₂)
        (Fails E L none Lost P w₁) w₁) :
    wp (changeParent E act path) (ParentEnds E L entry rest w P C) (Fails E L none Lost (fun _ => False) w) w := by
  have hroot := wp_rootParent act Lost P none (Q := fun r w' => ∃ rv, r = some rv ∧ C rv (w'.view E))
    (fun r w₂ w₃ _ hs hq => by rwa [funext hs.view]) none h hspecial (clear_none _) hpe
    fun w₁ d o hdown hd hdir _ => wp_mono (hact w₁ d (hdown.reached hX) hd hdir)
      (fun rv w₂ ha => ha.imp_left fun hb => ⟨hb.1, hb.2.1, rv, rfl, hb.2.2⟩) fun _ _ hF => hF
  rw [changeParent]
  refine wp_catchErrno hlost ?_
  rw [hpath, pure_bind]
  refine wp_seq hroot ?_ fun ex w₁ hF => hF
  rintro r w₁ ⟨he, hb, hch, rv, rfl, hC⟩
  exact ⟨he, hb, hch, hC⟩

/-- **`changeLeaf`**: an operation that acts on a node. -/
theorem wp_changeLeaf {act : ℕ → UTFS.M ℤ} {C : ℤ → NodeView → NodeView → Prop} {path : Str}
    (Lost : Exn → Prop) (hlost : ∀ en, ¬ Lost (.errno en)) (hpath : splitPath path = pure (entry, rest))
    (h : TInv E L none none w) (hX : Reg E none none ∅ w) (hspecial : entry ≠ specialDir)
    (hact : ∀ w₁ f, Reached E L w w₁ → (w₁.graph E none none).find .top (target entry rest) = some (.mem f) →
      wp (act f)
        (fun rv w₂ => Back E L none none (target entry rest) f w₁ w₂ ∧ Unflushed f w₁ w₂ ∧
          ∃ v v', w₁.view E (target entry rest) = some v ∧ C rv v v' ∧
            w₂.view E = Function.update (w₁.view E) (target entry rest) (some v'))
        (fun ex _ => Lost ex) w₁) :
    wp (changeLeaf E act path) (LeafEnds E L (target entry rest) w C)
      (Fails E L none Lost (fun _ => False) w) w := by
  have hroot := wp_rootLeaf act (P := fun _ => False) (Q := fun r w' => ∃ rv, r = some rv ∧
    ∃ v v', w.view E (target entry rest) = some v ∧ C rv v v' ∧
      w'.view E = Function.update (w.view E) (target entry rest) (some v'))
    (fun r w₂ w₃ _ hs hq => by rwa [funext hs.view]) none h hspecial fun w₁ f hdown hf => by
      have hre := hdown.reached hX
      refine wp_mono (hact w₁ f hre hf) ?_ fun _ _ hl => .inr (.inl hl)
      rintro rv w₂ ⟨hb, hu, v, v', hv, hC, hv'⟩
      rw [hre.view] at hv hv'
      exact ⟨hb, hu, rv, rfl, v, v', hv, hC, hv'⟩
  rw [changeLeaf]
  refine wp_mono (wp_catchErrno (P := Errs (w.view E) [] (target entry rest) fun en => False ∨ en = .enoent ∧
    w.view E (target entry rest) = none) (R := fun rv w' => blocked (w.view E) [] (target entry rest) = none ∧
      Changed E L none w w' ∧ ∃ v v', w.view E (target entry rest) = some v ∧ C rv v v' ∧
        w'.view E = Function.update (w.view E) (target entry rest) (some v')) hlost ?_) ?_ fun _ _ hF => hF
  · rw [hpath, pure_bind]
    refine wp_seq hroot ?_ fun ex w₁ hF => hF
    rintro r w₁ ⟨hb, hch, rv, rfl, hC⟩
    exact ⟨hb, hch, hC⟩
  · rintro rv w' (hend | ⟨en, hen, hrv, hdown⟩)
    · exact .inl hend
    · exact .inr ⟨en, hen.imp_right fun hb => ⟨hb.1, hb.2.resolve_left id⟩, hrv, hdown⟩

end root

end UTFS

end Utopfs
