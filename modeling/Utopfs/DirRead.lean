/-
**Reading the tree.**

An operation that only reads tries with `NT_READONLY` first, and once more without when some node is not in
memory.  Neither attempt changes the tree, and what is returned is what can be seen at the path, or the error of
a path that leads nowhere.  Not all of an inode can be seen of a directory, and whether a node is a link to
`readlink` is not seen at all: it depends on the class of the object.

Main definitions:

* `UTFS.Shown` — how an operation that reads ends;
* `UTFS.NodeView.Stats`, `UTFS.NodeView.Gives`, `UTFS.NodeView.Text`, `UTFS.Lists` — what `getattr`, `read`,
  `readlink` and `readdir` return for what can be seen.

Main results:

* `UTFS.TInv.grew` — blocks are read;
* `UTFS.wp_rootRead`, `UTFS.wp_rootName` — following a path to a node, and to a name;
* `UTFS.wp_readLeaf` — **an operation that reads the node at a path**;
* `UTFS.wp_fsGetattr`, `UTFS.wp_fsRead`, `UTFS.wp_fsReadlink`, `UTFS.wp_fsReaddir`, `UTFS.wp_fsAccess`,
  `UTFS.wp_fsOpen` — **the operations**.
-/

import Utopfs.CacheOrder
import Utopfs.DirLeaf

set_option relaxedAutoImplicit false
set_option autoImplicit false

namespace Utopfs

namespace UTFS

open Prog

variable {E : Env} {w w' : World} {L : Laws} {d f : ℕ} {e : Str} {p : List Str} {P : Errno → Prop}

/-! ### Blocks are read -/

section loaded

/-- **Blocks are read.** -/
theorem TInv.grew (h : TInv E L none none w) (hb : BInv E ∅ w') (hg : Grew w w') :
    TInv E L none none w' ∧ Calm E none none w w' := by
  have hlog := outer_log hg.outer
  have hnfil := outer_nfil hg.outer
  have hl : Later w w' := ⟨by rw [hlog]; exact .refl _, by rw [outer_rand hg.outer]; exact fun _ hi => hi,
    hnfil.ge, fun _ _ => by rw [hg.fil], fun _ _ => by rw [hg.fil]⟩
  have htops : w'.tops = w.tops :=
    congrArg (fun x => (x.2.2.2.2.2.2.2.1, x.2.2.2.2.2.2.2.2.1, x.2.2.2.2.2.2.2.2.2.1,
      x.2.2.2.2.2.2.2.2.2.2.1)) hg.outer
  have hrdh : w'.rdh = w.rdh := congrArg (fun x => x.1) htops
  have hsdh : w'.sdh = w.sdh := congrArg (fun x => x.2.1) htops
  have hver : w'.version = w.version := congrArg (fun x => x.2.2.1) htops
  have hctl : w'.control = w.control := congrArg (fun x => x.2.2.2) htops
  have hold : ∀ g, g < w.nfil → w'.fil g = w.fil g := fun g _ => by rw [hg.fil]
  refine h.calm (h.nodes.step hb hl (by rw [hlog]; exact h.nodes.store) ?_
    (fun r g hr => .inl ((hg.cacheFil.nodemap r g).1 hr)) (fun d hd => .inl (hrdh ▸ hd))
    (fun d hd => .inl (hsdh ▸ hd)) (fun d hd => .inl (hver ▸ hd)) (fun d hd => .inl (hctl ▸ hd)))
    (h.sameTree hl hb.disk.nilFree htops hg.cacheFil.nodemap (fun g hp => hg.cacheFil.placed hp) ?_ ?_)
    (fun _ => .of_fil hold) (fun x hx => h.sameOut hl hb.disk.nilFree (fun g hlt => ?_) hx)
    fun x hx e g hs hr => h.sameReg hl hb.disk.nilFree hold hx hs hr
  · exact fun g hlt => .inl ⟨hnfil ▸ hlt, by rw [hg.fil]⟩
  · intro g _
    constructor <;> rw [hg.fil]
  · exact fun g hlt _ => hnfil ▸ hlt
  · simp only [World.out, hg.fil, funext (hg.fileBytes h.nodes.blk hlt)]

end loaded

/-! ### Following the path -/

section traverse

variable {R : Type} {t : NodeTraverseFunc R} {Q : R → World → Prop} {entry : Str} {rest : List Str}

/-- **Reading the node at a path, from the root.** -/
theorem wp_rootRead (readonly : Bool) (v : R) (h : TInv E L none none w) (hspecial : entry ≠ specialDir)
    (hleaf : ∀ w₁ f, Down E L none w w₁ →
      (w₁.graph E none none).find .top (target entry rest) = some (.mem f) →
      wp (t.ntLeaf f v) (fun r w₂ => TInv E L none none w₂ ∧ Calm E none none w₁ w₂ ∧ Q r w₂)
        (Fails E L none (fun _ => False) P w₁) w₁) :
    wp (rootTraverse E ⟨false, false, readonly⟩ t rest entry v)
      (fun r w' => blocked (w.view E) [] (target entry rest) = none ∧
        TInv E L none none w' ∧ Calm E none none w w' ∧ Q r w')
      (Fails E L none (fun _ => False) (Errs (w.view E) [] (target entry rest)
        fun en => P en ∨ en = .enoent ∧ w.view E (target entry rest) = none) w) w := by
  simp only [rootTraverse, wp_bind, wp_get]
  cases hr : w.rdh with
  | none => exact .inl trivial
  | some d =>
      change wp (if entry = [] then _ else _) _ _ w
      have hd : (w.graph E none none).find .top [] = some (.mem d) := find_top.2 hr
      by_cases he : entry = []
      · rw [if_pos he]
        have ht : target entry rest = [] := if_pos he
        rw [ht] at hleaf ⊢
        refine wp_mono (hleaf w d (.refl h) hd) (fun r w₁ hq => ⟨rfl, hq⟩) fun ex w₁ hF => ?_
        exact hF.down (.refl h) fun en hen => .inr ⟨rfl, .inl hen⟩
      have ht : target entry rest = entry :: rest := if_neg he
      rw [if_neg he, if_neg hspecial]
      rw [ht] at hleaf ⊢
      have hpath : (entry :: rest).dropLast ++ [(entry :: rest).getLast (List.cons_ne_nil _ _)] = entry :: rest :=
        List.dropLast_append_getLast _
      refine wp_nodeTraverse_read (fun _ => False)
        (fun en => P en ∨ en = .enoent ∧ w.view E (entry :: rest) = none) rfl v rest [] d entry w h hd
        (h.nodes.top d hr).isDir (clear_none _) fun w₁ d₁ hdown hd₁ hdir₁ => ?_
      rw [List.nil_append] at hd₁
      rw [nodeTraverse]
      simp only [Bool.false_eq_true, if_false, bind_pure]
      refine wp_mono (wp_atName (P := P) (A := fun r w₃ => TInv E L none none w₃ ∧ Calm E none none w₁ w₃ ∧ Q r w₃)
        readonly hdown.inv hd₁ hdir₁ fun w₂ f hdown₂ hf => ?_) (fun _ _ hA => hA) fun ex w₂ hF =>
          hF.down (.refl hdown.inv) fun en hen => ?_
      · rw [hpath] at hf
        refine wp_mono (hleaf w₂ f (hdown.trans hdown₂) hf) ?_ fun _ _ hF => hF
        rintro r w₃ ⟨h₃, hc₃, hq⟩
        exact ⟨h₃, hdown₂.calm.trans hc₃, hq⟩
      · rwa [hpath, hdown.calm.toSim.view] at hen

/-- **Looking up a name, from the root.** -/
theorem wp_rootName (Lost : Exn → Prop) (readonly : Bool) (v : R) (h : TInv E L none none w)
    (hspecial : entry ≠ specialDir) (hpe : entry :: rest = p ++ [e])
    (hparent : ∀ w₁ d (o : Option ℕ), Down E L none w w₁ → (w₁.graph E none none).find .top p = some (.mem d) →
      (w₁.fil d).cls.isDir = true → w₁.kid E (.mem d) e = o.map .mem →
      wp (t.ntParent d e v) (fun r w₂ => TInv E L none none w₂ ∧ Calm E none none w₁ w₂ ∧ Q r w₂)
        (Fails E L none Lost P w₁) w₁) :
    wp (rootTraverse E ⟨true, false, readonly⟩ t rest entry v)
      (fun r w' => entry ≠ [] ∧ blocked (w.view E) [] (entry :: rest) = none ∧
        TInv E L none none w' ∧ Calm E none none w w' ∧ Q r w')
      (Fails E L none Lost (RootErrs (w.view E) entry rest P) w) w := by
  have hdrop : (entry :: rest).dropLast = p := by rw [hpe, List.dropLast_concat]
  have hlast : (entry :: rest).getLast (List.cons_ne_nil _ _) = e := by simp [hpe]
  refine wp_rootPath rfl h hspecial fun d hr => ?_
  refine wp_nodeTraverse_read Lost P rfl v rest [] d entry w h (find_top.2 hr)
    (h.nodes.top d hr).isDir (clear_none _) fun w₁ d₁ hdown hd₁ hdir₁ => ?_
  rw [List.nil_append, hdrop] at hd₁
  rw [hlast, nodeTraverse]
  refine wp_seq (wp_lookup hdown.inv ⟨.top, p, hd₁⟩ hdir₁ (by simp) _) ?_ fun _ _ hF => hF.fails hdown.inv
  rintro o w₂ ⟨h₂, hc, hk, hfil⟩
  have hdir₂ : (w₂.fil d₁).cls.isDir = true := by
    rw [hfil d₁ (hdown.inv.live_valid ⟨.top, p, hd₁⟩).lt]
    exact hdir₁
  simp only [if_true, Bool.false_eq_true, if_false, bind_pure]
  refine wp_mono (hparent w₂ d₁ o (hdown.trans ⟨h₂, hc, hfil⟩) (hc.find_mem hd₁) hdir₂ hk) ?_ fun _ _ hF =>
    hF.down ⟨h₂, hc, hfil⟩ fun _ hen => hen
  rintro r w₃ ⟨h₃, hc₃, hq⟩
  exact ⟨h₃, hc.trans hc₃, hq⟩

end traverse

/-! ### Two attempts -/

section attempts

variable {α : Type}

/-- The tree is as it was, and the value satisfies `R`. -/
def AsBefore (E : Env) (L : Laws) (w : World) (R : α → Prop) (r : α) (w' : World) : Prop :=
  TInv E L none none w' ∧ Calm E none none w w' ∧ R r

/-- An exception that is no `errno` leaves the tree as it was, also after what has left it so. -/
theorem Fails.calm {w₁ : World} {P' : Errno → Prop} {ex : Exn} (hF : Fails E L none (fun _ => False) P w₁ ex w')
    (hc : Calm E none none w w₁) (hne : ∀ en, ex ≠ .errno en) :
    Fails E L none (fun _ => False) P' w ex w' :=
  hF.imp_right (Or.imp_right fun h => ⟨h.1, hc.trans h.2.1, fun en hen => absurd hen (hne en)⟩)

/-- An attempt whose errors become values. -/
theorem wp_attempt {m : UTFS.M α} {g : Exn → UTFS.M α} {u : Errno → α} {R : α → Prop} {w₁ : World}
    (hc : Calm E none none w w₁) (herrno : ∀ en, g (.errno en) = pure (u en))
    (hm : wp m (AsBefore E L w₁ R) (Fails E L none (fun _ => False) P w₁) w₁)
    (hother : ∀ ex w₂, (∀ en, ex ≠ .errno en) → Fails E L none (fun _ => False) P w₁ ex w₂ →
      wp (g ex) (AsBefore E L w fun r => R r ∨ ∃ en, P en ∧ r = u en)
        (Fails E L none (fun _ => False) (fun _ => False) w) w₂) :
    wp (tryCatch m g) (AsBefore E L w fun r => R r ∨ ∃ en, P en ∧ r = u en)
      (Fails E L none (fun _ => False) (fun _ => False) w) w₁ := by
  rw [wp_tryCatch]
  refine wp_mono hm (fun r w₂ hr => ⟨hr.1, hc.trans hr.2.1, .inl hr.2.2⟩) fun ex w₂ hF => ?_
  cases ex with
  | errno en =>
      obtain ⟨h₂, hc₂, hen⟩ := (hF.resolve_left id).resolve_left id
      rw [herrno]
      exact ⟨h₂, hc.trans hc₂, .inr ⟨en, (hen en rfl).1, rfl⟩⟩
  | _ => exact hother _ w₂ (by simp) hF

/-- A handler that makes values of the errors alone. -/
def ErrnoOnly {α : Type} (u : Errno → α) (g : Exn → UTFS.M α) : Prop :=
  (∀ en, g (.errno en) = pure (u en)) ∧ ∀ ex, (∀ en, ex ≠ .errno en) → g ex = throw ex

/-- **Two attempts**: the second one is made after an exception that asks for it. -/
theorem wp_attempts {m r : UTFS.M α} {g : Exn → UTFS.M α} {u : Errno → α} {R : α → Prop}
    (h : TInv E L none none w) (herrno : ∀ en, g (.errno en) = pure (u en))
    (hother : ∀ ex, ¬ AsksRetry ex → (∀ en, ex ≠ .errno en) → g ex = throw ex)
    (hretry : ∀ ex, AsksRetry ex → ∃ k, g ex = tryCatch r k ∧ ErrnoOnly u k)
    (hm : wp m (AsBefore E L w R) (Fails E L none (fun _ => False) P w) w)
    (hr : ∀ w₁, TInv E L none none w₁ → Calm E none none w w₁ →
      wp r (AsBefore E L w₁ R) (Fails E L none (fun _ => False) P w₁) w₁) :
    wp (tryCatch m g) (AsBefore E L w fun r => R r ∨ ∃ en, P en ∧ r = u en)
      (Fails E L none (fun _ => False) (fun _ => False) w) w := by
  refine wp_attempt (.refl h) herrno hm fun ex w₁ hne hF => ?_
  by_cases hask : AsksRetry ex
  · obtain ⟨k, hk, hkerrno, hkother⟩ := hretry ex hask
    obtain ⟨h₁, hc₁, -⟩ := (hF.resolve_left (by cases ex <;> simp_all [AsksRetry, Fatal])).resolve_left id
    rw [hk]
    refine wp_attempt hc₁ hkerrno (hr w₁ h₁ hc₁) fun ex' w₂ hne' hF' => ?_
    rw [hkother ex' hne']
    exact hF'.calm hc₁ hne'
  · rw [hother ex hask hne]
    exact hF.calm (.refl h) hne

/-- **`tryReadonly`.** -/
theorem wp_tryReadonly {out : α} {attempt : Bool → UTFS.M (ℤ × α)} {R : ℤ × α → Prop} (h : TInv E L none none w)
    (hattempt : ∀ readonly w₁, TInv E L none none w₁ → Calm E none none w w₁ →
      wp (attempt readonly) (AsBefore E L w₁ R) (Fails E L none (fun _ => False) P w₁) w₁) :
    wp (tryReadonly out attempt) (AsBefore E L w fun r => R r ∨ ∃ en, P en ∧ r = (-en.code, out))
      (Fails E L none (fun _ => False) (fun _ => False) w) w := by
  refine wp_attempts h (fun _ => rfl) (fun ex hask hne => ?_) (fun ex hask => ?_) (hattempt true w h (.refl h))
    (hattempt false)
  · cases ex with
    | errno en => exact absurd rfl (hne en)
    | operationError text => exact absurd trivial hask
    | _ => rfl
  · cases ex with
    | operationError text =>
        refine ⟨_, rfl, fun _ => rfl, fun ex hne => ?_⟩
        cases ex with
        | errno en => exact absurd rfl (hne en)
        | _ => rfl
    | _ => exact hask.elim

end attempts

/-! ### What is shown -/

section shown

/-- What can be seen of a node with the inode `i`. -/
def NodeView.HasINode (v : NodeView) (i : INode) : Prop := v.inode = if v.bytes.isSome then i else i.seen

/-- `getattr` of the node at `t`; the root directory has one more link. -/
def NodeView.Stats (t : List Str) (v : NodeView) (rv : ℤ) (st : Stat) : Prop :=
  rv = 0 ∧ ∃ i : INode, v.HasINode i ∧
    st = if t = [] then { i.stat with nlink := i.stat.nlink + 1 } else i.stat

/-- `read`: the bytes of the range that are below the size, and their number. -/
def NodeView.Gives (buf : ℕ → UInt8) (size off : ℕ) (v : NodeView) (rv : ℤ) (buf' : ℕ → UInt8) : Prop :=
  ∃ (i : INode) (b : ℕ → UInt8), v.HasINode i ∧ (∀ c, v.bytes = some c → b = c) ∧
    rv = (min (min (off + size) maxSize) i.size - off : ℕ) ∧
    ∀ j, buf' j = if off + j < min (min (off + size) maxSize) i.size then b (off + j) else buf j

/-- `readlink`: the bytes of the link, as far as the buffer goes, and a null. -/
def NodeView.Text (obuf : ℕ → UInt8) (size : ℕ) (v : NodeView) (rv : ℤ) (obuf' : ℕ → UInt8) : Prop :=
  rv = 0 ∧ ∃ b, v.bytes = some b ∧ ∀ j, obuf' j =
    if j < min v.inode.size (size - 1) then b j else if j = min v.inode.size (size - 1) then 0 else obuf j

/-- `readdir` of the directory at `t`: each name in it once, and the names that every directory has. -/
def Lists (n : List Str → Option NodeView) (t : List Str) (before : List Str) (v : NodeView) (rv : ℤ)
    (names : List Str) : Prop :=
  rv = 0 ∧ v.bytes = none ∧ ∃ l : List Str, l.Nodup ∧ (∀ e, e ∈ l ↔ n (t ++ [e]) ≠ none) ∧
    names = before ++ (l ++ [Str.ofText ".", Str.ofText ".."] ++ if t = [] then [specialDir] else [])

/-- How an operation that reads the node at `t` ends: with what `C` says of what can be seen there, or with an
error, which leaves the outputs as they were. -/
def Shown {α : Type} (n : List Str → Option NodeView) (t : List Str) (P : NodeView → Errno → Prop)
    (C : NodeView → ℤ → α → Prop) (out : α) (r : ℤ × α) : Prop :=
  (blocked n [] t = none ∧ ∃ v, n t = some v ∧ C v r.1 r.2) ∨
  ∃ en, Errs n [] t (fun en => (∃ v, n t = some v ∧ P v en) ∨ en = .enoent ∧ n t = none) en ∧
    r = (-en.code, out)

/-- How `fs_open` ends: there is a node of the name, or an error says why there is none. -/
def Opened (n : List Str → Option NodeView) (entry : Str) (rest : List Str) (r : ℤ × Unit) : Prop :=
  (entry ≠ [] ∧ blocked n [] (entry :: rest) = none ∧ n (entry :: rest) ≠ none ∧ r = (0, ())) ∨
  ∃ en, RootErrs n entry rest (fun en => en = .enoent ∧ n (entry :: rest) = none) en ∧ r = (-en.code, ())

/-- What can be seen of a node in memory. -/
theorem out_mem {v : NodeView} (hv : w.out E (.mem f) = some v) : v.HasINode (w.fil f).inode ∧
    v.bytes = if (w.fil f).cls.isDir then none else some (fileBytes E w f) := by
  simp only [World.out] at hv
  split at hv
  case isTrue hdir =>
    obtain rfl := Option.some.inj hv
    exact ⟨rfl, (if_pos hdir).symm⟩
  case isFalse hdir =>
    obtain rfl := Option.some.inj hv
    exact ⟨rfl, (if_neg hdir).symm⟩

/-- Only the root directory has the path without names. -/
theorem TInv.rdh_iff (h : TInv E L none none w) (hf : (w.graph E none none).find .top p = some (.mem f)) :
    w.rdh = some f ↔ p = [] := by
  constructor
  · exact fun hr => (h.find_mem_inj hf (find_top.2 hr)).2
  · rintro rfl
    exact find_top.1 hf

/-- `getattr` of a node outside the special directory. -/
theorem getattr_run (hdir : (w.fil f).cls ≠ .specialDir) (hfile : (w.fil f).cls ≠ .specialFile) (st : Stat) :
    getattr f st w = .ok (0, if w.rdh = some f then
      { (w.fil f).inode.stat with nlink := (w.fil f).inode.stat.nlink + 1 } else (w.fil f).inode.stat) w := by
  simp only [getattr, bind_apply, get_apply]
  cases hcls : (w.fil f).cls with
  | specialDir => exact absurd hcls hdir
  | specialFile => exact absurd hcls hfile
  | _ => rfl

end shown

/-! ### The operations -/

section ops

variable {entry : Str} {rest : List Str} {path : Str}

/-- **An operation that reads the node at a path**, from what it does with the node. -/
theorem wp_readLeaf {α : Type} {act : ℕ → α → UTFS.M (ℤ × α)} {P : NodeView → Errno → Prop}
    {C : NodeView → ℤ → α → Prop} {out : α} (hpath : splitPath path = pure (entry, rest))
    (h : TInv E L none none w) (hspecial : entry ≠ specialDir)
    (hact : ∀ w₁ f v, TInv E L none none w₁ → w₁.view E = w.view E →
      (w₁.graph E none none).find .top (target entry rest) = some (.mem f) → w₁.out E (.mem f) = some v →
      wp (act f out) (AsBefore E L w₁ fun r => C v r.1 r.2) (Fails E L none (fun _ => False) (P v) w₁) w₁) :
    wp (tryReadonly out (readAttempt E false (leafOut act) path out))
      (AsBefore E L w (Shown (w.view E) (target entry rest) P C out))
      (Fails E L none (fun _ => False) (fun _ => False) w) w := by
  refine wp_tryReadonly (R := fun r => blocked (w.view E) [] (target entry rest) = none ∧
      ∃ v, w.view E (target entry rest) = some v ∧ C v r.1 r.2)
    (P := Errs (w.view E) [] (target entry rest) fun en =>
      (∃ v, w.view E (target entry rest) = some v ∧ P v en) ∨ en = .enoent ∧ w.view E (target entry rest) = none)
    h fun readonly w₁ h₁ hc₁ => ?_
  have hview : w₁.view E = w.view E := funext hc₁.toSim.view
  have hroot := wp_rootRead (t := leafOut act) (P := fun en => ∃ v, w.view E (target entry rest) = some v ∧ P v en)
    (Q := fun r _ => ∃ v rv, w.view E (target entry rest) = some v ∧ r.1 = some rv ∧ C v rv r.2) readonly (none, out)
    h₁ hspecial fun w₂ f hdown hf => by
      obtain ⟨v, hv, -⟩ := (show Held w₂ f from hdown.inv.live_valid ⟨.top, _, hf⟩).out (E := E)
      have hview₂ : w₂.view E = w.view E := (funext hdown.calm.toSim.view).trans hview
      have hat : w.view E (target entry rest) = some v := by
        rw [← hview₂, World.view, hf]
        exact hv
      refine wp_seq (hact w₂ f v hdown.inv hview₂ hf hv) ?_ fun ex w₃ hF =>
        hF.imp_right (Or.imp_right fun h' => ⟨h'.1, h'.2.1, fun en hen =>
          ⟨⟨v, hat, (h'.2.2 en hen).1⟩, (h'.2.2 en hen).2⟩⟩)
      rintro ⟨rv, out'⟩ w₃ ⟨h₃, hc₃, hC⟩
      exact ⟨h₃, hc₃, v, rv, hat, rfl, hC⟩
  rw [hview] at hroot
  rw [readAttempt, hpath, pure_bind]
  refine wp_seq hroot ?_ fun _ _ hF => hF
  rintro ⟨o, out'⟩ w₂ ⟨hb, h₂, hc₂, v, rv, hv, rfl, hC⟩
  exact ⟨h₂, hc₂, hb, v, hv, hC⟩

variable (hpath : splitPath path = pure (entry, rest)) (h : TInv E L none none w) (hspecial : entry ≠ specialDir)

include hpath h hspecial

/-- **`fs_getattr`.** -/
theorem wp_fsGetattr (st : Stat) : wp (fsGetattr E path st)
    (AsBefore E L w (Shown (w.view E) (target entry rest) (fun _ _ => False) (NodeView.Stats (target entry rest)) st))
    (Fails E L none (fun _ => False) (fun _ => False) w) w := by
  refine wp_readLeaf hpath h hspecial fun w₁ f v h₁ _ hf hv => ?_
  have hheld : Held w₁ f := h₁.live_valid ⟨.top, _, hf⟩
  rw [wp, getattr_run (h₁.ne_special hf) hheld.plain]
  exact ⟨h₁, .refl h₁, rfl, _, (out_mem hv).1, if_congr (h₁.rdh_iff hf) rfl rfl⟩

/-- **`fs_read`.** -/
theorem wp_fsRead (buf : ℕ → UInt8) (size off : ℕ) : wp (fsRead E path buf size off)
    (AsBefore E L w (Shown (w.view E) (target entry rest) (fun _ _ => False) (NodeView.Gives buf size off) buf))
    (Fails E L none (fun _ => False) (fun _ => False) w) w := by
  refine wp_readLeaf hpath h hspecial fun w₁ f v h₁ _ hf hv => ?_
  have hheld : Held w₁ f := h₁.live_valid ⟨.top, _, hf⟩
  obtain ⟨hi, hbytes⟩ := out_mem hv
  simp only [readNode, wp_bind, wp_get]
  rw [if_neg hheld.plain]
  refine wp_mono (wp_fileRead h₁.nodes.blk hheld.lt buf size off) ?_ ?_
  · rintro r w₂ ⟨hb₂, hg, hrv, hr⟩
    obtain ⟨h₂, hc₂⟩ := h₁.grew hb₂ hg
    refine ⟨h₂, hc₂, (w₁.fil f).inode, fileBytes E w₁ f, hi, fun c hc => ?_, hrv, hr⟩
    rw [hbytes] at hc
    split at hc
    · simp at hc
    · exact Option.some.inj hc
  · rintro ex w₂ ⟨hb₂, hg, ⟨rfl, -⟩ | ⟨rfl, -⟩⟩
    · exact .inl trivial
    · obtain ⟨h₂, hc₂⟩ := h₁.grew hb₂ hg
      exact .inr (.inr ⟨h₂, hc₂, by simp⟩)

/-- **`fs_readlink`.**  It fails for a node that is not a link. -/
theorem wp_fsReadlink (obuf : ℕ → UInt8) (size : ℕ) : wp (fsReadlink E path obuf size)
    (AsBefore E L w (Shown (w.view E) (target entry rest) (fun _ en => en = .einval) (NodeView.Text obuf size) obuf))
    (Fails E L none (fun _ => False) (fun _ => False) w) w := by
  refine wp_readLeaf hpath h hspecial fun w₁ f v h₁ _ hf hv => ?_
  obtain ⟨hi, hbytes⟩ := out_mem hv
  simp only [readlink, wp_bind, wp_get]
  by_cases hcls : (w₁.fil f).cls = .symlink
  · rw [if_neg (not_not.2 hcls)]
    rw [hcls, show Cls.symlink.isDir = false from rfl, if_neg (by simp)] at hbytes
    have hinode : v.inode = (w₁.fil f).inode := by rw [hi, hbytes]; rfl
    by_cases hsize : size = 0
    · rw [if_pos hsize]
      exact .inl trivial
    rw [if_neg hsize]
    by_cases hsz : min (w₁.fil f).inode.size (size - 1) ≤ 4096
    · simp only [dif_pos hsz, wp_pure]
      refine ⟨h₁, .refl h₁, rfl, _, hbytes, fun j => ?_⟩
      rw [hinode]
      split
      case isTrue hj =>
        rw [fileBytes_inl _ _ (hj.trans_le hsz), byteAt, dif_pos (hj.trans_le hsz)]
        exact dif_pos hj
      case isFalse hj => exact dif_neg hj
    · simp only [dif_neg hsz]
      exact .inl trivial
  · rw [if_pos hcls]
    exact .inr (.inr ⟨h₁, .refl h₁, fun en hen => ⟨(Exn.errno.inj hen).symm, fun _ _ => rfl⟩⟩)

/-- **`fs_readdir`.** -/
theorem wp_fsReaddir (hN : L.nonil) (off : ℕ) (names : List Str) : wp (fsReaddir E path off names)
    (AsBefore E L w (Shown (w.view E) (target entry rest) (fun v en => en = .enotdir ∧ v.bytes ≠ none)
      (Lists (w.view E) (target entry rest) names) names))
    (Fails E L none (fun _ => False) (fun _ => False) w) w := by
  refine wp_readLeaf hpath h hspecial fun w₁ f v h₁ hview hf hv => ?_
  obtain ⟨-, hbytes⟩ := out_mem hv
  simp only [emitEntries, wp_bind, wp_get]
  cases hdir : (w₁.fil f).cls.isDir with
  | false =>
      refine .inr (.inr ⟨h₁, .refl h₁, fun en hen => ⟨⟨(Exn.errno.inj hen).symm, ?_⟩, fun _ _ => rfl⟩⟩)
      simp [hbytes, hdir]
  | true =>
      simp only [readdir, Bool.not_true, Bool.false_eq_true, if_false, wp_bind, wp_get]
      rw [if_neg (h₁.ne_special hf)]
      refine ⟨h₁, .refl h₁, rfl, by simp [hbytes, hdir], (w₁.fil f).dir.map Prod.fst,
        (h₁.nodes.node f (h₁.live_valid ⟨.top, _, hf⟩).lt).names, fun e => ?_, ?_⟩
      · rw [h₁.mem_names hN hf hdir, hview]
      · simp only [h₁.rdh_iff hf]
        split <;> simp

/-- **`fs_access`.** -/
theorem wp_fsAccess : wp (fsAccess E path)
    (AsBefore E L w fun rv =>
      Shown (w.view E) (target entry rest) (fun _ _ => False) (fun _ rv _ => rv = 0) () (rv, ()))
    (Fails E L none (fun _ => False) (fun _ => False) w) w := by
  have hattempt : ∀ readonly w₁, TInv E L none none w₁ → Calm E none none w w₁ → wp (do
      let x ← splitPath path
      let v ← rootTraverse E ⟨false, false, readonly⟩ (leafFunc fun _ => return 0) x.2 x.1 none
      ntRetval v)
      (AsBefore E L w₁ fun rv => blocked (w.view E) [] (target entry rest) = none ∧
        ∃ v, w.view E (target entry rest) = some v ∧ rv = 0)
      (Fails E L none (fun _ => False) (Errs (w.view E) [] (target entry rest) fun en =>
        (∃ v, w.view E (target entry rest) = some v ∧ False) ∨ en = .enoent ∧
          w.view E (target entry rest) = none) w₁) w₁ := by
    intro readonly w₁ h₁ hc₁
    have hview : w₁.view E = w.view E := funext hc₁.toSim.view
    have hroot := wp_rootRead (t := leafFunc fun _ => return 0)
      (P := fun _ => ∃ v, w.view E (target entry rest) = some v ∧ False)
      (Q := fun r _ => ∃ v, w.view E (target entry rest) = some v ∧ r = some 0) readonly none h₁ hspecial
      fun w₂ f hdown hf => by
        obtain ⟨v, hv, -⟩ := (show Held w₂ f from hdown.inv.live_valid ⟨.top, _, hf⟩).out (E := E)
        refine ⟨hdown.inv, .refl hdown.inv, v, ?_, rfl⟩
        rw [← hview, ← funext hdown.calm.toSim.view, World.view, hf]
        exact hv
    rw [hview] at hroot
    rw [hpath, pure_bind]
    refine wp_seq hroot ?_ fun _ _ hF => hF
    rintro o w₂ ⟨hb, h₂, hc₂, v, hv, rfl⟩
    exact ⟨h₂, hc₂, hb, v, hv, rfl⟩
  rw [fsAccess]
  refine wp_mono (wp_attempts (u := fun en => -en.code) h (fun _ => rfl) (fun ex hask hne => ?_) (fun ex hask => ?_)
    (hattempt true w h (.refl h)) (hattempt false)) ?_ fun _ _ hF => hF
  · cases ex with
    | errno en => exact absurd rfl (hne en)
    | operationError text => exact absurd trivial hask
    | _ => rfl
  · cases ex with
    | operationError text =>
        refine ⟨_, rfl, fun _ => rfl, fun ex hne => ?_⟩
        cases ex with
        | errno en => exact absurd rfl (hne en)
        | _ => rfl
    | _ => exact hask.elim
  · rintro rv w' ⟨h', hc', hR | ⟨en, hen, rfl⟩⟩
    · exact ⟨h', hc', .inl hR⟩
    · exact ⟨h', hc', .inr ⟨en, hen, rfl⟩⟩

/-- **`fs_open`** of a name that is there or is not, whatever the flags are. -/
theorem wp_fsOpen (flags : UInt32) : wp (fsOpen E path flags) (AsBefore E L w (Opened (w.view E) entry rest))
    (Fails E L none (fun _ => False) (fun _ => False) w) w := by
  refine wp_tryReadonly (R := fun r => entry ≠ [] ∧ blocked (w.view E) [] (entry :: rest) = none ∧
      w.view E (entry :: rest) ≠ none ∧ r = (0, ()))
    (P := RootErrs (w.view E) entry rest fun en => en = .enoent ∧ w.view E (entry :: rest) = none)
    h fun readonly w₁ h₁ hc₁ => ?_
  have hview : w₁.view E = w.view E := funext hc₁.toSim.view
  have hpe : entry :: rest = (entry :: rest).dropLast ++ [(entry :: rest).getLast (List.cons_ne_nil _ _)] :=
    (List.dropLast_append_getLast _).symm
  have hroot := wp_rootName (t := parentOut fun d entry => openEntry E d entry flags)
    (P := fun en => en = .enoent ∧ w.view E (entry :: rest) = none)
    (Q := fun r _ => r = (some 0, ()) ∧ w.view E (entry :: rest) ≠ none) (fun _ => False) readonly (none, ())
    h₁ hspecial hpe
    fun w₂ d o hdown hd hdir _ => by
      have h₂ := hdown.inv
      simp only [parentOut, openEntry, wp_bind, wp_get]
      rw [if_neg (h₂.ne_special hd)]
      refine wp_seq (wp_lookup h₂ ⟨.top, _, hd⟩ hdir (by simp) false) ?_ fun ex w₃ hF => hF.fails h₂
      rintro o w₃ ⟨h₃, hc₃, hk, hfil⟩
      have hat : w.view E (entry :: rest) = (o.map Loc.mem).bind (w₃.out E) := by
        rw [← hview, ← funext hdown.calm.toSim.view, ← funext hc₃.toSim.view, World.view, hpe,
          LGraph.find_snoc_of (hc₃.find_mem hd)]
        exact congrArg (Option.bind · _) ((step_none _ _).trans hk)
      cases o with
      | none => exact .inr (.inr ⟨h₃, hc₃, fun en hen => ⟨⟨(Exn.errno.inj hen).symm, hat⟩, hfil⟩⟩)
      | some f =>
          refine ⟨h₃, hc₃, rfl, ?_⟩
          have hheld : Held w₃ f := h₃.nodes.valid_kid (h₃.live_valid ⟨.top, _, hc₃.find_mem hd⟩) hk
          obtain ⟨v, hv, -⟩ := hheld.out (E := E)
          rw [hat, Option.map_some, Option.bind_some, hv]
          simp
  rw [hview] at hroot
  rw [readAttempt, hpath, pure_bind]
  refine wp_seq hroot ?_ fun _ _ hF => hF
  rintro r w₂ ⟨hne, hb, h₂, hc₂, rfl, hsome⟩
  exact ⟨h₂, hc₂, hne, hb, hsome, rfl⟩

end ops

end UTFS

end Utopfs
