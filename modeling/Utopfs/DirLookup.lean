/-
**Finding the node of a name.**

`DirNode::lookup` does not change the tree of directories: a node that is only stored is brought into
memory, where the clean cache has it from then on, and everything below it stays where it is.

A node can be brought into memory unless its reference is nil.  The one exception is a directory whose
entries cannot be read because the zero triple indirect block is missing, which `fs_mount` does not make;
the program then dereferences a null handle.

Main definitions:

* `UTFS.Made` — a node has been made, and no name leads to it;
* `UTFS.Copy` — a node in memory agrees with the one stored under its reference;
* `UTFS.Crashed`, `UTFS.LookupFails` — how a name may fail to be found.

Main results:

* `UTFS.TInv.loaded` — the copy of a stored node enters the clean cache;
* `UTFS.wp_loadNode` — a stored node is loaded;
* `UTFS.wp_lookup`, `UTFS.wp_lookup_mem` — **`DirNode::lookup`**.
-/

import Utopfs.DirSteps

set_option relaxedAutoImplicit false
set_option autoImplicit false

namespace Utopfs

namespace UTFS

open Prog

variable {E : Env}

/-! ### Bringing a node into memory -/

section load

variable {w w' : World} {M : Option (Loc × Str)} {H : Hand} {L : Laws} {f : ℕ} {r : BlockRef}

/-- What can be seen of a node depends on its own fields, the block nodes and the store. -/
theorem out_congr (hblk : w'.blk = w.blk) (hlog : w'.log = w.log) (hf : w'.fil f = w.fil f) :
    w'.out E (.mem f) = w.out E (.mem f) := by
  have hbytes := funext (@fileBytes_of_fil E w w' f hblk hlog hf)
  simp only [World.out, hf, hbytes]

theorem out_setCache (w : World) (c : BlockNodeCache) (x : Loc) : (w.setCache c).out E x = w.out E x := by
  cases x with
  | mem f => exact out_congr rfl rfl rfl
  | ref r => rfl

/-- A change of the clean cache that keeps its keys renames the nodes of names. -/
theorem kid_setCache {c : BlockNodeCache}
    (hkeep : ∀ r f, w.cache.nodemap r = some (.fil f) → c.nodemap r = some (.fil f)) (x : Loc) (e : Str) :
    (w.setCache c).kid E x e = (w.kid E x e).map (w.setCache c).norm := by
  have hdir : (w.setCache c).dirOf E x = w.dirOf E x := by cases x <;> rfl
  have hdirty : (w.setCache c).dirtyOf x = w.dirtyOf x := by cases x <;> rfl
  rw [World.kid, World.kid, hdir, hdirty]
  cases (w.dirtyOf x).lookup e with
  | some g => rfl
  | none =>
      simp only [Option.map_map]
      cases (w.dirOf E x).lookup e with
      | none => rfl
      | some r =>
          have hnorm : (w.setCache c).norm (w.norm (.ref r)) = (w.setCache c).norm (.ref r) := norm_norm hkeep _
          exact congrArg some hnorm.symm

theorem entryRef_setCache (c : BlockNodeCache) (x : Loc) (e : Str) :
    (w.setCache c).entryRef E x e = w.entryRef E x e := by
  cases x <;> rfl

theorem keyOf_setCache {c : BlockNodeCache} {x k : Loc} : (w.setCache c).KeyOf x r k ↔ w.KeyOf x r k := by
  constructor
  · rintro (hf | ⟨hf, hr⟩ | hr)
    · exact .node hf
    · exact .own hf hr
    · exact .entry hr
  · rintro (hf | ⟨hf, hr⟩ | hr)
    · exact .node hf
    · exact .own (w := w.setCache c) hf hr
    · exact .entry hr

/-- A node in memory that is not in the tree yet and agrees with the one stored under its reference. -/
structure Copy (E : Env) (M : Option (Loc × Str)) (H : Hand) (w : World) (r : BlockRef) (f : ℕ) :
    Prop where
  held : Held w f
  ref : (w.fil f).ref = r
  clean : (w.fil f).isdirty = false
  stored : Stored w.log r .inode
  mode : storedIsDir E w.log r = sIsdir (w.fil f).inode.mode
  dead : ¬ (w.graph E M H).Live (.mem f)
  mask : ∀ e, M ≠ some (.mem f, e)
  kid : ∀ e, w.kid E (.mem f) e = w.kid E (.ref r) e
  entryRef : ∀ e, w.entryRef E (.mem f) e = w.entryRef E (.ref r) e
  out : w.out E (.mem f) = w.out E (.ref r)

theorem Copy.ne_nil (hc : Copy E M H w r f) (h : NInv E L w) : r ≠ .nil := by
  rintro rfl
  obtain ⟨b, hb⟩ := hc.stored
  rw [h.blk.disk.nilFree] at hb
  simp at hb

/-- Where the nodes with a path are once the copy is in the clean cache. -/
theorem Copy.norm (h : TInv E L M H w) {x : Loc} (hx : (w.graph E M H).Live x) :
    (w.setCache (w.cache.inserted r (.fil f))).norm x = if x = .ref r then .mem f else x := by
  cases x with
  | mem g => simp
  | ref r' =>
      have hn := h.live_norm hx
      by_cases hr : r' = r
      · subst hr
        rw [if_pos rfl]
        exact locAt_eq_mem.2 (Function.update_self ..)
      · rw [if_neg (by simpa using hr)]
        refine locAt_of_none fun g hg => ?_
        simp only [World.setCache_cache, BlockNodeCache.inserted, Function.update_of_ne hr] at hg
        change w.locAt r' = .ref r' at hn
        rw [locAt_eq_mem.2 hg] at hn
        simp at hn

theorem keep_inserted (hnone : w.cache.nodemap r = none) (r' : BlockRef) (g : ℕ)
    (hr : w.cache.nodemap r' = some (.fil g)) :
    (w.cache.inserted r (.fil f)).nodemap r' = some (.fil g) := by
  have hne : r' ≠ r := by
    rintro rfl
    rw [hnone] at hr
    simp at hr
  simpa only [BlockNodeCache.inserted, Function.update_of_ne hne] using hr

theorem Copy.step (hc : Copy E M H w r f) (h : TInv E L M H w) (hnone : w.cache.nodemap r = none)
    {x : Loc} (hx : (w.graph E M H).Live x) (e : Str) :
    (w.setCache (w.cache.inserted r (.fil f))).step E M
        ((w.setCache (w.cache.inserted r (.fil f))).norm x) e =
      (w.step E M x e).map (w.setCache (w.cache.inserted r (.fil f))).norm := by
  rw [Copy.norm h hx]
  by_cases hr : x = .ref r
  · subst hr
    have hm : M ≠ some (.ref r, e) := by
      intro hM
      obtain ⟨d, hd, -⟩ := h.mask _ _ hM
      simp at hd
    rw [if_pos rfl, step_of_ne (hc.mask e), step_of_ne hm, kid_setCache (keep_inserted hnone), hc.kid]
  · rw [if_neg hr, World.step, World.step]
    split
    · rfl
    · exact kid_setCache (keep_inserted hnone) x e

theorem Copy.entryRef_norm (hc : Copy E M H w r f) (h : TInv E L M H w) {x : Loc}
    (hx : (w.graph E M H).Live x) (e : Str) :
    (w.setCache (w.cache.inserted r (.fil f))).entryRef E
        ((w.setCache (w.cache.inserted r (.fil f))).norm x) e = w.entryRef E x e := by
  rw [Copy.norm h hx, entryRef_setCache]
  by_cases hr : x = .ref r
  · rw [if_pos hr, hr, hc.entryRef]
  · rw [if_neg hr]

/-- The key that an edge had before the copy was there. -/
def Copy.oldKey (f : ℕ) (r : BlockRef) (k : Loc) : Loc := if k = .mem f then .ref r else k

theorem Copy.oldKey_ref (r' : BlockRef) : Copy.oldKey f r (.ref r') = .ref r' := if_neg (by simp)

theorem Copy.oldKey_of_ne {k : Loc} (h : k ≠ .mem f) : Copy.oldKey f r k = k := if_neg h

/-- The keys of an edge that leads to `y`, old and new. -/
theorem Copy.keyOf (hc : Copy E M H w r f) (h : TInv E L M H w) {y : Loc}
    (hy : (w.graph E M H).Live y) {r' : BlockRef} (hr' : y = .ref r → r' = r) {k : Loc}
    (hk : (w.setCache (w.cache.inserted r (.fil f))).KeyOf
      ((w.setCache (w.cache.inserted r (.fil f))).norm y) r' k) :
    w.KeyOf y r' (Copy.oldKey f r k) := by
  have hne := hc.ne_nil h.nodes
  rw [Copy.norm h hy, keyOf_setCache] at hk
  by_cases hyr : y = .ref r
  · rw [if_pos hyr] at hk
    have hr := hr' hyr
    have hold : Copy.oldKey f r k = .ref r := by
      cases hk with
      | node hf => rw [← hf]; exact if_pos rfl
      | own hf _ =>
          injection hf with hf
          rw [Copy.oldKey_ref, ← hf, hc.ref]
      | entry _ => rw [Copy.oldKey_ref, hr]
    rw [hold, ← hr]
    exact .entry (by rw [hr]; exact hne)
  · rw [if_neg hyr] at hk
    have hkf : k ≠ .mem f := by
      rintro rfl
      cases hk with
      | node hf =>
          subst hf
          exact hc.dead hy
    rw [Copy.oldKey_of_ne hkf]
    exact hk

/-- The copy `f` of the stored node `r` has entered the clean cache. -/
structure Brought (E : Env) (M : Option (Loc × Str)) (H : Hand) (w : World) (r : BlockRef) (f : ℕ)
    (w' : World) : Prop where
  same : ∃ c, w' = w.setCache c
  ne : r ≠ .nil
  dead : ¬ (w.graph E M H).Live (.mem f)
  norm : ∀ x, (w.graph E M H).Live x → w'.norm x = if x = .ref r then .mem f else x
  step : ∀ x, (w.graph E M H).Live x → ∀ e, w'.step E M (w'.norm x) e = (w.step E M x e).map w'.norm
  entryRef : ∀ x, (w.graph E M H).Live x → ∀ e, w'.entryRef E (w'.norm x) e = w.entryRef E x e
  keyOf : ∀ y, (w.graph E M H).Live y → ∀ r', (y = .ref r → r' = r) → ∀ k,
    w'.KeyOf (w'.norm y) r' k → w.KeyOf y r' (Copy.oldKey f r k)
  keep : ∀ r' g, w.cache.nodemap r' = some (.fil g) → w'.cache.nodemap r' = some (.fil g)
  lpos : ∀ g, LposOk w g → LposOk w' g
  map : ∀ r' g, w'.cache.nodemap r' = some (.fil g) →
    (r' = r ∧ g = f ∧ LposOk w' f) ∨ w.cache.nodemap r' = some (.fil g)

theorem Copy.brought (hc : Copy E M H w r f) (h : TInv E L M H w) (hnone : w.cache.nodemap r = none) :
    Brought E M H w r f (w.setCache (w.cache.inserted r (.fil f))) where
  same := ⟨_, rfl⟩
  ne := hc.ne_nil h.nodes
  dead := hc.dead
  norm x hx := Copy.norm h hx
  step x hx e := hc.step h hnone hx e
  entryRef x hx e := hc.entryRef_norm h hx e
  keyOf y hy r' hr' k hk := hc.keyOf h hy hr' hk
  keep := keep_inserted hnone
  lpos g hg := placed_inserted hg
  map r' g hr' := by
    by_cases hr : r' = r
    · subst hr
      have : f = g := by simpa [BlockNodeCache.inserted] using hr'
      exact .inl ⟨rfl, this.symm, placed_inserted_self⟩
    · simp only [World.setCache_cache, BlockNodeCache.inserted, Function.update_of_ne hr] at hr'
      exact .inr hr'

theorem Copy.ninv (hc : Copy E M H w r f) (h : NInv E L w) (hnone : w.cache.nodemap r = none) :
    NInv E L (w.setCache (w.cache.inserted r (.fil f))) := by
  have hmap : ∀ r' o, (w.cache.inserted r (.fil f)).nodemap r' = some o →
      w.cache.nodemap r' = some o ∨ (r' = r ∧ o = .fil f) := by
    intro r' o hr'
    by_cases hr : r' = r
    · subst hr
      have : Obj.fil f = o := by simpa [BlockNodeCache.inserted] using hr'
      exact .inr ⟨rfl, this.symm⟩
    · exact .inl (by simpa only [BlockNodeCache.inserted, Function.update_of_ne hr] using hr')
  refine h.setCache (h.blk.setCacheFil (h.blk.rep.inserted hnone ?_) ?_) ?_
  · rintro ⟨n, hn⟩
    simp at hn
  · intro r' o hr'
    rcases hmap r' o hr' with hr' | ⟨rfl, rfl⟩
    · exact .inl hr'
    · exact .inr ⟨⟨f, rfl⟩, hc.stored⟩
  · intro r' g hr'
    rcases hmap r' _ hr' with hr' | ⟨rfl, hg⟩
    · exact .inl hr'
    · injection hg with hg
      subst hg
      exact .inr ⟨hc.held, hc.mode⟩

section brought

variable (hb : Brought E M H w r f w')

include hb

theorem Brought.fields : w'.fil = w.fil ∧ w'.log = w.log ∧ w'.rand = w.rand ∧ w'.nfil = w.nfil ∧
    w'.tops = w.tops := by
  obtain ⟨c, rfl⟩ := hb.same
  exact ⟨rfl, rfl, rfl, rfl, rfl⟩

theorem Brought.out (x : Loc) : w'.out E x = w.out E x := by
  obtain ⟨c, rfl⟩ := hb.same
  exact out_setCache w c x

theorem Brought.root (h : TInv E L M H w) (i : Rt) : w'.root H i = (w.root H i).map w'.norm := by
  have htops := hb.fields.2.2.2.2
  cases i with
  | top =>
      have : w'.rdh = w.rdh := congrArg (fun x => x.1) htops
      simp only [World.root, this, Option.map_map]
      rfl
  | special =>
      have : w'.sdh = w.sdh := congrArg (fun x => x.2.1) htops
      simp only [World.root, this, Option.map_map]
      rfl
  | hand =>
      cases hH : H with
      | none => rfl
      | some y =>
          obtain ⟨x, r'⟩ := y
          have hhand := h.hand x r' hH
          have hx : (w.graph E M H).Live x := .of_root (i := .hand) (by simp [World.graph, World.root, hH])
          have hxr : x ≠ .ref r := by
            rintro rfl
            obtain ⟨g, hg⟩ | hnil := hhand.kind
            · simp at hg
            · injection hnil with hnil
              exact hb.ne hnil
          have hnorm := hb.norm x hx
          rw [if_neg hxr] at hnorm
          simp only [World.root, Option.map_some, hnorm]

theorem Brought.find (h : TInv E L M H w) (i : Rt) (p : List Str) :
    (w'.graph E M H).find i p = ((w.graph E M H).find i p).map w'.norm :=
  LGraph.find_map (fun i => hb.root h i) (fun x hx e => hb.step x hx e) i p

/-- The keys of an edge, old and new. -/
theorem Brought.edgeKey {x : Loc} (hx : (w.graph E M H).Live x) {e : Str} {k : Loc}
    (hk : w'.edgeKey E M (w'.norm x) e k) : w.edgeKey E M x e (Copy.oldKey f r k) := by
  obtain ⟨y', hy', hk⟩ := hk
  rw [hb.step x hx, Option.map_eq_some_iff] at hy'
  obtain ⟨y, hy, rfl⟩ := hy'
  rw [hb.entryRef x hx] at hk
  refine ⟨y, hy, hb.keyOf y (hx.step hy) _ ?_ k hk⟩
  rintro rfl
  exact entryRef_of_ref (kid_of_step hy)

theorem Brought.handKey {x : Loc} {r' : BlockRef} (hH : H = some (x, r')) {k : Loc}
    (hk : w'.KeyOf x r' k) : w.KeyOf x r' k ∧ k ≠ .mem f := by
  have hx : (w.graph E M H).Live x := .of_root (i := .hand) (by simp [World.graph, World.root, hH])
  obtain ⟨c, rfl⟩ := hb.same
  rw [keyOf_setCache] at hk
  refine ⟨hk, ?_⟩
  rintro rfl
  cases hk with
  | node hf =>
      subst hf
      exact hb.dead hx

theorem Brought.rootKey {i : Rt} {k : Loc} (hk : w'.rootKey H i k) :
    w.rootKey H i (Copy.oldKey f r k) := by
  have htops := hb.fields.2.2.2.2
  cases i with
  | top =>
      obtain ⟨d, hd, rfl⟩ := hk
      have hd' : w.rdh = some d := (congrArg (fun x => x.1) htops).symm.trans hd
      have hlive : (w.graph E M H).Live (.mem d) :=
        .of_root (i := .top) (by simp [World.graph, World.root, hd'])
      have hne : Loc.mem d ≠ .mem f := fun heq => hb.dead (heq ▸ hlive)
      rw [Copy.oldKey_of_ne hne]
      exact ⟨d, hd', rfl⟩
  | special =>
      obtain ⟨d, hd, rfl⟩ := hk
      have hd' : w.sdh = some d := (congrArg (fun x => x.2.1) htops).symm.trans hd
      have hlive : (w.graph E M H).Live (.mem d) :=
        .of_root (i := .special) (by simp [World.graph, World.root, hd'])
      have hne : Loc.mem d ≠ .mem f := fun heq => hb.dead (heq ▸ hlive)
      rw [Copy.oldKey_of_ne hne]
      exact ⟨d, hd', rfl⟩
  | hand =>
      obtain ⟨x, r', hH, hk⟩ := hk
      obtain ⟨hk, hne⟩ := hb.handKey hH hk
      rw [Copy.oldKey_of_ne hne]
      exact ⟨x, r', hH, hk⟩

theorem Brought.ownOk (h : TInv E L M H w)
    (hedge : ∀ x, (w.graph E M H).Live x → ∀ e, w.edgeKey E M x e (.ref r) →
      w.step E M x e = some (.ref r))
    {x : Loc} (hx : (w.graph E M H).Live x) {e : Str} {y' : Loc}
    (hy' : w'.step E M (w'.norm x) e = some y') : OwnOk w' y' (w'.entryRef E (w'.norm x) e) := by
  have hs := hy'
  rw [hb.step x hx, Option.map_eq_some_iff] at hy'
  obtain ⟨y, hy, rfl⟩ := hy'
  have hylive := LGraph.Live.step hx hy
  intro r' g hk hr'
  have hold := hb.edgeKey hx ⟨_, hs, hk⟩
  rw [Copy.oldKey_ref] at hold
  rcases hb.map r' g hr' with ⟨rfl, rfl, hl⟩ | hr'
  · have := hedge x hx e hold
    rw [hy] at this
    obtain rfl := Option.some.inj this
    rw [hb.norm _ hylive, if_pos rfl]
    exact ⟨rfl, hl⟩
  · obtain ⟨z, hz, hkz⟩ := hold
    rw [hy] at hz
    obtain rfl := Option.some.inj hz
    obtain ⟨rfl, hl⟩ := h.own x hx e y hy r' g hkz hr'
    exact ⟨rfl, hb.lpos g hl⟩

/-- A flush finds the copy, which is clean. -/
theorem Brought.regAt (hc : Copy E M H w r f) {X : Set ℕ} {x : Loc} (hx : (w.graph E M H).Live x)
    (hX : Reg E M H X w) {e : Str} {g : ℕ} (hs : w'.step E M (w'.norm x) e = some (.mem g)) :
    g ∈ X ∨ RegAt E w' (w'.norm x) e g := by
  have hfil := hb.fields.1
  rw [hb.step x hx, Option.map_eq_some_iff] at hs
  obtain ⟨y, hy, hyg⟩ := hs
  rw [hb.norm y (hx.step hy)] at hyg
  rw [RegAt, hb.entryRef x hx, hfil]
  split at hyg
  case isTrue hr =>
    obtain rfl : f = g := by simpa using hyg
    subst hr
    exact .inr (.inr ⟨hc.clean, by rw [hc.ref, entryRef_of_ref (kid_of_step hy)]⟩)
  case isFalse =>
    subst hyg
    refine (hX x hx e g hy).imp_right fun hr => ?_
    rcases hr with hd | hcl
    · cases x with
      | ref r' => simp [World.dirtyOf] at hd
      | mem d =>
          refine .inl ?_
          rw [norm_mem, World.dirtyOf, hfil]
          exact hd
    · exact .inr hcl

end brought

/-- **A stored node is brought into memory**: its copy enters the clean cache. -/
theorem TInv.loaded (h : TInv E L M H w) (hc : Copy E M H w r f) (hnone : w.cache.nodemap r = none)
    (hedge : ∀ x, (w.graph E M H).Live x → ∀ e, w.edgeKey E M x e (.ref r) →
      w.step E M x e = some (.ref r))
    (hhand : ∀ x r', H = some (x, r') → ¬ w.KeyOf x r' (.ref r)) :
    TInv E L M H (w.setCache (w.cache.inserted r (.fil f))) ∧
      Calm E M H w (w.setCache (w.cache.inserted r (.fil f))) := by
  have hn := hc.ninv h.nodes hnone
  have hb := hc.brought h hnone
  generalize w.setCache (w.cache.inserted r (.fil f)) = w' at hn hb ⊢
  obtain ⟨hfil, hlog, hrand, hnfil, htops⟩ := hb.fields
  have hlater : Later w w' := ⟨by rw [hlog]; exact .refl _, by rw [hrand]; exact fun _ hi => hi,
    hnfil.ge, fun _ _ => by rw [hfil], fun _ _ => by rw [hfil]⟩
  have hfind := hb.find h
  refine ⟨⟨hn, h.unshared.map (Copy.oldKey f r) (fun i k hk => hb.rootKey hk) hfind
    (fun x hx e k hk => hb.edgeKey hx hk), ?_, ?_, ?_, ?_⟩, ⟨hlater, hfind, ?_, hb.keep, hb.lpos,
    congrArg (fun x => x.1) htops, congrArg (fun x => x.2.1) htops, congrArg (fun x => x.2.2.1) htops,
    congrArg (fun x => x.2.2.2) htops, fun _ => .of_fil fun _ _ => by rw [hfil]⟩, fun X hX => ?_⟩
  · rintro x' ⟨i, p, hp⟩ e y hy
    rw [hfind, Option.map_eq_some_iff] at hp
    obtain ⟨x, hx, rfl⟩ := hp
    exact hb.ownOk h hedge ⟨i, p, hx⟩ hy
  · intro x r' hH
    have hh := h.hand x r' hH
    refine ⟨hh.valid.later hlater, hh.kind, fun hr => by rw [hlog]; exact hh.ref hr, ?_⟩
    intro r'' g hk hr
    obtain ⟨hk, -⟩ := hb.handKey hH hk
    rcases hb.map r'' g hr with ⟨rfl, -, -⟩ | hr
    · exact absurd hk (hhand x r' hH)
    · obtain ⟨h₁, h₂⟩ := hh.own r'' g hk hr
      exact ⟨h₁, hb.lpos g h₂⟩
  · intro x e hM
    rw [hnfil]
    exact h.mask x e hM
  · intro d hd hcls
    rw [hfil] at hcls
    exact (congrArg (fun x => x.2.1) htops).trans (h.plain d (hnfil ▸ hd) hcls)
  · intro x hx
    rw [hb.out, hb.norm x hx]
    split
    case isTrue hr => rw [hr, hc.out]
    case isFalse => rfl
  · rintro x' ⟨i, p, hp⟩ e g hs
    rw [hfind, Option.map_eq_some_iff] at hp
    obtain ⟨x, hx, rfl⟩ := hp
    exact hb.regAt hc ⟨i, p, hx⟩ hX hs

/-- **A new node**, which no name leads to yet. -/
theorem TInv.fresh (h : TInv E L M H w) (hb : BInv E ∅ w') (hlog : w'.log = w.log) (hrand : w'.rand = w.rand)
    (htops : w'.tops = w.tops) (hnfil : w'.nfil = w.nfil + 1) (hold : ∀ g, g < w.nfil → w'.fil g = w.fil g)
    (hnew : NodeOk E L w' w.nfil) (hplain : (w'.fil w.nfil).cls ≠ .specialDir) (hc : SameFil w.cache w'.cache)
    (hout : ∀ g, g < w.nfil → w'.out E (.mem g) = w.out E (.mem g)) :
    TInv E L M H w' ∧ Calm E M H w w' := by
  have hl : Later w w' := ⟨by rw [hlog]; exact .refl _, by rw [hrand]; exact fun _ hi => hi, by omega,
    fun g hg => by rw [hold g hg], fun g hg => by rw [hold g hg]⟩
  have hrdh : w'.rdh = w.rdh := congrArg (fun x => x.1) htops
  have hsdh : w'.sdh = w.sdh := congrArg (fun x => x.2.1) htops
  have hver : w'.version = w.version := congrArg (fun x => x.2.2.1) htops
  have hctl : w'.control = w.control := congrArg (fun x => x.2.2.2) htops
  refine h.calm (h.nodes.step hb hl (by rw [hlog]; exact h.nodes.store) ?_
    (fun r g hr => .inl ((hc.nodemap r g).1 hr)) (fun d hd => .inl (hrdh ▸ hd)) (fun d hd => .inl (hsdh ▸ hd))
    (fun d hd => .inl (hver ▸ hd)) (fun d hd => .inl (hctl ▸ hd)))
    (h.sameTree hl hb.disk.nilFree htops hc.nodemap (fun g hg => hc.placed hg) ?_ ?_)
    (fun _ => .of_fil hold) (fun x hx => h.sameOut hl hb.disk.nilFree hout hx)
    fun x hx e g hs hr => h.sameReg hl hb.disk.nilFree hold hx hs hr
  · intro g hg
    rcases Nat.lt_succ_iff_lt_or_eq.1 (hnfil ▸ hg) with hlt | rfl
    · exact .inl ⟨hlt, hold g hlt⟩
    · exact .inr hnew
  · intro g hg
    constructor <;> rw [hold g hg]
  · intro g hg hcls
    rw [hnfil] at hg
    refine (Nat.lt_succ_iff_lt_or_eq.1 hg).resolve_right ?_
    rintro rfl
    exact hplain hcls

/-- The fields of a node made from a stored block. -/
theorem decodeFile_fields {log : List Effect} {x : FileNode} (hx : decodeFile E log r = some x) :
    ∃ b i, x = FileNode.stored r b i := by
  simp only [decodeFile, Option.bind_eq_some_iff, Option.map_eq_some_iff] at hx
  obtain ⟨b, -, i, -, rfl⟩ := hx
  exact ⟨b, i, rfl⟩

/-- A node made from a stored block is in order. -/
theorem nodeOk_stored (hst : StoreOk E L w.log) (hd : DiskOk E w.log w.rand) (hs : Stored w.log r .inode)
    {x : FileNode} (hx : decodeFile E w.log r = some x) (cls : Cls) (dir : Directory)
    (hf : w.fil f = { x with cls := cls, dir := dir })
    (hdir : cls.isDir = true → sIsdir x.inode.mode = true ∧ storedDir E w.log r = some dir)
    (hfile : cls.isDir = false → dir = []) : NodeOk E L w f := by
  obtain ⟨b, i, rfl⟩ := decodeFile_fields hx
  have hentries : ∀ e ∈ dir, cls.isDir = true ∧ DirStored E L w.log i dir := by
    intro e he
    cases hc : cls.isDir with
    | false =>
        rw [hfile hc] at he
        simp at he
    | true =>
        obtain ⟨hm, hd'⟩ := hdir hc
        obtain ⟨d, hd'', hok⟩ := hst.dir r _ hs hx hm
        rw [hd'] at hd''
        obtain rfl := Option.some.inj hd''
        exact ⟨rfl, hok⟩
  refine ⟨?_, ?_, ?_, ?_, ?_, ?_, ?_, ?_, ?_⟩
  · obtain ⟨c, hc⟩ := hs
    rw [hf]
    exact hd.fresh r _ hc
  · rw [hf]
    intro _
    refine ⟨hs, ?_⟩
    change (decodeFile E w.log r).map _ = _
    rw [hx]
    rfl
  · rw [hf]
    exact fun hc _ => ⟨rfl, (hdir hc).2⟩
  · rw [hf]
    cases hdd : dir with
    | nil => simp
    | cons e l =>
        rw [← hdd]
        exact (hentries e (by rw [hdd]; exact List.mem_cons_self)).2.names
  · rw [hf]
    exact fun e he hr => (hentries e he).2.refs e he hr
  · rw [hf]
    intro e he
    exact absurd he (List.not_mem_nil)
  · rw [hf]
    intro e he
    exact absurd he (List.not_mem_nil)
  · rw [hf]
    exact fun hL e he hr => absurd hr ((hentries e he).2.nonil hL e he)
  · intro hL hc
    have hsub : w.isSub E f = fun e => storedIsDir E w.log e.2 := by
      funext e
      simp only [World.isSub, hf, FileNode.stored, List.lookup_nil]
    rw [hsub, hf]
    rw [hf] at hc
    obtain ⟨hm, hd'⟩ := hdir hc
    obtain ⟨d, hd'', hok⟩ := hst.dir r _ hs hx hm
    rw [hd'] at hd''
    obtain rfl := Option.some.inj hd''
    exact hok.links hL

/-- The node `f` has been made, and no name leads to it. -/
structure Made (E : Env) (L : Laws) (M : Option (Loc × Str)) (H : Hand) (w : World) (f : ℕ) (w' : World) :
    Prop where
  inv : TInv E L M H w'
  sim : Calm E M H w w'
  new : w.nfil ≤ f
  lt : f < w'.nfil
  cache : SameFil w.cache w'.cache
  log : w'.log = w.log
  old : ∀ g, g < w.nfil → w'.fil g = w.fil g

theorem Made.trans {w'' : World} {f' : ℕ} (hm : Made E L M H w f w') (hm' : Made E L M H w' f' w'') :
    Made E L M H w f' w'' where
  inv := hm'.inv
  sim := hm.sim.trans hm'.sim
  new := hm.sim.later.nfil.trans hm'.new
  lt := hm'.lt
  cache := hm.cache.trans hm'.cache
  log := hm'.log.trans hm.log
  old g hg := (hm'.old g (hg.trans_le hm.sim.later.nfil)).trans (hm.old g hg)

theorem Made.dead (hm : Made E L M H w f w') (h : TInv E L M H w) : ¬ (w'.graph E M H).Live (.mem f) := by
  have hnew := hm.new
  rintro ⟨i, p, hp⟩
  rw [hm.sim.find, Option.map_eq_some_iff] at hp
  obtain ⟨x, hx, hn⟩ := hp
  have hv := h.live_valid ⟨i, p, hx⟩
  cases x with
  | mem g =>
      rw [norm_mem] at hn
      injection hn with hn
      subst hn
      have := hv.lt
      omega
  | ref r' =>
      have hr := (hm.cache.nodemap r' f).1 (locAt_eq_mem.1 hn)
      have := (h.nodes.key r' f hr).held.lt
      omega

theorem Made.mask (hm : Made E L M H w f w') (h : TInv E L M H w) (e : Str) : M ≠ some (.mem f, e) := by
  have hnew := hm.new
  intro hM
  obtain ⟨d, hd, hlt⟩ := h.mask _ _ hM
  injection hd with hd
  omega

theorem storedDir_of_decode {log : List Effect} {x : FileNode} (hx : decodeFile E log r = some x)
    (hm : sIsdir x.inode.mode = false) : storedDir E log r = none := by
  simp [storedDir, hx, hm]

/-- A node made from a stored block is a copy of it. -/
theorem Made.copy (hm : Made E L M H w f w') (h : TInv E L M H w) (hs : Stored w'.log r .inode)
    {x : FileNode} (hx : decodeFile E w'.log r = some x) (cls : Cls) (dir : Directory)
    (hf : w'.fil f = { x with cls := cls, dir := dir }) (hkind : cls.isDir = sIsdir x.inode.mode)
    (hplain : cls ≠ .specialFile) (hdir : cls.isDir = true → storedDir E w'.log r = some dir)
    (hbytes : ∀ a, fileBytes E w' f a = nodeBytes E w'.log x a) : Copy E M H w' r f := by
  have hentries : w'.dirtyOf (.mem f) = [] ∧ w'.dirOf E (.mem f) = w'.dirOf E (.ref r) := by
    obtain ⟨b, i, rfl⟩ := decodeFile_fields hx
    simp only [World.dirtyOf, World.dirOf, hf]
    cases hc : cls.isDir with
    | true => simp [hdir hc, FileNode.stored]
    | false => simp [storedDir_of_decode hx (hkind.symm.trans hc)]
  refine ⟨.of_fil ⟨hm.lt, hf⟩ hkind hplain, ?_, ?_, hs, ?_, hm.dead h, hm.mask h, ?_, ?_, ?_⟩
  · obtain ⟨b, i, rfl⟩ := decodeFile_fields hx
    rw [hf]
    rfl
  · obtain ⟨b, i, rfl⟩ := decodeFile_fields hx
    rw [hf]
    rfl
  · rw [storedIsDir, hx, hf]
  · intro e
    rw [World.kid, World.kid, hentries.1, hentries.2]
    rfl
  · intro e
    rw [World.entryRef, World.entryRef, hentries.2]
  · simp only [World.out, hx, hf, Option.map_some, hkind, funext hbytes]
    split <;> rfl

/-- The program dereferences a null handle; what it has stored is in order. -/
structure Crashed (E : Env) (L : Laws) (ex : Exn) (w' : World) : Prop where
  null : ex = .nullHandle
  store : StoreOk E L w'.log
  disk : DiskOk E w'.log w'.rand

/-- A node without handles and entries is made. -/
theorem TInv.allocFil (h : TInv E L M H w) {x : FileNode} (hobjs : ∀ s, x.objs s = none)
    (hrefs : ∀ s, x.refs s ≠ .nil → Stored w.log (x.refs s) (.blk s.level))
    (hnew : NodeOk E L (w.allocFil x) w.nfil) (hplain : x.cls ≠ .specialDir) :
    Made E L M H w w.nfil (w.allocFil x) := by
  have hold : ∀ g, g < w.nfil → (w.allocFil x).fil g = w.fil g := fun g hg => allocFil_of_lt w x hg
  obtain ⟨ht, hs⟩ := h.fresh (h.nodes.blk.allocFil hobjs hrefs) rfl rfl rfl rfl hold hnew
    (by rw [allocFil_self]; exact hplain) (.refl _)
    fun g hg => @out_congr E w (w.allocFil x) g rfl rfl (hold g hg)
  exact ⟨ht, hs, Nat.le_refl _, Nat.lt_succ_self _, .refl _, rfl, hold⟩

/-- The entries of a stored directory have been read. -/
theorem TInv.madeDir (h : TInv E L M H w) (hs : Stored w.log r .inode) {x y : FileNode}
    (hx : decodeFile E w.log r = some x) (hmode : sIsdir x.inode.mode = true) {dir : Directory}
    (hdir : storedDir E w.log r = some dir) (hobjs : ∀ s, x.objs s = none)
    (hy : ({ x with cls := .dir } : FileNode) = y) {w₂ : World} (h₂ : BInv E ∅ w₂)
    (hg : Grew (w.allocFil y) w₂) :
    let w' := w₂.setFil w.nfil { w₂.fil w.nfil with dir := dir }
    Made E L M H w w.nfil w' ∧ Copy E M H w' r w.nfil := by
  intro w'
  have hlog : w'.log = w.log := show w₂.log = w.log from outer_log (w := w.allocFil y) hg.outer
  have hrand : w'.rand = w.rand := show w₂.rand = w.rand from outer_rand (w := w.allocFil y) hg.outer
  have hnfil : w'.nfil = w.nfil + 1 :=
    show w₂.nfil = w.nfil + 1 from outer_nfil (w := w.allocFil y) hg.outer
  have htops : w'.tops = w.tops :=
    congrArg (fun x => (x.2.2.2.2.2.2.2.1, x.2.2.2.2.2.2.2.2.1, x.2.2.2.2.2.2.2.2.2.1,
      x.2.2.2.2.2.2.2.2.2.2.1)) hg.outer
  have hself : w'.fil w.nfil = { x with cls := .dir, dir := dir } := by
    rw [setFil_self, hg.fil, allocFil_self, ← hy]
  have hold : ∀ g, g < w.nfil → w'.fil g = w.fil g := by
    intro g hgl
    rw [setFil_of_ne _ _ (Nat.ne_of_lt hgl), hg.fil, allocFil_of_lt w y hgl]
  have hb : BInv E ∅ w' := h₂.sameShape (.setFil w₂ rfl rfl) (fun _ => .inl rfl) (fun _ _ _ => rfl)
  have h₁ : BInv E ∅ (w.allocFil y) := h.nodes.blk.allocFil (by rw [← hy]; exact hobjs)
    (by rw [← hy]; exact fun s => h.nodes.blk.disk.decodeFile_refs hs hx s)
  -- The bytes of the other files are read no differently, and those of the new one are stored.
  have hbytes : ∀ g, g < w.nfil + 1 → ∀ a, fileBytes E w' g a = fileBytes E (w.allocFil y) g a := by
    intro g hgl a
    rw [fileBytes_setFil (x := { w₂.fil w.nfil with dir := dir }) w₂ w.nfil rfl rfl rfl]
    exact hg.fileBytes h₁ hgl a
  have hok : NodeOk E L w' w.nfil := by
    have hst : StoreOk E L w'.log := by rw [hlog]; exact h.nodes.store
    refine nodeOk_stored hst hb.disk (by rw [hlog]; exact hs) (by rw [hlog]; exact hx) .dir dir hself ?_ ?_
    · exact fun _ => ⟨hmode, by rw [hlog]; exact hdir⟩
    · intro hc
      simp [Cls.isDir] at hc
  obtain ⟨ht, hsim⟩ := h.fresh hb hlog hrand htops hnfil hold hok (by rw [hself]; simp) hg.cacheFil (by
    intro g hgl
    have hbg : fileBytes E w' g = fileBytes E w g := funext fun a => by
      rw [hbytes g (by omega), fileBytes_allocFil w y hgl]
    simp only [World.out, hold g hgl, hbg])
  have hm : Made E L M H w w.nfil w' :=
    ⟨ht, hsim, Nat.le_refl _, by rw [hnfil]; exact Nat.lt_succ_self _, hg.cacheFil, hlog, hold⟩
  refine ⟨hm, hm.copy h (by rw [hlog]; exact hs) (by rw [hlog]; exact hx) .dir dir hself hmode.symm
    (by simp) (fun _ => by rw [hlog]; exact hdir) ?_⟩
  intro a
  rw [hbytes w.nfil (Nat.lt_succ_self _), fileBytes_allocFil_self (E := E) w (by rw [← hy]; exact hobjs),
    hlog, ← hy]
  rfl

/-- `DirNode(i_ctxt, i_fn)` of a stored directory. -/
theorem wp_upgradeDir (h : TInv E L M H w) (hs : Stored w.log r .inode) {x : FileNode}
    (hx : decodeFile E w.log r = some x) (hmode : sIsdir x.inode.mode = true) :
    wp (upgradeDir E x)
      (fun d w' => Made E L M H w d w' ∧ Copy E M H w' r d ∧ (w'.fil d).cls.isDir = true)
      (fun ex w' => Crashed E L ex w') w := by
  have hd := h.nodes.blk.disk
  obtain ⟨dir, hdir, hok⟩ := h.nodes.store.dir r x hs hx hmode
  have hsize := hok.size
  have hobjs : ∀ s, x.objs s = none := by
    obtain ⟨b, i, rfl⟩ := decodeFile_fields hx
    exact fun _ => rfl
  have hparse : E.parseDir ((List.range x.inode.size).map (nodeBytes E w.log x)) = some dir := by
    rw [storedDir, hx, Option.bind_some, if_pos hmode] at hdir
    exact hdir
  generalize hy : ({ x with cls := .dir } : FileNode) = y
  have hbytes₁ := fileBytes_allocFil_self (E := E) (x := y) w (by rw [← hy]; exact hobjs)
  have h₁ : BInv E ∅ (w.allocFil y) := h.nodes.blk.allocFil (by rw [← hy]; exact hobjs)
    (by rw [← hy]; exact fun s => hd.decodeFile_refs hs hx s)
  have hself₁ := allocFil_self w y
  have hlt : w.nfil < (w.allocFil y).nfil := Nat.lt_succ_self _
  have hread := wp_fileRead h₁ hlt (fun _ => 0) x.inode.size 0
  have hyi : y.inode = x.inode := by rw [← hy]
  have halloc : allocFil y w = .ok w.nfil (w.allocFil y) := rfl
  rw [upgradeDir, hy, wp_bind, wp, halloc]
  simp only [deserialize, wp_bind, wp_get, hself₁, hyi]
  refine wp_mono hread ?_ ?_
  · rintro ⟨rv, buf⟩ w₂ ⟨h₂, hg, hrv, hbuf⟩
    have hmin : min (min (0 + x.inode.size) maxSize) x.inode.size = x.inode.size := by omega
    rw [hself₁, hyi, hmin] at hrv hbuf
    have hneg : ¬ rv < 0 := by
      have : rv = ((x.inode.size - 0 : ℕ) : ℤ) := hrv
      omega
    have hmap : (List.range x.inode.size).map buf = (List.range x.inode.size).map (nodeBytes E w.log x) := by
      refine List.map_congr_left fun j hj => ?_
      have hb : buf j = _ := hbuf j
      have hj' : 0 + j < x.inode.size := by
        rw [Nat.zero_add]
        exact List.mem_range.1 hj
      rw [hb, if_pos hj', hbytes₁, Nat.zero_add, ← hy]
      rfl
    simp only [if_neg hneg, hmap, hparse, modifyDir, wp_modify, wp_pure]
    have hm := h.madeDir hs hx hmode hdir hobjs hy h₂ hg
    exact ⟨hm.1, hm.2, by rw [setFil_self, hg.fil, hself₁, ← hy]; rfl⟩
  · rintro ex w₂ ⟨h₂, hg, ⟨rfl, -⟩ | ⟨-, hlt⟩⟩
    · exact ⟨rfl, by rw [outer_log hg.outer]; exact h.nodes.store, h₂.disk⟩
    · omega

/-- A file node is made from its stored block. -/
theorem TInv.madeFile (h : TInv E L M H w) (hs : Stored w.log r .inode) {x : FileNode}
    (hx : decodeFile E w.log r = some x) (cls : Cls) (hc : cls.isDir = false) :
    Made E L M H w w.nfil (w.allocFil { x with cls := cls }) := by
  have hd := h.nodes.blk.disk
  obtain ⟨b, i, hxi⟩ := decodeFile_fields hx
  refine h.allocFil (by rw [hxi]; exact fun _ => rfl) (fun s => hd.decodeFile_refs hs hx s) ?_ fun hcls => ?_
  swap
  · obtain rfl : cls = .specialDir := hcls
    simp [Cls.isDir] at hc
  refine nodeOk_stored h.nodes.store hd hs hx cls [] ?_ ?_ fun _ => rfl
  · rw [allocFil_self, hxi]
    rfl
  · intro hc'
    rw [hc] at hc'
    simp at hc'

/-- It is a copy unless the stored node is a directory. -/
theorem Made.copyFile (hm : Made E L M H w f w') (h : TInv E L M H w) (hs : Stored w'.log r .inode)
    {x : FileNode} (hx : decodeFile E w'.log r = some x) (hmode : sIsdir x.inode.mode = false) (cls : Cls)
    (hc : cls.isDir = false) (hplain : cls ≠ .specialFile) (hf : w'.fil f = { x with cls := cls }) :
    Copy E M H w' r f := by
  obtain ⟨b, i, hxi⟩ := decodeFile_fields hx
  refine hm.copy h hs hx cls [] (by rw [hf, hxi]; rfl) (hc.trans hmode.symm) hplain ?_ fun a => ?_
  · intro hc'
    rw [hc] at hc'
    simp at hc'
  · rw [fileBytes_eq_nodeBytes (by rw [hf, hxi]; exact fun _ => rfl), hf]
    rfl

/-- **A stored node is loaded.** -/
theorem wp_loadNode (h : TInv E L M H w) (hs : Stored w.log r .inode) :
    wp (loadNode E r) (fun f w' => Made E L M H w f w' ∧ Copy E M H w' r f)
      (fun ex w' => Crashed E L ex w') w := by
  obtain ⟨x, hx⟩ := h.nodes.store.inode r hs
  have hx' : ({ x with cls := .file } : FileNode) = x := by
    obtain ⟨b, i, rfl⟩ := decodeFile_fields hx
    rfl
  have hmade := h.madeFile hs hx .file rfl
  rw [hx'] at hmade
  have hself := allocFil_self w x
  rw [loadNode, wp_bind, wp, loadFileNode_run h.nodes.blk.disk hs hx]
  simp only [wp_bind, wp_get, hself]
  cases hm : sIsdir x.inode.mode with
  | true =>
      rw [if_pos rfl]
      refine wp_mono (wp_upgradeDir hmade.inv hs hx hm) ?_ fun _ _ hF => hF
      rintro f w₂ ⟨hm₂, hc, -⟩
      exact ⟨hmade.trans hm₂, hc⟩
  | false =>
      rw [if_neg (by simp)]
      split
      case isTrue =>
        have hmade₂ := hmade.inv.madeFile hs hx .symlink rfl
        exact ⟨hmade.trans hmade₂, hmade₂.copyFile hmade.inv hs hx hm .symlink rfl (by simp) (allocFil_self _ _)⟩
      case isFalse =>
        exact ⟨hmade, hmade.copyFile h hs hx hm .file rfl (by simp) (hself.trans hx'.symm)⟩

/-! ### `DirNode::lookup` -/

/-- A key is on one edge only. -/
theorem TInv.edge_unique (h : TInv E L M H w) {x y : Loc} {a b : Str} {k : Loc}
    (hx : (w.graph E M H).Live x) (hkx : w.edgeKey E M x a k) (hy : (w.graph E M H).Live y)
    (hky : w.edgeKey E M y b k) : y = x ∧ b = a := by
  obtain ⟨i, p, hp⟩ := hx
  obtain ⟨j, q, hq⟩ := hy
  obtain ⟨rfl, rfl, rfl⟩ := h.unshared.edge i p x a hp j q y b hq k hkx hky
  rw [hp] at hq
  exact ⟨(Option.some.inj hq).symm, rfl⟩

theorem Sim.live_mem (hs : Sim E M H w w') (hf : (w.graph E M H).Live (.mem f)) :
    (w'.graph E M H).Live (.mem f) := hs.live_norm hf

/-- The names of a directory in memory, after steps that keep the tree. -/
theorem Sim.kid (hs : Sim E M H w w') {d : ℕ} (hd : (w.graph E M H).Live (.mem d)) {e : Str}
    (hm : M ≠ some (.mem d, e)) : w'.kid E (.mem d) e = (w.kid E (.mem d) e).map w'.norm := by
  obtain ⟨i, p, hp⟩ := hd
  have h₁ := LGraph.find_snoc_of (hs.find_mem hp) e
  rw [hs.find, LGraph.find_snoc_of hp] at h₁
  change (w.step E M (.mem d) e).map w'.norm = w'.step E M (.mem d) e at h₁
  rw [step_of_ne hm, step_of_ne hm] at h₁
  exact h₁.symm

/-- **The node of a name is in memory.** -/
theorem wp_lookup_mem (h : TInv E L M H w) {d : ℕ} {e : Str} (hk : w.kid E (.mem d) e = some (.mem f))
    (hl : ∀ r, (w.fil d).dir.lookup e = some r → w.cache.nodemap r = some (.fil f) → LposOk w f) (ro : Bool) :
    wp (lookup E d e ro)
      (fun o w' => o = some f ∧ TInv E L M H w' ∧ Calm E M H w w' ∧ w'.kid E (.mem d) e = some (.mem f) ∧
        w'.fil = w.fil ∧ w'.cache.nodemap = w.cache.nodemap)
      (fun _ _ => False) w := by
  have hdir := isDir_of_kid hk
  have hk' := hk
  rw [kid_mem hdir] at hk
  simp only [lookup, wp_bind, wp_get]
  cases hdy : (w.fil d).dirty.lookup e with
  | some g =>
      rw [hdy] at hk
      obtain rfl : g = f := by simpa using hk
      exact ⟨rfl, h, .refl h, hk', rfl, rfl⟩
  | none =>
      rw [hdy] at hk
      obtain ⟨r, hr, hloc⟩ := Option.map_eq_some_iff.1 hk
      have hmap := locAt_eq_mem.1 hloc
      simp only [hr, wp_bind]
      refine wp_cacheLookup ?_ ?_ ?_
      · intro o ho
        rw [hmap] at ho
        obtain rfl := Option.some.inj ho
        exact hl r hr hmap
      · intro hnone
        rw [hmap] at hnone
        simp at hnone
      · intro o ho
        rw [hmap] at ho
        obtain rfl := Option.some.inj ho
        obtain ⟨ht, hs⟩ := h.touched hmap
        refine ⟨rfl, ht, hs, ?_, rfl, rfl⟩
        have hkid := kid_setCache (E := E) (c := w.cache.touched (.fil f)) (fun _ _ hg => hg) (.mem d) e
        rw [hk'] at hkid
        exact hkid

/-- No node has the name. -/
theorem wp_lookup_none {d : ℕ} {e : Str} (hdir : (w.fil d).cls.isDir = true) (hk : w.kid E (.mem d) e = none)
    (ro : Bool) : wp (lookup E d e ro) (fun o w' => o = none ∧ w' = w) (fun _ _ => False) w := by
  rw [kid_mem hdir] at hk
  simp only [lookup, wp_bind, wp_get]
  cases hdy : (w.fil d).dirty.lookup e with
  | some f => simp [hdy] at hk
  | none =>
      simp only [hdy, Option.map_eq_none_iff] at hk
      rw [hk]
      exact ⟨rfl, rfl⟩

/-- The node in the clean cache under the reference of an entry. -/
theorem TInv.placed_of_entry (h : TInv E L M H w) {d : ℕ} (hd : (w.graph E M H).Live (.mem d))
    (hdir : (w.fil d).cls.isDir = true) {e : Str} (hm : M ≠ some (.mem d, e)) {y : Loc}
    (hk : w.kid E (.mem d) e = some y) (hr : (w.fil d).dir.lookup e = some r)
    (hmap : w.cache.nodemap r = some (.fil f)) : y = .mem f ∧ LposOk w f := by
  have hown := h.own _ hd e y ((step_of_ne hm).trans hk)
  rw [entryRef_mem hdir, hr, Option.getD_some] at hown
  refine hown r f (.entry ?_) hmap
  rintro rfl
  obtain ⟨b, hb⟩ := h.nodes.blk.keyFil _ _ hmap
  rw [h.nodes.blk.disk.nilFree] at hb
  simp at hb

/-- How a name may fail to be found: the program crashes, or the node cannot be loaded because its reference
is nil or because nothing may be loaded. -/
def LookupFails (E : Env) (L : Laws) (w : World) (ex : Exn) (w' : World) : Prop :=
  Crashed E L ex w' ∨ (w' = w ∧ ∀ en, ex ≠ .errno en)

/-- A stored node that the clean cache does not lead on from is not a key of it. -/
theorem NInv.uncached (h : NInv E L w) (hr : w.locAt r = .ref r) (hs : r ≠ .nil → Stored w.log r .inode) :
    w.cache.nodemap r = none := by
  cases ho : w.cache.nodemap r with
  | none => rfl
  | some o =>
      cases o with
      | fil f =>
          rw [locAt_eq_mem.2 ho] at hr
          simp at hr
      | blk n =>
          have hk := (h.blk.key r n ho).stored
          have hne : r ≠ .nil := by
            rintro rfl
            obtain ⟨b, hb⟩ := hk
            rw [h.blk.disk.nilFree] at hb
            simp at hb
          have := hk.kind_eq (hs hne)
          simp at this

/-- There is nothing to load under the nil reference. -/
theorem loadNode_nil_run (hnil : getBlock .nil w.log = none) :
    loadNode E .nil w = .error (.notFoundError "not found") w := by
  simp [loadNode, loadFileNode, readFileNode, readBlock, bsBlockGet, bind_apply, get_apply, throw_apply,
    hnil]

/-- **The node of a name is only stored.** -/
theorem wp_lookup_ref (h : TInv E L M H w) {d : ℕ} (hd : (w.graph E M H).Live (.mem d))
    (hdir : (w.fil d).cls.isDir = true) {e : Str} (hm : M ≠ some (.mem d, e))
    (hk : w.kid E (.mem d) e = some (.ref r)) (ro : Bool) :
    wp (lookup E d e ro)
      (fun o w' => TInv E L M H w' ∧ Calm E M H w w' ∧ w'.kid E (.mem d) e = o.map .mem ∧
        ∀ g, g < w.nfil → w'.fil g = w.fil g)
      (LookupFails E L w) w := by
  have hstep : w.step E M (.mem d) e = some (.ref r) := (step_of_ne hm).trans hk
  have hlt := (h.live_valid hd).lt
  have hent := entryRef_of_ref hk
  have hst : r ≠ .nil → Stored w.log r .inode := by
    intro hr
    rw [← hent] at hr ⊢
    exact h.nodes.entryRef_stored (h.live_valid hd) hr
  have hk' := hk
  rw [kid_mem hdir] at hk'
  have hdy : (w.fil d).dirty.lookup e = none := by
    cases hdy : (w.fil d).dirty.lookup e with
    | none => rfl
    | some f => simp [hdy] at hk'
  simp only [hdy] at hk'
  obtain ⟨r', hr, hloc⟩ := Option.map_eq_some_iff.1 hk'
  obtain rfl := locAt_eq_ref hloc
  have hnone := h.nodes.uncached hloc hst
  simp only [lookup, wp_bind, wp_get, hdy, hr]
  refine wp_cacheLookup (by simp [hnone]) ?_ (by simp [hnone])
  intro _
  cases ro with
  | true => exact .inr ⟨rfl, by simp⟩
  | false =>
      by_cases hnil : r' = .nil
      · subst hnil
        have hrun := loadNode_nil_run (E := E) h.nodes.blk.disk.nilFree
        simp only [Bool.false_eq_true, if_false, wp_bind]
        rw [wp, hrun]
        exact .inr ⟨rfl, by simp⟩
      · simp only [Bool.false_eq_true, if_false, wp_bind]
        refine wp_mono (wp_loadNode h (hst hnil)) ?_ fun ex w₁ hF => .inl hF
        rintro f w₁ ⟨hm₁, hc⟩
        have h₁ := hm₁.inv
        have hd₁ : (w₁.graph E M H).Live (.mem d) := hm₁.sim.live_mem hd
        have hloc₁ : w₁.locAt r' = .ref r' := by rw [locAt_congr hm₁.cache.nodemap]; exact hloc
        have hnone₁ := h₁.nodes.uncached hloc₁ fun _ => hc.stored
        have hk₁ : w₁.kid E (.mem d) e = some (.ref r') := by
          rw [hm₁.sim.kid hd hm, hk, Option.map_some]
          exact congrArg some hloc₁
        have hkey₁ : w₁.edgeKey E M (.mem d) e (.ref r') :=
          ⟨_, (step_of_ne hm).trans hk₁, by rw [entryRef_of_ref hk₁]; exact .entry hnil⟩
        obtain ⟨ht, hs⟩ := h₁.loaded hc hnone₁ (fun x hx a hk => by
          obtain ⟨rfl, rfl⟩ := h₁.edge_unique hd₁ hkey₁ hx hk
          exact (step_of_ne hm).trans hk₁) (fun x r hH hk => by
          obtain ⟨j, q, hq⟩ := hd₁
          exact h₁.unshared.rootEdge .hand _ ⟨x, r, hH, hk⟩ j q _ e hq hkey₁)
        have href : w₁.refOf (.fil f) = r' := hc.ref
        have hfree : ∀ o, w₁.cache.nodemap (w₁.refOf (.fil f)) ≠ some o := by simp [href, hnone₁]
        rw [wp_bind]
        refine wp_cacheInsert (fun o ho => absurd ho (hfree o)) (fun _ => ?_) (fun o ho => absurd ho (hfree o))
        rw [href]
        refine ⟨ht, hm₁.sim.trans hs, ?_, hm₁.old⟩
        rw [hs.kid hd₁ hm, hk₁]
        exact congrArg some (locAt_eq_mem.2 (Function.update_self ..))

/-- **`DirNode::lookup`** of a name in a directory of the tree. -/
theorem wp_lookup (h : TInv E L M H w) {d : ℕ} (hd : (w.graph E M H).Live (.mem d))
    (hdir : (w.fil d).cls.isDir = true) {e : Str} (hm : M ≠ some (.mem d, e)) (ro : Bool) :
    wp (lookup E d e ro)
      (fun o w' => TInv E L M H w' ∧ Calm E M H w w' ∧ w'.kid E (.mem d) e = o.map .mem ∧
        ∀ g, g < w.nfil → w'.fil g = w.fil g)
      (LookupFails E L w) w := by
  cases hk : w.kid E (.mem d) e with
  | none =>
      refine wp_mono (wp_lookup_none hdir hk ro) ?_ fun _ _ hF => hF.elim
      rintro o w' ⟨rfl, rfl⟩
      exact ⟨h, .refl h, hk, fun _ _ => rfl⟩
  | some y =>
      cases y with
      | mem f =>
          refine wp_mono (wp_lookup_mem h hk (fun r hr hmap => (h.placed_of_entry hd hdir hm hk hr hmap).2) ro) ?_
            fun _ _ hF => hF.elim
          rintro o w' ⟨rfl, ht, hs, hk', hfil, -⟩
          exact ⟨ht, hs, hk', fun g _ => by rw [hfil]⟩
      | ref r => exact wp_lookup_ref h hd hdir hm hk ro

end load

end UTFS

end Utopfs
