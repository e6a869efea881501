/-
**Moving a part of the tree.**

A directory changes its entries in a few ways: a name that is not in use gets an entry, and an entry goes
away.  The tree changes in small steps.  The new entry is masked first; the node that it leads to is taken in
hand, where it is new or was below an entry that goes away; and it is attached when the entry is unmasked.

Main definitions:

* `UTFS.OnlyName` — a directory has changed under one name.

Main results:

* `UTFS.TInv.entered` — a masked entry;
* `UTFS.TInv.taken`, `UTFS.TInv.detached` — a new node, and that of an entry, is taken in hand;
* `UTFS.TInv.attached` — **the masked entry gets the node in hand**;
* `UTFS.TInv.dropped` — the node in hand is let go;
* `UTFS.TInv.forgotten` — a reference leaves the clean cache.
-/

import Utopfs.DirFlush

set_option relaxedAutoImplicit false
set_option autoImplicit false

namespace Utopfs

namespace UTFS

variable {E : Env} {w w' : World} {M : Option (Loc × Str)} {H : Hand} {L : Laws} {d f : ℕ} {e : Str}
  {i : Rt} {p : List Str} {X : Set ℕ} {y : Loc} {r : BlockRef}

/-! ### One name -/

/-- The directory `d` has changed under the name `e` only. -/
structure OnlyName (E : Env) (d : ℕ) (e : Str) (w w' : World) : Prop where
  only : OnlyFil d w w'
  ref : (w'.fil d).ref = (w.fil d).ref
  dirty : ∀ n, n ≠ e → (w'.dirtyOf (.mem d)).lookup n = (w.dirtyOf (.mem d)).lookup n
  dir : ∀ n, n ≠ e → (w'.dirOf E (.mem d)).lookup n = (w.dirOf E (.mem d)).lookup n

section name

variable (ho : OnlyName E d e w w') {x : Loc} {n : Str}

include ho

/-- The other edges are as they were. -/
theorem OnlyName.kid (hn : x = .mem d → n ≠ e) : w'.kid E x n = w.kid E x n := by
  by_cases hx : x = .mem d
  · subst hx
    rw [World.kid, World.kid, ho.dirty n (hn rfl), ho.dir n (hn rfl), ho.only.locAt]
  · exact ho.only.kid hx n

theorem OnlyName.step (hn : x = .mem d → n ≠ e) : w'.step E M x n = w.step E M x n := by
  rw [World.step, World.step, ho.kid hn]

theorem OnlyName.entryRef (hn : x = .mem d → n ≠ e) : w'.entryRef E x n = w.entryRef E x n := by
  by_cases hx : x = .mem d
  · subst hx
    rw [World.entryRef, World.entryRef, ho.dir n (hn rfl)]
  · exact ho.only.entryRef hx n

theorem OnlyName.keyOf {k : Loc} (hk : w'.KeyOf y r k) : w.KeyOf y r k := ho.only.keyOf ho.ref hk

theorem OnlyName.edgeKey (hn : x = .mem d → n ≠ e) {k : Loc} (hk : w'.edgeKey E M x n k) :
    w.edgeKey E M x n k := by
  obtain ⟨z, hz, hk⟩ := hk
  rw [ho.step hn] at hz
  rw [ho.entryRef hn] at hk
  exact ⟨z, hz, ho.keyOf hk⟩

theorem OnlyName.ownOk (h : OwnOk w y r) : OwnOk w' y r := by
  intro r' g hk hr
  rw [ho.only.cache] at hr
  obtain ⟨hy, hl⟩ := h r' g (ho.keyOf hk) hr
  exact ⟨hy, by rw [LposOk, ho.only.cache]; exact hl⟩

/-- What a flush finds at the other edges. -/
theorem OnlyName.regAt (hn : x = .mem d → n ≠ e) {g : ℕ} (hg : g ≠ d) (h : RegAt E w x n g) :
    RegAt E w' x n g := by
  have hdirty : (w'.dirtyOf x).lookup n = (w.dirtyOf x).lookup n := by
    by_cases hx : x = .mem d
    · subst hx
      exact ho.dirty n (hn rfl)
    · rw [(ho.only.entries (E := E) hx).2]
  rw [RegAt, hdirty, ho.entryRef hn, ho.only.other g hg]
  exact h

end name

/-! ### Masking an entry -/

section mask

theorem step_masked {x : Loc} (hk : w.kid E x e = none) : w.step E (some (x, e)) = w.step E none := by
  funext z n
  rw [step_none, World.step]
  split
  case isTrue h =>
    obtain ⟨rfl, rfl⟩ := Prod.mk.inj (Option.some.inj h)
    exact hk.symm
  case isFalse => rfl

/-- The masked edge leads nowhere. -/
theorem ne_of_step_masked {x : Loc} {n : Str} {z : Loc} (hz : w.step E (some (.mem d, e)) x n = some z) :
    x = .mem d → n ≠ e := by
  rintro rfl rfl
  simp [World.step] at hz

/-- A name that is not in use can be masked. -/
theorem TInv.masked (h : TInv E L none none w) (hd : d < w.nfil) (hk : w.kid E (.mem d) e = none) :
    TInv E L (some (.mem d, e)) none w ∧
      w.graph E (some (.mem d, e)) none = w.graph E none none := by
  have hgraph : w.graph E (some (.mem d, e)) none = w.graph E none none := by
    simp only [World.graph, step_masked hk]
  have hkey : w.edgeKey E (some (.mem d, e)) = w.edgeKey E none := by
    funext x n k
    simp only [World.edgeKey, step_masked hk]
  refine ⟨⟨h.nodes, by rw [hgraph, hkey]; exact h.unshared, fun x hx n z hz => ?_, fun x r hH => by simp at hH,
    fun x n hM => ?_, h.plain⟩, hgraph⟩
  · rw [hgraph] at hx
    rw [step_masked hk] at hz
    exact h.own x hx n z hz
  · obtain ⟨rfl, rfl⟩ := Prod.mk.inj (Option.some.inj hM)
    exact ⟨d, rfl, hd⟩

/-- **A directory gets a masked entry**, of a name that was not in use. -/
theorem TInv.entered (h : TInv E L none none w) (hd : d < w.nfil) (hk : w.kid E (.mem d) e = none)
    (ho : OnlyName E d e w w') (hok : NodeOk E L w' d) :
    TInv E L (some (.mem d, e)) none w' ∧
      (∀ i p, (w'.graph E (some (.mem d, e)) none).find i p = (w.graph E none none).find i p) ∧
      (Reg E none none X w → Reg E (some (.mem d, e)) none (insert d X) w') := by
  obtain ⟨hM, hgraph⟩ := h.masked hd hk
  have hs : SameTree E (some (.mem d, e)) none (fun _ _ => False) w w' := by
    refine ho.only.sameTree ho.ref (fun n => ?_) fun n z hz k hk => ?_
    · by_cases hn : n = e
      · simp [World.step, hn]
      · exact ho.step fun _ => hn
    · rwa [ho.entryRef (ne_of_step_masked hz)] at hk
  refine ⟨hM.kept (ho.only.ninv hM.nodes hok) hs, fun i p => by rw [hs.find, hgraph], fun hX x hx n g hstep => ?_⟩
  have hne := ne_of_step_masked hstep
  rw [hs.live, hgraph] at hx
  rw [ho.step hne, step_masked hk] at hstep
  by_cases hgd : g = d
  · exact .inl (.inl hgd)
  · exact (hX x hx n g hstep).imp .inr (ho.regAt hne hgd)

end mask

/-! ### Taking a node in hand -/

section hand

theorem rootKey_of_ne {H' : Hand} (hi : i ≠ .hand) {k : Loc} (hk : w.rootKey H i k) : w.rootKey H' i k := by
  cases i with
  | top => exact hk
  | special => exact hk
  | hand => exact absurd rfl hi

theorem root_of_ne {H' : Hand} (hi : i ≠ .hand) : w.root H i = w.root H' i := by
  cases i with
  | top => rfl
  | special => rfl
  | hand => exact absurd rfl hi

/-- **A new node is taken in hand**, from which no name leads on. -/
theorem TInv.taken (h : TInv E L M none w) (hf : Held w f) (hdead : ¬ (w.graph E M none).Live (.mem f))
    (href : (w.fil f).ref = .nil) (hleaf : ∀ e, w.kid E (.mem f) e = none) :
    TInv E L M (some (.mem f, .nil)) w ∧
      LGraph.TakenAt (w.graph E M none) (w.graph E M (some (.mem f, .nil))) .hand (.mem f) ∧
      (Reg E M none X w → Reg E M (some (.mem f, .nil)) X w) := by
  have hstep : ∀ a, w.step E M (.mem f) a = none := by
    intro a
    cases hs : w.step E M (.mem f) a with
    | none => rfl
    | some z =>
        have hk := kid_of_step hs
        rw [hleaf a] at hk
        simp at hk
  have ht : LGraph.TakenAt (w.graph E M none) (w.graph E M (some (.mem f, .nil))) .hand (.mem f) :=
    ⟨rfl, rfl, fun i hi => root_of_ne hi, hstep, fun _ _ _ => rfl⟩
  have hkeys : ∀ k, w.KeyOf (.mem f) .nil k → k = .mem f := by
    intro k hk
    cases hk with
    | node hg => exact hg.symm
    | own hg hr =>
        obtain rfl := Loc.mem.inj hg
        exact absurd href hr
    | entry hr => exact absurd rfl hr
  have hroot : ∀ i, ¬ w.rootKey none i (.mem f) := by
    intro i hk
    cases i with
    | top =>
        obtain ⟨d, hd, hf⟩ := hk
        exact hdead (.of_root (i := .top) (by rw [hf]; exact congrArg (Option.map Loc.mem) hd))
    | special =>
        obtain ⟨d, hd, hf⟩ := hk
        exact hdead (.of_root (i := .special) (by rw [hf]; exact congrArg (Option.map Loc.mem) hd))
    | hand =>
        obtain ⟨z, r, hH, -⟩ := hk
        simp at hH
  refine ⟨⟨h.nodes, h.unshared.take ht (fun i k hi hk => rootKey_of_ne hi hk) ?_ (fun x _ a k hk => hk) ?_, ?_, ?_,
    h.mask, h.plain⟩, ht, ?_⟩
  · rintro k ⟨z, r, hH, hk⟩
    obtain ⟨rfl, rfl⟩ := Prod.mk.inj (Option.some.inj hH)
    obtain rfl := hkeys k hk
    refine ⟨hroot, fun x hx a hk => ?_⟩
    obtain ⟨z, hz, hk⟩ := hk
    cases hk with
    | node hg => exact hdead (hx.step (a := a) (by rw [← hg]; exact hz))
  · rintro a k ⟨z, hz, -⟩
    rw [hstep a] at hz
    simp at hz
  · intro x hx a z hz
    rcases ht.live hx with hx | rfl
    · exact h.own x hx a z hz
    · rw [hstep a] at hz
      simp at hz
  · intro z r hH
    obtain ⟨rfl, rfl⟩ := Prod.mk.inj (Option.some.inj hH)
    refine ⟨hf, .inl ⟨f, rfl⟩, fun hr => absurd rfl hr, fun r' g hk => ?_⟩
    have := hkeys _ hk
    simp at this
  · intro hX x hx a g hz
    rcases ht.live hx with hx | rfl
    · exact hX x hx a g hz
    · rw [hstep a] at hz
      simp at hz

/-- **The node of an entry that goes away is taken in hand.** -/
theorem TInv.detached (h : TInv E L M none w) (hd : (w.graph E M none).find i p = some (.mem d))
    (hs : w.step E M (.mem d) e = some (.mem f)) (ho : OnlyName E d e w w') (hok : NodeOk E L w' d)
    (hk : w'.kid E (.mem d) e = none) (hr : w.entryRef E (.mem d) e = r) :
    TInv E L M (some (.mem f, r)) w' ∧
      LGraph.DetachedAt (w.graph E M none) (w'.graph E M (some (.mem f, r))) .hand (.mem d) e ∧
      (Reg E M none X w → Reg E M (some (.mem f, r)) (insert d X) w') := by
  have htops := ho.only.tops
  have hl := ho.only.later
  have hcut : w'.step E M (.mem d) e = none := by
    rw [World.step, hk, ite_self]
  have hdet : LGraph.DetachedAt (w.graph E M none) (w'.graph E M (some (.mem f, r))) .hand (.mem d) e := by
    refine ⟨rfl, hs.symm, fun i hi => ?_, hcut, fun x _ a hn => ho.step hn⟩
    cases i with
    | top => exact congrArg (fun x => x.1.map Loc.mem) htops
    | special => exact congrArg (fun x => x.2.1.map Loc.mem) htops
    | hand => exact absurd rfl hi
  have hlive : ∀ {x}, (w'.graph E M (some (.mem f, r))).Live x → (w.graph E M none).Live x := by
    rintro x ⟨j, q, hx⟩
    rcases hdet.find_of_find hd hx with ⟨-, hx⟩ | ⟨-, hx⟩
    · exact ⟨j, q, hx⟩
    · exact ⟨i, _, hx⟩
  have hne : ∀ {x n z}, w'.step E M x n = some z → x = .mem d → n ≠ e := by
    rintro x n z hz rfl rfl
    rw [hcut] at hz
    simp at hz
  refine ⟨⟨ho.only.ninv h.nodes hok, h.unshared.detach hdet hd ?_ ?_ (fun x _ a hn k hk => ho.edgeKey hn hk) ?_,
    ?_, ?_, ?_, ?_⟩, hdet, ?_⟩
  · intro i k hi hk
    cases i with
    | top =>
        obtain ⟨d', hd', hk⟩ := hk
        exact ⟨d', (congrArg (fun x => x.1) htops).symm.trans hd', hk⟩
    | special =>
        obtain ⟨d', hd', hk⟩ := hk
        exact ⟨d', (congrArg (fun x => x.2.1) htops).symm.trans hd', hk⟩
    | hand => exact absurd rfl hi
  · rintro k ⟨z, r', hH, hk⟩
    obtain ⟨rfl, rfl⟩ := Prod.mk.inj (Option.some.inj hH)
    exact ⟨_, hs, by rw [hr]; exact ho.keyOf hk⟩
  · rintro k ⟨z, hz, -⟩
    exact hne hz rfl rfl
  · intro x hx a z hz
    have hn := hne hz
    rw [ho.step hn] at hz
    rw [ho.entryRef hn]
    exact ho.ownOk (h.own x (hlive hx) a z hz)
  · intro z r' hH
    obtain ⟨rfl, rfl⟩ := Prod.mk.inj (Option.some.inj hH)
    have hx : (w.graph E M none).Live (.mem d) := ⟨i, p, hd⟩
    have hheld : Held w f := h.live_valid (hx.step hs)
    refine ⟨hheld.later hl, .inl ⟨f, rfl⟩, fun hne => ?_, ho.ownOk ?_⟩
    · rw [← hr] at hne ⊢
      exact hl.logLe.stored (h.nodes.entryRef_stored (h.live_valid hx) hne)
    · rw [← hr]
      exact h.own _ hx e _ hs
  · intro x n hM
    rw [ho.only.nfil]
    exact h.mask x n hM
  · intro g hg hc
    have hlt : g < w.nfil := ho.only.nfil ▸ hg
    rw [hl.cls g hlt] at hc
    exact (congrArg (fun x => x.2.1) htops).trans (h.plain g hlt hc)
  · intro hX x hx n g hz
    have hn := hne hz
    rw [ho.step hn] at hz
    by_cases hgd : g = d
    · exact .inl (.inl hgd)
    · exact (hX x (hlive hx) n g hz).imp .inr (ho.regAt hn hgd)

/-- **The masked entry gets the node in hand.** -/
theorem TInv.attached (h : TInv E L (some (.mem d, e)) (some (y, r)) w)
    (hd : (w.graph E (some (.mem d, e)) (some (y, r))).find i p = some (.mem d))
    (hk : w.kid E (.mem d) e = some y) (hr : w.entryRef E (.mem d) e = r) :
    TInv E L none none w ∧
      LGraph.AttachedAt (w.graph E (some (.mem d, e)) (some (y, r))) (w.graph E none none) .hand (.mem d) e ∧
      (Reg E (some (.mem d, e)) (some (y, r)) X w → (∀ g, y = .mem g → g ∈ X ∨ RegAt E w (.mem d) e g) →
        Reg E none none X w) := by
  have huniq : ∀ j q, (w.graph E (some (.mem d, e)) (some (y, r))).find j q = some (.mem d) → j = i ∧ q = p :=
    fun j q hq => h.find_mem_inj hq hd
  have hmask : ∀ {x : Loc} {n : Str}, (x = .mem d → n ≠ e) → w.step E none x n = w.step E (some (.mem d, e)) x n := by
    intro x n hn
    rw [step_none, step_of_ne]
    intro hM
    obtain ⟨rfl, rfl⟩ := Prod.mk.inj (Option.some.inj hM)
    exact hn rfl rfl
  have hself : w.step E none (.mem d) e = some y := (step_none _ e).trans hk
  have ha : LGraph.AttachedAt (w.graph E (some (.mem d, e)) (some (y, r))) (w.graph E none none) .hand (.mem d) e :=
    ⟨rfl, if_pos rfl, hself, fun j hj => root_of_ne hj, fun x _ n hn => hmask hn⟩
  have hlive : ∀ {x}, (w.graph E none none).Live x → (w.graph E (some (.mem d, e)) (some (y, r))).Live x := by
    rintro x ⟨j, q, hx⟩
    rcases (ha.find_of_find hd huniq hx).2 with ⟨hx, -⟩ | ⟨-, s, -, hx⟩
    · exact ⟨j, q, hx⟩
    · exact ⟨.hand, s, hx⟩
  refine ⟨⟨h.nodes, h.unshared.attach ha hd huniq (fun j k hj hk => rootKey_of_ne hj hk) ?_ ?_ ?_, ?_,
    fun z r' hH => by simp at hH, fun x n hM => by simp at hM, h.plain⟩, ha, ?_⟩
  · rintro k ⟨z, r', hH, -⟩
    simp at hH
  · rintro x - n hn k ⟨z, hz, hk⟩
    exact ⟨z, (hmask hn).symm.trans hz, hk⟩
  · rintro k ⟨z, hz, hk⟩
    rw [hself] at hz
    obtain rfl := Option.some.inj hz
    rw [hr] at hk
    exact ⟨y, r, rfl, hk⟩
  · intro x hx n z hz
    by_cases hn : x = .mem d ∧ n = e
    · obtain ⟨rfl, rfl⟩ := hn
      rw [hself] at hz
      obtain rfl := Option.some.inj hz
      rw [hr]
      exact (h.hand y r rfl).own
    · rw [hmask fun h₁ h₂ => hn ⟨h₁, h₂⟩] at hz
      exact h.own x (hlive hx) n z hz
  · intro hX hnew x hx n g hz
    by_cases hn : x = .mem d ∧ n = e
    · obtain ⟨rfl, rfl⟩ := hn
      rw [hself] at hz
      exact hnew g (Option.some.inj hz)
    · rw [hmask fun h₁ h₂ => hn ⟨h₁, h₂⟩] at hz
      exact hX x (hlive hx) n g hz

/-- **The node in hand is let go**, with all that is below it. -/
theorem TInv.dropped (h : TInv E L M H w) : TInv E L M none w ∧
    (∀ i, i ≠ .hand → ∀ p, (w.graph E M none).find i p = (w.graph E M H).find i p) ∧
    (Reg E M H X w → Reg E M none X w) := by
  have hfind : ∀ j, j ≠ .hand → ∀ q, (w.graph E M none).find j q = (w.graph E M H).find j q :=
    fun j hj q => LGraph.find_congr (show (w.graph E M none).root j = (w.graph E M H).root j from root_of_ne hj)
      (fun _ _ _ => rfl) q
  have hback : ∀ {j q x}, (w.graph E M none).find j q = some x → (w.graph E M H).find j q = some x := by
    intro j q x hx
    rw [← hfind j ?_, hx]
    rintro rfl
    have hnone : (w.graph E M none).find .hand q = none := rfl
    rw [hnone] at hx
    simp at hx
  have hlive : ∀ {x}, (w.graph E M none).Live x → (w.graph E M H).Live x :=
    fun hx => hx.imp fun j hj => hj.imp fun q hq => hback hq
  refine ⟨⟨h.nodes, h.unshared.mono ?_ (fun j q x hx => hback hx) fun _ _ _ _ hk => hk,
    fun x hx => h.own x (hlive hx), fun z r hH => by simp at hH, h.mask, h.plain⟩, hfind,
    fun hX x hx => hX x (hlive hx)⟩
  intro j k hk
  refine rootKey_of_ne ?_ hk
  rintro rfl
  obtain ⟨z, r, hH, -⟩ := hk
  simp at hH

end hand

/-! ### The clean cache -/

theorem CacheRep.placed_removed {G : Obj → Prop} {c : BlockNodeCache} (h : CacheRep G c) {o o' : Obj}
    (hne : o' ≠ o) (ho : c.Placed o') : (c.removed r o).Placed o' := by
  obtain ⟨p, hp, hmem⟩ := ho
  exact ⟨p, (Function.update_of_ne hne _ _).trans hp, h.placed_filter hne hmem⟩

/-- **A reference leaves the clean cache**, which no other edge needs there. -/
theorem TInv.forgotten (h : TInv E L M H w) (hr : w.cache.nodemap r = some (.fil f))
    (hfree : ∀ x, (w.graph E M H).Live x → ∀ a z, w.step E M x a = some z → w.entryRef E x a = r →
      (w.dirtyOf x).lookup a ≠ none)
    (hgone : ∀ x, (w.graph E M H).Live x → ∀ a r', w.edgeKey E M x a (.ref r') → r' ≠ r →
      w.cache.nodemap r' ≠ some (.fil f))
    (hhand : ∀ z r₀, H = some (z, r₀) → ∀ r', w.KeyOf z r₀ (.ref r') → r' ≠ r →
      w.cache.nodemap r' ≠ some (.fil f)) :
    TInv E L M H (w.setCache (w.cache.removed r (.fil f))) ∧
      (∀ i p, ((w.setCache (w.cache.removed r (.fil f))).graph E M H).find i p = (w.graph E M H).find i p) ∧
      (Reg E M H X w → Reg E M H X (w.setCache (w.cache.removed r (.fil f)))) := by
  have hmap : ∀ r', (w.cache.removed r (.fil f)).nodemap r' = if r' = r then none else w.cache.nodemap r' := by
    exact fun r' => Function.update_apply ..
  have hold : ∀ {r' o}, (w.cache.removed r (.fil f)).nodemap r' = some o → r' ≠ r ∧ w.cache.nodemap r' = some o := by
    intro r' o ho
    rw [hmap] at ho
    split at ho
    case isTrue => simp at ho
    case isFalse hne => exact ⟨hne, ho⟩
  have hloc : ∀ r', r' ≠ r → (w.setCache (w.cache.removed r (.fil f))).locAt r' = w.locAt r' := by
    intro r' hne
    simp only [World.locAt, World.setCache_cache, hmap, if_neg hne]
  have hstep : ∀ x, (w.graph E M H).Live x → ∀ a,
      (w.setCache (w.cache.removed r (.fil f))).step E M x a = w.step E M x a := by
    intro x hx a
    have hdir : (w.setCache (w.cache.removed r (.fil f))).dirOf E x = w.dirOf E x := by cases x <;> rfl
    have hdirty : (w.setCache (w.cache.removed r (.fil f))).dirtyOf x = w.dirtyOf x := by cases x <;> rfl
    by_cases hM : M = some (x, a)
    · simp only [World.step, if_pos hM]
    rw [step_of_ne hM, step_of_ne hM, World.kid, World.kid, hdir, hdirty]
    cases hdy : (w.dirtyOf x).lookup a with
    | some g => rfl
    | none =>
        cases hl : (w.dirOf E x).lookup a with
        | none => rfl
        | some r' =>
            have hne : r' ≠ r := by
              rintro rfl
              refine hfree x hx a (w.locAt r') ?_ (by rw [World.entryRef, hl, Option.getD_some]) hdy
              rw [step_of_ne hM, World.kid, hdy, hl]
              rfl
            exact congrArg some (hloc r' hne)
  have hfind : ∀ i p, ((w.setCache (w.cache.removed r (.fil f))).graph E M H).find i p =
      (w.graph E M H).find i p := by
    intro i p
    refine LGraph.find_congr ?_ (fun x hx a => hstep x hx a) p
    cases i <;> rfl
  have hlive : ∀ {x}, ((w.setCache (w.cache.removed r (.fil f))).graph E M H).Live x → (w.graph E M H).Live x :=
    fun hx => hx.imp fun j hj => hj.imp fun q hq => by rw [← hfind]; exact hq
  have hown : ∀ {z r₀}, OwnOk w z r₀ → (∀ r', w.KeyOf z r₀ (.ref r') → r' ≠ r →
      w.cache.nodemap r' ≠ some (.fil f)) → OwnOk (w.setCache (w.cache.removed r (.fil f))) z r₀ := by
    intro z r₀ ho hz r' g hk hg
    rw [keyOf_setCache] at hk
    obtain ⟨hne, hg'⟩ := hold hg
    obtain ⟨hzg, hl⟩ := ho r' g hk hg'
    refine ⟨hzg, h.nodes.blk.rep.placed_removed (fun heq => ?_) hl⟩
    injection heq with heq
    subst heq
    exact hz r' hk hne hg'
  have hb : BInv E ∅ (w.setCache (w.cache.removed r (.fil f))) := by
    refine h.nodes.blk.setCacheFil (h.nodes.blk.rep.removed hr ?_) fun r' o ho => .inl (hold ho).2
    rintro ⟨n, hn⟩
    simp at hn
  refine ⟨⟨h.nodes.setCache hb fun r' g hg => .inl (hold hg).2, h.unshared.mono ?_ ?_ ?_, ?_, ?_, h.mask, h.plain⟩,
    hfind, ?_⟩
  · intro j k hk
    cases j with
    | top => exact hk
    | special => exact hk
    | hand =>
        obtain ⟨z, r₀, hH, hk⟩ := hk
        exact ⟨z, r₀, hH, keyOf_setCache.1 hk⟩
  · intro j q x hx
    rw [← hfind]
    exact hx
  · rintro x hx a k ⟨z, hz, hk⟩
    rw [hstep x (hlive hx)] at hz
    rw [entryRef_setCache, keyOf_setCache] at hk
    exact ⟨z, hz, hk⟩
  · intro x hx a z hz
    rw [hstep x (hlive hx)] at hz
    rw [entryRef_setCache]
    exact hown (h.own x (hlive hx) a z hz) fun r' hk => hgone x (hlive hx) a r' ⟨z, hz, hk⟩
  · intro z r₀ hH
    have hh := h.hand z r₀ hH
    have hl : Later w (w.setCache (w.cache.removed r (.fil f))) :=
      ⟨.refl _, fun _ hi => hi, Nat.le_refl _, fun _ _ => rfl, fun _ _ => rfl⟩
    exact ⟨hh.valid.later hl, hh.kind, hh.ref, hown hh.own (hhand z r₀ hH)⟩
  · intro hX x hx a g hz
    rw [hstep x (hlive hx)] at hz
    rw [RegAt, entryRef_setCache]
    have hdirty : (w.setCache (w.cache.removed r (.fil f))).dirtyOf x = w.dirtyOf x := by cases x <;> rfl
    rw [hdirty]
    exact hX x (hlive hx) a g hz

end UTFS

end Utopfs
