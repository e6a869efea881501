/-
**The runs of a request for the furthest head nodes.**

Whatever the order in which the children answer and insert, the request goes through at most three
surveys with follow-fills between them.  A survey in which the children agree gives the furthest nodes
of what the children hold together, by `Head.far_of_agree`; after the follow-fills from the start of the
file system they all hold the same edges of it and must agree.

Main definitions:

* `Furthest.Underway`, `Furthest.Covered` — the edges that are being copied to all children;
* `Furthest.Survey` — a survey in progress;
* `Furthest.Inv` — the phases of the request;
* `Furthest.rank` — the measure that decreases.

Main results:

* `Furthest.Inv.step` — every step keeps the phases;
* `Furthest.rank_lt` — every step decreases the measure;
* `Furthest.furthest_of_union` — **the request ends with the furthest nodes of the union.**
-/

import Utopfs.VBSHeadFurthestFills

set_option relaxedAutoImplicit false
set_option autoImplicit false

namespace Utopfs

namespace Furthest

open Head Interleave

open VBS (others)

variable {n : ℕ} {es : List HeadEdge} {graph : Fin n → LameHeadNodeGraph} {hn : HeadNode}
  {s s' : State n}

/-! ### The full follow-fill -/

/-- A follow-fill of the child `c` from the start of the file system. -/
def FromStart (tag : Octets) (s : State n) (c : Fin n) (f : ℕ) : Prop :=
  f < s.nfill ∧ (s.fills f).targ = c ∧ (s.fills f).hn = ⟨tag, []⟩

/-- An action that brings an edge of the child `c'` to the child `c`. -/
def Carries (tag : Octets) (s : State n) (c c' : Fin n) (e : HeadEdge) : Act n → Prop
  | .fill seed d => seed = ⟨tag, []⟩ ∧ d = c
  | .follow f d => FromStart tag s c f ∧ d = c'
  | .traverse f l => FromStart tag s c f ∧ e ∈ l
  | _ => False

/-- An edge of the child `c'` is on its way to the child `c`, or has arrived there. -/
def Underway (tag : Octets) (s : State n) (c c' : Fin n) (e : HeadEdge) : Prop :=
  (∃ a ∈ pending s.threads, Carries tag s c c' e a) ∨
    (∃ f, FromStart tag s c f ∧ ((f, c') ∈ s.follows ∨ (f, e) ∈ s.inserts)) ∨ e ∈ (s.graph c).edges

/-- Every child has the edges with the tag that another one started with, or they are on their way. -/
def Covered (graph : Fin n → LameHeadNodeGraph) (tag : Octets) (s : State n) : Prop :=
  ∀ c c', c ≠ c' → ∀ e ∈ (graph c').edges, e.fstag = tag → Underway tag s c c' e

/-- A child that follows the start of a file system finds all edges with its tag. -/
theorem mem_found_start {g : LameHeadNodeGraph} (hf : IsForest es) (h : Part es g) {tag : Octets}
    {e : HeadEdge} (he : e ∈ g.edges) (htag : e.fstag = tag) : e ∈ found g ⟨tag, []⟩ := by
  rcases h.follow_start hf tag with ⟨-, hnone⟩ | ⟨l, hl, hmem⟩
  · exact absurd htag (hnone e he)
  · simp only [found, hl]
    exact (hmem e).2 ⟨he, htag⟩

section

variable {tag : Octets} {c c' : Fin n} {e : HeadEdge}

/-- A step that keeps what is on its way, apart from what it takes a step further. -/
theorem Underway.step (h : Underway tag s c c' e)
    (hstart : ∀ f, FromStart tag s c f → FromStart tag s' c f)
    (hacts : ∀ a ∈ pending s.threads, Carries tag s c c' e a →
      a ∈ pending s'.threads ∨ Underway tag s' c c' e)
    (hfollows : ∀ f, FromStart tag s c f → (f, c') ∈ s.follows →
      (f, c') ∈ s'.follows ∨ Underway tag s' c c' e)
    (hinserts : ∀ f, FromStart tag s c f → (f, e) ∈ s.inserts →
      (f, e) ∈ s'.inserts ∨ Underway tag s' c c' e)
    (hgraph : e ∈ (s.graph c).edges → e ∈ (s'.graph c).edges) : Underway tag s' c c' e := by
  have hcarries (a : Act n) (ha : Carries tag s c c' e a) : Carries tag s' c c' e a := by
    cases a with
    | fill seed d => exact ha
    | follow f d => exact ⟨hstart f ha.1, ha.2⟩
    | traverse f l => exact ⟨hstart f ha.1, ha.2⟩
    | _ => exact ha
  rcases h with ⟨a, ha, hcar⟩ | ⟨f, hf, h | h⟩ | h
  · rcases hacts a ha hcar with ha | hdone
    · exact .inl ⟨a, ha, hcarries a hcar⟩
    · exact hdone
  · rcases hfollows f hf h with h | hdone
    · exact .inr (.inl ⟨f, hstart f hf, .inl h⟩)
    · exact hdone
  · rcases hinserts f hf h with h | hdone
    · exact .inr (.inl ⟨f, hstart f hf, .inr h⟩)
    · exact hdone
  · exact .inr (.inr (hgraph h))

/-- A step that takes nothing any further. -/
theorem Underway.same (h : Underway tag s c c' e) (hnfill : s'.nfill = s.nfill)
    (hfills : ∀ f, (s'.fills f).targ = (s.fills f).targ ∧ (s'.fills f).hn = (s.fills f).hn)
    (hacts : ∀ a ∈ pending s.threads, Carries tag s c c' e a → a ∈ pending s'.threads)
    (hfollows : s'.follows = s.follows) (hinserts : s'.inserts = s.inserts)
    (hgraph : s'.graph = s.graph) : Underway tag s' c c' e := by
  refine h.step (fun f hf => ?_) (fun a ha hcar => .inl (hacts a ha hcar))
    (fun f _ h => .inl (hfollows ▸ h)) (fun f _ h => .inl (hinserts ▸ h)) (fun h => hgraph ▸ h)
  exact ⟨hnfill ▸ hf.1, (hfills f).1 ▸ hf.2.1, (hfills f).2 ▸ hf.2.2⟩

end

theorem setFill_targ_hn {f : ℕ} {r : FollowFill n} (hhn : r.hn = (s.fills f).hn)
    (htarg : r.targ = (s.fills f).targ) (g : ℕ) :
    ((s.setFill f r).fills g).targ = (s.fills g).targ ∧
      ((s.setFill f r).fills g).hn = (s.fills g).hn := by
  rcases eq_or_ne g f with rfl | hne
  · simp [State.setFill, hhn, htarg]
  · simp [State.setFill, hne]

/-- **Every step keeps the edges on their way.** -/
theorem Covered.step (hf : IsForest es) (hgrown : Grown es graph s) {tag : Octets}
    (h : Covered graph tag s) (hstep : Step hn s s') : Covered graph tag s' := by
  intro c c' hne e he htag
  have hunder := h c c' hne e he htag
  cases hstep with
  | ask d R ts hold hnew =>
      refine hunder.same rfl (fun _ => ⟨rfl, rfl⟩) (fun a ha hcar => ?_) rfl rfl rfl
      rw [hold, Multiset.mem_cons] at ha
      rcases ha with rfl | ha
      · exact absurd hcar id
      · exact hnew ▸ ha
  | answered d hd =>
      refine hunder.same rfl (fun _ => ⟨rfl, rfl⟩) (fun a ha hcar => ?_) rfl rfl rfl
      simp [answer, ha]
  | surveyed R ts hold hnew =>
      obtain ⟨hfills, hnfill, hfollows, hinserts, -⟩ := subComplete_fields hn s
      refine hunder.same hnfill (fun _ => ⟨by rw [← hfills], by rw [← hfills]⟩) (fun a ha hcar => ?_)
        hfollows hinserts (subComplete_graph hn s)
      rw [hold, Multiset.mem_cons] at ha
      rcases ha with rfl | ha
      · exact absurd hcar id
      · simp [hnew, ha]
  | fill seed d R ts hold hnew =>
      refine hunder.step (fun f hf => ?_) (fun a ha hcar => ?_) (fun _ _ h => .inl h)
        (fun _ _ h => .inl h) id
      · have hlt := hf.1
        refine ⟨Nat.lt_succ_of_lt hf.1, ?_⟩
        simp only [Function.update_of_ne hlt.ne]
        exact hf.2
      · rw [hold, Multiset.mem_cons] at ha
        rcases ha with rfl | ha
        · obtain ⟨rfl, rfl⟩ := hcar
          refine .inr (.inl ⟨.follow s.nfill c', ?_, ⟨?_, ?_⟩, rfl⟩)
          · simp [hnew, others, hne.symm]
          · simp
          · simp
        · exact .inl (by simp [hnew, ha])
  | follow f d R ts hold hnew =>
      refine hunder.step (fun _ hf => hf) (fun a ha hcar => ?_)
        (fun _ _ h => .inl (List.mem_append_left _ h)) (fun _ _ h => .inl h) id
      rw [hold, Multiset.mem_cons] at ha
      rcases ha with rfl | ha
      · obtain ⟨hstart, rfl⟩ := hcar
        exact .inr (.inr (.inl ⟨f, hstart, .inl (by simp)⟩))
      · exact .inl (by simp [hnew, ha])
  | followed f d ts hd hnew =>
      refine hunder.step (fun _ hf => hf) (fun a ha hcar => .inl (by simp [hnew, ha]))
        (fun g hg h => ?_) (fun _ _ h => .inl h) id
      by_cases hfd : (g, c') = (f, d)
      · obtain ⟨rfl, rfl⟩ := Prod.mk.inj hfd
        refine .inr (.inl ⟨.traverse g (found (s.graph c') (s.fills g).hn), by simp [hnew], hg, ?_⟩)
        rw [hg.2.2]
        exact mem_found_start hf (hgrown.part c') (hgrown.kept c' e he) htag
      · exact .inl ((List.mem_erase_of_ne hfd).2 h)
  | edge f e' l R ts hold hnew =>
      have hstart (g : ℕ) (hg : FromStart tag s c g) : FromStart tag
          { s.setFill f { s.fills f with fillsout := (s.fills f).fillsout + 1 } with
            inserts := s.inserts ++ [(f, e')]
            threads := ts } c g := by
        have hset := setFill_targ_hn (s := s) (f := f)
          (r := { s.fills f with fillsout := (s.fills f).fillsout + 1 }) rfl rfl g
        exact ⟨hg.1, hset.1 ▸ hg.2.1, hset.2 ▸ hg.2.2⟩
      refine hunder.step hstart (fun a ha hcar => ?_) (fun _ _ h => .inl h)
        (fun _ _ h => .inl (List.mem_append_left _ h)) id
      rw [hold, Multiset.mem_cons] at ha
      rcases ha with rfl | ha
      · rcases List.mem_cons.1 hcar.2 with rfl | hel
        · exact .inr (.inr (.inl ⟨f, hstart f hcar.1, .inr (by simp)⟩))
        · exact .inr (.inl ⟨.traverse f l, by simp [hnew], hstart f hcar.1, hel⟩)
      · exact .inl (by simp [hnew, ha])
  | traversed f R ts hold hnew =>
      obtain ⟨⟨r, hr, hhn, htarg⟩, -⟩ := hetEnd_cases s f
      rw [hr]
      refine hunder.same rfl (setFill_targ_hn hhn htarg) (fun a ha hcar => ?_) rfl rfl rfl
      rw [hold, Multiset.mem_cons] at ha
      rcases ha with rfl | ha
      · exact absurd hcar.2 (by simp)
      · simp [hnew, ha]
  | insert f e' ts he' hnew =>
      have hins := (hgrown.part (s.fills f).targ).insert hf (hgrown.inserts (f, e') he')
      refine hunder.step (fun _ hf => hf) (fun a ha hcar => .inl (by simp [hnew, ha]))
        (fun _ _ h => .inl h) (fun g hg h => ?_) (fun h => ?_)
      · by_cases hfe : (g, e) = (f, e')
        · obtain ⟨rfl, rfl⟩ := Prod.mk.inj hfe
          refine .inr (.inr (.inr ?_))
          have hmem := (hins.2 e).2 (.inr rfl)
          rw [← hg.2.1]
          simpa using hmem
        · exact .inl ((List.mem_erase_of_ne hfe).2 h)
      · rcases eq_or_ne c (s.fills f).targ with rfl | hc
        · simpa using (hins.2 e).2 (.inl h)
        · simpa [hc] using h
  | filled f R ts hold hnew =>
      obtain ⟨⟨r, hr, hhn, htarg⟩, -⟩ := heiEnd_cases s f
      rw [hr]
      refine hunder.same rfl (setFill_targ_hn hhn htarg) (fun a ha hcar => ?_) rfl rfl rfl
      rw [hold, Multiset.mem_cons] at ha
      rcases ha with rfl | ha
      · exact absurd hcar id
      · simp [hnew, ha]
  | completed f R ts hold hnew =>
      obtain ⟨hfills, hnfill, hfollows, hinserts, -⟩ := hetComplete_fields s
      refine hunder.same hnfill (fun _ => ⟨by rw [← hfills], by rw [← hfills]⟩) (fun a ha hcar => ?_)
        hfollows hinserts (hetComplete_graph s)
      rw [hold, Multiset.mem_cons] at ha
      rcases ha with rfl | ha
      · exact absurd hcar id
      · simp [hnew, ha]

/-- When all follow-fills are complete, all edges have arrived. -/
theorem Covered.arrived {tag : Octets} (h : Covered graph tag s) (hbooks : Books s)
    (hzero : s.ffout = 0) (hgrown : Grown es graph s) (c c' : Fin n) {e : HeadEdge}
    (he : e ∈ (graph c').edges) (htag : e.fstag = tag) : e ∈ (s.graph c).edges := by
  obtain ⟨hfollows, hinserts, hacts⟩ := hbooks.quiet hzero
  rcases eq_or_ne c c' with rfl | hne
  · exact hgrown.kept c e he
  · rcases h c c' hne e he htag with ⟨a, ha, hcar⟩ | ⟨f, -, hf | hf⟩ | hmem
    · rcases hacts a ha with ⟨d, rfl⟩ | rfl
      · exact absurd hcar id
      · exact absurd hcar id
    · simp [hfollows] at hf
    · simp [hinserts] at hf
    · exact hmem

/-! ### What a survey finds -/

theorem mem_foldl_inter {α : Type} [DecidableEq α] (t : α) (ss : List (Finset α)) (u : Finset α) :
    t ∈ ss.foldl (· ∩ ·) u ↔ t ∈ u ∧ ∀ u' ∈ ss, t ∈ u' := by
  induction ss generalizing u with
  | nil => simp
  | cons u' ss ih =>
      rw [List.foldl_cons, ih]
      simp [and_assoc]

section

variable {cnsm : Fin n → Option (Finset HeadNode)} {L : Fin n → Finset HeadNode}

theorem reported_of_all (h : ∀ c, cnsm c = some (L c)) :
    reported cnsm = (List.finRange n).map fun c => (c, L c) := by
  simp [reported, h]

/-- The common nodes, when all children have reported. -/
theorem mem_common [NeZero n] (h : ∀ c, cnsm c = some (L c)) (t : HeadNode) :
    t ∈ common cnsm ↔ ∀ c, t ∈ L c := by
  have hsets : (reported cnsm).map Prod.snd = (List.finRange n).map L := by
    rw [reported_of_all h, List.map_map]
    rfl
  have hall : (∀ u ∈ (List.finRange n).map L, t ∈ u) ↔ ∀ c, t ∈ L c := by simp
  rw [common, hsets, ← hall]
  cases hl : (List.finRange n).map L with
  | nil =>
      rw [List.map_eq_nil_iff, List.finRange_eq_nil_iff] at hl
      exact absurd hl (NeZero.ne n)
  | cons u ss => simp [mem_foldl_inter]

/-- There are no unique nodes exactly if the children agree. -/
theorem unique_eq_nil [NeZero n] (h : ∀ c, cnsm c = some (L c)) :
    unique cnsm = [] ↔ ∀ c c', ∀ t ∈ L c, t ∈ L c' := by
  have hnil : unique cnsm = [] ↔ ∀ c, L c \ common cnsm = ∅ := by
    have hsort (u : Finset HeadNode) : u.sort = [] ↔ u = ∅ := by
      rw [← List.length_eq_zero_iff, Finset.length_sort, Finset.card_eq_zero]
    rw [unique, reported_of_all h, List.flatMap_eq_nil_iff]
    simp [hsort]
  rw [hnil]
  simp only [Finset.sdiff_eq_empty_iff_subset, Finset.subset_iff, mem_common h]
  exact ⟨fun h c c' t ht => h c ht c', fun h c t ht c' => h c c' t ht⟩

/-- What the children agree on is common. -/
theorem common_of_agree [NeZero n] (h : ∀ c, cnsm c = some (L c))
    (hagree : ∀ c c', ∀ t ∈ L c, t ∈ L c') (c : Fin n) : common cnsm = L c := by
  ext t
  rw [mem_common h]
  exact ⟨fun hall => hall c, fun ht c' => hagree c c' t ht⟩

end

/-! ### The phases -/

/-- The survey of a child. -/
def Act.asks (c : Fin n) : Act n → ℕ
  | .furthest c' => if c' = c then 1 else 0
  | _ => 0

/-- The end of a survey. -/
def Act.concludes : Act n → ℕ
  | .subComplete => 1
  | _ => 0

/-- A survey in progress: every child is about to be asked, has been asked or has reported its furthest
nodes, and the survey ends with the last of them. -/
structure Survey (hn : HeadNode) (s : State n) : Prop where
  once : ∀ c, ((pending s.threads).map (Act.asks c)).sum + s.asked.count c +
    (if (s.cnsm c).isSome then 1 else 0) = 1
  reports : ∀ c L, s.cnsm c = some L → ∀ t, t ∈ L ↔ Far (s.graph c) hn t
  outstanding : s.outstanding = (Finset.univ.filter fun c => (s.cnsm c).isSome = false).card
  last : ((pending s.threads).map Act.concludes).sum = if s.outstanding = 0 then 1 else 0

/-- There is no survey in progress. -/
structure Idle (s : State n) : Prop where
  asked : s.asked = []
  acts : ∀ a ∈ pending s.threads, (∀ c, a ≠ .furthest c) ∧ a ≠ .subComplete

/-- The phases of the request: a survey, follow-fills, or the end. -/
inductive Phase (es : List HeadEdge) (graph : Fin n → LameHeadNodeGraph) (hn : HeadNode)
    (s : State n) : Prop
  | survey (hffout : s.ffout = 0) (hsurvey : Survey hn s) (hup : s.upcalls = [])
      (hval : s.val ≤ 1 ∧ s.lasttry = false ∨
        s.val = 2 ∧ ∀ c, ∀ e ∈ es, e.fstag = hn.fstag → e ∈ (s.graph c).edges)
  | filling (hffout : 0 < s.ffout) (hwide : 1 < n) (hidle : Idle s) (hup : s.upcalls = [])
      (hval : s.val = 0 ∧ s.lasttry = false ∨
        s.val = 1 ∧ s.lasttry = true ∧ Covered graph hn.fstag s)
  | done (hffout : s.ffout = 0) (hidle : Idle s) (L : Finset HeadNode)
      (hup : s.upcalls = [.complete L.sort]) (hfar : ∀ c t, t ∈ L ↔ Far (s.graph c) hn t)

/-- What holds in every state of a request. -/
structure Inv (es : List HeadEdge) (graph : Fin n → LameHeadNodeGraph) (hn : HeadNode)
    (s : State n) : Prop where
  books : Books s
  grown : Grown es graph s
  threw : s.threw = false
  phase : Phase es graph hn s

/-- A survey ends when all children have reported. -/
theorem Survey.ended (h : Survey hn s) (hmem : Act.subComplete ∈ pending s.threads) :
    ∃ L : Fin n → Finset HeadNode, (∀ c, s.cnsm c = some (L c)) ∧
      ∀ c t, t ∈ L c ↔ Far (s.graph c) hn t := by
  have hlast := h.last
  have hpos : 0 < ((pending s.threads).map Act.concludes).sum := by
    obtain ⟨R, hR⟩ := Multiset.exists_cons_of_mem hmem
    simp [hR, Act.concludes]
  have hzero : s.outstanding = 0 := by
    by_contra hne
    rw [if_neg hne] at hlast
    omega
  have hall (c : Fin n) : (s.cnsm c).isSome = true := by
    have hcard := h.outstanding
    have hempty : (Finset.univ.filter fun c => (s.cnsm c).isSome = false) = ∅ :=
      Finset.card_eq_zero.1 (by omega)
    by_contra hno
    have hmem : c ∈ Finset.univ.filter fun c => (s.cnsm c).isSome = false := by simpa using hno
    rw [hempty] at hmem
    simp at hmem
  refine ⟨fun c => (s.cnsm c).get (hall c), fun c => by simp, fun c t => ?_⟩
  exact h.reports c _ (by simp) t

/-- After it nothing is left of the survey. -/
theorem Survey.idle (h : Survey hn s) {R : Multiset (Act n)} {L : Fin n → Finset HeadNode}
    (hall : ∀ c, s.cnsm c = some (L c)) (hold : pending s.threads = .subComplete ::ₘ R) :
    s.asked = [] ∧ ∀ a ∈ R, (∀ c, a ≠ .furthest c) ∧ a ≠ .subComplete := by
  have honce (c : Fin n) : (R.map (Act.asks c)).sum = 0 ∧ s.asked.count c = 0 := by
    have := h.once c
    rw [hall, hold, Multiset.map_cons, Multiset.sum_cons, Option.isSome_some, if_pos rfl] at this
    omega
  have hlast : (R.map Act.concludes).sum = 0 := by
    have := h.last
    rw [hold, Multiset.map_cons, Multiset.sum_cons, Act.concludes] at this
    split at this
    · omega
    · omega
  refine ⟨List.eq_nil_iff_forall_not_mem.2 fun c hc => ?_, fun a ha => ⟨fun c hac => ?_, fun hac => ?_⟩⟩
  · have := List.count_pos_iff.2 hc
    have := (honce c).2
    omega
  · have := Multiset.sum_eq_zero_iff.1 (honce c).1 _ (Multiset.mem_map_of_mem _ ha)
    simp [hac, Act.asks] at this
  · have := Multiset.sum_eq_zero_iff.1 hlast _ (Multiset.mem_map_of_mem _ ha)
    simp [hac, Act.concludes] at this

theorem Survey.ask (h : Survey hn s) {c : Fin n} {R : Multiset (Act n)} {ts : List (List (Act n))}
    (hold : pending s.threads = .furthest c ::ₘ R) (hnew : pending ts = R) :
    Survey hn { s with asked := s.asked ++ [c], threads := ts } where
  once c' := by
    have hcount : (s.asked ++ [c]).count c' = s.asked.count c' + if c = c' then 1 else 0 := by
      simp [List.count_singleton]
    have := h.once c'
    rw [hold, Multiset.map_cons, Multiset.sum_cons, Act.asks] at this
    change ((pending ts).map (Act.asks c')).sum + (s.asked ++ [c]).count c' +
      (if (s.cnsm c').isSome then 1 else 0) = 1
    rw [hnew, hcount]
    omega
  reports := h.reports
  outstanding := h.outstanding
  last := by
    have hlast := h.last
    have hzero : (Act.furthest c : Act n).concludes = 0 := rfl
    rw [hold, Multiset.map_cons, Multiset.sum_cons, hzero, Nat.zero_add] at hlast
    rw [hnew]
    exact hlast

/-- The answer of a child. -/
theorem Survey.answered (hf : IsForest es) (hgrown : Grown es graph s) (h : Survey hn s) {c : Fin n}
    (hc : c ∈ s.asked) : Survey hn (answer hn s c) := by
  have hcount := List.count_pos_iff.2 hc
  have honce := h.once c
  obtain ⟨L, hrun, hfar⟩ := (hgrown.part c).ok.headFurthest_far ((hgrown.part c).acyclic hf) hn
  have hcnsm : (answer hn s c).cnsm = Function.update s.cnsm c (some L) := by
    simp only [answer, hrun, Finset.sort_toFinset]
  have hnone : (s.cnsm c).isSome = false := by
    by_contra hsome
    rw [if_pos (Bool.eq_true_of_not_eq_false hsome)] at honce
    omega
  have hfilter : (Finset.univ.filter fun d => ((answer hn s c).cnsm d).isSome = false) =
      (Finset.univ.filter fun d => (s.cnsm d).isSome = false).erase c := by
    ext d
    rw [hcnsm]
    rcases eq_or_ne d c with rfl | hne
    · simp
    · simp [hne]
  have hmem : c ∈ Finset.univ.filter fun d => (s.cnsm d).isSome = false := by
    rw [Finset.mem_filter]
    exact ⟨Finset.mem_univ c, hnone⟩
  have hcard := Finset.card_erase_add_one hmem
  have hout := h.outstanding
  have hout' : (answer hn s c).outstanding = s.outstanding - 1 := rfl
  have hthreads : pending (answer hn s c).threads = pending s.threads +
      ((if s.outstanding - 1 = 0 then [.subComplete] else [] : List (Act n)) : Multiset (Act n)) := by
    simp [answer]
  constructor
  case once =>
    intro d
    have hd := h.once d
    have hasks : ((pending (answer hn s c).threads).map (Act.asks d)).sum =
        ((pending s.threads).map (Act.asks d)).sum := by
      rw [hthreads, Multiset.map_add, Multiset.sum_add]
      split <;> simp [Act.asks]
    have hasked : (answer hn s c).asked = s.asked.erase c := rfl
    rw [hasks, hcnsm, hasked]
    rcases eq_or_ne d c with rfl | hne
    · rw [Function.update_self, List.count_erase_self, Option.isSome_some, if_pos rfl]
      rw [hnone, if_neg (by simp)] at hd
      omega
    · rwa [Function.update_of_ne hne, List.count_erase_of_ne hne]
  case reports =>
    intro d L' hL t
    rw [hcnsm] at hL
    rcases eq_or_ne d c with rfl | hne
    · rw [Function.update_self] at hL
      obtain rfl := Option.some.inj hL
      exact hfar t
    · rw [Function.update_of_ne hne] at hL
      exact h.reports d L' hL t
  case outstanding =>
    rw [hfilter, hout']
    omega
  case last =>
    have hlast := h.last
    rw [if_neg (by omega)] at hlast
    rw [hthreads, Multiset.map_add, Multiset.sum_add, hlast, hout']
    split <;> simp [Act.concludes]

/-- A new survey, when there is nothing left of the last one. -/
theorem Survey.begin [NeZero n] (hasked : s.asked = []) (hcnsm : s.cnsm = fun _ => none)
    (hout : s.outstanding = n) {R : Multiset (Act n)}
    (hthreads : pending s.threads = (askAll n : Multiset (Act n)) + R)
    (hidle : ∀ a ∈ R, (∀ c, a ≠ .furthest c) ∧ a ≠ .subComplete) : Survey hn s where
  once c := by
    have hR : (R.map (Act.asks c)).sum = 0 := by
      refine Multiset.sum_eq_zero fun k hk => ?_
      obtain ⟨a, ha, rfl⟩ := Multiset.mem_map.1 hk
      cases a with
      | furthest c' => exact absurd rfl ((hidle _ ha).1 c')
      | _ => rfl
    have hall : ((askAll n).map (Act.asks c)).sum = 1 := by
      have hsum : (askAll n).map (Act.asks c) =
          (List.finRange n).map fun c' => if c' = c then 1 else 0 := by
        simp [askAll, Act.asks]
      rw [hsum, ← List.sum_toFinset _ (List.nodup_finRange n)]
      simp
    rw [hthreads, Multiset.map_add, Multiset.sum_add, hR, Multiset.map_coe, Multiset.sum_coe, hall,
      hasked, hcnsm]
    simp
  reports c L hL := by simp [hcnsm] at hL
  outstanding := by simp [hcnsm, hout]
  last := by
    have hR : (R.map Act.concludes).sum = 0 := by
      refine Multiset.sum_eq_zero fun k hk => ?_
      obtain ⟨a, ha, rfl⟩ := Multiset.mem_map.1 hk
      cases a with
      | subComplete => exact absurd rfl (hidle _ ha).2
      | _ => rfl
    have hall : ((askAll n).map Act.concludes).sum = 0 := by
      refine List.sum_eq_zero fun k hk => ?_
      simp only [askAll, List.map_map, List.mem_map] at hk
      obtain ⟨c, -, rfl⟩ := hk
      rfl
    have hn := NeZero.ne n
    rw [hthreads, Multiset.map_add, Multiset.sum_add, hR, Multiset.map_coe, Multiset.sum_coe, hall, hout,
      if_neg (by omega)]

/-- Children that do not agree are several. -/
theorem one_lt_of_unique [NeZero n] {cnsm : Fin n → Option (Finset HeadNode)}
    {L : Fin n → Finset HeadNode} (h : ∀ c, cnsm c = some (L c)) (hne : unique cnsm ≠ []) : 1 < n := by
  by_contra hle
  refine hne ((unique_eq_nil h).2 fun c c' t ht => ?_)
  have hcc : c = c' := Fin.ext (by omega)
  exact hcc ▸ ht

/-- **The end of a survey**: the children agree, or follow-fills start.  After the last of them the
children agree. -/
theorem Survey.surveyed [NeZero n] (h : Survey hn s) (hgrown : Grown es graph s) {R : Multiset (Act n)}
    {ts : List (List (Act n))} (hold : pending s.threads = .subComplete ::ₘ R)
    (hnew : pending ts = ((subComplete hn s).2 : Multiset (Act n)) + R) (hffout : s.ffout = 0)
    (hup : s.upcalls = []) (hval : s.val ≤ 1 ∧ s.lasttry = false ∨
      s.val = 2 ∧ ∀ c, ∀ e ∈ es, e.fstag = hn.fstag → e ∈ (s.graph c).edges) :
    ((subComplete hn s).1.threw = s.threw ∧ (subComplete hn s).1.val = s.val ∧
      ¬ ((subComplete hn s).1.ffout = 0 ∧ (subComplete hn s).1.upcalls = [])) ∧
      Phase es graph hn { (subComplete hn s).1 with threads := ts } := by
  obtain ⟨L, hall, hfar⟩ := h.ended (by simp [hold])
  obtain ⟨hasked, hacts⟩ := h.idle hall hold
  have hreported : reported s.cnsm ≠ [] := by
    rw [reported_of_all hall]
    simp [List.finRange_eq_nil_iff, NeZero.ne n]
  rw [subComplete, if_neg hreported] at hnew ⊢
  by_cases hagree : unique s.cnsm = []
  · rw [hntComplete, if_pos hagree] at hnew ⊢
    refine ⟨⟨rfl, rfl, by simp⟩, .done hffout ⟨hasked, fun a ha => hacts a ?_⟩ (common s.cnsm) ?_ fun c t => ?_⟩
    · simpa [hnew] using ha
    · simp [hup]
    · rw [common_of_agree hall ((unique_eq_nil hall).1 hagree) c]
      exact hfar c t
  have hwide := one_lt_of_unique hall hagree
  have hidle {m : List (Act n)} (hm : ∀ a ∈ m, ∃ seed c, a = .fill seed c) (a : Act n)
      (ha : a ∈ (m : Multiset (Act n)) + R) : (∀ c, a ≠ .furthest c) ∧ a ≠ .subComplete := by
    rcases Multiset.mem_add.1 ha with ha | ha
    · obtain ⟨seed, c, rfl⟩ := hm a ha
      simp
    · exact hacts a ha
  rw [hntComplete, if_neg hagree] at hnew ⊢
  rcases hval with ⟨hval, hlast⟩ | ⟨hval, hcomplete⟩
  · rcases (show s.val = 0 ∨ s.val = 1 by omega) with hval | hval
    · have hpos : 0 < ((unique s.cnsm).length : ℤ) := by simpa [List.length_pos_iff] using hagree
      rw [if_pos hval, directedFollowFill] at hnew ⊢
      refine ⟨⟨rfl, rfl, fun hz => hpos.ne' hz.1⟩,
        .filling hpos hwide ⟨hasked, fun a ha => ?_⟩ hup (.inl ⟨hval, hlast⟩)⟩
      refine hidle (fun b hb => ?_) a (hnew ▸ ha)
      obtain ⟨x, -, rfl⟩ := List.mem_map.1 hb
      exact ⟨_, _, rfl⟩
    · have hpos : 0 < (n : ℤ) := by omega
      rw [if_neg (by omega), if_pos hval, fullFollowFill] at hnew ⊢
      refine ⟨⟨rfl, rfl, fun hz => hpos.ne' hz.1⟩,
        .filling hpos hwide ⟨hasked, fun a ha => ?_⟩ hup (.inr ⟨hval, rfl, ?_⟩)⟩
      · refine hidle (fun b hb => ?_) a (hnew ▸ ha)
        obtain ⟨x, -, rfl⟩ := List.mem_map.1 hb
        exact ⟨_, _, rfl⟩
      · intro c c' hne e he htag
        exact .inl ⟨.fill ⟨hn.fstag, []⟩ c, by simp [hnew], rfl, rfl⟩
  · -- all children have the same edges of the file system
    refine absurd ((unique_eq_nil hall).2 fun c c' t ht => ?_) hagree
    rw [hfar] at ht ⊢
    refine far_congr (fun e htag => ⟨fun he => ?_, fun he => ?_⟩) ht
    · exact hcomplete c' e ((hgrown.part c).sub e he) htag
    · exact hcomplete c e ((hgrown.part c').sub e he) htag

/-- With no follow-fills out, a step is one of a survey. -/
theorem Step.of_quiet (hbooks : Books s) (hzero : s.ffout = 0) (hstep : Step hn s s') :
    (∃ c R ts, pending s.threads = .furthest c ::ₘ R ∧ pending ts = R ∧
        s' = { s with asked := s.asked ++ [c], threads := ts }) ∨
      (∃ c ∈ s.asked, s' = answer hn s c) ∨
      ∃ R ts, pending s.threads = .subComplete ::ₘ R ∧
        pending ts = ((subComplete hn s).2 : Multiset (Act n)) + R ∧
        s' = { (subComplete hn s).1 with threads := ts } := by
  obtain ⟨hfollows, hinserts, hacts⟩ := hbooks.quiet hzero
  have hnot {a : Act n} {R : Multiset (Act n)} (hold : pending s.threads = a ::ₘ R)
      (ha : (∀ c, a ≠ .furthest c) ∧ a ≠ .subComplete) : False := by
    rcases hacts a (by simp [hold]) with ⟨c, hc⟩ | hc
    · exact ha.1 c hc
    · exact ha.2 hc
  cases hstep with
  | ask c R ts hold hnew => exact .inl ⟨c, R, ts, hold, hnew, rfl⟩
  | answered c hc => exact .inr (.inl ⟨c, hc, rfl⟩)
  | surveyed R ts hold hnew => exact .inr (.inr ⟨R, ts, hold, hnew, rfl⟩)
  | followed f c ts hc hnew => simp [hfollows] at hc
  | insert f e ts he hnew => simp [hinserts] at he
  | fill seed c R ts hold hnew => exact (hnot hold (by simp)).elim
  | follow f c R ts hold hnew => exact (hnot hold (by simp)).elim
  | edge f e l R ts hold hnew => exact (hnot hold (by simp)).elim
  | traversed f R ts hold hnew => exact (hnot hold (by simp)).elim
  | filled f R ts hold hnew => exact (hnot hold (by simp)).elim
  | completed f R ts hold hnew => exact (hnot hold (by simp)).elim

/-- With no survey and no follow-fills out, there is no step. -/
theorem Idle.not_step (h : Idle s) (hbooks : Books s) (hzero : s.ffout = 0) : ¬ Step hn s s' := by
  intro hstep
  rcases hstep.of_quiet hbooks hzero with
    ⟨c, R, ts, hold, -, -⟩ | ⟨c, hc, -⟩ | ⟨R, ts, hold, -, -⟩
  · exact absurd rfl ((h.acts _ (by simp [hold])).1 c)
  · simp [h.asked] at hc
  · exact absurd rfl (h.acts .subComplete (by simp [hold])).2

/-- A step of the follow-fills that does not complete one. -/
theorem Idle.run (h : Idle s) {a : Act n} {R : Multiset (Act n)} (hold : pending s.threads = a ::ₘ R)
    {m : List (Act n)} (hm : ∀ b ∈ m, (∀ c, b ≠ .furthest c) ∧ b ≠ .subComplete) (b : Act n)
    (hb : b ∈ (m : Multiset (Act n)) + R) : (∀ c, b ≠ .furthest c) ∧ b ≠ .subComplete := by
  rcases Multiset.mem_add.1 hb with hb | hb
  · exact hm b hb
  · exact h.acts b (by simp [hold, hb])

/-- **A step of the follow-fills**: when the last one is complete, the children are asked again. -/
theorem Phase.of_filling [NeZero n] (hes : ∀ e ∈ es, ∃ c, e ∈ (graph c).edges)
    (hbooks : Books s') (hgrown : Grown es graph s') (hffout : 0 < s.ffout) (hwide : 1 < n)
    (hidle : Idle s) (hup : s.upcalls = [])
    (hval : s.val = 0 ∧ s.lasttry = false ∨
      s.val = 1 ∧ s.lasttry = true ∧ Covered graph hn.fstag s') (hstep : Step hn s s') :
    s'.threw = s.threw ∧ Phase es graph hn s' := by
  cases hstep with
  | ask c R ts hold hnew => exact absurd rfl ((hidle.acts _ (by simp [hold])).1 c)
  | answered c hc => simp [hidle.asked] at hc
  | surveyed R ts hold hnew => exact absurd rfl (hidle.acts .subComplete (by simp [hold])).2
  | fill seed c R ts hold hnew =>
      refine ⟨rfl, .filling hffout hwide ⟨hidle.asked, fun a ha => ?_⟩ hup hval⟩
      exact hidle.run hold (by simp) a (hnew ▸ ha)
  | follow f c R ts hold hnew =>
      refine ⟨rfl, .filling hffout hwide ⟨hidle.asked, fun a ha => ?_⟩ hup hval⟩
      exact hidle.acts a (by simp_all)
  | followed f c ts hc hnew =>
      refine ⟨rfl, .filling hffout hwide ⟨hidle.asked, fun a ha => ?_⟩ hup hval⟩
      rw [hnew, Multiset.mem_cons] at ha
      rcases ha with rfl | ha
      · simp
      · exact hidle.acts a ha
  | edge f e l R ts hold hnew =>
      refine ⟨rfl, .filling hffout hwide ⟨hidle.asked, fun a ha => ?_⟩ hup hval⟩
      exact hidle.run hold (m := [.traverse f l]) (by simp) a (by simpa [hnew] using ha)
  | traversed f R ts hold hnew =>
      obtain ⟨⟨r, hr, -⟩, hm⟩ := hetEnd_cases s f
      rw [hr] at hval ⊢
      refine ⟨rfl, .filling hffout hwide ⟨hidle.asked, fun a ha => ?_⟩ hup hval⟩
      refine hidle.run hold ?_ a (hnew ▸ ha)
      rcases hm with hm | hm <;> simp [hm]
  | insert f e ts he hnew =>
      refine ⟨rfl, .filling hffout hwide ⟨hidle.asked, fun a ha => ?_⟩ hup hval⟩
      rw [hnew, Multiset.mem_cons] at ha
      rcases ha with rfl | ha
      · simp
      · exact hidle.acts a ha
  | filled f R ts hold hnew =>
      obtain ⟨⟨r, hr, -⟩, hm⟩ := heiEnd_cases s f
      rw [hr] at hval ⊢
      refine ⟨rfl, .filling hffout hwide ⟨hidle.asked, fun a ha => ?_⟩ hup hval⟩
      refine hidle.run hold ?_ a (hnew ▸ ha)
      rcases hm with hm | hm <;> simp [hm]
  | completed f R ts hold hnew =>
      have hacts (a : Act n) (ha : a ∈ R) : (∀ c, a ≠ .furthest c) ∧ a ≠ .subComplete :=
        hidle.acts a (by simp [hold, ha])
      by_cases hzero : s.ffout - 1 = 0
      · rcases hval with ⟨hval, hlast⟩ | ⟨hval, hlast, hcovered⟩
        · have hcomplete : hetComplete s = secondCheck { s with ffout := s.ffout - 1 } := by
            simp [hetComplete, hzero, hlast]
          rw [hcomplete] at hnew ⊢
          exact ⟨rfl, .survey hzero (.begin hidle.asked rfl rfl hnew hacts) hup (.inl ⟨le_rfl, hlast⟩)⟩
        · have hcomplete : hetComplete s = lastCheck { s with ffout := s.ffout - 1 } := by
            simp [hetComplete, hzero, hlast]
          rw [hcomplete] at hnew hbooks hgrown hcovered ⊢
          refine ⟨rfl, .survey hzero (.begin hidle.asked rfl rfl hnew hacts) hup (.inr ⟨rfl, ?_⟩)⟩
          intro c e he htag
          obtain ⟨c', he'⟩ := hes e he
          exact hcovered.arrived hbooks hzero hgrown c c' he' htag
      · have hcomplete : hetComplete s = ({ s with ffout := s.ffout - 1 }, []) := by
          simp [hetComplete, hzero]
        rw [hcomplete] at hnew hval ⊢
        refine ⟨rfl, .filling ?_ hwide ⟨hidle.asked, fun a ha => hacts a ?_⟩ hup hval⟩
        · simp only
          omega
        · simpa [hnew] using ha

/-- **Every step keeps the phases.** -/
theorem Inv.step [NeZero n] (hf : IsForest es) (hes : ∀ e ∈ es, ∃ c, e ∈ (graph c).edges)
    (h : Inv es graph hn s) (hstep : Step hn s s') : Inv es graph hn s' := by
  have hgrown := h.grown.step hf hstep
  cases h.phase with
  | survey hffout hsurvey hup hval =>
      have hbooks : Books s' := by
        refine h.books.step (fun seed c hc => ?_) (fun _ => hffout) hstep
        rcases (h.books.quiet hffout).2.2 _ hc with ⟨d, hd⟩ | hd
        · simp at hd
        · simp at hd
      rcases hstep.of_quiet h.books hffout with
        ⟨c, R, ts, hold, hnew, rfl⟩ | ⟨c, hc, rfl⟩ | ⟨R, ts, hold, hnew, rfl⟩
      · exact ⟨hbooks, hgrown, h.threw, .survey hffout (hsurvey.ask hold hnew) hup hval⟩
      · exact ⟨hbooks, hgrown, h.threw, .survey hffout (hsurvey.answered hf h.grown hc) hup hval⟩
      · obtain ⟨⟨hthrew, -⟩, hphase⟩ := hsurvey.surveyed h.grown hold hnew hffout hup hval
        exact ⟨hbooks, hgrown, hthrew.trans h.threw, hphase⟩
  | filling hffout hwide hidle hup hval =>
      have hbooks : Books s' :=
        h.books.step (fun _ _ _ => hwide) (fun hsub => absurd rfl (hidle.acts _ hsub).2) hstep
      have hval' : s.val = 0 ∧ s.lasttry = false ∨
          s.val = 1 ∧ s.lasttry = true ∧ Covered graph hn.fstag s' :=
        hval.imp_right fun ⟨hval, hlast, hcovered⟩ => ⟨hval, hlast, hcovered.step hf h.grown hstep⟩
      obtain ⟨hthrew, hphase⟩ :=
        Phase.of_filling hes hbooks hgrown hffout hwide hidle hup hval' hstep
      exact ⟨hbooks, hgrown, hthrew.trans h.threw, hphase⟩
  | done hffout hidle L hup hfar => exact (hidle.not_step h.books hffout hstep).elim

/-! ### The end -/

/-- The traversals that an action may lead to. -/
def Act.spread : Act n → ℕ
  | .fill _ _ => 2 * n
  | .follow _ _ => 2
  | _ => 0

/-- The steps that an action leads to, traversals apart. -/
def Act.work : Act n → ℕ
  | .furthest _ => 3
  | .subComplete => 1
  | .traverse _ l => 4 * l.length + 2
  | .filled _ => 2
  | .fillComplete _ => 1
  | _ => 0

/-- The traversals to come. -/
def spreading (s : State n) : ℕ := ((pending s.threads).map Act.spread).sum + s.follows.length

/-- The steps to come, traversals apart. -/
def working (s : State n) : ℕ :=
  ((pending s.threads).map Act.work).sum + 2 * s.asked.length + 3 * s.inserts.length

/-- What decreases: the phases to come, the traversals to come, and the steps to come. -/
def rank (s : State n) : ℕ ×ₗ ℕ ×ₗ ℕ :=
  toLex (2 * (2 - s.val) + (if s.ffout = 0 ∧ s.upcalls = [] then 1 else 0),
    toLex (spreading s, working s))

/-- A step within a phase. -/
theorem rank_lt_of_same (hval : s'.val = s.val)
    (hphase : s'.ffout = 0 ∧ s'.upcalls = [] ↔ s.ffout = 0 ∧ s.upcalls = [])
    (h : spreading s' < spreading s ∨ spreading s' = spreading s ∧ working s' < working s) :
    rank s' < rank s := by
  rw [rank, rank, Prod.Lex.toLex_lt_toLex]
  refine .inr ⟨?_, Prod.Lex.toLex_lt_toLex.2 h⟩
  simp only [hval, hphase]

/-- **Every step decreases the measure.** -/
theorem Inv.rank_lt [NeZero n] (h : Inv es graph hn s) (hstep : Step hn s s') : rank s' < rank s := by
  cases h.phase with
  | survey hffout hsurvey hup hval =>
      rcases hstep.of_quiet h.books hffout with
        ⟨c, R, ts, hold, hnew, rfl⟩ | ⟨c, hc, rfl⟩ | ⟨R, ts, hold, hnew, rfl⟩
      · refine rank_lt_of_same rfl Iff.rfl (.inr ⟨?_, ?_⟩)
        · simp [spreading, hold, hnew, Act.spread]
        · simp [working, hold, hnew, Act.work]
          omega
      · refine rank_lt_of_same rfl Iff.rfl (.inr ⟨?_, ?_⟩)
        · simp only [spreading, answer, pending_concat, Multiset.map_add, Multiset.sum_add]
          split <;> simp [Act.spread]
        · have hlen := List.length_erase_add_one hc
          simp only [working, answer, pending_concat, Multiset.map_add, Multiset.sum_add]
          split <;> simp [Act.work] <;> omega
      · obtain ⟨⟨-, hval', hnot⟩, -⟩ := hsurvey.surveyed h.grown hold hnew hffout hup hval
        rw [rank, rank, Prod.Lex.toLex_lt_toLex]
        left
        simp only [hval', if_neg hnot, hffout, hup]
        simp
  | filling hffout hwide hidle hup hval =>
      cases hstep with
      | ask c R ts hold hnew => exact absurd rfl ((hidle.acts _ (by simp [hold])).1 c)
      | answered c hc => simp [hidle.asked] at hc
      | surveyed R ts hold hnew => exact absurd rfl (hidle.acts .subComplete (by simp [hold])).2
      | fill seed c R ts hold hnew =>
          refine rank_lt_of_same rfl Iff.rfl (.inl ?_)
          have hlen := length_others_add_one c
          have hsum : (((others c).map (Act.follow s.nfill)).map Act.spread).sum =
              2 * (others c).length := by
            simp [Act.spread, Function.comp_def, mul_comm]
          simp only [spreading, hold, hnew, Multiset.map_add, Multiset.sum_add, Multiset.map_coe,
            Multiset.sum_coe, hsum, Multiset.map_cons, Multiset.sum_cons, Act.spread]
          omega
      | follow f c R ts hold hnew =>
          refine rank_lt_of_same rfl Iff.rfl (.inl ?_)
          simp [spreading, hold, hnew, Act.spread]
          omega
      | followed f c ts hc hnew =>
          refine rank_lt_of_same rfl Iff.rfl (.inl ?_)
          have hlen := List.length_erase_add_one hc
          simp [spreading, hnew, Act.spread]
          omega
      | edge f e l R ts hold hnew =>
          refine rank_lt_of_same rfl Iff.rfl (.inr ⟨?_, ?_⟩)
          · simp [spreading, hold, hnew, Act.spread, State.setFill]
          · simp [working, hold, hnew, Act.work, State.setFill]
            omega
      | traversed f R ts hold hnew =>
          obtain ⟨⟨r, hr, -⟩, hm⟩ := hetEnd_cases s f
          rw [hr]
          refine rank_lt_of_same rfl Iff.rfl (.inr ⟨?_, ?_⟩)
          · rcases hm with hm | hm <;> simp [spreading, hold, hnew, hm, Act.spread, State.setFill]
          · rcases hm with hm | hm <;> simp [working, hold, hnew, hm, Act.work, State.setFill]
      | insert f e ts he hnew =>
          refine rank_lt_of_same rfl Iff.rfl (.inr ⟨?_, ?_⟩)
          · simp [spreading, hnew, Act.spread]
          · have hlen := List.length_erase_add_one he
            simp [working, hnew, Act.work]
            omega
      | filled f R ts hold hnew =>
          obtain ⟨⟨r, hr, -⟩, hm⟩ := heiEnd_cases s f
          rw [hr]
          refine rank_lt_of_same rfl Iff.rfl (.inr ⟨?_, ?_⟩)
          · rcases hm with hm | hm <;> simp [spreading, hold, hnew, hm, Act.spread, State.setFill]
          · rcases hm with hm | hm <;> simp [working, hold, hnew, hm, Act.work, State.setFill]
      | completed f R ts hold hnew =>
          by_cases hzero : s.ffout - 1 = 0
          · have hlt : s.val < (hetComplete s).1.val ∧ s.val < 2 := by
              rcases hval with ⟨hval, hlast⟩ | ⟨hval, hlast, -⟩
              · simp [hetComplete, hzero, hlast, hval, secondCheck, State.survey]
              · simp [hetComplete, hzero, hlast, hval, lastCheck, State.survey]
            have hnot : ¬ (s.ffout = 0 ∧ s.upcalls = []) := fun hz => hffout.ne' hz.1
            rw [rank, rank, Prod.Lex.toLex_lt_toLex, if_neg hnot]
            left
            simp only
            split <;> omega
          · have hcomplete : hetComplete s = ({ s with ffout := s.ffout - 1 }, []) := by
              simp [hetComplete, hzero]
            rw [hcomplete] at hnew ⊢
            refine rank_lt_of_same rfl ?_ (.inr ⟨?_, ?_⟩)
            · simp only [hzero, hffout.ne', false_and]
            · simp [spreading, hold, hnew, Act.spread]
            · simp [working, hold, hnew, Act.work]
  | done hffout hidle L hup hfar => exact (hidle.not_step h.books hffout hstep).elim

theorem exists_next_of_pending (h : pending s.threads ≠ 0) : ∃ x s', next hn s x = some s' := by
  obtain ⟨i, a, k, hts⟩ := exists_run_of_pending h
  exact ⟨.run i, { (exec hn s a).1 with threads := s.threads.set i ((exec hn s a).2 ++ k) },
    by simp [next, hts]⟩

theorem pending_ne_zero {w : Act n → ℕ} (h : 0 < ((pending s.threads).map w).sum) :
    pending s.threads ≠ 0 := by
  intro hzero
  simp [hzero] at h

/-- **The request is never stuck** before the client has been told. -/
theorem Inv.exists_next (h : Inv es graph hn s) (hup : s.upcalls = []) :
    ∃ x s', next hn s x = some s' := by
  cases h.phase with
  | survey hffout hsurvey _ hval =>
      by_cases hzero : s.outstanding = 0
      · have hlast := hsurvey.last
        rw [if_pos hzero] at hlast
        exact exists_next_of_pending (pending_ne_zero (w := Act.concludes) (by omega))
      · have hpos : 0 < (Finset.univ.filter fun c => (s.cnsm c).isSome = false).card := by
          have := hsurvey.outstanding
          omega
        obtain ⟨c, hc⟩ := Finset.card_pos.1 hpos
        have honce := hsurvey.once c
        rw [(Finset.mem_filter.1 hc).2, if_neg (by simp)] at honce
        rcases Nat.eq_zero_or_pos (s.asked.count c) with hasked | hasked
        · exact exists_next_of_pending (pending_ne_zero (w := Act.asks c) (by omega))
        · exact ⟨.furthest c, answer hn s c, if_pos (List.count_pos_iff.1 hasked)⟩
  | filling hffout hwide hidle _ hval =>
      by_contra hno
      have hpending : pending s.threads = 0 := by
        by_contra hne
        exact hno (exists_next_of_pending hne)
      have hfollows : s.follows = [] := by
        refine List.eq_nil_iff_forall_not_mem.2 fun x hx => hno ⟨.follow x.1 x.2, _, if_pos hx⟩
      have hinserts : s.inserts = [] := by
        refine List.eq_nil_iff_forall_not_mem.2 fun x hx => hno ⟨.insert x.1 x.2, _, if_pos hx⟩
      have hopen : openFills s = ∅ := by
        refine Finset.eq_empty_of_forall_notMem fun f hf => ?_
        have := (mem_openFills.1 hf).2
        simp [travs, puts, ends, hpending, hfollows, hinserts] at this
      have := h.books.ffout
      simp only [toStart, hpending, hopen] at this
      simp at this
      omega
  | done hffout hidle L hup' hfar => simp [hup] at hup'

/-- At the start all children are about to be asked. -/
theorem Inv.init [NeZero n] (hpart : ∀ c, Part es (graph c)) : Inv es graph hn (State.init graph) := by
  have hpending : pending (State.init graph).threads = (askAll n : Multiset (Act n)) := by
    simp [pending, State.init]
  have hsum {w : Act n → ℕ} (hw : ∀ c, w (.furthest c) = 0) :
      ((pending (State.init graph).threads).map w).sum = 0 := by
    rw [hpending]
    refine Multiset.sum_eq_zero fun k hk => ?_
    obtain ⟨a, ha, rfl⟩ := Multiset.mem_map.1 hk
    obtain ⟨c, rfl⟩ := mem_askAll (by simpa using ha)
    exact hw c
  refine ⟨⟨fun f _ => ⟨?_, ?_, ?_⟩, ?_, ?_, ?_, fun f => .inl ?_, ?_⟩, ⟨hpart, fun _ _ he => he, ?_, ?_⟩, rfl,
    .survey rfl ?_ rfl (.inl ⟨Nat.zero_le 1, rfl⟩)⟩
  · rw [travs, hsum fun _ => rfl]
    rfl
  · rw [puts, hsum fun _ => rfl]
    rfl
  · rw [ends, hsum fun _ => rfl]
  · exact fun f hf => absurd hf (Nat.not_lt_zero f)
  · exact fun f hf => absurd hf (Nat.not_lt_zero f)
  · exact fun f hf => absurd hf (Nat.not_lt_zero f)
  · rw [ends, hsum fun _ => rfl]
  · rw [toStart, hsum fun _ => rfl]
    simp [openFills, State.init]
  · intro f l hl
    obtain ⟨c, hc⟩ := mem_askAll (by simpa [hpending] using hl)
    simp at hc
  · exact fun x hx => absurd hx (List.not_mem_nil)
  · exact .begin rfl rfl rfl (R := 0) (by simp [hpending]) (by simp)

/-- What the client is told is the answer of all graphs together. -/
theorem Inv.told (hf : IsForest es) (hes : ∀ e ∈ es, ∃ c, e ∈ (graph c).edges)
    {u : LameHeadNodeGraph} (hu : Part es u) (hedges : ∀ e, e ∈ u.edges ↔ e ∈ es)
    (h : Inv es graph hn s) [NeZero n] {L : Finset HeadNode} (hL : ∀ t, t ∈ L ↔ Far u hn t) :
    s.upcalls = [] ∨
      s.upcalls = [.complete L.sort] ∧ ∀ c, headFurthest (s.graph c) hn = .ok L.sort := by
  cases h.phase with
  | survey hffout hsurvey hup hval => exact .inl hup
  | filling hffout hwide hidle hup hval => exact .inl hup
  | done hffout hidle L' hup hfar =>
      have hunion (e : HeadEdge) : e ∈ u.edges ↔ ∃ c, e ∈ (s.graph c).edges := by
        rw [hedges]
        constructor
        · intro he
          obtain ⟨c, hc⟩ := hes e he
          exact ⟨c, h.grown.kept c e hc⟩
        · rintro ⟨c, hc⟩
          exact (h.grown.part c).sub e hc
      have hagree (c c' : Fin n) (t : HeadNode) (ht : Far (s.graph c) hn t) :
          Far (s.graph c') hn t := (hfar c' t).1 ((hfar c t).2 ht)
      have heq (c : Fin n) (t : HeadNode) : t ∈ L ↔ Far (s.graph c) hn t :=
        (hL t).trans (far_of_agree hf hu hunion hagree c t)
      obtain rfl : L' = L := by
        ext t
        rw [hfar 0 t, heq 0 t]
      refine .inr ⟨hup, fun c => ?_⟩
      obtain ⟨L'', hrun, hfar'⟩ :=
        (h.grown.part c).ok.headFurthest_far ((h.grown.part c).acyclic hf) hn
      obtain rfl : L'' = L' := by
        ext t
        rw [hfar' t, hfar c t]
      exact hrun

/-- **The request ends with the furthest nodes of the union.**  The children hold parts of one forest.
Then every run ends, a run that has not told the client can go on, and it tells the client once: the
furthest nodes of what all children held at the start, which by then every child gives by itself.  The
last survey never fails. -/
theorem furthest_of_union [NeZero n] {forest : List HeadEdge} (hforest : IsForest forest)
    (held : Fin n → List HeadEdge) (hheld : ∀ c, ∀ e ∈ held c, e ∈ forest) (union : List HeadEdge)
    (hunion : ∀ e, e ∈ union ↔ ∃ c, e ∈ held c) (hn : HeadNode) :
    ∃ l, headFurthest (inserted union) hn = .ok l ∧
      Ends (next hn) (fun _ _ => True) (State.init fun c => inserted (held c)) ∧
      ∀ s, Reach (next hn) (fun _ _ => True) (State.init fun c => inserted (held c)) s →
        s.threw = false ∧
          (s.upcalls = [] ∧ (∃ x s', next hn s x = some s') ∨
            s.upcalls = [.complete l] ∧ ∀ c, headFurthest (s.graph c) hn = .ok l) := by
  have hsub : ∀ e ∈ union, e ∈ forest := by
    intro e he
    obtain ⟨c, hc⟩ := (hunion e).1 he
    exact hheld c e hc
  have hf := hforest.mono hsub
  obtain ⟨hu, hedges⟩ := Part.inserted hf fun e (he : e ∈ union) => he
  have hpart (c : Fin n) : Part union (inserted (held c)) ∧
      ∀ e, e ∈ (inserted (held c)).edges ↔ e ∈ held c :=
    Part.inserted hf fun e he => (hunion e).2 ⟨c, he⟩
  have hes : ∀ e ∈ union, ∃ c, e ∈ (inserted (held c)).edges := by
    intro e he
    obtain ⟨c, hc⟩ := (hunion e).1 he
    exact ⟨c, ((hpart c).2 e).2 hc⟩
  obtain ⟨L, hrun, hL⟩ := hu.ok.headFurthest_far (hu.acyclic hf) hn
  have hinit : Inv union (fun c => inserted (held c)) hn (State.init fun c => inserted (held c)) :=
    .init fun c => (hpart c).1
  refine ⟨L.sort, hrun, ?_, fun s hs => ?_⟩
  · exact ends_of_lt (m := rank) (fun s x s' h _ hnext =>
      ⟨h.step hf hes (step_of_next hnext), h.rank_lt (step_of_next hnext)⟩) hinit
  · have h : Inv union (fun c => inserted (held c)) hn s :=
      hs.inv hinit fun s x s' h _ hnext => h.step hf hes (step_of_next hnext)
    refine ⟨h.threw, ?_⟩
    rcases h.told hf hes hu hedges hL with hup | htold
    · exact .inl ⟨hup, h.exists_next hup⟩
    · exact .inr htold

/-- A history that forks after its first root. -/
def fork : List HeadEdge := [⟨[0], [], [1]⟩, ⟨[0], [1], [1, 2]⟩, ⟨[0], [1], [1, 3]⟩]

theorem isForest_fork : IsForest fork where
  acyclic := Worklist.acyclic_of_rank (fun x => x.ref.length) (by decide)
  pred a b v ha hb := by
    have h : ∀ x ∈ fork.map HeadEdge.pair, ∀ y ∈ fork.map HeadEdge.pair, x.2 = y.2 → x.1 = y.1 := by
      decide
    exact h (a, v) ha (b, v) hb rfl

/-- Two children, each with one of the branches. -/
theorem furthest_of_union_fork :
    ∃ l, headFurthest (inserted fork) ⟨[0], []⟩ = .ok l ∧
      Ends (next ⟨[0], []⟩) (fun _ _ => True)
        (State.init fun c : Fin 2 => inserted (if c = 0 then fork.take 2 else fork.drop 2)) ∧
      ∀ s, Reach (next ⟨[0], []⟩) (fun _ _ => True)
          (State.init fun c : Fin 2 => inserted (if c = 0 then fork.take 2 else fork.drop 2)) s →
        s.threw = false ∧
          (s.upcalls = [] ∧ (∃ x s', next ⟨[0], []⟩ s x = some s') ∨
            s.upcalls = [.complete l] ∧ ∀ c, headFurthest (s.graph c) ⟨[0], []⟩ = .ok l) :=
  furthest_of_union isForest_fork (fun c : Fin 2 => if c = 0 then fork.take 2 else fork.drop 2)
    (by decide) fork (by simp [fork, or_assoc]) ⟨[0], []⟩

end Furthest

end Utopfs
