/-
**Head nodes in parts of a forest.**

As long as every root replaces one node, and no two roots are the same, the edges of all histories form
a forest.  Stores that hold parts of it can be compared by their furthest nodes alone: where they agree
on the nodes furthest from a seed, these are the furthest nodes of what they hold together.  An edge of
the forest that is inserted into a part of it is stored, and following the start of a file system gives
all its edges.

Main definitions:

* `Head.IsForest` — the edges form a forest;
* `Head.Part` — a graph that holds a part of them.

Main results:

* `Head.Part.insert` — inserting an edge of the forest stores it;
* `Head.far_of_agree` — **agreement is the answer of the union**;
* `Head.far_congr` — the answer depends on the edges with the tag of the seed alone;
* `Head.Part.follow_start` — the edges that follow the start of a file system.
-/

import Mathlib.Tactic
import Utopfs.HeadNodeGraph

set_option relaxedAutoImplicit false
set_option autoImplicit false

namespace Utopfs

namespace Head

open Relation Worklist

/-- The edges form a forest: no cycles, and no two edges to one root. -/
def IsForest (es : List HeadEdge) : Prop := Forest (es.map HeadEdge.pair)

/-- A graph that holds some of the edges. -/
structure Part (es : List HeadEdge) (g : LameHeadNodeGraph) : Prop where
  ok : GraphOk g
  sub : ∀ e ∈ g.edges, e ∈ es

variable {es : List HeadEdge} {g : LameHeadNodeGraph}

theorem pairs_eq (g : LameHeadNodeGraph) : g.pairs = g.edges.map HeadEdge.pair := rfl

/-- Edges to the same root are the same. -/
theorem IsForest.eq_of_root (hf : IsForest es) {e e' : HeadEdge} (he : e ∈ es) (he' : e' ∈ es)
    (hroot : e.root = e'.root) : e = e' := by
  have hprev := hf.pred e.prev e'.prev e.root (List.mem_map_of_mem (f := HeadEdge.pair) he)
    (hroot ▸ List.mem_map_of_mem (f := HeadEdge.pair) he')
  exact HeadEdge.ext_pair hprev hroot

theorem IsForest.prev_ne_root (hf : IsForest es) {e : HeadEdge} (he : e ∈ es) : e.prev ≠ e.root := by
  intro heq
  have hedge : Edge (es.map HeadEdge.pair) e.prev e.root := List.mem_map_of_mem (f := HeadEdge.pair) he
  exact hf.acyclic e.prev (.single (heq ▸ hedge))

theorem IsForest.mono (hf : IsForest es) {es' : List HeadEdge} (hsub : ∀ e ∈ es', e ∈ es) :
    IsForest es' := by
  have hpairs : es'.map HeadEdge.pair ⊆ es.map HeadEdge.pair := List.map_subset _ hsub
  exact ⟨hf.acyclic.mono hpairs, fun a b v ha hb => hf.pred a b v (hpairs ha) (hpairs hb)⟩

theorem IsForest.noShortcut (hf : IsForest es) : NoShortcut es :=
  fun _ _ _ he₂ _ he _ hroot => .inr (hf.eq_of_root he₂ he hroot)

theorem Part.pairs_subset (h : Part es g) : g.pairs ⊆ es.map HeadEdge.pair := by
  intro p hp
  obtain ⟨e, he, rfl⟩ := List.mem_map.1 (pairs_eq g ▸ hp)
  exact List.mem_map_of_mem (h.sub e he)

theorem Part.acyclic (h : Part es g) (hf : IsForest es) : Acyclic g.pairs :=
  hf.acyclic.mono h.pairs_subset

theorem Part.forest (h : Part es g) (hf : IsForest es) : Forest g.pairs :=
  ⟨h.acyclic hf, fun a b v ha hb => hf.pred a b v (h.pairs_subset ha) (h.pairs_subset hb)⟩

/-- The graph that is built from some of the edges. -/
theorem Part.inserted (hf : IsForest es) {es' : List HeadEdge} (hsub : ∀ e ∈ es', e ∈ es) :
    Part es (inserted es') ∧ ∀ e, e ∈ (inserted es').edges ↔ e ∈ es' := by
  have hmem := mem_inserted hf.noShortcut (fun _ => hf.prev_ne_root) hsub
  exact ⟨⟨GraphOk.inserted es', fun e he => hsub e ((hmem e).1 he)⟩, hmem⟩

/-- **Inserting an edge of the forest stores it.** -/
theorem Part.insert (h : Part es g) (hf : IsForest es) {e : HeadEdge} (he : e ∈ es) :
    Part es (insertOrKeep g e) ∧ ∀ e', e' ∈ (insertOrKeep g e).edges ↔ e' ∈ g.edges ∨ e' = e := by
  have hmem := mem_insertOrKeep hf.noShortcut h.sub he (hf.prev_ne_root he)
  refine ⟨⟨h.ok.insertOrKeep e, fun e' he' => ?_⟩, hmem⟩
  rcases (hmem e').1 he' with he' | rfl
  · exact h.sub e' he'
  · exact he

/-! ### Agreement -/

/-- A path from a seed with a reference to another node is a path to the same sinks. -/
theorem Far.of_path {seed t : HeadNode} (hseed : seed.ref ≠ []) (ht : Sink g.pairs t)
    (hp : TransGen (Edge g.pairs) seed t) : Far g seed t := by
  obtain ⟨u, -, hu⟩ := TransGen.tail'_iff.1 hp
  exact ⟨ht, ⟨u, hu⟩, by rw [if_neg hseed]; exact hp.to_reflTransGen⟩

/-- **Agreement is the answer of the union.**  Where parts of a forest have the same furthest nodes,
these are the furthest nodes of all their edges together. -/
theorem far_of_agree (hf : IsForest es) {ι : Type} {part : ι → LameHeadNodeGraph}
    {u : LameHeadNodeGraph} (hu : Part es u)
    (hunion : ∀ e, e ∈ u.edges ↔ ∃ i, e ∈ (part i).edges) {seed : HeadNode}
    (hagree : ∀ i j t, Far (part i) seed t → Far (part j) seed t) (i : ι) (t : HeadNode) :
    Far u seed t ↔ Far (part i) seed t := by
  have hpairs (p : HeadNode × HeadNode) : p ∈ u.pairs ↔ ∃ j, p ∈ (part j).pairs := by
    simp only [pairs_eq, List.mem_map]
    constructor
    · rintro ⟨e, he, rfl⟩
      obtain ⟨j, hj⟩ := (hunion e).1 he
      exact ⟨j, e, hj, rfl⟩
    · rintro ⟨j, e, he, rfl⟩
      exact ⟨e, (hunion e).2 ⟨j, he⟩, rfl⟩
  have hsub (j : ι) : (part j).pairs ⊆ u.pairs := fun p hp => (hpairs p).2 ⟨j, hp⟩
  constructor
  · rintro ⟨hsink, ⟨v, hv⟩, hend⟩
    -- a part with an edge to the node has it among its furthest nodes
    have hsink' (j : ι) : Sink (part j).pairs t := fun w hw => hsink w (hsub j hw)
    suffices h : ∃ j, Far (part j) seed t by
      obtain ⟨j, hj⟩ := h
      exact hagree j i t hj
    by_cases hseed : seed.ref = []
    · rw [if_pos hseed] at hend
      obtain ⟨j, hj⟩ := (hpairs _).1 hv
      exact ⟨j, hsink' j, ⟨v, hj⟩, by rwa [if_pos hseed]⟩
    · rw [if_neg hseed] at hend
      rcases reflTransGen_iff_eq_or_transGen.1 hend with rfl | hend
      · obtain ⟨j, hj⟩ := (hpairs _).1 hv
        exact ⟨j, hsink' j, ⟨v, hj⟩, by rw [if_neg hseed]⟩
      · obtain ⟨j, hj⟩ := (hu.forest hf).path_of_agree hsub (fun p hp => (hpairs p).1 hp)
          (fun i j t ht hp => by
            have hfar := hagree i j t (.of_path hseed ht hp)
            have hpath := hfar.2.2
            rwa [if_neg hseed] at hpath) hend
        exact ⟨j, .of_path hseed (hsink' j) hj⟩
  · intro hfar
    have hsink (w : HeadNode) (hw : (t, w) ∈ u.pairs) : False := by
      obtain ⟨j, hj⟩ := (hpairs _).1 hw
      exact (hagree i j t hfar).1 w hj
    obtain ⟨-, ⟨v, hv⟩, hend⟩ := hfar
    refine ⟨hsink, ⟨v, hsub i hv⟩, ?_⟩
    split
    · rename_i hseed
      rwa [if_pos hseed] at hend
    · rename_i hseed
      rw [if_neg hseed] at hend
      exact path_mono (hsub i) hend

/-! ### One file system -/

/-- The tag of an edge is that of its nodes. -/
theorem mem_pairs_tag {g' : LameHeadNodeGraph} {tag : Octets}
    (h : ∀ e, e.fstag = tag → (e ∈ g.edges ↔ e ∈ g'.edges)) {a b : HeadNode} (hb : b.fstag = tag) :
    (a, b) ∈ g.pairs ↔ (a, b) ∈ g'.pairs := by
  rw [mem_pairs, mem_pairs]
  refine exists_congr fun e => and_congr_left fun he => h e ?_
  rw [← hb, ← he.2]
  rfl

/-- **The answer depends on the edges with the tag of the seed alone.** -/
theorem far_congr {g' : LameHeadNodeGraph} {seed : HeadNode}
    (h : ∀ e, e.fstag = seed.fstag → (e ∈ g.edges ↔ e ∈ g'.edges)) {t : HeadNode}
    (ht : Far g seed t) : Far g' seed t := by
  obtain ⟨hsink, ⟨v, hv⟩, hend⟩ := ht
  have htag : t.fstag = seed.fstag := by
    split at hend
    · exact hend
    · exact fstag_eq_of_path hend
  refine ⟨fun w hw => ?_, ⟨v, (mem_pairs_tag h htag).1 hv⟩, ?_⟩
  · have hwtag : w.fstag = seed.fstag := by
      rw [← htag]
      exact fstag_eq_of_path (.single hw)
    exact hsink w ((mem_pairs_tag h hwtag).2 hw)
  · split at hend
    · rename_i hseed
      rw [if_pos hseed]
      exact htag
    · rename_i hseed
      rw [if_neg hseed]
      clear hsink hv htag
      induction hend with
      | refl => exact .refl
      | tail hp he ih => exact ih.tail ((mem_pairs_tag h (fstag_eq_of_path (hp.tail he))).1 he)

/-- **The edges that follow the start of a file system** are those with its tag. -/
theorem Part.follow_start (h : Part es g) (hf : IsForest es) (tag : Octets) :
    (headFollow g ⟨tag, []⟩ = .error (.notFoundError "no starting seed found") ∧
      ∀ e ∈ g.edges, e.fstag ≠ tag) ∨
    ∃ l, headFollow g ⟨tag, []⟩ = .ok l ∧ ∀ e, e ∈ l ↔ e ∈ g.edges ∧ e.fstag = tag := by
  -- every edge is reached from a node at which none ends
  have hreach (e : HeadEdge) (he : e ∈ g.edges) (htag : e.fstag = tag) :
      Reaches g.pairs (g.seeds ⟨tag, []⟩) e.prev := by
    obtain ⟨s, hs, hp⟩ := exists_source (h.acyclic hf) e.prev
    refine ⟨s, ?_, hp⟩
    rw [LameHeadNodeGraph.seeds, if_pos rfl]
    refine Finset.mem_filter.2 ⟨(h.ok.roots s).2 ⟨?_, hs⟩, ?_⟩
    · rcases ReflTransGen.cases_head hp with rfl | ⟨c, hc, -⟩
      · exact ⟨e.root, mem_pairs.2 ⟨e, he, rfl, rfl⟩⟩
      · exact ⟨c, hc⟩
    · rw [← fstag_eq_of_path hp]
      exact htag
  rcases h.ok.headFollow_spec (h.acyclic hf) ⟨tag, []⟩ with ⟨hempty, herr⟩ | ⟨l, hl, hmem⟩
  · refine .inl ⟨herr, fun e he htag => ?_⟩
    obtain ⟨s, hs, -⟩ := hreach e he htag
    simp [hempty] at hs
  · refine .inr ⟨l, hl, fun e => (hmem e).trans (and_congr_right fun he => ⟨?_, fun htag => .inl ?_⟩)⟩
    · rintro (⟨s, hs, hp⟩ | ⟨hno, -⟩)
      · rw [LameHeadNodeGraph.seeds, if_pos rfl] at hs
        have htag := fstag_eq_of_path hp
        rw [(Finset.mem_filter.1 hs).2] at htag
        exact htag
      · exact absurd rfl hno
    · exact hreach e he htag

/-- Following any node gives edges of the graph. -/
theorem Part.follow_sub (h : Part es g) (hf : IsForest es) {seed : HeadNode} {l : List HeadEdge}
    (hl : headFollow g seed = .ok l) : ∀ e ∈ l, e ∈ g.edges := by
  rcases h.ok.headFollow_spec (h.acyclic hf) seed with ⟨-, herr⟩ | ⟨l', hl', hmem⟩
  · rw [herr] at hl
    simp at hl
  · rw [hl'] at hl
    obtain rfl := Except.ok.inj hl
    exact fun e he => ((hmem e).1 he).1

end Head

end Utopfs
