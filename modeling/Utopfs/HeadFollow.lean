/-
**Following a head node.**

`head_follow_async` and `head_furthest_async` share a loop that replaces seeds by their children, the
smallest first, and remembers nothing else.  On an accepted history with a cycle it goes round for good;
where roots join again it can come to a node a second time and then reports the edges that start there
again.  Both depend on what is reached from the seeds alone, the second also on the order of the nodes.

Main definitions:

* `Head.IsRoot`, `Head.Known`, `Head.Follows` — the edges on the paths from a seed;
* `Head.FollowedOnce` — each of them is reported once, and an unknown seed is an error;
* `Head.Terminates` — the loop comes to an end.

Main results:

* `Head.terminates_iff` — it does exactly if no node that is reached lies on a cycle;
* `Head.followedOnce_iff` — the edges are reported once exactly if no node waits for another in vain.
-/

import Mathlib.Tactic
import Utopfs.HeadNodeGraph

set_option relaxedAutoImplicit false
set_option autoImplicit false

namespace Utopfs

namespace Head

open Relation Worklist

variable {g : LameHeadNodeGraph}

/-! ### Termination -/

/-- The loop of the two traversals, started with the seeds of a node and with any edges collected so
far, comes to an end. -/
def Terminates (g : LameHeadNodeGraph) (seed : HeadNode) : Prop :=
  ∀ found, ∃ fuel r, replaceSeeds g fuel (g.seeds seed) found = .ok r

/-- The traversal goes round until the rounds are used up. -/
def Hangs {α : Type} (r : Except Exn α) : Prop := ∃ what, r = .error (.hang what)

/-- A loop that does not end has used up its rounds. -/
theorem hangs_of_replaceSeeds : ∀ (fuel : ℕ) (seeds : Finset HeadNode) (found : List HeadEdge),
    (∃ r, replaceSeeds g fuel seeds found = .ok r) ∨ Hangs (replaceSeeds g fuel seeds found) := by
  intro fuel
  induction fuel with
  | zero => exact fun _ _ => .inr ⟨_, rfl⟩
  | succ fuel ih =>
      intro seeds found
      rcases replaceSeeds_succ g fuel seeds found with ⟨-, hrun⟩ | ⟨n, seeds', -, -, hrun⟩
      · exact .inl ⟨_, hrun⟩
      · rw [hrun]
        exact ih seeds' _

/-- The rounds of the model are enough for a loop that comes to an end. -/
theorem GraphOk.replaceSeeds_rounds (h : GraphOk g) (seed : HeadNode) (found : List HeadEdge)
    (ha : AcyclicFrom g.pairs (g.seeds seed)) :
    ∃ r, replaceSeeds g g.rounds (g.seeds seed) found = .ok r := by
  have hfuel : potential g.pairs (g.seeds seed) < g.rounds := by
    rw [LameHeadNodeGraph.rounds, ← length_pairs]
    exact potential_lt_pow (by rw [length_pairs]; exact h.card_seeds_le seed)
  obtain ⟨seeds', found', hrun, -⟩ := replaceSeeds_spec g.rounds (g.seeds seed) found ha hfuel
  exact ⟨_, hrun⟩

theorem GraphOk.follow_terminates_iff (h : GraphOk g) (seed : HeadNode) :
    Terminates g seed ↔ AcyclicFrom g.pairs (g.seeds seed) := by
  constructor
  · intro hterm
    obtain ⟨fuel, r, hrun⟩ := hterm []
    obtain ⟨ns, hns, -⟩ := expands_of_replaceSeeds fuel (g.seeds seed) [] r hrun
    exact hns.acyclicFrom
  · intro ha found
    obtain ⟨r, hrun⟩ := h.replaceSeeds_rounds seed found ha
    exact ⟨g.rounds, r, hrun⟩

theorem GraphOk.hangs_furthest_iff (h : GraphOk g) (seed : HeadNode) :
    Hangs (headFurthest g seed) ↔ ¬ AcyclicFrom g.pairs (g.seeds seed) := by
  rcases hangs_of_replaceSeeds g.rounds (g.seeds seed) [] with ⟨r, hrun⟩ | ⟨what, hrun⟩
  · obtain ⟨ns, hns, -⟩ := expands_of_replaceSeeds _ _ _ _ hrun
    refine iff_of_false ?_ (not_not.2 hns.acyclicFrom)
    rintro ⟨what, hhang⟩
    rw [headFurthest, hrun] at hhang
    simp only [bind, Except.bind] at hhang
    split at hhang <;> simp [pure, Except.pure, throw, throwThe, MonadExceptOf.throw] at hhang
  · refine iff_of_true ⟨what, by rw [headFurthest, hrun]; rfl⟩ fun ha => ?_
    obtain ⟨r, hok⟩ := h.replaceSeeds_rounds seed [] ha
    rw [hok] at hrun
    simp at hrun

/-- The edges that `head_follow_async` has collected before the loop. -/
abbrev LameHeadNodeGraph.startEdges (g : LameHeadNodeGraph) (seed : HeadNode) : List HeadEdge :=
  if seed.ref = [] ∨ seed ∈ g.edges.map HeadEdge.root then [] else g.kids seed

theorem headFollow_eq {seed : HeadNode} (hne : g.seeds seed ≠ ∅) : headFollow g seed =
    (replaceSeeds g g.rounds (g.seeds seed) (g.startEdges seed)).map Prod.snd := by
  rw [headFollow]
  simp only [if_neg hne, bind, Except.bind]
  cases replaceSeeds g g.rounds (g.seeds seed) (g.startEdges seed) <;> rfl

theorem GraphOk.hangs_follow_iff (h : GraphOk g) (seed : HeadNode) :
    Hangs (headFollow g seed) ↔ ¬ AcyclicFrom g.pairs (g.seeds seed) := by
  by_cases hempty : g.seeds seed = ∅
  · refine iff_of_false ?_ (not_not.2 ?_)
    · rintro ⟨what, hhang⟩
      rw [headFollow] at hhang
      simp [hempty, throw, throwThe, MonadExceptOf.throw, bind, Except.bind] at hhang
    · rintro v ⟨s, hs, -⟩
      simp [hempty] at hs
  · rcases hangs_of_replaceSeeds g.rounds (g.seeds seed) (g.startEdges seed) with
      ⟨r, hrun⟩ | ⟨what, hrun⟩
    · obtain ⟨ns, hns, -⟩ := expands_of_replaceSeeds _ _ _ _ hrun
      refine iff_of_false ?_ (not_not.2 hns.acyclicFrom)
      rintro ⟨what, hhang⟩
      rw [headFollow_eq hempty, hrun] at hhang
      simp [Except.map] at hhang
    · refine iff_of_true ⟨what, by rw [headFollow_eq hempty, hrun]; rfl⟩ fun ha => ?_
      obtain ⟨r, hok⟩ := h.replaceSeeds_rounds seed (g.startEdges seed) ha
      rw [hok] at hrun
      simp at hrun

/-- **When the traversals terminate.**  After any sequence of calls of `insert_head`, the loop of the
traversals from a seed comes to an end exactly if no node that is reached from it lies on a cycle of the
stored edges; and exactly then both traversals return. -/
theorem terminates_iff (es : List HeadEdge) (seed : HeadNode) :
    (Terminates (inserted es) seed ↔
      AcyclicFrom (inserted es).pairs ((inserted es).seeds seed)) ∧
    ((¬ Hangs (headFollow (inserted es) seed) ∧ ¬ Hangs (headFurthest (inserted es) seed)) ↔
      AcyclicFrom (inserted es).pairs ((inserted es).seeds seed)) := by
  have h := GraphOk.inserted es
  refine ⟨h.follow_terminates_iff seed, ?_⟩
  rw [h.hangs_follow_iff, h.hangs_furthest_iff, not_not, and_self]

/-- Two roots each of which replaces the other. -/
def twoCycle : List HeadEdge := [⟨[0], [1], [2]⟩, ⟨[0], [2], [1]⟩]

/-- **Two accepted edges on which the traversals do not terminate.** -/
theorem not_terminates : twoCycle.foldlM insertHead .empty = .ok (inserted twoCycle) ∧
    ¬ Terminates (inserted twoCycle) ⟨[0], [1]⟩ ∧
    Hangs (headFollow (inserted twoCycle) ⟨[0], [1]⟩) ∧
    Hangs (headFurthest (inserted twoCycle) ⟨[0], [1]⟩) := by
  have hedge (a b : Octets) (hab : (⟨[0], a, b⟩ : HeadEdge) ∈ (inserted twoCycle).edges) :
      Edge (inserted twoCycle).pairs ⟨[0], a⟩ ⟨[0], b⟩ := mem_pairs.2 ⟨_, hab, rfl, rfl⟩
  have hno : ¬ AcyclicFrom (inserted twoCycle).pairs ((inserted twoCycle).seeds ⟨[0], [1]⟩) := by
    intro ha
    refine ha ⟨[0], [1]⟩ ⟨⟨[0], [1]⟩, by decide, .refl⟩ ?_
    exact .head (hedge [1] [2] (by decide)) (.single (hedge [2] [1] (by decide)))
  have h := GraphOk.inserted twoCycle
  exact ⟨rfl, mt (h.follow_terminates_iff _).1 hno, (h.hangs_follow_iff _).2 hno,
    (h.hangs_furthest_iff _).2 hno⟩

/-! ### Every edge once -/

/-- A root node: an edge starts in it and none ends. -/
def IsRoot (g : LameHeadNodeGraph) (r : HeadNode) : Prop :=
  (∃ u, (r, u) ∈ g.pairs) ∧ ∀ u, (u, r) ∉ g.pairs

/-- The seed is the end or the start of a stored edge; without reference, its file system has a root
node. -/
def Known (g : LameHeadNodeGraph) (seed : HeadNode) : Prop :=
  if seed.ref = [] then ∃ r, IsRoot g r ∧ r.fstag = seed.fstag
  else (∃ u, (u, seed) ∈ g.pairs) ∨ ∃ u, (seed, u) ∈ g.pairs

/-- A stored edge on a path from the seed; without reference, from a root node of its file system. -/
def Follows (g : LameHeadNodeGraph) (seed : HeadNode) (e : HeadEdge) : Prop :=
  e ∈ g.edges ∧
    if seed.ref = [] then
      ∃ r, IsRoot g r ∧ r.fstag = seed.fstag ∧ ReflTransGen (Edge g.pairs) r e.prev
    else ReflTransGen (Edge g.pairs) seed e.prev

/-- **The edges that follow a seed are reported once**, and a seed that is not known is an error. -/
structure FollowedOnce (g : LameHeadNodeGraph) (seed : HeadNode) : Prop where
  known : Known g seed →
    ∃ l, headFollow g seed = .ok l ∧ l.Nodup ∧ ∀ e, e ∈ l ↔ Follows g seed e
  unknown : ¬ Known g seed → headFollow g seed = .error (.notFoundError "no starting seed found")

theorem GraphOk.mem_seeds_start (h : GraphOk g) {seed : HeadNode} (hseed : seed.ref = [])
    (r : HeadNode) : r ∈ g.seeds seed ↔ IsRoot g r ∧ r.fstag = seed.fstag := by
  rw [LameHeadNodeGraph.seeds, if_pos hseed, Finset.mem_filter, h.roots r, IsRoot]

theorem GraphOk.known_iff (h : GraphOk g) (seed : HeadNode) :
    Known g seed ↔ g.seeds seed ≠ ∅ := by
  rw [Known, ← Finset.nonempty_iff_ne_empty]
  by_cases hseed : seed.ref = []
  · rw [if_pos hseed]
    exact exists_congr fun r => (h.mem_seeds_start hseed r).symm
  · rw [if_neg hseed, LameHeadNodeGraph.seeds, if_neg hseed]
    by_cases hin : seed ∈ g.edges.map HeadEdge.root
    · rw [if_pos hin]
      exact iff_of_true (.inl (mem_map_root.1 hin)) (Finset.singleton_nonempty seed)
    · rw [if_neg hin, or_iff_right (mt mem_map_root.2 hin)]
      exact exists_congr fun u => mem_kids_root.symm

theorem GraphOk.follows_iff (h : GraphOk g) (seed : HeadNode) (e : HeadEdge) :
    Follows g seed e ↔ e ∈ g.edges ∧
      (Reaches g.pairs (g.seeds seed) e.prev ∨ (seed.ref ≠ [] ∧ e.prev = seed)) := by
  refine and_congr_right fun he => ?_
  by_cases hseed : seed.ref = []
  · rw [if_pos hseed, or_iff_left fun hne => hne.1 hseed]
    refine exists_congr fun r => ?_
    rw [h.mem_seeds_start hseed, and_assoc]
  · rw [if_neg hseed, LameHeadNodeGraph.seeds, if_neg hseed]
    by_cases hin : seed ∈ g.edges.map HeadEdge.root
    · rw [if_pos hin]
      constructor
      · exact fun hp => .inl ⟨seed, Finset.mem_singleton_self _, hp⟩
      · rintro (⟨s, hs, hp⟩ | ⟨-, heq⟩)
        · rwa [Finset.mem_singleton.1 hs] at hp
        · rw [heq]
    · rw [if_neg hin]
      constructor
      · intro hp
        rcases ReflTransGen.cases_head hp with heq | ⟨c, hc, hp⟩
        · exact .inr ⟨hseed, heq.symm⟩
        · exact .inl ⟨c, mem_kids_root.2 hc, hp⟩
      · rintro (⟨s, hs, hp⟩ | ⟨-, heq⟩)
        · exact .head (mem_kids_root.1 hs) hp
        · rw [heq]

theorem GraphOk.nodup_kids (h : GraphOk g) (n : HeadNode) : (g.kids n).Nodup := h.edges_nodup.filter _

/-- The edges are collected once exactly if the nodes are replaced once. -/
theorem GraphOk.nodup_flatMap_kids (h : GraphOk g) {seeds : Finset HeadNode} {ns : List HeadNode}
    (hns : Expands g.pairs seeds ns) : (ns.flatMap g.kids).Nodup ↔ ns.Nodup := by
  rw [List.nodup_flatMap, and_iff_right fun n _ => h.nodup_kids n]
  refine List.Pairwise.iff_of_mem fun {a b} ha _ => ⟨?_, fun hab e hea heb => ?_⟩
  · -- a node that is replaced has children
    rintro hdisj rfl
    have hkids : g.kids a ≠ [] := kids_ne_nil.2 (by simpa [Sink] using ((hns.mem_iff a).1 ha).2)
    obtain ⟨e, he⟩ := List.exists_mem_of_ne_nil _ hkids
    exact hdisj he he
  · exact hab ((mem_kids.1 hea).2.symm.trans (mem_kids.1 heb).2)

/-- The edges collected before the loop are not collected again. -/
theorem GraphOk.nodup_found (h : GraphOk g) {seed : HeadNode} {ns : List HeadNode}
    (hns : Expands g.pairs (g.seeds seed) ns) :
    (g.startEdges seed ++ ns.flatMap g.kids).Nodup ↔ ns.Nodup := by
  rw [← h.nodup_flatMap_kids hns]
  by_cases hin : seed.ref = [] ∨ seed ∈ g.edges.map HeadEdge.root
  · rw [LameHeadNodeGraph.startEdges, if_pos hin, List.nil_append]
  · rw [LameHeadNodeGraph.startEdges, if_neg hin, List.nodup_append',
      and_iff_right (h.nodup_kids seed)]
    refine and_iff_left fun e he he' => ?_
    obtain ⟨n, hn, hen⟩ := List.mem_flatMap.1 he'
    obtain rfl : n = seed := (mem_kids.1 hen).2.symm.trans (mem_kids.1 he).2
    -- no edge ends in the seed, so nothing leads back to it
    have hno : ¬ ∃ u, (u, n) ∈ g.pairs := fun hu => hin (.inr (mem_map_root.2 hu))
    obtain ⟨s, hs, hp⟩ := ((hns.mem_iff n).1 hn).1
    rw [LameHeadNodeGraph.seeds, if_neg fun hr => hin (.inl hr),
      if_neg fun hr => hin (.inr hr)] at hs
    rcases ReflTransGen.cases_tail hp with rfl | ⟨c, -, hc⟩
    · exact hno ⟨_, mem_kids_root.1 hs⟩
    · exact hno ⟨c, hc⟩

/-- **When every edge that follows a seed is reported once.**  After calls of `insert_head` whose stored
edges have no cycle, `head_follow_async` reports each edge on a path from the seed once and no other, and
an unknown seed as an error, exactly if there is no clash of nodes that are reached: no two nodes `n < m`
such that `m` leads to `n`, `n` has children, and from where `m` is reached there is also a way to `n`
through nodes smaller than `m`. -/
theorem followedOnce_iff (es : List HeadEdge) (ha : Acyclic (inserted es).pairs) (seed : HeadNode) :
    FollowedOnce (inserted es) seed ↔
      ∀ m n, ¬ Clash (inserted es).pairs ((inserted es).seeds seed) m n := by
  have h := GraphOk.inserted es
  rcases h.headFollow_spec ha seed with ⟨hempty, herr⟩ | ⟨l, hl, hmem⟩
  · -- an unknown seed reaches nothing
    have hunknown : ¬ Known (inserted es) seed := by
      rw [h.known_iff, not_not]
      exact hempty
    refine iff_of_true ⟨fun hk => absurd hk hunknown, fun _ => herr⟩ fun m n hc => ?_
    obtain ⟨-, -, -, B, hB, ⟨s, hs, -⟩, -⟩ := hc
    cases hB with
    | start => simp [hempty] at hs
    | kids b hb =>
        obtain ⟨t, ht, -⟩ := hb
        simp [hempty] at ht
  · have hne : (inserted es).seeds seed ≠ ∅ := by
      intro hempty
      rw [headFollow] at hl
      simp [hempty, throw, throwThe, MonadExceptOf.throw, bind, Except.bind] at hl
    have hknown := (h.known_iff seed).2 hne
    obtain ⟨r, hrun⟩ := h.replaceSeeds_rounds seed ((inserted es).startEdges seed) (ha.acyclicFrom _)
    obtain ⟨ns, hns, hr⟩ := expands_of_replaceSeeds _ _ _ _ hrun
    have hlr : l = r.2 := by
      rw [headFollow_eq hne, hrun] at hl
      exact (Except.ok.inj hl).symm
    rw [← hns.nodup_iff, ← h.nodup_found hns, ← hr, ← hlr]
    constructor
    · intro honce
      obtain ⟨l', hl', hnd, -⟩ := honce.known hknown
      rw [hl] at hl'
      obtain rfl := Except.ok.inj hl'
      exact hnd
    · intro hnd
      exact ⟨fun _ => ⟨l, hl, hnd, fun e => (hmem e).trans (h.follows_iff seed e).symm⟩,
        fun hno => absurd hknown hno⟩

/-- A root that replaces two nodes, and the keys grow along the edges. -/
def earlyJoin : List HeadEdge :=
  [⟨[0], [], [1]⟩, ⟨[0], [1], [2]⟩, ⟨[0], [1], [3]⟩, ⟨[0], [2], [4]⟩, ⟨[0], [3], [4]⟩, ⟨[0], [4], [5]⟩]

/-- The edge that follows the join is reported once. -/
theorem followedOnce_earlyJoin : FollowedOnce (inserted earlyJoin) ⟨[0], [1]⟩ ∧
    (inserted earlyJoin).pairs.length = 6 := by
  have hlt : ∀ e ∈ (inserted earlyJoin).pairs, e.1 < e.2 := by decide
  have hrank : ∀ e ∈ (inserted earlyJoin).pairs, e.1.ref.sum < e.2.ref.sum := by decide
  have ha : Acyclic (inserted earlyJoin).pairs := by
    refine acyclic_of_rank (fun n => n.ref.sum.toNat) fun e he => ?_
    exact UInt8.lt_iff_toNat_lt.1 (hrank e he)
  exact ⟨(followedOnce_iff earlyJoin ha ⟨[0], [1]⟩).2 (not_clash_of_lt hlt), by decide⟩

/-- A root that replaces two nodes, of which the one with the larger key comes later. -/
def lateJoin : List HeadEdge :=
  [⟨[0], [3], [2]⟩, ⟨[0], [2], [4]⟩, ⟨[0], [1], [2]⟩, ⟨[0], [1], [3]⟩]

/-- The place of a node of `lateJoin` in its history. -/
def lateRank (n : HeadNode) : ℕ :=
  if n.ref = [1] then 0 else if n.ref = [3] then 1 else if n.ref = [2] then 2 else 3

/-- **An edge that is reported twice.**  All four edges are accepted, and there is no cycle. -/
theorem not_followedOnce : lateJoin.foldlM insertHead .empty = .ok (inserted lateJoin) ∧
    Acyclic (inserted lateJoin).pairs ∧
    headFollow (inserted lateJoin) ⟨[0], []⟩ = .ok [⟨[0], [1], [2]⟩, ⟨[0], [1], [3]⟩, ⟨[0], [2], [4]⟩,
      ⟨[0], [3], [2]⟩, ⟨[0], [2], [4]⟩] ∧
    ¬ FollowedOnce (inserted lateJoin) ⟨[0], []⟩ := by
  have hrank : ∀ e ∈ (inserted lateJoin).pairs, lateRank e.1 < lateRank e.2 := by decide
  have hrun : headFollow (inserted lateJoin) ⟨[0], []⟩ = .ok [⟨[0], [1], [2]⟩, ⟨[0], [1], [3]⟩,
      ⟨[0], [2], [4]⟩, ⟨[0], [3], [2]⟩, ⟨[0], [2], [4]⟩] := by decide +kernel
  refine ⟨rfl, acyclic_of_rank lateRank hrank, hrun, fun honce => ?_⟩
  by_cases hk : Known (inserted lateJoin) ⟨[0], []⟩
  · obtain ⟨l, hl, hnd, -⟩ := honce.known hk
    rw [hrun] at hl
    obtain rfl := Except.ok.inj hl
    exact absurd hnd (by decide)
  · have := honce.unknown hk
    rw [hrun] at this
    simp at this

end Head

end Utopfs
