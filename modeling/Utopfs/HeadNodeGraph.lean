/-
**The graph of head nodes.**

`libutp/src/LameHeadNodeGraph.cpp` keeps the roots that file systems have had as a graph: an edge goes
from the head node that a root replaces to the head node of the root.  A head node is the tag of a file
system with a reference; the node without a reference stands for the start.  Stores that hold parts of
the same history answer with the nodes furthest from a seed, and exchange the edges that follow one.

Main definitions:

* `Head.HeadNode`, `Head.HeadEdge`, `Head.LameHeadNodeGraph` — the graph;
* `Head.insertHead`, `Head.inserted` — inserting edges;
* `Head.headFurthest`, `Head.headFollow` — the furthest nodes and the edges that follow a node.

Main results:

* `Head.GraphOk.inserted` — `m_roots` has the nodes where an edge starts and none ends;
* `Head.headFurthest_spec`, `Head.headFollow_spec` — the answers on a graph without cycles;
* `Head.headFurthest_sinks` — the furthest nodes are the sinks;
* `Head.inserted_exact_iff` — when the order of the insertions does not matter.
-/

import Mathlib.Data.Finset.Sort
import Mathlib.Data.List.Lex
import Mathlib.Data.Prod.Lex
import Utopfs.Except
import Utopfs.WorklistOrder

set_option relaxedAutoImplicit false
set_option autoImplicit false

namespace Utopfs

namespace Head

open Relation Worklist

/-! ### The graph -/

/-- A `std::string` of bytes. -/
abbrev Octets := List UInt8

/-- A `HeadNode`: the tag of a file system, and a reference. -/
@[ext] structure HeadNode where
  fstag : Octets
  ref : Octets
  deriving DecidableEq

/-- The order of `std::pair<std::string, std::string>`. -/
instance : LinearOrder HeadNode :=
  LinearOrder.lift' (fun n => toLex (n.fstag.map UInt8.toNat, n.ref.map UInt8.toNat)) <| by
    intro a b hab
    have hinj : Function.Injective (List.map UInt8.toNat) :=
      List.map_injective_iff.2 fun x y h => UInt8.toNat_inj.1 h
    have h := Prod.mk.inj (toLex.injective hab)
    exact HeadNode.ext (hinj h.1) (hinj h.2)

/-- What a `SignedHeadEdge` says about the graph. -/
structure HeadEdge where
  fstag : Octets
  prevref : Octets
  rootref : Octets
  deriving DecidableEq

/-- `m_prev` of a `LameEdge`. -/
def HeadEdge.prev (e : HeadEdge) : HeadNode := ⟨e.fstag, e.prevref⟩

/-- `m_root` of a `LameEdge`. -/
def HeadEdge.root (e : HeadEdge) : HeadNode := ⟨e.fstag, e.rootref⟩

/-- The edges in the order of their insertion, which `m_prevmap` and `m_rootmap` have under the keys
`m_prev` and `m_root`, and the set `m_roots`. -/
structure LameHeadNodeGraph where
  edges : List HeadEdge
  roots : Finset HeadNode

/-- `LameHeadNodeGraph()`. -/
def LameHeadNodeGraph.empty : LameHeadNodeGraph := ⟨[], ∅⟩

/-- The values under a key of `m_prevmap`. -/
def LameHeadNodeGraph.kids (g : LameHeadNodeGraph) (n : HeadNode) : List HeadEdge :=
  g.edges.filter fun e => e.prev = n

/-- `LameHeadNodeGraph::insert_head`. -/
def insertHead (g : LameHeadNodeGraph) (e : HeadEdge) : Except Exn LameHeadNodeGraph :=
  if e.prev = e.root then throw (.internalError "we'd really rather not have self-loops")
  -- Do we already have this edge?
  else if e.prev ∈ g.edges.map HeadEdge.prev ∧ e.root ∈ g.edges.map HeadEdge.root then return g
  else
    let edges := g.edges ++ [e]
    let roots := g.roots.erase e.root
    return {
      edges := edges
      roots := if e.prev ∈ edges.map HeadEdge.root then roots else insert e.prev roots }

/-- The graph after a call of `insert_head`, which may fail. -/
def insertOrKeep (g : LameHeadNodeGraph) (e : HeadEdge) : LameHeadNodeGraph :=
  match insertHead g e with
  | .ok g' => g'
  | .error _ => g

/-- The graph after a sequence of calls. -/
def inserted (es : List HeadEdge) : LameHeadNodeGraph := es.foldl insertOrKeep .empty

/-! ### Searching -/

/-- The loop that replaces the first element of the seed set that has children by its children, until
there is none.  The edges to the children are collected. -/
def replaceSeeds (g : LameHeadNodeGraph) : ℕ → Finset HeadNode → List HeadEdge →
    Except Exn (Finset HeadNode × List HeadEdge)
  | 0, _, _ => throw (.hang "the head nodes have a cycle")
  | fuel + 1, seeds, found =>
      match (seeds.filter fun n => g.kids n ≠ []).min with
      | ⊤ => return (seeds, found)
      | (n : HeadNode) => replaceSeeds g fuel
          (seeds.erase n ∪ ((g.kids n).map HeadEdge.root).toFinset) (found ++ g.kids n)

/-- The rounds that the loop makes at most on a graph without cycles. -/
def LameHeadNodeGraph.rounds (g : LameHeadNodeGraph) : ℕ := (g.edges.length + 1) ^ (g.edges.length + 1)

/-- The seeds of a search.  The nodes with the tag of a seed without reference come after it in the
order of `m_roots`. -/
def LameHeadNodeGraph.seeds (g : LameHeadNodeGraph) (seed : HeadNode) : Finset HeadNode :=
  if seed.ref = [] then g.roots.filter fun n => n.fstag = seed.fstag
  else if seed ∈ g.edges.map HeadEdge.root then {seed}
  else ((g.kids seed).map HeadEdge.root).toFinset

/-- `LameHeadNodeGraph::head_furthest_async`: the nodes that are reported, in their order. -/
def headFurthest (g : LameHeadNodeGraph) (seed : HeadNode) : Except Exn (List HeadNode) := do
  let (seeds, _) ← replaceSeeds g g.rounds (g.seeds seed) []
  if ∀ n ∈ seeds, n ∈ g.edges.map HeadEdge.root then return seeds.sort
  else throw (.internalError "missing rootmap entry")

/-- The nodes of a set, in their order. -/
abbrev sorted (nodes : Finset HeadNode) : List HeadNode := nodes.sort

/-- `LameHeadNodeGraph::head_follow_async`: the edges that are reported, in their order. -/
def headFollow (g : LameHeadNodeGraph) (seed : HeadNode) : Except Exn (List HeadEdge) := do
  let found := if seed.ref = [] ∨ seed ∈ g.edges.map HeadEdge.root then [] else g.kids seed
  if g.seeds seed = ∅ then throw (.notFoundError "no starting seed found")
  let (_, found) ← replaceSeeds g g.rounds (g.seeds seed) found
  return found

/-! ### What the loop finds -/

/-- The edges as pairs of nodes. -/
def LameHeadNodeGraph.pairs (g : LameHeadNodeGraph) : List (HeadNode × HeadNode) :=
  g.edges.map fun e => (e.prev, e.root)

section search

variable {g : LameHeadNodeGraph}

theorem mem_pairs {a b : HeadNode} : (a, b) ∈ g.pairs ↔ ∃ e ∈ g.edges, e.prev = a ∧ e.root = b := by
  simp [LameHeadNodeGraph.pairs]

theorem mem_kids {e : HeadEdge} {n : HeadNode} : e ∈ g.kids n ↔ e ∈ g.edges ∧ e.prev = n := by
  simp [LameHeadNodeGraph.kids]

theorem mem_map_root {n : HeadNode} : n ∈ g.edges.map HeadEdge.root ↔ ∃ a, (a, n) ∈ g.pairs := by
  simp [mem_pairs]

theorem mem_kids_root {n u : HeadNode} :
    u ∈ ((g.kids n).map HeadEdge.root).toFinset ↔ (n, u) ∈ g.pairs := by
  simp [mem_pairs, mem_kids, and_assoc]

theorem kids_ne_nil {n : HeadNode} : g.kids n ≠ [] ↔ ∃ u, (n, u) ∈ g.pairs := by
  constructor
  · intro h
    obtain ⟨e, he⟩ := List.exists_mem_of_ne_nil _ h
    obtain ⟨hmem, hprev⟩ := mem_kids.1 he
    exact ⟨e.root, mem_pairs.2 ⟨e, hmem, hprev, rfl⟩⟩
  · rintro ⟨u, hu⟩
    obtain ⟨e, he, hprev, -⟩ := mem_pairs.1 hu
    exact List.ne_nil_of_mem (mem_kids.2 ⟨he, hprev⟩)

theorem length_pairs : g.pairs.length = g.edges.length := List.length_map _

/-- The tag of a file system stays the same along a path. -/
theorem fstag_eq_of_path {a b : HeadNode} (h : ReflTransGen (Edge g.pairs) a b) :
    b.fstag = a.fstag := by
  induction h with
  | refl => rfl
  | tail _ he ih =>
      obtain ⟨e, -, hprev, hroot⟩ := mem_pairs.1 he
      rw [← ih, ← hprev, ← hroot]
      rfl

/-- **One round of the loop**: there are only sinks left, or the smallest node that has children is
replaced by them. -/
theorem replaceSeeds_succ (g : LameHeadNodeGraph) (fuel : ℕ) (seeds : Finset HeadNode)
    (found : List HeadEdge) :
    ((∀ s ∈ seeds, Sink g.pairs s) ∧ replaceSeeds g (fuel + 1) seeds found = .ok (seeds, found)) ∨
    ∃ n seeds', Replaced g.pairs n seeds seeds' ∧ (∀ x ∈ seeds, ¬ Sink g.pairs x → n ≤ x) ∧
      replaceSeeds g (fuel + 1) seeds found = replaceSeeds g fuel seeds' (found ++ g.kids n) := by
  have hkids (n : HeadNode) : g.kids n ≠ [] ↔ ¬ Sink g.pairs n := by
    rw [kids_ne_nil, Sink, not_forall_not]
  rw [replaceSeeds]
  cases hmin : (seeds.filter fun n => g.kids n ≠ []).min with
  | top =>
      refine .inl ⟨fun s hs => ?_, rfl⟩
      have hempty := Finset.min_eq_top.1 hmin
      by_contra hs'
      have hmem : s ∈ seeds.filter fun n => g.kids n ≠ [] := Finset.mem_filter.2 ⟨hs, (hkids s).2 hs'⟩
      rw [hempty] at hmem
      exact Finset.notMem_empty s hmem
  | coe n =>
      obtain ⟨hmem, hn⟩ := Finset.mem_filter.1 (Finset.mem_of_min hmin)
      refine .inr ⟨n, seeds.erase n ∪ ((g.kids n).map HeadEdge.root).toFinset, ?_, ?_, rfl⟩
      · refine ⟨hmem, kids_ne_nil.1 hn, fun x => ?_⟩
        rw [Finset.mem_union, mem_kids_root, Finset.mem_erase]
        exact or_congr_left And.comm
      · intro x hx hx'
        exact Finset.min_le_of_eq (Finset.mem_filter.2 ⟨hx, (hkids x).2 hx'⟩) hmin

/-- Where the loop ends, it has replaced the smallest nodes first and collected the edges to their
children. -/
theorem expands_of_replaceSeeds : ∀ (fuel : ℕ) (seeds : Finset HeadNode) (found : List HeadEdge)
    (r : Finset HeadNode × List HeadEdge), replaceSeeds g fuel seeds found = .ok r →
      ∃ ns, Expands g.pairs seeds ns ∧ r.2 = found ++ ns.flatMap g.kids := by
  intro fuel
  induction fuel with
  | zero =>
      intro seeds found r h
      simp [replaceSeeds, throw, throwThe, MonadExceptOf.throw] at h
  | succ fuel ih =>
      intro seeds found r h
      rcases replaceSeeds_succ g fuel seeds found with ⟨hsink, hrun⟩ | ⟨n, seeds', hrep, hmin, hrun⟩
      · rw [hrun] at h
        obtain rfl := Except.ok.inj h
        exact ⟨[], .done hsink, by simp⟩
      · rw [hrun] at h
        obtain ⟨ns, hns, hr⟩ := ih seeds' (found ++ g.kids n) r h
        exact ⟨n :: ns, .step hrep hmin hns, by simp [hr]⟩

/-- **The loop ends with the sinks, and has collected the edges on the way.** -/
theorem replaceSeeds_spec : ∀ fuel seeds found, AcyclicFrom g.pairs seeds →
    potential g.pairs seeds < fuel →
      ∃ seeds' found', replaceSeeds g fuel seeds found = .ok (seeds', found') ∧
        (∀ t, t ∈ seeds' ↔ Sink g.pairs t ∧ Reaches g.pairs seeds t) ∧
        ∀ e, e ∈ found' ↔ e ∈ found ∨ (e ∈ g.edges ∧ Reaches g.pairs seeds e.prev) := by
  intro fuel
  induction fuel with
  | zero => intro seeds found _ h; omega
  | succ fuel ih =>
      intro seeds found ha hfuel
      rcases replaceSeeds_succ g fuel seeds found with ⟨hsink, hrun⟩ | ⟨n, seeds', hrep, -, hrun⟩
      · refine ⟨seeds, found, hrun, fun t => ?_, fun e => ⟨.inl, ?_⟩⟩
        · rw [reaches_sink_iff hsink]
          exact ⟨fun ht => ⟨hsink t ht, ht⟩, fun ht => ht.2⟩
        · rintro (he | ⟨he, hr⟩)
          · exact he
          · rw [reaches_sink_iff hsink] at hr
            exact absurd (mem_pairs.2 ⟨e, he, rfl, rfl⟩) (hsink e.prev hr e.root)
      · have hlt := hrep.potential_lt ha
        obtain ⟨seeds'', found', hrun', hseeds, hfound⟩ :=
          ih seeds' (found ++ g.kids n) (hrep.acyclicFrom ha) (by omega)
        refine ⟨seeds'', found', hrun.trans hrun', fun t => ?_, fun e => ?_⟩
        · rw [hseeds t]
          exact and_congr_right fun ht => hrep.reaches_iff ht
        · rw [hfound e, List.mem_append, mem_kids, or_assoc, hrep.reaches_or e.prev, and_or_left]

end search

/-! ### The roots of the graph -/

/-- `m_roots` has the nodes where an edge starts and none ends, and the edges differ. -/
structure GraphOk (g : LameHeadNodeGraph) : Prop where
  roots : ∀ n, n ∈ g.roots ↔ (∃ u, (n, u) ∈ g.pairs) ∧ ∀ u, (u, n) ∉ g.pairs
  nodup : g.pairs.Nodup

/-- The edge is taken for one that is there. -/
def LameHeadNodeGraph.HasEdge (g : LameHeadNodeGraph) (e : HeadEdge) : Prop :=
  e.prev ∈ g.edges.map HeadEdge.prev ∧ e.root ∈ g.edges.map HeadEdge.root

/-- A call leaves the graph alone, or adds its edge at the end. -/
theorem insertOrKeep_cases (g : LameHeadNodeGraph) (e : HeadEdge) :
    ((e.prev = e.root ∨ g.HasEdge e) ∧ insertOrKeep g e = g) ∨
      (e.prev ≠ e.root ∧ ¬ g.HasEdge e ∧ (insertOrKeep g e).edges = g.edges ++ [e] ∧
        ∀ n, n ∈ (insertOrKeep g e).roots ↔ (n ≠ e.root ∧ n ∈ g.roots) ∨
          (n = e.prev ∧ ¬ ∃ u, (u, e.prev) ∈ g.pairs)) := by
  by_cases hself : e.prev = e.root
  · exact .inl ⟨.inl hself, by simp [insertOrKeep, insertHead, hself, throw, throwThe,
      MonadExceptOf.throw]⟩
  by_cases hdup : g.HasEdge e
  · refine .inl ⟨.inr hdup, ?_⟩
    have hif : insertHead g e = .ok g := by
      rw [insertHead, if_neg hself, if_pos (And.intro hdup.1 hdup.2)]
      rfl
    rw [insertOrKeep, hif]
  · have hroot : e.prev ∈ (g.edges ++ [e]).map HeadEdge.root ↔ ∃ u, (u, e.prev) ∈ g.pairs := by
      rw [List.map_append, List.mem_append, mem_map_root]
      simp [hself]
    have hif : insertHead g e = .ok
        { edges := g.edges ++ [e]
          roots := if e.prev ∈ (g.edges ++ [e]).map HeadEdge.root then g.roots.erase e.root
            else insert e.prev (g.roots.erase e.root) } := by
      rw [insertHead, if_neg hself, if_neg fun hc => hdup ⟨hc.1, hc.2⟩]
      rfl
    refine .inr ⟨hself, hdup, by rw [insertOrKeep, hif], fun n => ?_⟩
    rw [insertOrKeep, hif, ← hroot]
    by_cases hin : e.prev ∈ (g.edges ++ [e]).map HeadEdge.root
    · rw [if_pos hin, Finset.mem_erase]
      exact ⟨.inl, fun hn => hn.resolve_right fun hc => hc.2 hin⟩
    · rw [if_neg hin, Finset.mem_insert, Finset.mem_erase]
      exact ⟨fun hn => hn.symm.imp_right fun heq => ⟨heq, hin⟩, fun hn => hn.symm.imp_left And.left⟩

theorem GraphOk.insertOrKeep {g : LameHeadNodeGraph} (h : GraphOk g) (e : HeadEdge) :
    GraphOk (insertOrKeep g e) := by
  rcases insertOrKeep_cases g e with ⟨-, heq⟩ | ⟨hself, hnew, hedges, hroots⟩
  · rw [heq]
    exact h
  have hpairs : (Head.insertOrKeep g e).pairs = g.pairs ++ [(e.prev, e.root)] := by
    simp [LameHeadNodeGraph.pairs, hedges]
  have hmem : ∀ a b, (a, b) ∈ (Head.insertOrKeep g e).pairs ↔
      (a, b) ∈ g.pairs ∨ (a = e.prev ∧ b = e.root) := by
    intro a b
    simp [hpairs]
  constructor
  · intro n
    simp only [hroots n, h.roots n, hmem]
    constructor
    · rintro (⟨hne, ⟨u, hu⟩, hno⟩ | ⟨rfl, hno⟩)
      · refine ⟨⟨u, .inl hu⟩, ?_⟩
        rintro v (hv | ⟨-, hv⟩)
        · exact hno v hv
        · exact hne hv
      · refine ⟨⟨e.root, .inr ⟨rfl, rfl⟩⟩, ?_⟩
        rintro v (hv | ⟨-, hv⟩)
        · exact hno ⟨v, hv⟩
        · exact hself hv
    · rintro ⟨⟨u, hu⟩, hno⟩
      have hne : n ≠ e.root := fun hn => hno e.prev (.inr ⟨rfl, hn⟩)
      have hno' : ∀ v, (v, n) ∉ g.pairs := fun v hv => hno v (.inl hv)
      rcases hu with hu | ⟨rfl, -⟩
      · exact .inl ⟨hne, ⟨u, hu⟩, hno'⟩
      · exact .inr ⟨rfl, fun ⟨v, hv⟩ => hno' v hv⟩
  · have hnot : (e.prev, e.root) ∉ g.pairs := by
      intro hp
      obtain ⟨e', he', hprev, hroot⟩ := mem_pairs.1 hp
      exact hnew ⟨List.mem_map.2 ⟨e', he', hprev⟩, List.mem_map.2 ⟨e', he', hroot⟩⟩
    rw [hpairs]
    refine List.Nodup.append h.nodup (List.nodup_singleton _) ?_
    simpa using hnot

theorem GraphOk.inserted (es : List HeadEdge) : GraphOk (inserted es) := by
  have hrun : ∀ g, GraphOk g → GraphOk (es.foldl Head.insertOrKeep g) := by
    induction es with
    | nil => exact fun g h => h
    | cons e es ih => exact fun g h => ih _ (h.insertOrKeep e)
  refine hrun .empty ⟨fun n => ?_, List.nodup_nil⟩
  simp [LameHeadNodeGraph.empty, LameHeadNodeGraph.pairs]

/-! ### The answers -/

section answers

variable {g : LameHeadNodeGraph}

/-- There are not more seeds than edges. -/
theorem GraphOk.card_seeds_le (h : GraphOk g) (seed : HeadNode) :
    (g.seeds seed).card ≤ g.edges.length := by
  rw [LameHeadNodeGraph.seeds]
  split
  case isTrue =>
    refine le_trans (Finset.card_le_card ?_) (List.toFinset_card_le (g.edges.map HeadEdge.prev)) |>.trans
      (List.length_map _).le
    intro n hn
    obtain ⟨⟨u, hu⟩, -⟩ := (h.roots n).1 (Finset.mem_filter.1 hn).1
    obtain ⟨e, he, hprev, -⟩ := mem_pairs.1 hu
    exact List.mem_toFinset.2 (List.mem_map.2 ⟨e, he, hprev⟩)
  case isFalse =>
    split
    case isTrue hmem =>
      rw [Finset.card_singleton]
      exact List.length_pos_of_mem hmem |>.trans_eq (List.length_map _)
    case isFalse =>
      refine (List.toFinset_card_le _).trans ?_
      rw [List.length_map]
      exact List.length_filter_le _ _

/-- A seed has children, or an edge ends in it. -/
theorem GraphOk.seed_root (h : GraphOk g) {seed n : HeadNode} (hn : n ∈ g.seeds seed) :
    (∃ u, (n, u) ∈ g.pairs) ∨ ∃ u, (u, n) ∈ g.pairs := by
  rw [LameHeadNodeGraph.seeds] at hn
  split at hn
  case isTrue => exact .inl ((h.roots n).1 (Finset.mem_filter.1 hn).1).1
  case isFalse =>
    split at hn
    case isTrue hmem =>
      rw [Finset.mem_singleton.1 hn]
      exact .inr (mem_map_root.1 hmem)
    case isFalse => exact .inr ⟨seed, mem_kids_root.1 hn⟩

/-- **The furthest nodes are the sinks that are reached from the seeds.** -/
theorem GraphOk.headFurthest_spec (h : GraphOk g) (ha : Acyclic g.pairs) (seed : HeadNode) :
    ∃ l : Finset HeadNode, headFurthest g seed = .ok l.sort ∧
      ∀ t, t ∈ l ↔ Sink g.pairs t ∧ Reaches g.pairs (g.seeds seed) t := by
  have hfuel : potential g.pairs (g.seeds seed) < g.rounds := by
    rw [LameHeadNodeGraph.rounds, ← length_pairs]
    exact potential_lt_pow (by rw [length_pairs]; exact h.card_seeds_le seed)
  obtain ⟨seeds, found, hrun, hseeds, -⟩ := replaceSeeds_spec g.rounds (g.seeds seed) []
    (ha.acyclicFrom _) hfuel
  have hroot : ∀ n ∈ seeds, n ∈ g.edges.map HeadEdge.root := by
    intro n hn
    obtain ⟨hsink, s, hs, hp⟩ := (hseeds n).1 hn
    rw [mem_map_root]
    rcases ReflTransGen.cases_tail hp with rfl | ⟨c, -, hc⟩
    · rcases h.seed_root hs with ⟨u, hu⟩ | hu
      · exact absurd hu (hsink u)
      · exact hu
    · exact ⟨c, hc⟩
  refine ⟨seeds, ?_, hseeds⟩
  rw [headFurthest, hrun]
  simp only [bind, Except.bind, if_pos hroot]
  rfl

/-- **The edges that follow a seed are those at the nodes that are reached.** -/
theorem GraphOk.headFollow_spec (h : GraphOk g) (ha : Acyclic g.pairs) (seed : HeadNode) :
    (g.seeds seed = ∅ ∧ headFollow g seed = .error (.notFoundError "no starting seed found")) ∨
      ∃ l, headFollow g seed = .ok l ∧ ∀ e, e ∈ l ↔ e ∈ g.edges ∧
        (Reaches g.pairs (g.seeds seed) e.prev ∨ (seed.ref ≠ [] ∧ e.prev = seed)) := by
  by_cases hempty : g.seeds seed = ∅
  · refine .inl ⟨hempty, ?_⟩
    rw [headFollow]
    simp only [if_pos hempty]
    rfl
  have hfuel : potential g.pairs (g.seeds seed) < g.rounds := by
    rw [LameHeadNodeGraph.rounds, ← length_pairs]
    exact potential_lt_pow (by rw [length_pairs]; exact h.card_seeds_le seed)
  obtain ⟨seeds, found, hrun, -, hfound⟩ := replaceSeeds_spec g.rounds (g.seeds seed)
    (if seed.ref = [] ∨ seed ∈ g.edges.map HeadEdge.root then [] else g.kids seed)
    (ha.acyclicFrom _) hfuel
  refine .inr ⟨found, ?_, fun e => ?_⟩
  · rw [headFollow]
    simp only [if_neg hempty, bind, Except.bind, hrun]
    rfl
  · rw [hfound e]
    by_cases hin : seed.ref = [] ∨ seed ∈ g.edges.map HeadEdge.root
    · simp only [if_pos hin, List.not_mem_nil, false_or]
      refine and_congr_right fun he => ⟨.inl, ?_⟩
      rintro (hr | ⟨href, rfl⟩)
      · exact hr
      · refine ⟨e.prev, ?_, .refl⟩
        have hroot := hin.resolve_left href
        rw [LameHeadNodeGraph.seeds, if_neg href, if_pos hroot]
        exact Finset.mem_singleton_self _
    · simp only [if_neg hin, mem_kids]
      have href : seed.ref ≠ [] := fun hr => hin (.inl hr)
      constructor
      · rintro (⟨he, hprev⟩ | ⟨he, hr⟩)
        · exact ⟨he, .inr ⟨href, hprev⟩⟩
        · exact ⟨he, .inl hr⟩
      · rintro ⟨he, hr | ⟨-, hprev⟩⟩
        · exact .inr ⟨he, hr⟩
        · exact .inl ⟨he, hprev⟩

/-- From a seed without reference the sinks with its tag are reached. -/
theorem GraphOk.reaches_start (h : GraphOk g) (ha : Acyclic g.pairs) {seed t : HeadNode}
    (hseed : seed.ref = []) (ht : ∃ u, (u, t) ∈ g.pairs) :
    Reaches g.pairs (g.seeds seed) t ↔ t.fstag = seed.fstag := by
  rw [LameHeadNodeGraph.seeds, if_pos hseed]
  constructor
  · rintro ⟨s, hs, hp⟩
    rw [fstag_eq_of_path hp]
    exact (Finset.mem_filter.1 hs).2
  · intro htag
    obtain ⟨s, hs, hp⟩ := exists_source ha t
    refine ⟨s, Finset.mem_filter.2 ⟨(h.roots s).2 ⟨?_, hs⟩, ?_⟩, hp⟩
    · rcases ReflTransGen.cases_head hp with rfl | ⟨c, hc, -⟩
      · obtain ⟨u, hu⟩ := ht
        exact absurd hu (hs u)
      · exact ⟨c, hc⟩
    · rw [← fstag_eq_of_path hp, htag]

/-- From a seed with a reference the nodes on paths from it are reached. -/
theorem reaches_seed {seed t : HeadNode} (hseed : seed.ref ≠ []) (ht : Sink g.pairs t) :
    Reaches g.pairs (g.seeds seed) t ↔ ReflTransGen (Edge g.pairs) seed t ∧
      (t = seed → ∃ u, (u, t) ∈ g.pairs) := by
  rw [LameHeadNodeGraph.seeds, if_neg hseed]
  by_cases hin : seed ∈ g.edges.map HeadEdge.root
  · rw [if_pos hin]
    constructor
    · rintro ⟨s, hs, hp⟩
      rw [Finset.mem_singleton.1 hs] at hp
      exact ⟨hp, fun heq => heq ▸ mem_map_root.1 hin⟩
    · rintro ⟨hp, -⟩
      exact ⟨seed, Finset.mem_singleton_self _, hp⟩
  · rw [if_neg hin]
    constructor
    · rintro ⟨s, hs, hp⟩
      have he := mem_kids_root.1 hs
      refine ⟨.head he hp, ?_⟩
      rintro rfl
      exact absurd he (ht s)
    · rintro ⟨hp, hroot⟩
      rcases ReflTransGen.cases_head hp with rfl | ⟨c, hc, hp⟩
      · exact absurd (mem_map_root.2 (hroot rfl)) hin
      · exact ⟨c, mem_kids_root.2 hc, hp⟩

/-- A furthest node: an edge ends in it and none starts, and it has the tag of the seed or is on a path
from it. -/
def Far (g : LameHeadNodeGraph) (seed t : HeadNode) : Prop :=
  Sink g.pairs t ∧ (∃ u, (u, t) ∈ g.pairs) ∧
    if seed.ref = [] then t.fstag = seed.fstag else ReflTransGen (Edge g.pairs) seed t

/-- **The furthest nodes of a graph without cycles.** -/
theorem GraphOk.headFurthest_far (h : GraphOk g) (ha : Acyclic g.pairs) (seed : HeadNode) :
    ∃ l : Finset HeadNode, headFurthest g seed = .ok l.sort ∧ ∀ t, t ∈ l ↔ Far g seed t := by
  obtain ⟨l, hrun, hl⟩ := h.headFurthest_spec ha seed
  refine ⟨l, hrun, fun t => (hl t).trans (and_congr_right fun ht => ?_)⟩
  -- a sink that is reached is the end of an edge
  have hin : Reaches g.pairs (g.seeds seed) t → ∃ u, (u, t) ∈ g.pairs := by
    rintro ⟨s, hs, hp⟩
    rcases ReflTransGen.cases_tail hp with rfl | ⟨c, -, hc⟩
    · rcases h.seed_root hs with ⟨u, hu⟩ | hu
      · exact absurd hu (ht u)
      · exact hu
    · exact ⟨c, hc⟩
  by_cases hseed : seed.ref = []
  · rw [if_pos hseed]
    exact ⟨fun hr => ⟨hin hr, (h.reaches_start ha hseed (hin hr)).1 hr⟩,
      fun ⟨hu, htag⟩ => (h.reaches_start ha hseed hu).2 htag⟩
  · rw [if_neg hseed]
    exact ⟨fun hr => ⟨hin hr, ((reaches_seed hseed ht).1 hr).1⟩,
      fun ⟨hu, hp⟩ => (reaches_seed hseed ht).2 ⟨hp, fun _ => hu⟩⟩

end answers

/-- **The furthest nodes are exactly the sinks.**  On a graph without cycles the search ends and reports
each of them once: for a seed without reference, the nodes with its tag in which an edge ends and none
starts; else the nodes without outgoing edges on the paths from the seed. -/
theorem headFurthest_sinks (es : List HeadEdge) (ha : Acyclic (inserted es).pairs) (seed : HeadNode) :
    ∃ l, headFurthest (inserted es) seed = .ok l ∧ l.Nodup ∧ ∀ t, t ∈ l ↔
      (∀ u, (t, u) ∉ (inserted es).pairs) ∧
        if seed.ref = [] then t.fstag = seed.fstag ∧ ∃ u, (u, t) ∈ (inserted es).pairs
        else ReflTransGen (Edge (inserted es).pairs) seed t ∧
          (t = seed → ∃ u, (u, t) ∈ (inserted es).pairs) := by
  obtain ⟨l, hrun, hl⟩ := (GraphOk.inserted es).headFurthest_far ha seed
  refine ⟨l.sort, hrun, Finset.sort_nodup _ _, fun t => ?_⟩
  rw [Finset.mem_sort, hl t, Far]
  refine and_congr_right fun ht => ?_
  by_cases hseed : seed.ref = []
  · rw [if_pos hseed, if_pos hseed]
    exact And.comm
  · rw [if_neg hseed, if_neg hseed]
    constructor
    · rintro ⟨hin, hp⟩
      exact ⟨hp, fun _ => hin⟩
    · rintro ⟨hp, hin⟩
      refine ⟨?_, hp⟩
      rcases ReflTransGen.cases_tail hp with rfl | ⟨c, -, hc⟩
      · exact hin rfl
      · exact ⟨c, hc⟩

/-- A history that forks after its first root and joins again. -/
def diamond : List HeadEdge :=
  [⟨[0], [], [1]⟩, ⟨[0], [1], [1, 2]⟩, ⟨[0], [1], [1, 3]⟩, ⟨[0], [1, 2], [1, 2, 3]⟩,
    ⟨[0], [1, 3], [1, 2, 3]⟩]

theorem headFurthest_sinks_diamond :
    ∃ l, headFurthest (inserted diamond) ⟨[0], []⟩ = .ok l ∧ l.Nodup ∧ ∀ t, t ∈ l ↔
      (∀ u, (t, u) ∉ (inserted diamond).pairs) ∧ t.fstag = [0] ∧
        ∃ u, (u, t) ∈ (inserted diamond).pairs :=
  headFurthest_sinks diamond (acyclic_of_rank (fun n => n.ref.length) (by decide)) ⟨[0], []⟩

/-! ### The order of the insertions -/

/-- The nodes of an edge. -/
def HeadEdge.pair (e : HeadEdge) : HeadNode × HeadNode := (e.prev, e.root)

theorem HeadEdge.ext_pair {e e' : HeadEdge} (hprev : e.prev = e'.prev) (hroot : e.root = e'.root) :
    e = e' := by
  cases e
  cases e'
  simp only [HeadEdge.prev, HeadEdge.root, HeadNode.mk.injEq] at hprev hroot
  obtain ⟨rfl, rfl⟩ := hprev
  obtain ⟨-, rfl⟩ := hroot
  rfl

theorem mem_pairs_pair {g : LameHeadNodeGraph} {e : HeadEdge} : e.pair ∈ g.pairs ↔ e ∈ g.edges := by
  rw [HeadEdge.pair, mem_pairs]
  constructor
  · rintro ⟨e', he', hprev, hroot⟩
    exact HeadEdge.ext_pair hprev hroot ▸ he'
  · exact fun he => ⟨e, he, rfl, rfl⟩

theorem GraphOk.edges_nodup {g : LameHeadNodeGraph} (h : GraphOk g) : g.edges.Nodup :=
  List.Nodup.of_map _ h.nodup

section congr

variable {g g' : LameHeadNodeGraph}

theorem pairs_congr (heq : ∀ e, e ∈ g'.edges ↔ e ∈ g.edges) (p : HeadNode × HeadNode) :
    p ∈ g'.pairs ↔ p ∈ g.pairs := by
  rw [show p = (p.1, p.2) from rfl, mem_pairs, mem_pairs]
  simp only [heq]

theorem GraphOk.roots_congr (h : GraphOk g) (h' : GraphOk g')
    (heq : ∀ e, e ∈ g'.edges ↔ e ∈ g.edges) : g'.roots = g.roots := by
  ext n
  rw [h.roots, h'.roots]
  simp only [pairs_congr heq]

theorem GraphOk.length_congr (h : GraphOk g) (h' : GraphOk g')
    (heq : ∀ e, e ∈ g'.edges ↔ e ∈ g.edges) : g'.edges.length = g.edges.length :=
  (List.perm_of_nodup_nodup_toFinset_eq h'.edges_nodup h.edges_nodup
    (by ext e; simpa using heq e)).length_eq

theorem kids_congr (heq : ∀ e, e ∈ g'.edges ↔ e ∈ g.edges) (n : HeadNode) :
    ((g'.kids n).map HeadEdge.root).toFinset = ((g.kids n).map HeadEdge.root).toFinset := by
  ext u
  rw [mem_kids_root, mem_kids_root, pairs_congr heq]

/-- The rounds of the loop depend on the edges as a set. -/
theorem replaceSeeds_congr (heq : ∀ e, e ∈ g'.edges ↔ e ∈ g.edges) :
    ∀ fuel seeds found found', (replaceSeeds g' fuel seeds found').map Prod.fst =
      (replaceSeeds g fuel seeds found).map Prod.fst := by
  intro fuel
  induction fuel with
  | zero => intro seeds found found'; rfl
  | succ fuel ih =>
      intro seeds found found'
      have hfilter : (seeds.filter fun n => g'.kids n ≠ []) = seeds.filter fun n => g.kids n ≠ [] := by
        refine Finset.filter_congr fun n _ => ?_
        rw [kids_ne_nil, kids_ne_nil]
        simp only [pairs_congr heq]
      rw [replaceSeeds, replaceSeeds, hfilter]
      cases (seeds.filter fun n => g.kids n ≠ []).min with
      | top => rfl
      | coe n =>
          simp only
          rw [kids_congr heq n]
          exact ih _ _ _

/-- The answers depend on the edges as a set. -/
theorem GraphOk.headFurthest_congr (h : GraphOk g) (h' : GraphOk g')
    (heq : ∀ e, e ∈ g'.edges ↔ e ∈ g.edges) (seed : HeadNode) :
    headFurthest g' seed = headFurthest g seed := by
  have hroot : ∀ n, n ∈ g'.edges.map HeadEdge.root ↔ n ∈ g.edges.map HeadEdge.root := by
    intro n
    rw [mem_map_root, mem_map_root]
    simp only [pairs_congr heq]
  have hseeds : g'.seeds seed = g.seeds seed := by
    rw [LameHeadNodeGraph.seeds, LameHeadNodeGraph.seeds, h.roots_congr h' heq, kids_congr heq]
    simp only [hroot]
  have hrounds : g'.rounds = g.rounds := by
    rw [LameHeadNodeGraph.rounds, LameHeadNodeGraph.rounds, h.length_congr h' heq]
  have hrun := replaceSeeds_congr heq g.rounds (g.seeds seed) [] []
  have hmap : ∀ g : LameHeadNodeGraph, headFurthest g seed =
      ((replaceSeeds g g.rounds (g.seeds seed) []).map Prod.fst).bind fun seeds =>
        if ∀ n ∈ seeds, n ∈ g.edges.map HeadEdge.root then .ok seeds.sort
        else .error (.internalError "missing rootmap entry") := by
    intro g
    rw [headFurthest]
    cases replaceSeeds g g.rounds (g.seeds seed) [] <;> rfl
  rw [hmap, hmap, hseeds, hrounds, hrun]
  simp only [hroot]

end congr

/-- No edge joins the start of one edge to the end of another. -/
def NoShortcut (es : List HeadEdge) : Prop :=
  ∀ e₁ ∈ es, ∀ e₂ ∈ es, ∀ e ∈ es, e₁.prev = e.prev → e₂.root = e.root → e₁ = e ∨ e₂ = e

instance (es : List HeadEdge) : Decidable (NoShortcut es) := by
  unfold NoShortcut
  infer_instance

/-- One call stores its edge, unless it is there already. -/
theorem mem_insertOrKeep {es : List HeadEdge} (h : NoShortcut es) {g : LameHeadNodeGraph}
    (hg : ∀ e ∈ g.edges, e ∈ es) {e : HeadEdge} (he : e ∈ es) (hself : e.prev ≠ e.root)
    (e' : HeadEdge) : e' ∈ (insertOrKeep g e).edges ↔ e' ∈ g.edges ∨ e' = e := by
  rcases insertOrKeep_cases g e with ⟨hkeep, heq⟩ | ⟨-, -, hedges, -⟩
  · obtain ⟨hprev, hroot⟩ := hkeep.resolve_left hself
    obtain ⟨e₁, he₁, hp⟩ := List.mem_map.1 hprev
    obtain ⟨e₂, he₂, hr⟩ := List.mem_map.1 hroot
    have hin : e ∈ g.edges := by
      rcases h e₁ (hg e₁ he₁) e₂ (hg e₂ he₂) e he hp hr with rfl | rfl
      · exact he₁
      · exact he₂
    rw [heq]
    refine ⟨.inl, ?_⟩
    rintro (he' | rfl)
    · exact he'
    · exact hin
  · rw [hedges]
    simp

/-- Without shortcuts every edge is stored. -/
theorem mem_inserted {es : List HeadEdge} (h : NoShortcut es) (hself : ∀ e ∈ es, e.prev ≠ e.root)
    {es' : List HeadEdge} (hsub : ∀ e ∈ es', e ∈ es) (e : HeadEdge) :
    e ∈ (inserted es').edges ↔ e ∈ es' := by
  have hrun : ∀ (l : List HeadEdge) (g : LameHeadNodeGraph), (∀ e ∈ l, e ∈ es) →
      (∀ e ∈ g.edges, e ∈ es) →
      ∀ e, e ∈ (l.foldl insertOrKeep g).edges ↔ e ∈ g.edges ∨ e ∈ l := by
    intro l
    induction l with
    | nil => intro g _ _ e; simp
    | cons x l ih =>
        intro g hl hg e
        have hx : x ∈ es := hl x List.mem_cons_self
        have hstep := mem_insertOrKeep h hg hx (hself x hx)
        rw [List.foldl_cons, ih (insertOrKeep g x) (fun e he => hl e (List.mem_cons_of_mem _ he)) ?_ e,
          hstep e, List.mem_cons, or_assoc]
        intro e he
        rcases (hstep e).1 he with he | rfl
        · exact hg e he
        · exact hx
  have := hrun es' .empty hsub (by simp [LameHeadNodeGraph.empty]) e
  simpa [inserted, LameHeadNodeGraph.empty] using this

/-- An edge whose nodes are both in use, by other edges, is never stored. -/
theorem shortcut_lost {e : HeadEdge} (l : List HeadEdge) :
    ∀ g : LameHeadNodeGraph, g.HasEdge e → e ∉ g.edges → e ∉ (l.foldl insertOrKeep g).edges := by
  induction l with
  | nil => exact fun g _ he => he
  | cons x l ih =>
      intro g hhas he
      rw [List.foldl_cons]
      rcases insertOrKeep_cases g x with ⟨-, heq⟩ | ⟨-, hnew, hedges, -⟩
      · rw [heq]
        exact ih g hhas he
      · refine ih _ ⟨?_, ?_⟩ ?_
        · rw [hedges, List.map_append]
          exact List.mem_append_left _ hhas.1
        · rw [hedges, List.map_append]
          exact List.mem_append_left _ hhas.2
        · rw [hedges, List.mem_append, List.mem_singleton, not_or]
          refine ⟨he, ?_⟩
          rintro rfl
          exact hnew hhas

/-- **When the order of the insertions does not matter.**  A list of edges without self-loops is stored
as the set of its pairs of nodes, in every order and with any repetitions, and then also answers the
same, exactly if none of its edges joins the start of one other edge to the end of another. -/
theorem inserted_exact_iff (es : List HeadEdge) (hself : ∀ e ∈ es, e.prev ≠ e.root) :
    (∀ es' : List HeadEdge, (∀ e, e ∈ es' ↔ e ∈ es) →
      ((inserted es').pairs.Nodup ∧ ∀ p, p ∈ (inserted es').pairs ↔ p ∈ es.map HeadEdge.pair) ∧
        ∀ seed, headFurthest (inserted es') seed = headFurthest (inserted es) seed) ↔
      NoShortcut es := by
  constructor
  · intro h e₁ he₁ e₂ he₂ e he hprev hroot
    by_contra hne
    obtain ⟨hne₁, hne₂⟩ := not_or.1 hne
    -- The two other edges come first; the graph then has both nodes of the third.
    obtain ⟨⟨-, hstored⟩, -⟩ := h (e₁ :: e₂ :: es) (by
      intro e'
      simp only [List.mem_cons]
      refine ⟨?_, fun he' => .inr (.inr he')⟩
      rintro (rfl | rfl | he')
      · exact he₁
      · exact he₂
      · exact he')
    have hin : e ∈ (inserted (e₁ :: e₂ :: es)).edges :=
      mem_pairs_pair.1 ((hstored e.pair).2 (List.mem_map_of_mem he))
    have h₁ : (insertOrKeep .empty e₁).edges = [e₁] := by
      rcases insertOrKeep_cases .empty e₁ with ⟨hkeep, -⟩ | ⟨-, -, hedges, -⟩
      · have := (hkeep.resolve_left (hself e₁ he₁)).1
        simp [LameHeadNodeGraph.empty] at this
      · exact hedges
    have h₂ : (insertOrKeep (insertOrKeep .empty e₁) e₂).edges = [e₁, e₂] := by
      rcases insertOrKeep_cases (insertOrKeep .empty e₁) e₂ with ⟨hkeep, -⟩ | ⟨-, -, hedges, -⟩
      · obtain ⟨hp, hr⟩ := hkeep.resolve_left (hself e₂ he₂)
        rw [h₁] at hp hr
        have hp' : e₂.prev = e₁.prev := by simpa using hp
        exact absurd (HeadEdge.ext_pair (hp'.trans hprev) hroot) hne₂
      · rw [hedges, h₁]
        rfl
    refine shortcut_lost es _ ⟨?_, ?_⟩ ?_ hin
    · rw [h₂, ← hprev]
      simp
    · rw [h₂, ← hroot]
      simp
    · rw [h₂]
      simp [Ne.symm hne₁, Ne.symm hne₂]
  · intro h es' hes'
    have hmem : ∀ l : List HeadEdge, (∀ e, e ∈ l ↔ e ∈ es) → ∀ e, e ∈ (inserted l).edges ↔ e ∈ es :=
      fun l hl e => (mem_inserted h hself (fun e he => (hl e).1 he) e).trans (hl e)
    refine ⟨⟨(GraphOk.inserted es').nodup, fun p => ?_⟩, fun seed => ?_⟩
    · constructor
      · intro hp
        obtain ⟨e, he, hprev, hroot⟩ := mem_pairs.1 (show (p.1, p.2) ∈ _ from hp)
        exact List.mem_map.2 ⟨e, (hmem es' hes' e).1 he, Prod.ext hprev hroot⟩
      · intro hp
        obtain ⟨e, he, rfl⟩ := List.mem_map.1 hp
        exact mem_pairs_pair.2 ((hmem es' hes' e).2 he)
    · refine (GraphOk.inserted es).headFurthest_congr (GraphOk.inserted es') (fun e => ?_) seed
      rw [hmem es' hes', hmem es fun e => Iff.rfl]

theorem inserted_exact_diamond :
    (∀ e ∈ diamond, e.prev ≠ e.root) ∧ ∀ es' : List HeadEdge, (∀ e, e ∈ es' ↔ e ∈ diamond) →
      ((inserted es').pairs.Nodup ∧
        ∀ p, p ∈ (inserted es').pairs ↔ p ∈ diamond.map HeadEdge.pair) ∧
        ∀ seed, headFurthest (inserted es') seed = headFurthest (inserted diamond) seed :=
  ⟨by decide, (inserted_exact_iff diamond (by decide)).2 (by decide)⟩

/-- Two roots that replace the same node, of which one also replaces another node. -/
def zigzag : List HeadEdge := [⟨[0], [1], [2]⟩, ⟨[0], [3], [4]⟩, ⟨[0], [1], [4]⟩]

/-- In one order of the three edges the last is lost, in another all are stored. -/
theorem not_inserted_exact :
    (∀ e ∈ zigzag, e.prev ≠ e.root) ∧ zigzag.reverse.Perm zigzag ∧
      ¬ (∀ p, p ∈ (inserted zigzag).pairs ↔ p ∈ zigzag.map HeadEdge.pair) ∧
      (inserted zigzag.reverse).pairs.length = 3 := by
  refine ⟨by decide, List.reverse_perm _, fun h => ?_, by decide⟩
  have hin : (⟨⟨[0], [1]⟩, ⟨[0], [4]⟩⟩ : HeadNode × HeadNode) ∈ (inserted zigzag).pairs :=
    (h _).2 (by decide)
  exact absurd hin (by decide)

end Head

end Utopfs
