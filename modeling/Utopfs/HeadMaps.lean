/-
**The maps of the head graph.**

`LameHeadNodeGraph` has two multimaps of the same edges, under the node where an edge starts and under
the node where it ends, and the set of the roots, which `insert_head` keeps up to date by two lookups.
The seeds of a traversal without a reference are the roots with its tag, so an edge that none of them
reaches would never be followed.

Main definitions:

* `MultiMap` — a `std::multimap`;
* `Head.HeadMaps`, `Head.insertMaps` — the members of the class and `insert_head`;
* `Head.HeadMaps.Models` — the maps have the edges of a `LameGraph`;
* `Head.RootsExact` — the roots are the nodes where a stored edge starts and none ends.

Main results:

* `Head.HeadMaps.Models.insertMaps` — both graphs accept, ignore and reject the same edges;
* `Head.roots_of_insertions` — the roots are exact after any calls, and reach every edge.
-/

import Mathlib.Data.List.Sort
import Utopfs.HeadLog

set_option relaxedAutoImplicit false
set_option autoImplicit false

namespace Utopfs

/-! ### Multimaps -/

/-- A `std::multimap`: its entries in the order of their keys. -/
structure MultiMap (K V : Type) [LinearOrder K] where
  entries : List (K × V)
  ordered : entries.Pairwise fun x y => x.1 ≤ y.1

namespace MultiMap

variable {K V : Type} [LinearOrder K]

/-- A map without entries. -/
def empty : MultiMap K V := ⟨[], .nil⟩

/-- The entries after an insertion.  The new entry goes behind those with the same key. -/
def insertEntry (x : K × V) : List (K × V) → List (K × V) :=
  List.orderedInsert (fun a b => a.1 < b.1) x

theorem insertEntry_perm (x : K × V) (l : List (K × V)) : (insertEntry x l).Perm (x :: l) :=
  List.perm_orderedInsert _ x l

theorem insertEntry_ordered (x : K × V) {l : List (K × V)} (h : l.Pairwise fun a b => a.1 ≤ b.1) :
    (insertEntry x l).Pairwise fun a b => a.1 ≤ b.1 := by
  induction l with
  | nil => exact List.pairwise_singleton _ x
  | cons y l ih =>
      obtain ⟨hy, hl⟩ := List.pairwise_cons.1 h
      rw [insertEntry, List.orderedInsert_cons]
      split
      case isTrue hlt =>
        refine List.pairwise_cons.2 ⟨fun z hz => ?_, h⟩
        rcases List.mem_cons.1 hz with rfl | hz
        · exact hlt.le
        · exact hlt.le.trans (hy z hz)
      case isFalse hge =>
        refine List.pairwise_cons.2 ⟨fun z hz => ?_, ih hl⟩
        rcases List.mem_cons.1 ((insertEntry_perm x l).subset hz) with rfl | hz
        · exact not_lt.1 hge
        · exact hy z hz

/-- `insert` -/
def insert (m : MultiMap K V) (k : K) (v : V) : MultiMap K V where
  entries := insertEntry (k, v) m.entries
  ordered := insertEntry_ordered (k, v) m.ordered

/-- `find` -/
def find (m : MultiMap K V) (k : K) : Option V := (m.entries.find? fun x => x.1 = k).map Prod.snd

/-- The values, in the order of their keys. -/
def values (m : MultiMap K V) : List V := m.entries.map Prod.snd

theorem insert_perm (m : MultiMap K V) (k : K) (v : V) :
    (m.insert k v).entries.Perm ((k, v) :: m.entries) :=
  insertEntry_perm (k, v) m.entries

theorem find_isSome_iff {m : MultiMap K V} {k : K} :
    (m.find k).isSome ↔ k ∈ m.entries.map Prod.fst := by
  simp [find, List.find?_isSome]

end MultiMap

namespace Head

open Relation Worklist

/-! ### The graph -/

/-- A `LameEdgeMap`. -/
abbrev LameEdgeMap := MultiMap HeadNode LameEdge

/-- The members `m_prevmap`, `m_rootmap` and `m_roots`. -/
structure HeadMaps where
  prevmap : LameEdgeMap
  rootmap : LameEdgeMap
  roots : Finset HeadNode

/-- `LameHeadNodeGraph()`. -/
def HeadMaps.empty : HeadMaps := ⟨.empty, .empty, ∅⟩

/-- `LameHeadNodeGraph::insert_head`, after the edge has been parsed. -/
def insertEdge (m : HeadMaps) (eh : LameEdge) : Except Exn HeadMaps :=
  if eh.edge.prev = eh.edge.root then
    throw (.internalError "we'd really rather not have self-loops")
  -- Do we already have this edge?
  else if (m.prevmap.find eh.edge.prev).isSome ∧ (m.rootmap.find eh.edge.root).isSome then return m
  else
    let prevmap := m.prevmap.insert eh.edge.prev eh
    let rootmap := m.rootmap.insert eh.edge.root eh
    -- Remove any nodes which we precede from the root set.
    let roots := m.roots.erase eh.edge.root
    -- If our previous node hasn't been seen we insert ourselves.
    return ⟨prevmap, rootmap, if (rootmap.find eh.edge.prev).isNone then insert eh.edge.prev roots else roots⟩

variable (codec : HeadCodec)

/-- `LameHeadNodeGraph::insert_head`. -/
def insertMaps (m : HeadMaps) (she : SignedHeadEdge) : Except Exn HeadMaps := do
  let eh ← lameEdge codec she
  insertEdge m eh

/-- The graph after a call of `insert_head`, which may fail. -/
def insertMapsOrKeep (m : HeadMaps) (she : SignedHeadEdge) : HeadMaps :=
  match insertMaps codec m she with
  | .ok m' => m'
  | .error _ => m

/-- The graph after a sequence of calls. -/
def insertedMaps (shes : List SignedHeadEdge) : HeadMaps := shes.foldl (insertMapsOrKeep codec) .empty

/-- The stored edges as pairs of nodes. -/
def HeadMaps.pairs (m : HeadMaps) : List (HeadNode × HeadNode) :=
  m.prevmap.values.map fun eh => (eh.edge.prev, eh.edge.root)

/-- **The roots are exact**: both maps have the same edges, under the nodes where they start and end,
and the roots are the nodes where an edge starts and none ends. -/
structure RootsExact (m : HeadMaps) : Prop where
  same : m.prevmap.values.Perm m.rootmap.values
  prevKey : ∀ x ∈ m.prevmap.entries, x.1 = x.2.edge.prev
  rootKey : ∀ x ∈ m.rootmap.entries, x.1 = x.2.edge.root
  roots : ∀ n, n ∈ m.roots ↔
    (∃ eh ∈ m.prevmap.values, eh.edge.prev = n) ∧ ∀ eh ∈ m.prevmap.values, eh.edge.root ≠ n

/-! ### The maps and the list of the edges -/

variable {codec}

/-- The maps have the edges of a graph. -/
structure HeadMaps.Models (m : HeadMaps) (g : LameGraph) : Prop where
  prevmap : m.prevmap.entries.Perm (g.stored.map fun eh => (eh.edge.prev, eh))
  rootmap : m.rootmap.entries.Perm (g.stored.map fun eh => (eh.edge.root, eh))
  roots : m.roots = g.roots

namespace HeadMaps.Models

variable {m : HeadMaps} {g : LameGraph}

theorem empty : HeadMaps.empty.Models .empty := ⟨.nil, .nil, rfl⟩

/-- A lookup finds the edges that have the node as their key. -/
theorem find_iff {map : LameEdgeMap} {key : LameEdge → HeadNode} {stored : List LameEdge}
    (h : map.entries.Perm (stored.map fun eh => (key eh, eh))) (n : HeadNode) :
    (map.find n).isSome ↔ n ∈ stored.map key := by
  rw [MultiMap.find_isSome_iff, (h.map Prod.fst).mem_iff, List.map_map]
  rfl

theorem insert_map {map : LameEdgeMap} {key : LameEdge → HeadNode} {stored : List LameEdge}
    (h : map.entries.Perm (stored.map fun eh => (key eh, eh))) (eh : LameEdge) :
    (map.insert (key eh) eh).entries.Perm ((stored ++ [eh]).map fun eh => (key eh, eh)) := by
  rw [List.map_append]
  exact (map.insert_perm (key eh) eh).trans ((h.cons _).trans (List.perm_append_singleton _ _).symm)

/-- **Both graphs accept, ignore and reject the same edges.** -/
theorem insertEdge (h : m.Models g) (eh : LameEdge) :
    (∃ e, Head.insertEdge m eh = .error e ∧ insertLame g eh = .error e) ∨
      ∃ m' g', Head.insertEdge m eh = .ok m' ∧ insertLame g eh = .ok g' ∧ m'.Models g' := by
  have hdup : ((m.prevmap.find eh.edge.prev).isSome ∧ (m.rootmap.find eh.edge.root).isSome) ↔
      eh.edge.prev ∈ g.stored.map (fun x => x.edge.prev) ∧
        eh.edge.root ∈ g.stored.map (fun x => x.edge.root) :=
    and_congr (find_iff h.prevmap _) (find_iff h.rootmap _)
  rw [Head.insertEdge, insertLame]
  by_cases hself : eh.edge.prev = eh.edge.root
  · rw [if_pos hself, if_pos hself]
    exact .inl ⟨_, rfl, rfl⟩
  rw [if_neg hself, if_neg hself]
  refine .inr ?_
  by_cases hin : eh.edge.prev ∈ g.stored.map (fun x => x.edge.prev) ∧
      eh.edge.root ∈ g.stored.map (fun x => x.edge.root)
  · rw [if_pos (hdup.2 hin), if_pos hin]
    exact ⟨m, g, rfl, rfl, h⟩
  · rw [if_neg (mt hdup.1 hin), if_neg hin]
    have hrootmap := insert_map h.rootmap eh
    refine ⟨_, _, rfl, rfl, insert_map h.prevmap eh, hrootmap, ?_⟩
    have hseen := find_iff hrootmap eh.edge.prev
    simp only [h.roots]
    by_cases hroot : eh.edge.prev ∈ (g.stored ++ [eh]).map fun eh => eh.edge.root
    · rw [if_pos hroot, if_neg]
      simpa using Option.isSome_iff_ne_none.1 (hseen.2 hroot)
    · rw [if_neg hroot, if_pos]
      have hnone := mt hseen.1 hroot
      simpa only [Option.isNone_iff_eq_none, Bool.not_eq_true, Option.isSome_eq_false_iff] using hnone

theorem insertMapsOrKeep (h : m.Models g) (she : SignedHeadEdge) :
    (Head.insertMapsOrKeep codec m she).Models (insertSignedOrKeep codec g she) := by
  rw [Head.insertMapsOrKeep, insertSignedOrKeep, insertMaps, insertSigned]
  cases lameEdge codec she with
  | error e => exact h
  | ok eh =>
      simp only [bind, Except.bind]
      rcases h.insertEdge eh with ⟨e, hm, hg⟩ | ⟨m', g', hm, hg, h'⟩
      · rw [hm, hg]
        exact h
      · rw [hm, hg]
        exact h'

/-- The maps after a sequence of calls have the edges that the list then has. -/
theorem foldl (shes : List SignedHeadEdge) : ∀ {m : HeadMaps} {g : LameGraph}, m.Models g →
    (shes.foldl (Head.insertMapsOrKeep codec) m).Models (shes.foldl (insertSignedOrKeep codec) g) := by
  induction shes with
  | nil => exact fun h => h
  | cons she shes ih => exact fun h => ih (h.insertMapsOrKeep she)

theorem values_prevmap (h : m.Models g) : m.prevmap.values.Perm g.stored := by
  simpa [MultiMap.values, Function.comp_def] using h.prevmap.map Prod.snd

theorem values_rootmap (h : m.Models g) : m.rootmap.values.Perm g.stored := by
  simpa [MultiMap.values, Function.comp_def] using h.rootmap.map Prod.snd

theorem mem_pairs (h : m.Models g) (p : HeadNode × HeadNode) : p ∈ m.pairs ↔ p ∈ g.bare.pairs := by
  rw [HeadMaps.pairs, (h.values_prevmap.map _).mem_iff]
  simp [LameHeadNodeGraph.pairs, LameGraph.bare]

/-- The maps of a graph whose roots are right. -/
theorem rootsExact (h : m.Models g) (hg : GraphOk g.bare) : RootsExact m where
  same := h.values_prevmap.trans h.values_rootmap.symm
  prevKey x hx := by
    obtain ⟨eh, -, rfl⟩ := List.mem_map.1 (h.prevmap.subset hx)
    rfl
  rootKey x hx := by
    obtain ⟨eh, -, rfl⟩ := List.mem_map.1 (h.rootmap.subset hx)
    rfl
  roots n := by
    have hroots := hg.roots n
    rw [h.roots]
    simp only [← h.mem_pairs, HeadMaps.pairs, List.mem_map, Prod.mk.injEq] at hroots
    refine hroots.trans (and_congr ?_ ?_)
    · constructor
      · rintro ⟨u, eh, heh, rfl, -⟩
        exact ⟨eh, heh, rfl⟩
      · rintro ⟨eh, heh, rfl⟩
        exact ⟨_, eh, heh, rfl, rfl⟩
    · constructor
      · exact fun hno eh heh hn => hno eh.edge.prev ⟨eh, heh, rfl, hn⟩
      · rintro hno u ⟨eh, heh, -, hn⟩
        exact hno eh heh hn

end HeadMaps.Models

/-! ### The roots -/

theorem graphOk_insertSignedOrKeep {g : LameGraph} (h : GraphOk g.bare) (she : SignedHeadEdge) :
    GraphOk (insertSignedOrKeep codec g she).bare := by
  cases he : codec.parseEdge she.headedge with
  | none =>
      have hrun : insertSigned codec g she = .error (.internalError "failed to parse headedge") := by
        simp [insertSigned, lameEdge, he, bind, Except.bind, throw, throwThe, MonadExceptOf.throw]
      rw [insertSignedOrKeep, hrun]
      exact h
  | some e =>
      have hbare := bare_insertSigned he g
      have hok := h.insertOrKeep e
      rw [insertOrKeep, ← hbare] at hok
      rw [insertSignedOrKeep]
      cases hrun : insertSigned codec g she with
      | error e => exact h
      | ok g' =>
          rw [hrun] at hok
          exact hok

theorem graphOk_foldl (shes : List SignedHeadEdge) : ∀ {g : LameGraph}, GraphOk g.bare →
    GraphOk (shes.foldl (insertSignedOrKeep codec) g).bare := by
  induction shes with
  | nil => exact fun h => h
  | cons she shes ih => exact fun h => ih (graphOk_insertSignedOrKeep h she)

/-- From the roots of a graph without cycles every edge is reached. -/
theorem RootsExact.reaches {m : HeadMaps} (h : RootsExact m) (ha : Acyclic m.pairs) {eh : LameEdge}
    (heh : eh ∈ m.prevmap.values) :
    ∃ r ∈ m.roots, r.fstag = eh.edge.fstag ∧ ReflTransGen (Edge m.pairs) r eh.edge.prev := by
  obtain ⟨r, hno, hpath⟩ := exists_source ha eh.edge.prev
  have htag : ∀ a b, ReflTransGen (Edge m.pairs) a b → b.fstag = a.fstag := by
    intro a b hab
    induction hab with
    | refl => rfl
    | tail _ he ih =>
        obtain ⟨eh', -, hp⟩ := List.mem_map.1 he
        obtain ⟨rfl, rfl⟩ := Prod.mk.inj hp
        exact ih
  refine ⟨r, (h.roots r).2 ⟨?_, fun eh' heh' hr => ?_⟩, (htag r _ hpath).symm, hpath⟩
  · rcases ReflTransGen.cases_head hpath with rfl | ⟨c, hc, -⟩
    · exact ⟨eh, heh, rfl⟩
    · obtain ⟨eh', heh', hp⟩ := List.mem_map.1 hc
      exact ⟨eh', heh', (Prod.mk.inj hp).1⟩
  · exact hno eh'.edge.prev (List.mem_map.2 ⟨eh', heh', by rw [← hr]⟩)

/-- **The roots of the head graph.**  After any calls of `insert_head`, whether they were accepted,
ignored or rejected, the two maps have the same edges and the roots are the nodes where an edge starts
and none ends.  If the edges have no cycle, each is reached from a root with its tag. -/
theorem roots_of_insertions (codec : HeadCodec) (shes : List SignedHeadEdge) :
    RootsExact (insertedMaps codec shes) ∧
      (Acyclic (insertedMaps codec shes).pairs → ∀ eh ∈ (insertedMaps codec shes).prevmap.values,
        ∃ r ∈ (insertedMaps codec shes).roots, r.fstag = eh.edge.fstag ∧
          ReflTransGen (Edge (insertedMaps codec shes).pairs) r eh.edge.prev) := by
  have hmodels : (insertedMaps codec shes).Models _ := HeadMaps.Models.empty.foldl shes
  have hok : GraphOk (LameGraph.empty).bare := GraphOk.inserted []
  have hexact := hmodels.rootsExact (graphOk_foldl shes hok)
  exact ⟨hexact, fun ha eh heh => hexact.reaches ha heh⟩

open Wire in
/-- A signed edge, at a fixed time. -/
def HeadEdge.signed (e : HeadEdge) : SignedHeadEdge :=
  ⟨bytesField 0x0a e.fstag ++ (bytesField 0x12 e.rootref ++ (bytesField 0x1a e.prevref ++
    varintField 0x20 7)), [], []⟩

/-- The edges of a history that joins again, children before parents: all five are stored. -/
theorem roots_of_insertions_diamond :
    (∀ e ∈ diamond, ∃ eh ∈ (insertedMaps .sample (diamond.reverse.map HeadEdge.signed)).prevmap.values,
      eh.edge.prev = e.prev ∧ eh.edge.root = e.root) ∧
    ∀ eh ∈ (insertedMaps .sample (diamond.reverse.map HeadEdge.signed)).prevmap.values,
      ∃ r ∈ (insertedMaps .sample (diamond.reverse.map HeadEdge.signed)).roots,
        r.fstag = eh.edge.fstag ∧
          ReflTransGen (Edge (insertedMaps .sample (diamond.reverse.map HeadEdge.signed)).pairs) r
            eh.edge.prev :=
  ⟨by decide, (roots_of_insertions .sample (diamond.reverse.map HeadEdge.signed)).2
    (acyclic_of_rank (fun n => n.ref.length) (by decide))⟩

end Head

end Utopfs
