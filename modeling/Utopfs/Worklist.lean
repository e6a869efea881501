/-
**Replacing the elements of a set by their successors.**

A finite graph is a list of edges.  From a set of seeds one repeatedly takes an element that has
successors out of the set and puts its successors in.  On a graph with forks and joins an element can
leave the set and come back; without cycles the process still ends, because a power of the number of
edges, taken to the number of nodes beyond each element, adds up to less in every round.  At the end the
set has the sinks that can be reached from the seeds.

* `Worklist.Edge`, `Worklist.Acyclic`, `Worklist.Sink`, `Worklist.Reaches`, `Worklist.AcyclicFrom` —
  graphs;
* `Worklist.Replaced` — one round;
* `Worklist.potential`, `Worklist.Replaced.potential_lt`, `Worklist.potential_lt_pow` — every round
  lowers the potential, which is bounded by the number of edges alone;
* `Worklist.Replaced.reaches_iff`, `Worklist.Replaced.reaches_or`, `Worklist.Replaced.reaches_cycle` —
  what a round keeps: the sinks that can be reached, the nodes that have been or will be passed, and
  the cycles that are reached;
* `Worklist.exists_source`, `Worklist.exists_sink` — in a graph without cycles every node comes from a
  source and leads to a sink;
* `Worklist.Forest`, `Worklist.Forest.path_within`, `Worklist.Forest.path_of_agree` — where every node
  has one predecessor at most, parts of the graph in which a node leads to the same sinks have all the
  paths from it between them.

Nothing here mentions a particular type of nodes.
-/

import Mathlib.Algebra.BigOperators.Group.Finset.Basic
import Mathlib.Algebra.Order.BigOperators.Group.Finset
import Mathlib.Data.Finset.Card
import Mathlib.Logic.Relation
import Mathlib.Tactic.Ring

set_option relaxedAutoImplicit false
set_option autoImplicit false

namespace Worklist

open Relation

variable {V : Type} [DecidableEq V]

/-! ### Graphs -/

section graph

omit [DecidableEq V]

/-- One edge. -/
def Edge (edges : List (V × V)) (a b : V) : Prop := (a, b) ∈ edges

/-- No path leads back to its start. -/
def Acyclic (edges : List (V × V)) : Prop := ∀ v, ¬ TransGen (Edge edges) v v

/-- No edge starts here. -/
def Sink (edges : List (V × V)) (v : V) : Prop := ∀ u, (v, u) ∉ edges

/-- A path leads here from an element of the set. -/
def Reaches (edges : List (V × V)) (l : Finset V) (t : V) : Prop :=
  ∃ s ∈ l, ReflTransGen (Edge edges) s t

variable {edges : List (V × V)}

theorem Acyclic.mono {edges' : List (V × V)} (h : Acyclic edges) (hsub : edges' ⊆ edges) :
    Acyclic edges' := by
  intro v hv
  have hle : Edge edges' ≤ Edge edges := fun _ _ he => hsub he
  exact h v (TransGen.mono hle v v hv)

/-- No node that is reached lies on a cycle. -/
def AcyclicFrom (edges : List (V × V)) (l : Finset V) : Prop :=
  ∀ v, Reaches edges l v → ¬ TransGen (Edge edges) v v

theorem Acyclic.acyclicFrom (h : Acyclic edges) (l : Finset V) : AcyclicFrom edges l := fun v _ => h v

/-- A path from a sink stays there. -/
theorem Sink.eq_of_path {a b : V} (h : Sink edges a) (hp : ReflTransGen (Edge edges) a b) : b = a := by
  rcases ReflTransGen.cases_head hp with rfl | ⟨c, hc, -⟩
  · rfl
  · exact absurd hc (h c)

end graph

/-! ### The potential -/

open Classical in
/-- The nodes beyond a node. -/
noncomputable def beyond (edges : List (V × V)) (v : V) : Finset V :=
  (edges.map Prod.snd).toFinset.filter fun u => TransGen (Edge edges) v u

/-- The weight of a node. -/
noncomputable def weight (edges : List (V × V)) (v : V) : ℕ :=
  (edges.length + 1) ^ (beyond edges v).card

/-- The weight of a set. -/
noncomputable def potential (edges : List (V × V)) (l : Finset V) : ℕ := ∑ v ∈ l, weight edges v

variable {edges : List (V × V)}

theorem mem_beyond {v u : V} : u ∈ beyond edges v ↔ TransGen (Edge edges) v u := by
  classical
  rw [beyond, Finset.mem_filter]
  refine ⟨fun h => h.2, fun h => ⟨?_, h⟩⟩
  obtain ⟨c, -, hc⟩ := TransGen.tail'_iff.1 h
  exact List.mem_toFinset.2 (List.mem_map.2 ⟨_, hc, rfl⟩)

theorem card_beyond_le (v : V) : (beyond edges v).card ≤ edges.length := by
  classical
  calc (beyond edges v).card ≤ (edges.map Prod.snd).toFinset.card := Finset.card_filter_le _ _
    _ ≤ (edges.map Prod.snd).length := List.toFinset_card_le _
    _ = edges.length := List.length_map _

/-- There is less beyond a successor that is on no cycle. -/
theorem card_beyond_lt {a b : V} (hab : (a, b) ∈ edges) (h : ¬ TransGen (Edge edges) b b) :
    (beyond edges b).card < (beyond edges a).card := by
  refine Finset.card_lt_card (Finset.ssubset_iff_of_subset ?_ |>.2 ⟨b, ?_, ?_⟩)
  · intro u hu
    exact mem_beyond.2 (TransGen.head hab (mem_beyond.1 hu))
  · exact mem_beyond.2 (.single hab)
  · exact fun hb => h (mem_beyond.1 hb)

/-! ### One round -/

/-- The element `n` of `l`, which has successors, is replaced by them. -/
structure Replaced (edges : List (V × V)) (n : V) (l l' : Finset V) : Prop where
  mem : n ∈ l
  kids : ∃ u, (n, u) ∈ edges
  mem_iff : ∀ x, x ∈ l' ↔ (x ∈ l ∧ x ≠ n) ∨ (n, x) ∈ edges

variable {n : V} {l l' : Finset V}

/-- The successors weigh less than their node. -/
theorem sum_kids_lt (h : ∀ x, (n, x) ∈ edges → ¬ TransGen (Edge edges) x x)
    (hkids : ∃ u, (n, u) ∈ edges) {K : Finset V} (hK : ∀ x ∈ K, (n, x) ∈ edges) :
    ∑ v ∈ K, weight edges v < weight edges n := by
  obtain ⟨u, hu⟩ := hkids
  obtain ⟨k, hk⟩ : ∃ k, (beyond edges n).card = k + 1 :=
    ⟨(beyond edges n).card - 1, by have := card_beyond_lt hu (h u hu); omega⟩
  have hcard : K.card ≤ edges.length := by
    calc K.card ≤ (edges.map Prod.snd).toFinset.card := by
          refine Finset.card_le_card fun x hx => ?_
          exact List.mem_toFinset.2 (List.mem_map.2 ⟨_, hK x hx, rfl⟩)
      _ ≤ (edges.map Prod.snd).length := List.toFinset_card_le _
      _ = edges.length := List.length_map _
  have hle : ∀ v ∈ K, weight edges v ≤ (edges.length + 1) ^ k := by
    intro v hv
    have := card_beyond_lt (hK v hv) (h v (hK v hv))
    exact Nat.pow_le_pow_right (Nat.succ_pos _) (by omega)
  have hpos : 0 < (edges.length + 1) ^ k := Nat.pow_pos (Nat.succ_pos _)
  calc ∑ v ∈ K, weight edges v ≤ K.card * (edges.length + 1) ^ k := by
        simpa using Finset.sum_le_card_nsmul K _ _ hle
    _ ≤ edges.length * (edges.length + 1) ^ k := Nat.mul_le_mul_right _ hcard
    _ < edges.length * (edges.length + 1) ^ k + (edges.length + 1) ^ k := by omega
    _ = weight edges n := by rw [weight, hk]; ring

/-- **Every round lowers the potential**, as long as no cycle is reached. -/
theorem Replaced.potential_lt (h : Replaced edges n l l') (ha : AcyclicFrom edges l) :
    potential edges l' < potential edges l := by
  classical
  set K := l'.filter fun x => (n, x) ∈ edges with hK
  have hsub : l' ⊆ l.erase n ∪ K := by
    intro x hx
    rcases (h.mem_iff x).1 hx with ⟨hxl, hne⟩ | hx'
    · exact Finset.mem_union_left _ (Finset.mem_erase.2 ⟨hne, hxl⟩)
    · exact Finset.mem_union_right _ (Finset.mem_filter.2 ⟨hx, hx'⟩)
  have hkids : ∑ v ∈ K, weight edges v < weight edges n :=
    sum_kids_lt (fun x hx => ha x ⟨n, h.mem, .single hx⟩) h.kids fun x hx => (Finset.mem_filter.1 hx).2
  have hunion : ∑ v ∈ l.erase n ∪ K, weight edges v ≤
      ∑ v ∈ l.erase n, weight edges v + ∑ v ∈ K, weight edges v := by
    rw [← Finset.sum_union_inter]
    exact Nat.le_add_right _ _
  calc potential edges l' ≤ ∑ v ∈ l.erase n ∪ K, weight edges v :=
        Finset.sum_le_sum_of_subset hsub
    _ ≤ ∑ v ∈ l.erase n, weight edges v + ∑ v ∈ K, weight edges v := hunion
    _ < ∑ v ∈ l.erase n, weight edges v + weight edges n := by omega
    _ = potential edges l := Finset.sum_erase_add _ _ h.mem

/-- The potential of not more elements than edges. -/
theorem potential_lt_pow (hl : l.card ≤ edges.length) :
    potential edges l < (edges.length + 1) ^ (edges.length + 1) := by
  have hle : ∀ v ∈ l, weight edges v ≤ (edges.length + 1) ^ edges.length :=
    fun v _ => Nat.pow_le_pow_right (Nat.succ_pos _) (card_beyond_le v)
  have hpos : 0 < (edges.length + 1) ^ edges.length := Nat.pow_pos (Nat.succ_pos _)
  calc potential edges l ≤ l.card * (edges.length + 1) ^ edges.length := by
        simpa [potential] using Finset.sum_le_card_nsmul _ _ _ hle
    _ ≤ edges.length * (edges.length + 1) ^ edges.length := Nat.mul_le_mul_right _ hl
    _ < edges.length * (edges.length + 1) ^ edges.length + (edges.length + 1) ^ edges.length := by
        omega
    _ = (edges.length + 1) ^ (edges.length + 1) := by ring

section keep

omit [DecidableEq V]

/-- The same nodes are reached, but perhaps for the one that was replaced. -/
theorem Replaced.reaches_or (h : Replaced edges n l l') (t : V) :
    Reaches edges l t ↔ t = n ∨ Reaches edges l' t := by
  constructor
  · rintro ⟨s, hs, hp⟩
    by_cases hsn : s = n
    · subst hsn
      rcases ReflTransGen.cases_head hp with rfl | ⟨c, hc, hp⟩
      · exact .inl rfl
      · exact .inr ⟨c, (h.mem_iff c).2 (.inr hc), hp⟩
    · exact .inr ⟨s, (h.mem_iff s).2 (.inl ⟨hs, hsn⟩), hp⟩
  · rintro (rfl | ⟨s, hs, hp⟩)
    · exact ⟨t, h.mem, .refl⟩
    · rcases (h.mem_iff s).1 hs with ⟨hs, -⟩ | hs
      · exact ⟨s, hs, hp⟩
      · exact ⟨n, h.mem, .head hs hp⟩

theorem Replaced.acyclicFrom (h : Replaced edges n l l') (ha : AcyclicFrom edges l) :
    AcyclicFrom edges l' := fun v hv => ha v ((h.reaches_or v).2 (.inr hv))

/-- **A cycle that is reached is reached ever after.** -/
theorem Replaced.reaches_cycle (h : Replaced edges n l l') {v : V} (hv : Reaches edges l v)
    (hcycle : TransGen (Edge edges) v v) : Reaches edges l' v := by
  rcases (h.reaches_or v).1 hv with rfl | hv
  · obtain ⟨u, hu, hp⟩ := TransGen.head'_iff.1 hcycle
    exact ⟨u, (h.mem_iff u).2 (.inr hu), hp⟩
  · exact hv

/-- **The same sinks are reached.** -/
theorem Replaced.reaches_iff (h : Replaced edges n l l') {t : V} (ht : Sink edges t) :
    Reaches edges l' t ↔ Reaches edges l t := by
  obtain ⟨u, hu⟩ := h.kids
  have hne : t ≠ n := by
    rintro rfl
    exact ht u hu
  rw [h.reaches_or t]
  exact ⟨.inr, fun hr => hr.resolve_left hne⟩

/-- When only sinks are left, the sinks that are reached are left. -/
theorem reaches_sink_iff (hl : ∀ s ∈ l, Sink edges s) (t : V) :
    Reaches edges l t ↔ t ∈ l := by
  constructor
  · rintro ⟨s, hs, hp⟩
    rwa [(hl s hs).eq_of_path hp]
  · exact fun ht => ⟨t, ht, .refl⟩

end keep

/-! ### Sources and sinks -/

omit [DecidableEq V] in
/-- A graph whose edges go upwards has no cycles. -/
theorem acyclic_of_rank (rank : V → ℕ) (h : ∀ e ∈ edges, rank e.1 < rank e.2) : Acyclic edges := by
  have hlt : ∀ a b, TransGen (Edge edges) a b → rank a < rank b := by
    intro a b hab
    induction hab with
    | single he => exact h _ he
    | tail _ he ih => exact ih.trans (h _ he)
  exact fun v hv => Nat.lt_irrefl _ (hlt v v hv)

/-- A node of a graph without cycles leads to a sink. -/
theorem exists_sink (h : Acyclic edges) (v : V) :
    ∃ t, Sink edges t ∧ ReflTransGen (Edge edges) v t := by
  induction hk : (beyond edges v).card using Nat.strong_induction_on generalizing v with
  | _ k ih =>
      by_cases hs : Sink edges v
      · exact ⟨v, hs, .refl⟩
      · obtain ⟨u, hu⟩ : ∃ u, (v, u) ∈ edges := by
          simpa [Sink] using hs
        have hlt := card_beyond_lt hu (h u)
        obtain ⟨t, ht, hp⟩ := ih _ (hk ▸ hlt) u rfl
        exact ⟨t, ht, .head hu hp⟩

section source

omit [DecidableEq V]

/-- The graph with its edges turned around. -/
def reversed (edges : List (V × V)) : List (V × V) := edges.map Prod.swap

theorem mem_reversed {a b : V} : (a, b) ∈ reversed edges ↔ (b, a) ∈ edges := by
  simp [reversed]

theorem edge_reversed : Edge (reversed edges) = Function.swap (Edge edges) := by
  funext a b
  exact propext mem_reversed

theorem Acyclic.reversed (h : Acyclic edges) : Acyclic (reversed edges) := by
  intro v hv
  rw [edge_reversed, transGen_swap] at hv
  exact h v hv

end source

/-- A node of a graph without cycles comes from a node at which no edge ends. -/
theorem exists_source (h : Acyclic edges) (v : V) :
    ∃ s, (∀ u, (u, s) ∉ edges) ∧ ReflTransGen (Edge edges) s v := by
  obtain ⟨s, hs, hp⟩ := exists_sink h.reversed v
  refine ⟨s, fun u hu => hs u (mem_reversed.2 hu), ?_⟩
  rw [edge_reversed, reflTransGen_swap] at hp
  exact hp

/-! ### Forests -/

section forest

omit [DecidableEq V]

/-- No cycles, and no two edges that end in one node. -/
structure Forest (edges : List (V × V)) : Prop where
  acyclic : Acyclic edges
  pred : ∀ a b v, (a, v) ∈ edges → (b, v) ∈ edges → a = b

theorem path_mono {edges' : List (V × V)} (hsub : edges' ⊆ edges) {a b : V}
    (h : ReflTransGen (Edge edges') a b) : ReflTransGen (Edge edges) a b :=
  ReflTransGen.mono (fun _ _ he => hsub he) a b h

/-- A path in a part of a forest passes all the nodes between its ends. -/
theorem Forest.path_within (h : Forest edges) {part : List (V × V)} (hsub : part ⊆ edges) {a y s : V}
    (hp : ReflTransGen (Edge part) a s) (hay : ReflTransGen (Edge edges) a y)
    (hys : ReflTransGen (Edge edges) y s) : ReflTransGen (Edge part) a y := by
  induction hp with
  | refl =>
      -- a path back to the start is empty
      rcases ReflTransGen.cases_head hys with rfl | ⟨c, hc, hcs⟩
      · exact .refl
      · exact absurd (TransGen.trans_right hay (TransGen.head' hc hcs)) (h.acyclic a)
  | tail hau hus ih =>
      rcases ReflTransGen.cases_tail hys with rfl | ⟨u', hyu, hu's⟩
      · exact hau.tail hus
      · obtain rfl := h.pred _ _ _ hu's (hsub hus)
        exact ih hyu

/-- Parts of a forest in which a node leads to the same sinks have all the paths from it between
them. -/
theorem Forest.path_of_agree [DecidableEq V] (h : Forest edges) {ι : Type} {part : ι → List (V × V)}
    (hsub : ∀ i, part i ⊆ edges) (hcover : ∀ e ∈ edges, ∃ i, e ∈ part i) {a : V}
    (hagree : ∀ i j t, Sink (part i) t → TransGen (Edge (part i)) a t →
      ReflTransGen (Edge (part j)) a t) {v : V}
    (hp : TransGen (Edge edges) a v) : ∃ i, TransGen (Edge (part i)) a v := by
  induction hp with
  | single he =>
      obtain ⟨i, hi⟩ := hcover _ he
      exact ⟨i, .single hi⟩
  | @tail y z _ he ih =>
      obtain ⟨i, hi⟩ := ih
      obtain ⟨j, hj⟩ := hcover _ he
      obtain ⟨t, ht, hyt⟩ := exists_sink (h.acyclic.mono (hsub i)) y
      have hat := hagree i j t ht (hi.trans_left hyt)
      have hay := h.path_within (hsub j) hat (path_mono (hsub i) hi.to_reflTransGen)
        (path_mono (hsub i) hyt)
      exact ⟨j, TransGen.tail' hay hj⟩

end forest

end Worklist
