/-
**The head nodes of one file system.**

A file system that is mounted by one program at a time inserts one head node after the other.  Each edge
starts at the node before, the first at the node without a reference.  In the graph of the head nodes the
edges are a chain, and the search from the node without a reference ends at the last one, in whatever order
and how often the edges have been inserted.

Main definitions:

* `Head.chain` — the edges of a sequence of roots;
* `UTFS.headEdges` — the edges that a file system has inserted;
* `UTFS.HeadChain` — each edge starts at the node before.

Main results:

* `Head.headFurthest_chain` — the furthest node of a chain is its end;
* `UTFS.HeadChain.headFurthest` — **what the search finds for a file system**.
-/

import Utopfs.HeadForest
import Utopfs.UTFileSystem

set_option relaxedAutoImplicit false
set_option autoImplicit false

namespace Utopfs

namespace Head

open Relation Worklist

/-! ### Chains -/

/-- The edges of a sequence of roots, newest first. -/
def chain (fstag : Octets) : List Octets → List HeadEdge
  | [] => []
  | r :: rs => ⟨fstag, rs.head?.getD [], r⟩ :: chain fstag rs

section chain

variable {fstag : Octets} {rs : List Octets} {e : HeadEdge}

theorem fstag_of_mem_chain (h : e ∈ chain fstag rs) : e.fstag = fstag := by
  induction rs with
  | nil => simp [chain] at h
  | cons r rs ih =>
      rcases List.mem_cons.1 h with rfl | h
      · rfl
      · exact ih h

theorem rootref_of_mem_chain (h : e ∈ chain fstag rs) : e.rootref ∈ rs := by
  induction rs with
  | nil => simp [chain] at h
  | cons r rs ih =>
      rcases List.mem_cons.1 h with rfl | h
      · exact List.mem_cons_self
      · exact List.mem_cons_of_mem _ (ih h)

/-- An edge starts at the root before its own, or at the node without a reference. -/
theorem prevref_of_mem_chain (h : e ∈ chain fstag rs) : e.prevref = [] ∨ e.prevref ∈ rs.tail := by
  induction rs with
  | nil => simp [chain] at h
  | cons r rs ih =>
      rcases List.mem_cons.1 h with rfl | h
      · cases rs with
        | nil => exact .inl rfl
        | cons r' rs => exact .inr List.mem_cons_self
      · exact (ih h).imp_right fun hmem => List.mem_of_mem_tail hmem

/-- An edge leaves every root but the newest. -/
theorem exists_mem_chain_prev {r : Octets} (h : r ∈ rs.tail) : ∃ e ∈ chain fstag rs, e.prevref = r := by
  induction rs with
  | nil => simp at h
  | cons r' rs ih =>
      cases rs with
      | nil => simp at h
      | cons r'' rs =>
          rcases List.mem_cons.1 h with rfl | h
          · exact ⟨_, List.mem_cons_self, rfl⟩
          · obtain ⟨e, he, hr⟩ := ih h
            exact ⟨e, List.mem_cons_of_mem _ he, hr⟩

theorem eq_of_mem_chain (hnd : rs.Nodup) {e' : HeadEdge} (h : e ∈ chain fstag rs) (h' : e' ∈ chain fstag rs)
    (hroot : e.rootref = e'.rootref) : e = e' := by
  induction rs with
  | nil => simp [chain] at h
  | cons r rs ih =>
      obtain ⟨hr, hnd⟩ := List.nodup_cons.1 hnd
      rcases List.mem_cons.1 h with rfl | h
      · rcases List.mem_cons.1 h' with rfl | h'
        · rfl
        · exact absurd (by rw [show r = e'.rootref from hroot]; exact rootref_of_mem_chain h') hr
      · rcases List.mem_cons.1 h' with rfl | h'
        · exact absurd (by rw [show r = e.rootref from hroot.symm]; exact rootref_of_mem_chain h) hr
        · exact ih hnd h h'

/-- The number of roots up to a node. -/
def chainRank (rs : List Octets) (n : HeadNode) : ℕ := rs.length - rs.idxOf n.ref

theorem chainRank_cons_of_ne {r : Octets} {n : HeadNode} (hne : n.ref ≠ r) :
    chainRank (r :: rs) n = chainRank rs n := by
  rw [chainRank, chainRank, List.idxOf_cons_ne _ (Ne.symm hne), List.length_cons, Nat.succ_sub_succ]

theorem chainRank_lt (hnd : rs.Nodup) (hne : [] ∉ rs) (h : e ∈ chain fstag rs) :
    chainRank rs e.prev < chainRank rs e.root := by
  induction rs with
  | nil => simp [chain] at h
  | cons r rs ih =>
      obtain ⟨hr, hnd⟩ := List.nodup_cons.1 hnd
      have hne' : [] ∉ rs := fun hmem => hne (List.mem_cons_of_mem _ hmem)
      -- No edge starts at the newest root.
      have hprev : e.prev.ref ≠ r := by
        rintro rfl
        rcases prevref_of_mem_chain h with hnil | hmem
        · exact hne (by rw [← hnil]; exact List.mem_cons_self)
        · exact hr hmem
      rw [chainRank_cons_of_ne hprev]
      rcases List.mem_cons.1 h with rfl | hold
      · have hself : chainRank (r :: rs) ⟨fstag, r⟩ = rs.length + 1 := by
          rw [chainRank, List.idxOf_cons_self, List.length_cons, Nat.sub_zero]
        exact (Nat.lt_succ_of_le (Nat.sub_le _ _)).trans_eq hself.symm
      · have hroot : e.root.ref ≠ r := by
          rintro rfl
          exact hr (rootref_of_mem_chain hold)
        rw [chainRank_cons_of_ne hroot]
        exact ih hnd hne' hold

/-- **A chain is a forest.** -/
theorem isForest_chain (hnd : rs.Nodup) (hne : [] ∉ rs) : IsForest (chain fstag rs) := by
  constructor
  · refine acyclic_of_rank (chainRank rs) fun p hp => ?_
    obtain ⟨e, he, rfl⟩ := List.mem_map.1 hp
    exact chainRank_lt hnd hne he
  · intro a b v ha hb
    obtain ⟨e, he, hea⟩ := List.mem_map.1 ha
    obtain ⟨e', he', heb⟩ := List.mem_map.1 hb
    obtain ⟨rfl, hroot⟩ := Prod.mk.inj hea
    obtain ⟨rfl, hroot'⟩ := Prod.mk.inj heb
    have href : e.rootref = e'.rootref := congrArg HeadNode.ref (hroot.trans hroot'.symm)
    rw [eq_of_mem_chain hnd he he' href]

/-- **The furthest node of a chain is its end**, in whatever order its edges were inserted. -/
theorem headFurthest_chain (hnd : rs.Nodup) (hne : [] ∉ rs) {es : List HeadEdge}
    (hes : ∀ e, e ∈ es ↔ e ∈ chain fstag rs) :
    headFurthest (inserted es) ⟨fstag, []⟩ = .ok (rs.head?.toList.map (HeadNode.mk fstag)) := by
  obtain ⟨hpart, hmem⟩ := Part.inserted (isForest_chain hnd hne) fun e he => (hes e).1 he
  obtain ⟨l, hrun, hl⟩ := hpart.ok.headFurthest_far (hpart.acyclic (isForest_chain hnd hne)) ⟨fstag, []⟩
  have hedge : ∀ a b, (a, b) ∈ (inserted es).pairs ↔ ∃ e ∈ chain fstag rs, e.prev = a ∧ e.root = b := by
    intro a b
    rw [mem_pairs]
    exact exists_congr fun e => and_congr_left' ((hmem e).trans (hes e))
  have hfar : ∀ t, Far (inserted es) ⟨fstag, []⟩ t ↔ t ∈ rs.head?.toList.map (HeadNode.mk fstag) := by
    intro t
    rw [Far, if_pos rfl]
    constructor
    · rintro ⟨hsink, ⟨u, hu⟩, htag⟩
      obtain ⟨e, he, -, rfl⟩ := (hedge u t).1 hu
      have hroot := rootref_of_mem_chain he
      cases rs with
      | nil => simp at hroot
      | cons r rs =>
          rcases List.mem_cons.1 hroot with heq | hold
          · simp [HeadEdge.root, heq, fstag_of_mem_chain he]
          · -- An older root is left by an edge.
            obtain ⟨e', he', hprev⟩ : ∃ e' ∈ chain fstag (r :: rs), e'.prevref = e.rootref :=
              exists_mem_chain_prev hold
            refine absurd ((hedge _ e'.root).2 ⟨e', he', ?_, rfl⟩) (hsink e'.root)
            rw [HeadEdge.prev, HeadEdge.root, hprev, fstag_of_mem_chain he, fstag_of_mem_chain he']
    · intro ht
      cases rs with
      | nil => simp at ht
      | cons r rs =>
          obtain rfl : t = ⟨fstag, r⟩ := by simpa using ht
          refine ⟨fun u hu => ?_, ⟨_, (hedge _ _).2 ⟨_, List.mem_cons_self, rfl, rfl⟩⟩, rfl⟩
          obtain ⟨e, he, hprev, -⟩ := (hedge _ u).1 hu
          have href : e.prevref = r := congrArg HeadNode.ref hprev
          rcases prevref_of_mem_chain he with hnil | hold
          · exact hne (by rw [← hnil, href]; exact List.mem_cons_self)
          · exact (List.nodup_cons.1 hnd).1 (href ▸ hold)
  have hperm : l.sort.Perm (rs.head?.toList.map (HeadNode.mk fstag)) := by
    refine (List.perm_ext_iff_of_nodup (Finset.sort_nodup _ _) ?_).2 fun t => ?_
    · cases rs <;> simp
    · rw [Finset.mem_sort, hl, hfar]
  rw [hrun]
  cases rs with
  | nil => exact congrArg Except.ok (List.perm_nil.1 hperm)
  | cons r rs => exact congrArg Except.ok (List.perm_singleton.1 hperm)

end chain

end Head

namespace UTFS

/-! ### What a file system inserts -/

/-- The bytes of a reference. -/
def BlockRef.bytes (r : BlockRef) : Str := List.ofFn r

theorem BlockRef.bytes_injective : Function.Injective BlockRef.bytes := List.ofFn_injective

theorem BlockRef.bytes_ne_nil (r : BlockRef) : r.bytes ≠ [] := by
  intro h
  have hlen := congrArg List.length h
  simp [BlockRef.bytes] at hlen

/-- The head edges that a file system with this tag has inserted, oldest first. -/
def headEdges (fstag : Str) : List Effect → List Head.HeadEdge
  | [] => []
  | .headInsert prev root :: l =>
      headEdges fstag l ++ [⟨fstag, (prev.map BlockRef.bytes).getD [], root.bytes⟩]
  | _ :: l => headEdges fstag l

/-- Each edge starts at the head node before, the first at none, and ends at a new one. -/
def HeadChain : List Effect → Prop
  | [] => True
  | .headInsert prev root :: l => prev = (heads l).head? ∧ root ∉ heads l ∧ HeadChain l
  | _ :: l => HeadChain l

section chain

variable {l l' : List Effect} {fstag : Str}

theorem HeadChain.of_heads (h : heads l = []) : HeadChain l := by
  induction l with
  | nil => trivial
  | cons x l ih =>
      cases x with
      | headInsert prev root => simp [heads] at h
      | _ => exact ih h

theorem headChain_append (h : heads l = []) : HeadChain (l ++ l') ↔ HeadChain l' := by
  induction l with
  | nil => rfl
  | cons x l ih =>
      cases x with
      | headInsert prev root => simp [heads] at h
      | _ => exact ih h

theorem HeadChain.nodup (h : HeadChain l) : (heads l).Nodup := by
  induction l with
  | nil => exact List.nodup_nil
  | cons x l ih =>
      cases x with
      | headInsert prev root => exact List.nodup_cons.2 ⟨h.2.1, ih h.2.2⟩
      | _ => exact ih h

/-- The edges are the chain of the head nodes. -/
theorem HeadChain.headEdges_eq (h : HeadChain l) :
    headEdges fstag l = (Head.chain fstag ((heads l).map BlockRef.bytes)).reverse := by
  induction l with
  | nil => rfl
  | cons x l ih =>
      cases x with
      | headInsert prev root =>
          obtain ⟨hprev, -, hl⟩ := h
          rw [headEdges, ih hl, heads, List.map_cons, Head.chain, List.reverse_cons, hprev, List.head?_map]
      | _ => exact ih h

/-- **What the search of the head graph finds for a file system**: the head node that was inserted last. -/
theorem HeadChain.headFurthest (h : HeadChain l) {es : List Head.HeadEdge}
    (hes : ∀ e, e ∈ es ↔ e ∈ headEdges fstag l) :
    Head.headFurthest (Head.inserted es) ⟨fstag, []⟩ =
      .ok ((heads l).head?.toList.map fun r => ⟨fstag, r.bytes⟩) := by
  have hne : [] ∉ (heads l).map BlockRef.bytes := by
    intro hmem
    obtain ⟨r, -, hr⟩ := List.mem_map.1 hmem
    exact r.bytes_ne_nil hr
  have hchain : ∀ e, e ∈ es ↔ e ∈ Head.chain fstag ((heads l).map BlockRef.bytes) := fun e => by
    rw [hes, h.headEdges_eq, List.mem_reverse]
  rw [Head.headFurthest_chain (h.nodup.map BlockRef.bytes_injective) hne hchain]
  cases heads l <;> rfl

end chain

end UTFS

end Utopfs
