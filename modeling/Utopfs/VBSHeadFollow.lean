/-
**The edges that follow a head node, from all children.**

A `VBSHeadFollowRequest` of `modules/VBlockStore/VBSHeadFollowRequest.cpp` asks all children for the edges
that follow a head node, and answers when the last of them has.  The edges are kept in a `std::set` whose
order is the comparison of `LameEdge`: by the node where an edge ends, then by the one where it starts.
Two children that have the same edge may have signed it differently; the set keeps the copy that came
first.

`het_edge` inserts into the set without holding the mutex.  What two insertions at the same time would do to a
`std::set` C++ does not say; here an insertion is one step.

Main definitions:

* `VBSFollow.lameLt`, `VBSFollow.setInsert` — `LameEdge::operator<`, and `std::set::insert`;
* `VBSFollow.State`, `VBSFollow.next` — the request and the callbacks in progress;
* `VBSFollow.outcome` — what the client is told, but for the signatures;
* `VBSFollow.TellsUnion` — the client is told that, once, when all children have answered.

Main results:

* `VBSFollow.lameLt_iff`, `VBSFollow.keys_sorted` — the comparison is that of the pairs of nodes, and the
  set has each pair once;
* `VBSFollow.Inv.step` — what every step keeps;
* `VBSFollow.tellsUnion` — a request to at least one child tells the client the union.
-/

import Mathlib.Data.Finset.Sort
import Mathlib.Data.Prod.Lex
import Utopfs.Gather
import Utopfs.HeadMaps
import Utopfs.Interleave

set_option relaxedAutoImplicit false
set_option autoImplicit false

namespace Utopfs

namespace VBSFollow

open Head Interleave

/-! ### The set of the edges -/

/-- `LameEdge::operator<` -/
def lameLt (a b : LameEdge) : Bool :=
  if a.edge.root ≠ b.edge.root then a.edge.root < b.edge.root else a.edge.prev < b.edge.prev

/-- The nodes of an edge, ordered by the end of the edge. -/
abbrev Key := HeadNode ×ₗ HeadNode

/-- What the comparison looks at. -/
def key (a : LameEdge) : Key := toLex (a.edge.root, a.edge.prev)

/-- **The comparison is a strict total order of the pairs of nodes.** -/
theorem lameLt_iff {a b : LameEdge} : lameLt a b = true ↔ key a < key b := by
  rw [key, key, Prod.Lex.toLex_lt_toLex, lameLt]
  by_cases h : a.edge.root = b.edge.root
  · simp [h]
  · simp [h]

/-- `std::set::insert`: an equal element stays. -/
def setInsert (x : LameEdge) : List LameEdge → List LameEdge
  | [] => [x]
  | y :: ys =>
      if lameLt x y then x :: y :: ys
      else if lameLt y x then y :: setInsert x ys
      else y :: ys

theorem mem_of_mem_setInsert {x y : LameEdge} {l : List LameEdge} (h : y ∈ setInsert x l) :
    y = x ∨ y ∈ l := by
  induction l with
  | nil => exact .inl (List.mem_singleton.1 h)
  | cons z l ih =>
      rw [setInsert] at h
      split at h
      · exact List.mem_cons.1 h
      · split at h
        · rcases List.mem_cons.1 h with rfl | h
          · exact .inr List.mem_cons_self
          · exact (ih h).imp_right (List.mem_cons_of_mem z)
        · exact .inr h

/-- No pair of nodes is lost, and no other comes in. -/
theorem mem_keys_setInsert {x : LameEdge} {l : List LameEdge} {k : Key} :
    k ∈ (setInsert x l).map key ↔ k = key x ∨ k ∈ l.map key := by
  induction l with
  | nil => simp [setInsert]
  | cons z l ih =>
      rw [setInsert]
      split
      · simp
      · split
        · rw [List.map_cons, List.mem_cons, ih, List.map_cons, List.mem_cons, or_left_comm]
        · rename_i hxz hzx
          rw [lameLt_iff] at hxz hzx
          have heq : key x = key z := le_antisymm (not_lt.1 hzx) (not_lt.1 hxz)
          simp [heq]

/-- The set stays in order. -/
theorem setInsert_sorted (x : LameEdge) {l : List LameEdge} (h : (l.map key).Pairwise (· < ·)) :
    ((setInsert x l).map key).Pairwise (· < ·) := by
  induction l with
  | nil => exact List.pairwise_singleton _ _
  | cons z l ih =>
      obtain ⟨hz, hl⟩ := List.pairwise_cons.1 h
      rw [setInsert]
      split
      · rename_i hxz
        refine List.pairwise_cons.2 ⟨fun k hk => ?_, h⟩
        rcases List.mem_cons.1 hk with rfl | hk
        · exact lameLt_iff.1 hxz
        · exact (lameLt_iff.1 hxz).trans (hz k hk)
      · split
        · rename_i hzx
          refine List.pairwise_cons.2 ⟨fun k hk => ?_, ih hl⟩
          rcases mem_keys_setInsert.1 hk with rfl | hk
          · exact lameLt_iff.1 hzx
          · exact hz k hk
        · exact h

/-- A list in order is determined by its members. -/
theorem keys_sorted {l : List LameEdge} {s : Finset Key} (hl : (l.map key).Pairwise (· < ·))
    (h : ∀ k, k ∈ l.map key ↔ k ∈ s) : l.map key = s.sort := by
  have hs : (l.map key).toFinset = s := by
    ext k
    rw [List.mem_toFinset, h]
  rw [← hs]
  exact ((List.toFinset_sort _ (hl.imp ne_of_lt)).2 (hl.imp le_of_lt)).symm

/-! ### The request -/

variable {n : ℕ}

/-- What a child answers: some edges, and `het_complete` or `het_error`. -/
structure Script where
  edges : List SignedHeadEdge
  ok : Bool

/-- A call of the client's functions. -/
inductive Upcall (α : Type)
  | edge (a : α)
  | complete
  | error (e : Exn)

/-- The call without the edge itself. -/
def Upcall.map {α β : Type} (f : α → β) : Upcall α → Upcall β
  | .edge a => .edge (f a)
  | .complete => .complete
  | .error e => .error e

/-- The members of the request; the callbacks in progress, the children that have been counted, the
callbacks that are about to call `complete()`, and what the client has been told. -/
structure State (n : ℕ) where
  succeeded : Bool
  outstanding : ℤ
  edges : List LameEdge
  acts : List (Gather.Act n SignedHeadEdge)
  ended : List (Fin n)
  closing : ℕ
  upcalls : List (Upcall SignedHeadEdge)

/-- The request, with all children about to answer. -/
def init (scripts : Fin n → Script) : State n where
  succeeded := false
  outstanding := n
  edges := []
  acts := Gather.start (fun c => (scripts c).edges) fun c => (scripts c).ok
  ended := []
  closing := 0
  upcalls := []

/-- `complete()` -/
def complete (s : State n) : List (Upcall SignedHeadEdge) :=
  if !s.succeeded then [.error (.notFoundError "no starting seed found")]
  else s.edges.map (fun leh => .edge leh.she) ++ [.complete]

variable (codec : HeadCodec)

/-- `het_edge`.  It throws if the bytes of the edge do not parse. -/
def hetEdge (s : State n) (she : SignedHeadEdge) : State n :=
  match lameEdge codec she with
  | .ok leh => { s with edges := setInsert leh s.edges }
  | .error _ => s

/-- `het_complete` and `het_error`, the guarded block. -/
def hetEnd (s : State n) (c : Fin n) : State n :=
  { s with
    outstanding := s.outstanding - 1
    ended := s.ended ++ [c]
    closing := if s.outstanding - 1 = 0 then s.closing + 1 else s.closing }

/-- One action: the state after it, and what the callback does next. -/
def exec (s : State n) : Gather.Act n SignedHeadEdge → State n × List (Gather.Act n SignedHeadEdge)
  | .item _ she => (hetEdge codec s she, [])
  | .finish c ok => ({ s with succeeded := s.succeeded || ok }, [.count c])
  | .count c => (hetEnd s c, [])

/-- A callback goes on, or the last one calls `complete()`. -/
inductive Label
  | run (i : ℕ)
  | complete

/-- One step. -/
def next (s : State n) : Label → Option (State n)
  | .run i =>
      match s.acts[i]? with
      | some a =>
          if a.ready s.acts then some { (exec codec s a).1 with
            acts := (exec codec s a).2 ++ s.acts.eraseIdx i }
          else none
      | none => none
  | .complete =>
      if 0 < s.closing then some { s with
        closing := s.closing - 1
        upcalls := s.upcalls ++ complete s }
      else none

/-- The states of a request, in any order of the callbacks. -/
def Reached (scripts : Fin n → Script) : State n → Prop :=
  Reach (next codec) (fun _ _ => True) (init scripts)

/-- The nodes of a signed edge, if its bytes parse. -/
def edgeKey (she : SignedHeadEdge) : Option Key :=
  (codec.parseEdge she.headedge).map fun e => toLex (e.root, e.prev)

/-- The edges that any child reports. -/
def union (scripts : Fin n → Script) : Finset Key :=
  ((List.finRange n).flatMap fun c => (scripts c).edges.filterMap (edgeKey codec)).toFinset

/-- **What the client is told**, but for the copies of the edges: the union if a child has completed. -/
def outcome (scripts : Fin n → Script) : List (Upcall (Option Key)) :=
  if ∃ c, (scripts c).ok = true then (union codec scripts).sort.map (fun k => .edge (some k)) ++ [.complete]
  else [.error (.notFoundError "no starting seed found")]

/-- **The client is told the union**: nothing before all children have answered, then in every run the
outcome, once, with copies of the edges that children have reported. -/
structure TellsUnion (scripts : Fin n → Script) : Prop where
  told : ∀ s, Reached codec scripts s → s.upcalls ≠ [] → (∀ c, c ∈ s.ended) ∧
    s.upcalls.map (Upcall.map (edgeKey codec)) = outcome codec scripts ∧
    ∀ she, .edge she ∈ s.upcalls → ∃ c, she ∈ (scripts c).edges
  ends : Ends (next codec) (fun _ _ => True) (init scripts)
  answered : ∀ s, Reached codec scripts s → (∀ x, next codec s x = none) → s.upcalls ≠ []

/-! ### The steps -/

variable {codec}

/-- One step. -/
inductive Step (codec : HeadCodec) (s : State n) : State n → Prop
  | run (a : Gather.Act n SignedHeadEdge) (R acts : List (Gather.Act n SignedHeadEdge))
      (hready : a.Ready (s.acts : Multiset (Gather.Act n SignedHeadEdge)))
      (hold : (s.acts : Multiset (Gather.Act n SignedHeadEdge)) = a ::ₘ R)
      (hnew : acts = (exec codec s a).2 ++ R) : Step codec s { (exec codec s a).1 with acts := acts }
  | complete (h : 0 < s.closing) :
      Step codec s { s with closing := s.closing - 1, upcalls := s.upcalls ++ complete s }

theorem step_of_next {s s' : State n} {x : Label} (h : next codec s x = some s') : Step codec s s' := by
  cases x with
  | run i =>
      simp only [next] at h
      split at h
      · rename_i a ha
        split at h
        · rename_i hready
          obtain rfl := Option.some.inj h
          obtain ⟨hi, rfl⟩ := List.getElem?_eq_some_iff.1 ha
          refine .run _ (s.acts.eraseIdx i) _ (Gather.ready_iff.1 hready) ?_ rfl
          exact Multiset.coe_eq_coe.2 (List.getElem_cons_eraseIdx_perm hi).symm
        · simp at h
      · simp at h
  | complete =>
      simp only [next] at h
      split at h
      · obtain rfl := Option.some.inj h
        exact .complete ‹_›
      · simp at h

theorem edgeKey_eq_some {she : SignedHeadEdge} {leh : LameEdge} (h : lameEdge codec she = .ok leh) :
    leh.she = she ∧ edgeKey codec she = some (key leh) := by
  rw [lameEdge] at h
  split at h
  · rename_i e he
    obtain rfl := Except.ok.inj h
    exact ⟨rfl, by rw [edgeKey, he]; rfl⟩
  · cases h

theorem edgeKey_eq_none {she : SignedHeadEdge} {e : Exn} (h : lameEdge codec she = .error e) :
    edgeKey codec she = none := by
  rw [lameEdge] at h
  split at h
  · cases h
  · rename_i he
    rw [edgeKey, he]
    rfl

/-- **What the members of the request have to do with the callbacks still to come.** -/
structure Inv (codec : HeadCodec) (scripts : Fin n → Script) (s : State n) : Prop where
  books : Gather.Books (fun c => (scripts c).ok) (s.acts : Multiset (Gather.Act n SignedHeadEdge))
    s.outstanding s.succeeded s.ended
  reported : ∀ c she, .item c she ∈ s.acts → she ∈ (scripts c).edges
  sound : ∀ leh ∈ s.edges, edgeKey codec leh.she = some (key leh) ∧ ∃ c, leh.she ∈ (scripts c).edges
  sorted : (s.edges.map key).Pairwise (· < ·)
  found : ∀ c, ∀ she ∈ (scripts c).edges, ∀ k, edgeKey codec she = some k →
    .item c she ∈ s.acts ∨ k ∈ s.edges.map key
  closing : s.closing + (if s.upcalls.isEmpty then 0 else 1) = if s.outstanding = 0 then 1 else 0
  told : s.upcalls.isEmpty = false → s.upcalls = complete s

variable {scripts : Fin n → Script} {s s' : State n}

theorem Inv.init (hn : 0 < n) (scripts : Fin n → Script) : Inv codec scripts (init scripts) where
  books := .start _ _
  reported c she hmem := by
    rcases Gather.mem_start.1 hmem with ⟨c', she', hshe, heq⟩ | ⟨c', heq⟩
    · obtain ⟨rfl, rfl⟩ := Gather.Act.item.inj heq
      exact hshe
    · cases heq
  sound leh hleh := by simp [VBSFollow.init] at hleh
  sorted := .nil
  found c she hshe k _ := .inl (Gather.mem_start.2 (.inl ⟨c, she, hshe, rfl⟩))
  closing := by
    have hne : (n : ℤ) ≠ 0 := by omega
    exact (if_neg hne).symm
  told h := by simp [VBSFollow.init] at h

/-- As long as a callback is in progress, some child has not been counted. -/
theorem Inv.outstanding_ne_zero (h : Inv codec scripts s) {a : Gather.Act n SignedHeadEdge}
    {R : List (Gather.Act n SignedHeadEdge)}
    (hold : (s.acts : Multiset (Gather.Act n SignedHeadEdge)) = a ::ₘ R) : s.outstanding ≠ 0 := by
  intro hz
  have hbooks := h.books
  rw [hz] at hbooks
  have hnil := hbooks.eq_zero.1
  rw [hold] at hnil
  exact Multiset.cons_ne_zero hnil

/-- As long as some child has not been counted, the client has been told nothing. -/
theorem Inv.upcalls_empty (h : Inv codec scripts s) (hout : s.outstanding ≠ 0) :
    s.closing = 0 ∧ s.upcalls.isEmpty = true := by
  have hclosing := h.closing
  rw [if_neg hout] at hclosing
  cases hup : s.upcalls.isEmpty with
  | true => exact ⟨by simpa [hup] using hclosing, rfl⟩
  | false => simp [hup] at hclosing

/-- `het_edge` -/
theorem Inv.item {c : Fin n} {she : SignedHeadEdge} {R : List (Gather.Act n SignedHeadEdge)}
    (h : Inv codec scripts s)
    (hold : (s.acts : Multiset (Gather.Act n SignedHeadEdge)) = .item c she ::ₘ R) :
    Inv codec scripts { hetEdge codec s she with acts := R } := by
  have hmem : ∀ {a}, a ∈ s.acts ↔ a = .item c she ∨ a ∈ R := by
    intro a
    rw [← Multiset.mem_coe, hold, Multiset.mem_cons, Multiset.mem_coe]
  have hout := h.outstanding_ne_zero hold
  obtain ⟨hclosing, hup⟩ := h.upcalls_empty hout
  have hbooks := h.books
  rw [hold] at hbooks
  have hshe := h.reported c she (hmem.2 (.inl rfl))
  cases hleh : lameEdge codec she with
  | error e =>
      have hedge : hetEdge codec s she = s := by rw [hetEdge, hleh]
      rw [hedge]
      constructor
      case books => exact hbooks.drop
      case reported => exact fun c' she' hshe' => h.reported c' she' (hmem.2 (.inr hshe'))
      case sound => exact h.sound
      case sorted => exact h.sorted
      case found =>
        intro c' she' hshe' k hk
        refine (h.found c' she' hshe' k hk).imp_left fun hin => ?_
        rcases hmem.1 hin with heq | hin
        · obtain ⟨rfl, rfl⟩ := Gather.Act.item.inj heq
          rw [edgeKey_eq_none hleh] at hk
          cases hk
        · exact hin
      case closing => exact h.closing
      case told => exact h.told
  | ok leh =>
      obtain ⟨rfl, hkey⟩ := edgeKey_eq_some hleh
      have hedge : hetEdge codec s leh.she = { s with edges := setInsert leh s.edges } := by
        rw [hetEdge, hleh]
      rw [hedge]
      constructor
      case books => exact hbooks.drop
      case reported => exact fun c' she' hshe' => h.reported c' she' (hmem.2 (.inr hshe'))
      case sound =>
        intro y hy
        rcases mem_of_mem_setInsert hy with rfl | hy
        · exact ⟨hkey, c, hshe⟩
        · exact h.sound y hy
      case sorted => exact setInsert_sorted leh h.sorted
      case found =>
        intro c' she' hshe' k hk
        rcases h.found c' she' hshe' k hk with hin | hin
        · rcases hmem.1 hin with heq | hin
          · obtain ⟨rfl, rfl⟩ := Gather.Act.item.inj heq
            rw [hkey] at hk
            exact .inr (mem_keys_setInsert.2 (.inl (Option.some.inj hk).symm))
          · exact .inl hin
        · exact .inr (mem_keys_setInsert.2 (.inr hin))
      case closing => exact h.closing
      case told => exact fun hne => by simp [hup] at hne

/-- **Every step keeps what holds of the request.** -/
theorem Inv.step (h : Inv codec scripts s) (hstep : Step codec s s') : Inv codec scripts s' := by
  cases hstep with
  | run a R acts hready hold hnew =>
      have hout := h.outstanding_ne_zero hold
      obtain ⟨hclosing, hup⟩ := h.upcalls_empty hout
      have hnot : ¬ s.upcalls.isEmpty = false := by simp [hup]
      have hmem : ∀ {b}, b ∈ s.acts ↔ b = a ∨ b ∈ R := by
        intro b
        rw [← Multiset.mem_coe, hold, Multiset.mem_cons, Multiset.mem_coe]
      have hbooks := h.books
      rw [hold] at hbooks
      cases a with
      | item c she =>
          obtain rfl : acts = R := hnew
          exact h.item hold
      | finish c ok =>
          obtain rfl : acts = .count c :: R := hnew
          have hquiet : ∀ b, .item c b ∉ (R : Multiset (Gather.Act n SignedHeadEdge)) := by
            intro b hb
            exact hready b (Multiset.mem_coe.2 (hmem.2 (.inr (Multiset.mem_coe.1 hb))))
          constructor
          case books => exact hbooks.finish hquiet
          case reported =>
            intro c' she hshe
            exact h.reported c' she (hmem.2 (.inr (by simpa using hshe)))
          case sound => exact h.sound
          case sorted => exact h.sorted
          case found =>
            intro c' she hshe k hk
            refine (h.found c' she hshe k hk).imp_left fun hin => ?_
            rcases hmem.1 hin with heq | hin
            · cases heq
            · exact List.mem_cons_of_mem _ hin
          case closing => exact h.closing
          case told => exact fun hne => absurd hne hnot
      | count c =>
          obtain rfl : acts = R := hnew
          constructor
          case books => exact hbooks.count
          case reported => exact fun c' she hshe => h.reported c' she (hmem.2 (.inr hshe))
          case sound => exact h.sound
          case sorted => exact h.sorted
          case found =>
            intro c' she hshe k hk
            refine (h.found c' she hshe k hk).imp_left fun hin => ?_
            rcases hmem.1 hin with heq | hin
            · cases heq
            · exact hin
          case closing =>
            show (if s.outstanding - 1 = 0 then s.closing + 1 else s.closing) +
              (if s.upcalls.isEmpty then 0 else 1) = if s.outstanding - 1 = 0 then 1 else 0
            rw [hup, hclosing]
            split <;> rfl
          case told => exact fun hne => absurd hne hnot
  | complete hpos =>
      have hclosing := h.closing
      have hz : s.outstanding = 0 := by
        by_contra hne
        rw [if_neg hne] at hclosing
        omega
      have hup : s.upcalls.isEmpty = true := by
        by_contra hne
        rw [if_neg hne, if_pos hz] at hclosing
        omega
      have hne : (complete s).isEmpty = false := by
        rw [VBSFollow.complete]
        split <;> simp
      have hnil : s.upcalls ++ complete s = complete s := by
        rw [List.isEmpty_iff.1 hup, List.nil_append]
      refine { h with closing := ?_, told := fun _ => hnil }
      show s.closing - 1 + (if (s.upcalls ++ complete s).isEmpty then 0 else 1) = if s.outstanding = 0 then 1 else 0
      rw [hnil, hne, if_pos hz]
      rw [if_pos hup, if_pos hz] at hclosing
      simp only [Bool.false_eq_true, if_false]
      omega

theorem Inv.of_reached (hn : 0 < n) (h : Reached codec scripts s) : Inv codec scripts s :=
  h.inv (I := Inv codec scripts) (Inv.init hn scripts) fun _ _ _ hi _ hnext => hi.step (step_of_next hnext)

/-! ### The answer -/

theorem mem_union {k : Key} :
    k ∈ union codec scripts ↔ ∃ c, ∃ she ∈ (scripts c).edges, edgeKey codec she = some k := by
  simp [union]

/-- When all children have been counted, the set has the edges that any of them has reported. -/
theorem Inv.keys_eq (h : Inv codec scripts s) (hout : s.outstanding = 0) :
    s.edges.map key = (union codec scripts).sort := by
  have hbooks := h.books
  rw [hout] at hbooks
  have hnil : s.acts = [] := Multiset.coe_eq_zero _ |>.1 hbooks.eq_zero.1
  refine keys_sorted h.sorted fun k => ?_
  rw [mem_union]
  constructor
  · intro hk
    obtain ⟨leh, hleh, rfl⟩ := List.mem_map.1 hk
    obtain ⟨hkey, c, hc⟩ := h.sound leh hleh
    exact ⟨c, leh.she, hc, hkey⟩
  · rintro ⟨c, she, hshe, hk⟩
    rcases h.found c she hshe k hk with hin | hin
    · rw [hnil] at hin
      cases hin
    · exact hin

/-- What `complete()` then tells the client. -/
theorem Inv.complete_eq (h : Inv codec scripts s) (hout : s.outstanding = 0) :
    (complete s).map (Upcall.map (edgeKey codec)) = outcome codec scripts := by
  have hbooks := h.books
  rw [hout] at hbooks
  have hsucc := hbooks.succeeded_iff
  rw [complete, outcome]
  cases hs : s.succeeded with
  | false =>
      rw [hs] at hsucc
      rw [Bool.not_false, if_pos rfl, if_neg (by simpa using hsucc)]
      rfl
  | true =>
      have hedges : s.edges.map (fun leh => Upcall.edge (edgeKey codec leh.she)) =
          (s.edges.map key).map fun k => .edge (some k) := by
        rw [List.map_map]
        refine List.map_congr_left fun leh hleh => ?_
        rw [(h.sound leh hleh).1]
        rfl
      rw [if_neg (by simp), if_pos (hsucc.1 hs), List.map_append, List.map_map, ← h.keys_eq hout, ← hedges]
      rfl

/-- The steps that an action still leads to. -/
def cost : Gather.Act n SignedHeadEdge → ℕ
  | .item _ _ => 1
  | .finish _ _ => 3
  | .count _ => 2

/-- A bound for the steps to come. -/
def State.cost (s : State n) : ℕ := (s.acts.map VBSFollow.cost).sum + s.closing

theorem cost_lt (hstep : Step codec s s') : s'.cost < s.cost := by
  cases hstep with
  | run a R acts hready hold hnew =>
      have hperm : s.acts.Perm (a :: R) := Multiset.coe_eq_coe.1 hold
      rw [State.cost, State.cost, (hperm.map VBSFollow.cost).sum_eq, hnew]
      cases a with
      | item c she =>
          have hclosing : (hetEdge codec s she).closing = s.closing := by
            rw [hetEdge]
            split <;> rfl
          simp only [exec, hclosing, List.nil_append, List.map_cons, List.sum_cons, VBSFollow.cost]
          omega
      | finish c ok =>
          simp only [exec, List.singleton_append, List.map_cons, List.sum_cons, VBSFollow.cost]
          omega
      | count c =>
          simp only [exec, hetEnd, List.nil_append, List.map_cons, List.sum_cons, VBSFollow.cost]
          split <;> omega
  | complete hpos =>
      simp only [State.cost]
      omega

/-- Where no step is left, all callbacks have returned. -/
theorem quiet_of_stuck (hstuck : ∀ x, next codec s x = none) : s.acts = [] ∧ s.closing = 0 := by
  constructor
  · by_contra hne
    have hne' : (s.acts : Multiset (Gather.Act n SignedHeadEdge)) ≠ 0 :=
      fun hz => hne (Multiset.coe_eq_zero _ |>.1 hz)
    obtain ⟨a, ha, hready⟩ := Gather.exists_ready hne'
    obtain ⟨i, hi⟩ := List.mem_iff_getElem?.1 (Multiset.mem_coe.1 ha)
    have hnext := hstuck (.run i)
    simp only [next, hi, if_pos (Gather.ready_iff.2 hready)] at hnext
    cases hnext
  · by_contra hne
    have hnext := hstuck .complete
    simp only [next, if_pos (Nat.pos_of_ne_zero hne)] at hnext
    cases hnext

/-- **A client that asks for the edges after a head node is told the union.**  In every order of the
callbacks of at least one child the client is told nothing before all children have answered; it is then
told each edge that any child has reported once, as a pair of nodes, and the completion, if a child has
completed, and one error otherwise. -/
theorem tellsUnion (hn : 0 < n) (codec : HeadCodec) (scripts : Fin n → Script) :
    TellsUnion codec scripts where
  told s hs hne := by
    have hinv := Inv.of_reached hn hs
    have hempty : s.upcalls.isEmpty = false := by simpa using hne
    have hout : s.outstanding = 0 := by
      by_contra hout
      rw [(hinv.upcalls_empty hout).2] at hempty
      cases hempty
    have hbooks := hinv.books
    rw [hout] at hbooks
    have htold := hinv.told hempty
    refine ⟨hbooks.eq_zero.2, htold ▸ hinv.complete_eq hout, fun she hshe => ?_⟩
    rw [htold, complete] at hshe
    split at hshe
    · simp at hshe
    · obtain ⟨leh, hleh, rfl⟩ : ∃ leh ∈ s.edges, leh.she = she := by simpa using hshe
      exact (hinv.sound leh hleh).2
  ends := ends_of_lt (I := fun _ => True) (m := State.cost)
    (fun _ _ _ _ _ hnext => ⟨trivial, cost_lt (step_of_next hnext)⟩) trivial
  answered s hs hstuck hup := by
    have hinv := Inv.of_reached hn hs
    obtain ⟨hacts, hclosing⟩ := quiet_of_stuck hstuck
    have hout : s.outstanding = 0 := by simpa [hacts] using hinv.books.outstanding
    have h := hinv.closing
    rw [hclosing, hup, if_pos hout] at h
    simp at h

/-- The first root of a file system. -/
def firstEdge : SignedHeadEdge := HeadEdge.signed ⟨[0], [], [1]⟩

/-- A child that reports an edge and then fails, and one that completes with another copy of it. -/
theorem tellsUnion_two : 0 < 2 ∧ TellsUnion .sample (fun c : Fin 2 =>
    if c = 0 then ⟨[firstEdge], false⟩ else (⟨[{ firstEdge with signature := [1] }], true⟩ : Script)) :=
  ⟨by decide, tellsUnion (by decide) _ _⟩

end VBSFollow

end Utopfs
