/-
**One follow-fill.**

A `VBSHeadFollowFillReq` of `modules/VBlockStore/VBSHeadFollowFillReq.cpp` asks the source children for
the edges that follow a head node and inserts each of them in a target child.  It counts the traversals
and the inserts that are out, and completes when there are none; the callbacks come from any thread.
Here a single request is taken apart into the accesses to its members, with the inserts as requests of
their own.  `Utopfs/VBSHeadFurthest.lean` has the follow-fills as parts of a larger request.

Main definitions:

* `FollowFill.State`, `FollowFill.next` — the request, its inserts and the callbacks in progress;
* `FollowFill.Filled` — all traversals have ended, and all edges are submitted and answered;
* `FollowFill.CompletesOnce` — `complete()` runs once, and after all of that.

Main results:

* `FollowFill.Inv.step` — what every step keeps;
* `FollowFill.completesOnce` — a request with source children completes once.
-/

import Mathlib.Tactic
import Utopfs.Gather
import Utopfs.Interleave

set_option relaxedAutoImplicit false
set_option autoImplicit false

namespace Utopfs

namespace FollowFill

open Interleave

variable {n : ℕ} {E : Type}

/-! ### The request -/

/-- What a source child answers: some edges, and `het_complete` or `het_error`. -/
structure Script (E : Type) where
  edges : List E
  ok : Bool

/-- A call of `het_edge`, before and after `++m_fillsout`. -/
inductive Report (E : Type)
  | called (she : E)
  | counted (she : E)

/-- A `VBSHeadInsertRequest`. -/
structure InsertRequest (E : Type) where
  she : E
  succeeded : Bool
  outstanding : ℤ

/-- What a callback has still to do. -/
inductive Act (n : ℕ) (E : Type)
  /-- `het_edge`, `het_complete` and `het_error` -/
  | trav (a : Gather.Act n (Report E))
  /-- `VBSHeadInsertRequest::hei_complete`, `hei_error` -/
  | answered (r : InsertRequest E) (ok : Bool)
  /-- `hei_complete`, `hei_error` -/
  | filled (she : E)
  | complete

/-- The members of the request; the children that have been counted, the edges submitted to the target,
the insert requests that it has, the edges answered, and the upcalls of `complete()`. -/
structure State (n : ℕ) (E : Type) where
  succeeded : Bool
  outstanding : ℤ
  travdone : Bool
  fillsout : ℤ
  ended : List (Fin n)
  submitted : List E
  queue : List (InsertRequest E)
  told : List E
  upcalls : List Bool
  threads : List (List (Act n E))

/-- The request, with all children about to answer. -/
def init (scripts : Fin n → Script E) : State n E where
  succeeded := false
  outstanding := n
  travdone := false
  fillsout := 0
  ended := []
  submitted := []
  queue := []
  told := []
  upcalls := []
  threads := (Gather.start (fun c => (scripts c).edges.map .called) fun c => (scripts c).ok).map
    fun a => [.trav a]

/-- `het_complete` and `het_error`, the guarded block. -/
def hetEnd (s : State n E) (c : Fin n) : State n E × List (Act n E) :=
  let s' := { s with outstanding := s.outstanding - 1, ended := s.ended ++ [c] }
  if s.outstanding - 1 = 0 then
    ({ s' with travdone := true }, if s.fillsout = 0 then [.complete] else [])
  else (s', [])

/-- `hei_complete` and `hei_error`, the guarded block. -/
def heiEnd (s : State n E) (she : E) : State n E × List (Act n E) :=
  ({ s with fillsout := s.fillsout - 1, told := s.told ++ [she] },
    if s.travdone ∧ s.fillsout - 1 = 0 then [.complete] else [])

/-- `VBSHeadInsertRequest::hei_complete` and `hei_error`: whether the parent is told. -/
def InsertRequest.tells (r : InsertRequest E) (ok : Bool) : Bool :=
  if ok then !r.succeeded
  else r.outstanding - 1 = 0 && !r.succeeded

/-- One action: the state after it, and what the callback does next. -/
def exec (s : State n E) : Act n E → State n E × List (Act n E)
  | .trav (.item c (.called she)) =>
      ({ s with fillsout := s.fillsout + 1 }, [.trav (.item c (.counted she))])
  | .trav (.item _ (.counted she)) =>
      ({ s with submitted := s.submitted ++ [she], queue := s.queue ++ [⟨she, false, 1⟩] }, [])
  | .trav (.finish c ok) => ({ s with succeeded := s.succeeded || ok }, [.trav (.count c)])
  | .trav (.count c) => hetEnd s c
  | .answered r ok => (s, if r.tells ok then [.filled r.she] else [])
  | .filled she => heiEnd s she
  | .complete => ({ s with upcalls := s.upcalls ++ [s.succeeded] }, [])

/-- The action of a traversal. -/
def Act.trav? : Act n E → Option (Gather.Act n (Report E))
  | .trav a => some a
  | _ => none

/-- The edges of a child precede its completion. -/
def State.ready (s : State n E) : Act n E → Bool
  | .trav a => a.ready (s.threads.flatten.filterMap Act.trav?)
  | _ => true

/-- A callback goes on, or the target child answers an insert. -/
inductive Label
  | run (i : ℕ)
  | answer (j : ℕ) (ok : Bool)

/-- One step. -/
def next (s : State n E) : Label → Option (State n E)
  | .run i =>
      match s.threads[i]? with
      | some (a :: k) =>
          if s.ready a then some { (exec s a).1 with threads := s.threads.set i ((exec s a).2 ++ k) }
          else none
      | _ => none
  | .answer j ok =>
      match s.queue[j]? with
      | some r => some { s with
          queue := s.queue.eraseIdx j
          threads := s.threads ++ [[.answered r ok]] }
      | none => none

/-- The states of a request, in any order of the callbacks. -/
def Reached (scripts : Fin n → Script E) : State n E → Prop :=
  Reach next (fun _ _ => True) (init scripts)

/-- All traversals have ended, all edges have been submitted and all inserts have been answered. -/
structure Filled (scripts : Fin n → Script E) (s : State n E) : Prop where
  ended : ∀ c, c ∈ s.ended
  submitted : s.submitted.Perm ((List.finRange n).flatMap fun c => (scripts c).edges)
  answered : s.told.Perm s.submitted

/-- **The request completes once**: `complete()` runs at most once, only when everything is filled, and
every run comes to it.  The upcall is `het_complete` if a traversal has succeeded. -/
structure CompletesOnce (scripts : Fin n → Script E) : Prop where
  once : ∀ s, Reached scripts s → s.upcalls.length ≤ 1
  filled : ∀ s x s', Reached scripts s → next s x = some s' → s'.upcalls ≠ s.upcalls → Filled scripts s
  ends : Ends next (fun _ _ => True) (init scripts)
  completes : ∀ s, Reached scripts s → (∀ x, next s x = none) →
    ∃ b, s.upcalls = [b] ∧ (b = true ↔ ∃ c, (scripts c).ok = true)

/-! ### The steps -/

/-- What the traversals have still to do. -/
def travs (P : Multiset (Act n E)) : Multiset (Gather.Act n (Report E)) := P.filterMap Act.trav?

@[simp] theorem travs_cons_trav (a : Gather.Act n (Report E)) (P : Multiset (Act n E)) :
    travs (.trav a ::ₘ P) = a ::ₘ travs P := Multiset.filterMap_cons_some _ _ _ rfl

@[simp] theorem travs_cons_answered (r : InsertRequest E) (ok : Bool) (P : Multiset (Act n E)) :
    travs (.answered r ok ::ₘ P) = travs P := Multiset.filterMap_cons_none _ _ rfl

@[simp] theorem travs_cons_filled (she : E) (P : Multiset (Act n E)) :
    travs (.filled she ::ₘ P) = travs P := Multiset.filterMap_cons_none _ _ rfl

@[simp] theorem travs_cons_complete (P : Multiset (Act n E)) :
    travs (.complete ::ₘ P) = travs P := Multiset.filterMap_cons_none _ _ rfl

theorem mem_travs {P : Multiset (Act n E)} {a : Gather.Act n (Report E)} :
    a ∈ travs P ↔ .trav a ∈ P := by
  rw [travs, Multiset.mem_filterMap]
  constructor
  · rintro ⟨b, hb, hba⟩
    cases b with
    | trav b =>
        obtain rfl : b = a := Option.some.inj hba
        exact hb
    | answered r ok => simp [Act.trav?] at hba
    | filled she => simp [Act.trav?] at hba
    | complete => simp [Act.trav?] at hba
  · exact fun ha => ⟨_, ha, rfl⟩

theorem ready_iff {s : State n E} {a : Gather.Act n (Report E)} :
    s.ready (.trav a) = true ↔ a.Ready (travs (pending s.threads)) := Gather.ready_iff

/-- One step.  The callbacks are known by the actions they have still to do. -/
inductive Step (s : State n E) : State n E → Prop
  | run (a : Act n E) (R : Multiset (Act n E)) (ts : List (List (Act n E)))
      (hready : s.ready a = true) (hold : pending s.threads = a ::ₘ R)
      (hnew : pending ts = ((exec s a).2 : Multiset (Act n E)) + R) :
      Step s { (exec s a).1 with threads := ts }
  | answer (r : InsertRequest E) (ok : Bool) (queue : List (InsertRequest E))
      (ts : List (List (Act n E))) (hold : s.queue.Perm (r :: queue))
      (hnew : pending ts = .answered r ok ::ₘ pending s.threads) :
      Step s { s with queue := queue, threads := ts }

theorem step_of_next {s s' : State n E} {x : Label} (h : next s x = some s') : Step s s' := by
  cases x with
  | run i =>
      simp only [next] at h
      split at h
      · rename_i a k hts
        split at h
        · obtain rfl := Option.some.inj h
          obtain ⟨R, hold, hnew⟩ := pending_run hts
          exact .run a R _ ‹_› hold (hnew _)
        · simp at h
      · simp at h
  | answer j ok =>
      simp only [next] at h
      split at h
      · rename_i r hr
        obtain rfl := Option.some.inj h
        obtain ⟨hj, rfl⟩ := List.getElem?_eq_some_iff.1 hr
        refine .answer _ ok _ _ (List.getElem_cons_eraseIdx_perm hj).symm ?_
        rw [pending_concat, add_comm]
        rfl
      · simp at h

/-! ### The books -/

/-- A fill that is out, other than in the queue of the target. -/
def Act.isFill : Act n E → ℕ
  | .trav (.item _ (.counted _)) | .answered _ _ | .filled _ => 1
  | _ => 0

def Act.isComplete : Act n E → ℕ
  | .complete => 1
  | _ => 0

/-- The edges that are still to be submitted. -/
def Act.reports : Act n E → Multiset E
  | .trav (.item _ (.called she)) | .trav (.item _ (.counted she)) => {she}
  | _ => 0

/-- The edges that the target has answered and the request has not been told of. -/
def Act.answers : Act n E → Multiset E
  | .answered r _ => {r.she}
  | .filled she => {she}
  | _ => 0

/-- An insert request that has not been answered. -/
def InsertRequest.Fresh (r : InsertRequest E) : Prop := r.succeeded = false ∧ r.outstanding = 1

theorem InsertRequest.Fresh.tells {r : InsertRequest E} (h : r.Fresh) (ok : Bool) : r.tells ok = true := by
  cases ok <;> simp [InsertRequest.tells, h.1, h.2]

/-- All edges that the children report. -/
def reported (scripts : Fin n → Script E) : Multiset E :=
  ((List.finRange n).flatMap fun c => (scripts c).edges : List E)

/-- **The books of a follow-fill.** -/
structure Inv (scripts : Fin n → Script E) (s : State n E) : Prop where
  books : Gather.Books (fun c => (scripts c).ok) (travs (pending s.threads)) s.outstanding s.succeeded
    s.ended
  travdone : s.travdone = true ↔ s.outstanding = 0
  fillsout : s.fillsout = ((pending s.threads).map Act.isFill).sum + s.queue.length
  edges : reported scripts = ((pending s.threads).map Act.reports).sum + (s.submitted : Multiset E)
  told : (s.submitted : Multiset E) = (s.queue.map InsertRequest.she : List E) +
    ((pending s.threads).map Act.answers).sum + (s.told : Multiset E)
  queued : ∀ r ∈ s.queue, r.Fresh
  fresh : ∀ r ok, .answered r ok ∈ pending s.threads → r.Fresh
  complete : ((pending s.threads).map Act.isComplete).sum + s.upcalls.length =
    if s.outstanding = 0 ∧ s.fillsout = 0 then 1 else 0
  upcalls : ∀ b ∈ s.upcalls, b = true ↔ ∃ c, (scripts c).ok = true

variable {scripts : Fin n → Script E} {s s' : State n E}

/-- A child that has still to report or to end has not been counted. -/
theorem Inv.outstanding_ne_zero (h : Inv scripts s) {a : Gather.Act n (Report E)}
    (ha : .trav a ∈ pending s.threads) : s.outstanding ≠ 0 := by
  intro hz
  have hbooks := h.books
  rw [hz] at hbooks
  have hmem := mem_travs.2 ha
  rw [hbooks.eq_zero.1] at hmem
  simp at hmem

/-- `++m_fillsout` -/
theorem Inv.called {c : Fin n} {she : E} {R : Multiset (Act n E)} {ts : List (List (Act n E))}
    (h : Inv scripts s) (hold : pending s.threads = .trav (.item c (.called she)) ::ₘ R)
    (hnew : pending ts = .trav (.item c (.counted she)) ::ₘ R) :
    Inv scripts { s with fillsout := s.fillsout + 1, threads := ts } := by
  have hbooks := h.books
  have hfills := h.fillsout
  have hedges := h.edges
  have htold := h.told
  have hfresh := h.fresh
  have hcomplete := h.complete
  have hout : s.outstanding ≠ 0 := h.outstanding_ne_zero (hold ▸ Multiset.mem_cons_self _ _)
  rw [hold] at hbooks hfills hedges htold hfresh hcomplete
  constructor
  case books =>
    rw [hnew, travs_cons_trav]
    exact (travs_cons_trav _ R ▸ hbooks).item _
  case travdone => exact h.travdone
  case fillsout =>
    simp only [hnew, Multiset.map_cons, Multiset.sum_cons, Act.isFill] at hfills ⊢
    omega
  case edges => simpa [hnew, Act.reports] using hedges
  case told => simpa [hnew, Act.answers] using htold
  case queued => exact h.queued
  case fresh =>
    intro r ok hr
    rw [hnew] at hr
    exact hfresh r ok (by simpa using hr)
  case complete =>
    rw [if_neg fun hz => hout hz.1] at hcomplete
    rw [if_neg fun hz => hout hz.1, hnew]
    simpa [Act.isComplete] using hcomplete
  case upcalls => exact h.upcalls

/-- The rest of `het_edge`. -/
theorem Inv.submit {c : Fin n} {she : E} {R : Multiset (Act n E)} {ts : List (List (Act n E))}
    (h : Inv scripts s) (hold : pending s.threads = .trav (.item c (.counted she)) ::ₘ R)
    (hnew : pending ts = R) :
    Inv scripts { s with
      submitted := s.submitted ++ [she], queue := s.queue ++ [⟨she, false, 1⟩], threads := ts } := by
  have hout : s.outstanding ≠ 0 := h.outstanding_ne_zero (hold ▸ Multiset.mem_cons_self _ _)
  have hbooks := h.books
  have hfills := h.fillsout
  have hedges := h.edges
  have htold := h.told
  have hcomplete := h.complete
  rw [hold] at hbooks hfills hedges htold hcomplete
  constructor
  case books =>
    rw [hnew]
    exact (travs_cons_trav _ R ▸ hbooks).drop
  case travdone => exact h.travdone
  case fillsout =>
    simp only [hnew, Multiset.map_cons, Multiset.sum_cons, Act.isFill, List.length_append,
      List.length_singleton] at hfills ⊢
    omega
  case edges =>
    rw [hedges, hnew, ← Multiset.coe_add, Multiset.map_cons, Multiset.sum_cons]
    simp only [Act.reports, Multiset.coe_singleton]
    abel
  case told =>
    simp only [Multiset.map_cons, Multiset.sum_cons, Act.answers, zero_add] at htold
    rw [← Multiset.coe_add, htold, hnew, List.map_append, ← Multiset.coe_add]
    simp only [List.map_singleton, Multiset.coe_singleton]
    abel
  case queued =>
    intro r hr
    rcases List.mem_append.1 hr with hr | hr
    · exact h.queued r hr
    · rw [List.mem_singleton.1 hr]
      exact ⟨rfl, rfl⟩
  case fresh =>
    intro r ok hr
    rw [hnew] at hr
    exact h.fresh r ok (hold ▸ Multiset.mem_cons_of_mem hr)
  case complete =>
    rw [if_neg fun hz => hout hz.1] at hcomplete
    rw [if_neg fun hz => hout hz.1, hnew]
    simpa [Act.isComplete] using hcomplete
  case upcalls => exact h.upcalls

/-- The first statement of `het_complete`; `het_error` has none. -/
theorem Inv.finish {c : Fin n} {ok : Bool} {R : Multiset (Act n E)} {ts : List (List (Act n E))}
    (h : Inv scripts s) (hready : s.ready (.trav (.finish c ok)) = true)
    (hold : pending s.threads = .trav (.finish c ok) ::ₘ R) (hnew : pending ts = .trav (.count c) ::ₘ R) :
    Inv scripts { s with succeeded := s.succeeded || ok, threads := ts } := by
  have hout : s.outstanding ≠ 0 := h.outstanding_ne_zero (hold ▸ Multiset.mem_cons_self _ _)
  have hquiet : ∀ b, .item c b ∉ travs R := by
    intro b hb
    refine ready_iff.1 hready b ?_
    rw [hold, travs_cons_trav]
    exact Multiset.mem_cons_of_mem hb
  have hbooks := h.books
  have hfills := h.fillsout
  have hedges := h.edges
  have htold := h.told
  have hfresh := h.fresh
  have hcomplete := h.complete
  rw [hold] at hbooks hfills hedges htold hfresh hcomplete
  constructor
  case books =>
    rw [hnew, travs_cons_trav]
    exact (travs_cons_trav _ R ▸ hbooks).finish hquiet
  case travdone => exact h.travdone
  case fillsout => simpa [hnew, Act.isFill] using hfills
  case edges => simpa [hnew, Act.reports] using hedges
  case told => simpa [hnew, Act.answers] using htold
  case queued => exact h.queued
  case fresh =>
    intro r o hr
    rw [hnew] at hr
    exact hfresh r o (by simpa using hr)
  case complete =>
    rw [if_neg fun hz => hout hz.1] at hcomplete
    rw [if_neg fun hz => hout hz.1, hnew]
    simpa [Act.isComplete] using hcomplete
  case upcalls => exact h.upcalls

/-- The target child answers an insert. -/
theorem Inv.answer {r : InsertRequest E} {ok : Bool} {queue : List (InsertRequest E)}
    {ts : List (List (Act n E))} (h : Inv scripts s) (hold : s.queue.Perm (r :: queue))
    (hnew : pending ts = .answered r ok ::ₘ pending s.threads) :
    Inv scripts { s with queue := queue, threads := ts } := by
  have hfills := h.fillsout
  have htold := h.told
  rw [hold.length_eq, List.length_cons] at hfills
  rw [Multiset.coe_eq_coe.2 (hold.map InsertRequest.she), List.map_cons, ← Multiset.cons_coe] at htold
  constructor
  case books =>
    rw [hnew, travs_cons_answered]
    exact h.books
  case travdone => exact h.travdone
  case fillsout =>
    simp only [hnew, Multiset.map_cons, Multiset.sum_cons, Act.isFill]
    omega
  case edges => simpa [hnew, Act.reports] using h.edges
  case told =>
    rw [htold, hnew, Multiset.map_cons, Multiset.sum_cons, ← Multiset.singleton_add]
    simp only [Act.answers]
    abel
  case queued => exact fun r' hr' => h.queued r' (hold.mem_iff.2 (List.mem_cons_of_mem r hr'))
  case fresh =>
    intro r' ok' hr'
    rw [hnew] at hr'
    rcases Multiset.mem_cons.1 hr' with heq | hr'
    · rw [(Act.answered.inj heq).1]
      exact h.queued r (hold.mem_iff.2 List.mem_cons_self)
    · exact h.fresh r' ok' hr'
  case complete =>
    rw [hnew]
    simpa [Act.isComplete] using h.complete
  case upcalls => exact h.upcalls

/-- The insert request tells the follow-fill. -/
theorem Inv.answered {r : InsertRequest E} {ok : Bool} {R : Multiset (Act n E)}
    {ts : List (List (Act n E))} (h : Inv scripts s) (hold : pending s.threads = .answered r ok ::ₘ R)
    (hnew : pending ts = .filled r.she ::ₘ R) : Inv scripts { s with threads := ts } := by
  have hbooks := h.books
  have hfills := h.fillsout
  have hedges := h.edges
  have htold := h.told
  have hfresh := h.fresh
  have hcomplete := h.complete
  rw [hold] at hbooks hfills hedges htold hfresh hcomplete
  constructor
  case books => simpa [hnew] using hbooks
  case travdone => exact h.travdone
  case fillsout => simpa [hnew, Act.isFill] using hfills
  case edges => simpa [hnew, Act.reports] using hedges
  case told => simpa [hnew, Act.answers] using htold
  case queued => exact h.queued
  case fresh =>
    intro r' o hr
    rw [hnew] at hr
    exact hfresh r' o (Multiset.mem_cons_of_mem (by simpa using hr))
  case complete => simpa [hnew, Act.isComplete] using hcomplete
  case upcalls => exact h.upcalls

/-- `complete()` -/
theorem Inv.completed {R : Multiset (Act n E)} {ts : List (List (Act n E))} (h : Inv scripts s)
    (hold : pending s.threads = .complete ::ₘ R) (hnew : pending ts = R) :
    Inv scripts { s with upcalls := s.upcalls ++ [s.succeeded], threads := ts } := by
  have hbooks := h.books
  have hfills := h.fillsout
  have hedges := h.edges
  have htold := h.told
  have hcomplete := h.complete
  rw [hold] at hbooks hfills hedges htold hcomplete
  simp only [Multiset.map_cons, Multiset.sum_cons, Act.isComplete] at hcomplete
  have hz : s.outstanding = 0 ∧ s.fillsout = 0 := by
    by_contra hne
    rw [if_neg hne] at hcomplete
    omega
  constructor
  case books => simpa [hnew] using hbooks
  case travdone => exact h.travdone
  case fillsout => simpa [hnew, Act.isFill] using hfills
  case edges => simpa [hnew, Act.reports] using hedges
  case told => simpa [hnew, Act.answers] using htold
  case queued => exact h.queued
  case fresh =>
    intro r o hr
    rw [hnew] at hr
    exact h.fresh r o (hold ▸ Multiset.mem_cons_of_mem hr)
  case complete =>
    rw [← hcomplete, hnew, List.length_append, List.length_singleton]
    omega
  case upcalls =>
    intro b hb
    rcases List.mem_append.1 hb with hb | hb
    · exact h.upcalls b hb
    · rw [List.mem_singleton.1 hb]
      rw [hz.1] at hbooks
      exact hbooks.succeeded_iff

/-! ### The two counters -/

/-- What the guarded blocks leave to do: `complete()` if they have found both counters at zero. -/
def closing (p : Prop) [Decidable p] : List (Act n E) := if p then [.complete] else []

section closing

variable (p : Prop) [Decidable p] (R : Multiset (Act n E))

@[simp] theorem travs_closing : travs (((closing p : List (Act n E)) : Multiset (Act n E)) + R) = travs R := by
  unfold closing
  split
  · exact travs_cons_complete R
  · exact congrArg travs (Multiset.zero_add R)

theorem sum_closing {M : Type} [AddCommMonoid M] (w : Act n E → M) :
    ((((closing p : List (Act n E)) : Multiset (Act n E)) + R).map w).sum =
      (if p then w .complete else 0) + (R.map w).sum := by
  unfold closing
  split <;> simp

theorem sum_closing_of_zero {M : Type} [AddCommMonoid M] {w : Act n E → M} (hw : w .complete = 0) :
    ((((closing p : List (Act n E)) : Multiset (Act n E)) + R).map w).sum = (R.map w).sum := by
  rw [sum_closing, hw, ite_self, zero_add]

theorem mem_closing {a : Act n E} (h : a ∈ ((closing p : List (Act n E)) : Multiset (Act n E)) + R) :
    a = .complete ∨ a ∈ R := by
  unfold closing at h
  split at h
  · simpa using h
  · exact .inr (by simpa using h)

end closing

theorem hetEnd_eq (s : State n E) (c : Fin n) : hetEnd s c =
    ({ s with
        outstanding := s.outstanding - 1, ended := s.ended ++ [c],
        travdone := s.travdone || s.outstanding - 1 = 0 },
      closing (s.outstanding - 1 = 0 ∧ s.fillsout = 0)) := by
  unfold hetEnd closing
  by_cases hz : s.outstanding - 1 = 0
  · simp [hz]
  · simp [hz]

/-- A traversal is counted. -/
theorem Inv.count {c : Fin n} {R : Multiset (Act n E)} {ts : List (List (Act n E))} (h : Inv scripts s)
    (hold : pending s.threads = .trav (.count c) ::ₘ R)
    (hnew : pending ts = ((hetEnd s c).2 : Multiset (Act n E)) + R) :
    Inv scripts { (hetEnd s c).1 with threads := ts } := by
  have hout : s.outstanding ≠ 0 := h.outstanding_ne_zero (hold ▸ Multiset.mem_cons_self _ _)
  have hbooks := h.books
  have hfills := h.fillsout
  have hedges := h.edges
  have htold := h.told
  have hcomplete := h.complete
  rw [hold] at hbooks hfills hedges htold hcomplete
  rw [hetEnd_eq] at hnew ⊢
  constructor
  case books =>
    rw [hnew, travs_closing]
    exact (travs_cons_trav _ R ▸ hbooks).count
  case travdone =>
    have hno : s.travdone = false := by
      rw [← Bool.not_eq_true]
      exact fun hdone => hout (h.travdone.1 hdone)
    simp [hno]
  case fillsout =>
    rw [hnew, sum_closing_of_zero _ _ rfl]
    simpa [Act.isFill] using hfills
  case edges =>
    rw [hnew, sum_closing_of_zero _ _ rfl]
    simpa [Act.reports] using hedges
  case told =>
    rw [hnew, sum_closing_of_zero _ _ rfl]
    simpa [Act.answers] using htold
  case queued => exact h.queued
  case fresh =>
    intro r ok hr
    rw [hnew] at hr
    rcases mem_closing _ _ hr with heq | hr
    · cases heq
    · exact h.fresh r ok (hold ▸ Multiset.mem_cons_of_mem hr)
  case complete =>
    rw [if_neg fun hz => hout hz.1] at hcomplete
    simp only [Multiset.map_cons, Multiset.sum_cons, Act.isComplete] at hcomplete
    show _ + s.upcalls.length = if s.outstanding - 1 = 0 ∧ s.fillsout = 0 then 1 else 0
    rw [hnew, sum_closing]
    simp only [Act.isComplete]
    omega
  case upcalls => exact h.upcalls

/-- An insert is counted. -/
theorem Inv.filled {she : E} {R : Multiset (Act n E)} {ts : List (List (Act n E))} (h : Inv scripts s)
    (hold : pending s.threads = .filled she ::ₘ R)
    (hnew : pending ts = ((heiEnd s she).2 : Multiset (Act n E)) + R) :
    Inv scripts { (heiEnd s she).1 with threads := ts } := by
  have hbooks := h.books
  have hfills := h.fillsout
  have hedges := h.edges
  have htold := h.told
  have hcomplete := h.complete
  rw [hold] at hbooks hfills hedges htold hcomplete
  simp only [Multiset.map_cons, Multiset.sum_cons, Act.isFill] at hfills
  have hout : s.fillsout ≠ 0 := by omega
  replace hnew : pending ts = (closing (s.travdone = true ∧ s.fillsout - 1 = 0) : List (Act n E)) + R := hnew
  constructor
  case books => simpa [hnew, heiEnd] using hbooks
  case travdone => exact h.travdone
  case fillsout =>
    rw [hnew, sum_closing_of_zero _ _ rfl]
    simp only [heiEnd]
    omega
  case edges =>
    rw [hnew, sum_closing_of_zero _ _ rfl]
    simpa [Act.reports, heiEnd] using hedges
  case told =>
    simp only [Multiset.map_cons, Multiset.sum_cons, Act.answers] at htold
    rw [hnew, sum_closing_of_zero _ _ rfl]
    simp only [heiEnd]
    rw [← Multiset.coe_add, htold, Multiset.coe_singleton]
    abel
  case queued => exact h.queued
  case fresh =>
    intro r ok hr
    rw [hnew] at hr
    rcases mem_closing _ _ hr with heq | hr
    · cases heq
    · exact h.fresh r ok (hold ▸ Multiset.mem_cons_of_mem hr)
  case complete =>
    rw [if_neg fun hz => hout hz.2] at hcomplete
    simp only [Multiset.map_cons, Multiset.sum_cons, Act.isComplete] at hcomplete
    show _ + s.upcalls.length = if s.outstanding = 0 ∧ s.fillsout - 1 = 0 then 1 else 0
    rw [hnew, sum_closing]
    simp only [Act.isComplete, h.travdone]
    omega
  case upcalls => exact h.upcalls

/-- **Every step keeps the books.** -/
theorem Inv.step (h : Inv scripts s) (hstep : Step s s') : Inv scripts s' := by
  cases hstep with
  | answer r ok queue ts hold hnew => exact h.answer hold hnew
  | run a R ts hready hold hnew =>
      cases a with
      | trav a =>
          cases a with
          | item c b =>
              cases b with
              | called she => exact h.called hold (by simpa [exec] using hnew)
              | counted she => exact h.submit hold (by simpa [exec] using hnew)
          | finish c ok => exact h.finish hready hold (by simpa [exec] using hnew)
          | count c => exact h.count hold hnew
      | answered r ok =>
          have hr : r.Fresh := h.fresh r ok (hold ▸ Multiset.mem_cons_self _ _)
          exact h.answered hold (by simpa [exec, hr.tells ok] using hnew)
      | filled she => exact h.filled hold hnew
      | complete => exact h.completed hold (by simpa [exec] using hnew)

/-! ### The runs -/

theorem pending_init : pending (init scripts).threads =
    ((Gather.start (fun c => (scripts c).edges.map .called) fun c => (scripts c).ok).map .trav :
      List (Act n E)) := by
  simp only [pending, init]
  rw [← List.flatMap_def, ← List.map_eq_flatMap]

theorem travs_init : travs (pending (init scripts).threads) =
    (Gather.start (fun c => (scripts c).edges.map .called) fun c => (scripts c).ok :
      List (Gather.Act n (Report E))) := by
  rw [pending_init, travs, Multiset.filterMap_coe, List.filterMap_map]
  exact congrArg _ (List.filterMap_some)

/-- The weight of the actions at the start. -/
theorem sum_init {M : Type} [AddCommMonoid M] (w : Act n E → M) :
    ((pending (init scripts).threads).map w).sum = ((List.finRange n).map fun c =>
      ((scripts c).edges.map fun she => w (.trav (.item c (.called she)))).sum +
        w (.trav (.finish c (scripts c).ok))).sum := by
  rw [pending_init, Multiset.map_coe, Multiset.sum_coe, List.map_map, Gather.sum_start]
  simp only [List.map_map, Function.comp_def]

theorem Inv.init (hn : 0 < n) (scripts : Fin n → Script E) : Inv scripts (init scripts) := by
  constructor
  case books =>
    rw [travs_init]
    exact .start _ _
  case travdone =>
    have hne : (n : ℤ) ≠ 0 := by omega
    exact iff_of_false (by simp [FollowFill.init]) hne
  case fillsout =>
    rw [sum_init]
    simp [Act.isFill, FollowFill.init]
  case edges =>
    rw [sum_init]
    simp only [Act.reports, add_zero, reported, FollowFill.init, Multiset.coe_nil]
    rw [← Multiset.coe_bind, Multiset.bind, Multiset.join, Multiset.map_coe, Multiset.sum_coe]
    refine congrArg List.sum (List.map_congr_left fun c _ => ?_)
    rw [← Multiset.sum_coe, ← Multiset.map_coe, Multiset.sum_map_singleton]
  case told =>
    rw [sum_init]
    simp [Act.answers, FollowFill.init]
  case queued => exact fun r hr => by simp [FollowFill.init] at hr
  case fresh =>
    intro r ok hr
    rw [pending_init] at hr
    simp at hr
  case complete =>
    have hne : ¬ ((n : ℤ) = 0 ∧ (0 : ℤ) = 0) := by omega
    rw [sum_init]
    show _ = if (n : ℤ) = 0 ∧ (0 : ℤ) = 0 then 1 else 0
    rw [if_neg hne]
    simp [Act.isComplete, FollowFill.init]
  case upcalls => exact fun b hb => by simp [FollowFill.init] at hb

theorem Inv.of_reached (hn : 0 < n) (h : Reached scripts s) : Inv scripts s :=
  h.inv (I := Inv scripts) (Inv.init hn scripts) fun _ _ _ hi _ hnext => hi.step (step_of_next hnext)

/-- Where both counters are at zero, everything is filled. -/
theorem Inv.all_filled (h : Inv scripts s) (hout : s.outstanding = 0) (hfills : s.fillsout = 0) :
    Filled scripts s := by
  have hbooks := h.books
  rw [hout] at hbooks
  obtain ⟨htravs, hended⟩ := hbooks.eq_zero
  have hsum := h.fillsout
  have hfill : ∀ a ∈ pending s.threads, a.isFill = 0 := by
    intro a ha
    have hle := Multiset.single_le_sum (fun _ _ => Nat.zero_le _) _ (Multiset.mem_map_of_mem Act.isFill ha)
    omega
  have hcomplete : ∀ a ∈ pending s.threads, a = .complete := by
    intro a ha
    have hz := hfill a ha
    cases a with
    | trav a =>
        have hmem := mem_travs.2 ha
        rw [htravs] at hmem
        simp at hmem
    | answered r ok => simp [Act.isFill] at hz
    | filled she => simp [Act.isFill] at hz
    | complete => rfl
  have hnil {M : Type} [AddCommMonoid M] {w : Act n E → M} (hw : w .complete = 0) :
      ((pending s.threads).map w).sum = 0 := by
    refine Multiset.sum_eq_zero fun m hm => ?_
    obtain ⟨a, ha, rfl⟩ := Multiset.mem_map.1 hm
    rw [hcomplete a ha, hw]
  have hqueue : s.queue = [] := List.length_eq_zero_iff.1 (by omega)
  constructor
  case ended => exact hended
  case submitted =>
    have hedges := h.edges
    rw [hnil rfl, zero_add] at hedges
    exact Multiset.coe_eq_coe.1 hedges.symm
  case answered =>
    have htold := h.told
    rw [hnil rfl, hqueue] at htold
    exact (Multiset.coe_eq_coe.1 (by simpa using htold)).symm

/-- The step that runs `complete()`. -/
theorem Inv.filled_of_upcall (h : Inv scripts s) (hstep : Step s s') (hup : s'.upcalls ≠ s.upcalls) :
    Filled scripts s := by
  cases hstep with
  | answer r ok queue ts hold hnew => exact absurd rfl hup
  | run a R ts hready hold hnew =>
      cases a with
      | trav a =>
          cases a with
          | item c b =>
              cases b with
              | called she => exact absurd rfl hup
              | counted she => exact absurd rfl hup
          | finish c ok => exact absurd rfl hup
          | count c =>
              rw [exec, hetEnd_eq] at hup
              exact absurd rfl hup
      | answered r ok => exact absurd rfl hup
      | filled she => exact absurd rfl hup
      | complete =>
          have hcomplete := h.complete
          rw [hold, Multiset.map_cons, Multiset.sum_cons] at hcomplete
          have hone : Act.isComplete (.complete : Act n E) = 1 := rfl
          by_cases hz : s.outstanding = 0 ∧ s.fillsout = 0
          · exact h.all_filled hz.1 hz.2
          · rw [if_neg hz] at hcomplete
            omega

/-! ### The end of a run -/

/-- The steps that an action still leads to. -/
def Act.cost : Act n E → ℕ
  | .trav (.item _ (.called _)) => 6
  | .trav (.item _ (.counted _)) => 5
  | .answered _ _ => 3
  | .trav (.finish _ _) => 3
  | .trav (.count _) => 2
  | .filled _ => 2
  | .complete => 1

/-- A bound for the steps to come. -/
def State.cost (s : State n E) : ℕ := ((pending s.threads).map Act.cost).sum + 4 * s.queue.length

/-- What an action puts in its place costs less. -/
theorem cost_exec (s : State n E) (a : Act n E) :
    (((exec s a).2.map Act.cost).sum + 4 * (exec s a).1.queue.length) < a.cost + 4 * s.queue.length := by
  cases a with
  | trav a =>
      cases a with
      | item c b =>
          cases b with
          | called she => simp [exec, Act.cost]
          | counted she =>
              simp only [exec, Act.cost, List.map_nil, List.sum_nil, List.length_append,
                List.length_singleton]
              omega
      | finish c ok => simp [exec, Act.cost]
      | count c =>
          simp only [exec, hetEnd_eq, closing, Act.cost]
          split <;> simp [Act.cost]
  | answered r ok =>
      simp only [exec]
      split <;> simp [Act.cost]
  | filled she =>
      simp only [exec, heiEnd]
      split <;> simp [Act.cost]
  | complete => simp [exec, Act.cost]

theorem cost_lt (hstep : Step s s') : s'.cost < s.cost := by
  cases hstep with
  | answer r ok queue ts hold hnew =>
      simp only [State.cost, hnew, Multiset.map_cons, Multiset.sum_cons, Act.cost, hold.length_eq,
        List.length_cons]
      omega
  | run a R ts hready hold hnew =>
      have hlt := cost_exec s a
      show ((pending ts).map Act.cost).sum + 4 * (exec s a).1.queue.length < s.cost
      rw [State.cost, hnew, hold, Multiset.map_add, Multiset.sum_add, Multiset.map_cons,
        Multiset.sum_cons, Multiset.map_coe, Multiset.sum_coe]
      omega

/-- A callback does one thing next. -/
def Single (s : State n E) : Prop := ∀ k ∈ s.threads, k.length ≤ 1

theorem length_exec_le (s : State n E) (a : Act n E) : (exec s a).2.length ≤ 1 := by
  cases a with
  | trav a =>
      cases a with
      | item c b => cases b <;> simp [exec]
      | finish c ok => simp [exec]
      | count c =>
          rw [exec, hetEnd_eq, closing]
          split <;> simp
  | answered r ok =>
      rw [exec]
      split <;> simp
  | filled she =>
      rw [exec, heiEnd]
      split <;> simp
  | complete => simp [exec]

theorem Single.next (h : Single s) {x : Label} (hnext : next s x = some s') : Single s' := by
  cases x with
  | run i =>
      simp only [FollowFill.next] at hnext
      split at hnext
      · rename_i a k hts
        split at hnext
        · obtain rfl := Option.some.inj hnext
          intro k' hk'
          rcases List.mem_or_eq_of_mem_set hk' with hk' | rfl
          · exact h k' hk'
          · have hk := h _ (List.mem_of_getElem? hts)
            have hle := length_exec_le s a
            rw [List.length_cons] at hk
            rw [List.length_append]
            omega
        · simp at hnext
      · simp at hnext
  | answer j ok =>
      simp only [FollowFill.next] at hnext
      split at hnext
      · obtain rfl := Option.some.inj hnext
        intro k hk
        rcases List.mem_append.1 hk with hk | hk
        · exact h k hk
        · rw [List.mem_singleton.1 hk]
          exact le_rfl
      · simp at hnext

theorem Single.of_reached (h : Reached scripts s) : Single s := by
  refine h.inv (I := Single) (fun k hk => ?_) fun _ _ _ hi _ hnext => hi.next hnext
  obtain ⟨a, -, rfl⟩ := List.mem_map.1 hk
  exact le_rfl

/-- An action that is ready can run. -/
theorem Single.exists_run (h : Single s) {a : Act n E} (ha : a ∈ pending s.threads)
    (hready : s.ready a = true) : ∃ x s', FollowFill.next s x = some s' := by
  obtain ⟨k, hk, hmem⟩ := mem_pending.1 ha
  obtain ⟨i, hi⟩ := List.mem_iff_getElem?.1 hk
  cases k with
  | nil => simp at hmem
  | cons b k =>
      obtain rfl : k = [] := by
        have hlen := h _ hk
        rw [List.length_cons] at hlen
        exact List.length_eq_zero_iff.1 (by omega)
      rw [List.mem_singleton.1 hmem] at hready
      refine ⟨.run i, { (exec s b).1 with threads := s.threads.set i ((exec s b).2 ++ []) }, ?_⟩
      simp only [FollowFill.next, hi, hready, if_true]

/-- Where no step is left, nothing is in progress and no insert waits for its answer. -/
theorem Single.quiet (h : Single s) (hstuck : ∀ x, FollowFill.next s x = none) :
    pending s.threads = 0 ∧ s.queue = [] := by
  have hno : ∀ a ∈ pending s.threads, ¬ s.ready a = true := by
    intro a ha hready
    obtain ⟨x, s', hnext⟩ := h.exists_run ha hready
    rw [hstuck x] at hnext
    cases hnext
  constructor
  · refine Multiset.eq_zero_of_forall_notMem fun a ha => ?_
    cases a with
    | trav a =>
        have hne : travs (pending s.threads) ≠ 0 := fun hz => by simpa [hz] using mem_travs.2 ha
        obtain ⟨a', ha', hready⟩ := Gather.exists_ready hne
        exact hno _ (mem_travs.1 ha') (ready_iff.2 hready)
    | answered r ok => exact hno _ ha rfl
    | filled she => exact hno _ ha rfl
    | complete => exact hno _ ha rfl
  · cases hq : s.queue with
    | nil => rfl
    | cons r queue =>
        have hnext := hstuck (.answer 0 true)
        simp [FollowFill.next, hq] at hnext

/-- **A follow-fill completes once.**  In every order of the callbacks of its source children and of the
answers to its inserts, a request with at least one source child runs `complete()` exactly once, when
all traversals have ended, all edges have been submitted to the target and all inserts answered. -/
theorem completesOnce (hn : 0 < n) (scripts : Fin n → Script E) : CompletesOnce scripts where
  once s hs := by
    have hcomplete := (Inv.of_reached hn hs).complete
    split at hcomplete <;> omega
  filled s x s' hs hnext hup := (Inv.of_reached hn hs).filled_of_upcall (step_of_next hnext) hup
  ends := ends_of_lt (I := fun _ => True) (m := State.cost)
    (fun _ _ _ _ _ hnext => ⟨trivial, cost_lt (step_of_next hnext)⟩) trivial
  completes s hs hstuck := by
    have hinv := Inv.of_reached hn hs
    obtain ⟨hpending, hqueue⟩ := (Single.of_reached hs).quiet hstuck
    have hout := hinv.books.outstanding
    have hfills := hinv.fillsout
    have hcomplete := hinv.complete
    rw [hpending] at hout hfills hcomplete
    rw [hqueue] at hfills
    have hz : s.outstanding = 0 ∧ s.fillsout = 0 := ⟨by simpa [travs] using hout, by simpa using hfills⟩
    rw [if_pos hz, Multiset.map_zero, Multiset.sum_zero, zero_add] at hcomplete
    obtain ⟨b, hb⟩ := List.length_eq_one_iff.1 hcomplete
    exact ⟨b, hb, hinv.upcalls b (by rw [hb]; exact List.mem_singleton_self b)⟩

/-- Two children, of which one fails after an edge that the other has as well. -/
theorem completesOnce_two :
    0 < 2 ∧ CompletesOnce (fun c : Fin 2 => if c = 0 then ⟨[1, 2], true⟩ else (⟨[2], false⟩ : Script ℕ)) :=
  ⟨by decide, completesOnce (by decide) _⟩

/-- Without source children nobody calls `complete()`. -/
theorem not_completesOnce_no_children : ¬ CompletesOnce (nofun : Fin 0 → Script ℕ) := by
  intro h
  obtain ⟨b, hb, -⟩ := h.completes _ .init (by intro x; cases x <;> rfl)
  cases hb

end FollowFill

end Utopfs
