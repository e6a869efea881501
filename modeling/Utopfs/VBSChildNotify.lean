/-
**Waking a child.**

The queues of a child are drained by loops of `initiate_requests`.  A loop is started by the reactor,
when it dispatches a notification, and by the child store, when it calls `uh_unsaturated`.  Those who
enqueue a request notify the reactor unless `m_notified` says that this has been done, and the loops
clear the flag when they find the queues empty or the child store saturated.  `needed_keys_append`
does not notify anyone.  This is no loss as long as the key is appended by a completion inside a loop
of the child, which then looks at the queues once more.  A child store that answers later leaves the
key in the queue of a child that is asleep.

Nothing in `initiate_requests` catches an exception.  A child store that throws, as `FSBlockStore` does
when the refresh id of a block to be refreshed does not exist, ends the loop with the flag as it is.

This module models the flag, the notifications and the loops of one child.  Its queues are those of
`Utopfs/VBlockStore.lean`, where the loops are reduced to their effect on the queues.

Main definitions:

* `VBSChild.Point`, `VBSChild.State`, `VBSChild.Label`, `VBSChild.next` — the loops, the child and its
  steps;
* `VBSChild.State.waiting`, `VBSChild.State.awake` — something is queued; someone will see to it;
* `VBSChild.Careful` — the steps that leave nothing behind.

Main results:

* `VBSChild.wakeOk_of_runs` — what the flag promises is kept in runs of such steps;
* `VBSChild.awake_of_waiting` — in these, whenever something is queued, someone will see to it;
* `VBSChild.lost_wakeups` — each of the conditions is needed.
-/

import Mathlib.Tactic
import Utopfs.VBlockStoreBalance

set_option relaxedAutoImplicit false
set_option autoImplicit false

namespace Utopfs

namespace VBSChild

open Interleave VBS

/-- Where a loop of `initiate_requests` is. -/
inductive Point
  /-- About to ask whether the child store is saturated. -/
  | top
  /-- About to look at the queues. -/
  | examine
  /-- In the `initiate` of a request that it found. -/
  | working
  /-- Asking the other children for a needed key that it found. -/
  | asking
  /-- It has found the child store saturated, and is about to clear `m_notified` and leave. -/
  | leaving
  deriving DecidableEq

/-- A child: its queues, `m_notified`, the notifications that the reactor has not dispatched, the
loops in progress, whether the child store is saturated, and the calls of `uh_unsaturated` that it is
about to make. -/
structure State where
  child : Child
  notified : Bool
  pending : ℕ
  loops : List Point
  saturated : Bool
  unsaturated : ℕ

/-- A new child. -/
def State.init : State := ⟨⟨[], [], [], [], [], []⟩, false, 0, [], false, 0⟩

/-- The steps of a child. -/
inductive Label
  /-- `enqueue_get`, `enqueue_put`, `enqueue_refresh`, `enqueue_headnode` -/
  | enqueue (kind : Kind) (r : ℕ)
  /-- `cancel_get` takes a request from the queue of gets. -/
  | cancelGet (r : ℕ)
  /-- `needed_keys_append` -/
  | neededKeysAppend (key : OctetSeq)
  /-- The reactor dispatches a notification. -/
  | handleException
  /-- The child store becomes saturated. -/
  | saturate
  /-- The child store is not saturated, or not any longer, and is going to say so. -/
  | unsaturate
  /-- The child store calls `uh_unsaturated`. -/
  | uhUnsaturated
  /-- A loop goes on. -/
  | loop (i : ℕ)
  /-- The child store throws out of the `initiate` that a loop is in. -/
  | throw (i : ℕ)

/-- Appending to a queue: notify, unless this has been done. -/
def State.enqueue (s : State) (kind : Kind) (r : ℕ) : State :=
  { s with
    child := s.child.enqueue kind r
    notified := true
    pending := if s.notified then s.pending else s.pending + 1 }

/-- One step of `initiate_requests`. -/
def State.initiateRequests (s : State) (i : ℕ) : Point → State
  | .top =>
      if s.saturated then { s with loops := s.loops.set i .leaving }
      else { s with loops := s.loops.set i .examine }
  | .examine =>
      match s.child.pick with
      | some (.request _, ch) => { s with child := ch, loops := s.loops.set i .working }
      | some (.needed key, ch) =>
          -- An empty key is taken for the end, but the flag stays set.
          if key = [] then { s with child := ch, loops := s.loops.eraseIdx i }
          else { s with child := ch, loops := s.loops.set i .asking }
      | none => { s with notified := false, loops := s.loops.eraseIdx i }
  | .working | .asking => { s with loops := s.loops.set i .top }
  | .leaving => { s with notified := false, loops := s.loops.eraseIdx i }

/-- One step. -/
def next (s : State) : Label → Option State
  | .enqueue kind r => some (s.enqueue kind r)
  | .cancelGet r => some { s with child := { s.child with getreqs := s.child.getreqs.erase r } }
  | .neededKeysAppend key =>
      some { s with child := { s.child with neededkeys := s.child.neededkeys ++ [key] } }
  | .handleException =>
      if s.pending = 0 then none
      else some { s with pending := s.pending - 1, loops := s.loops ++ [.top] }
  | .saturate => some { s with saturated := true }
  | .unsaturate => some { s with saturated := false, unsaturated := s.unsaturated + 1 }
  | .uhUnsaturated =>
      if s.unsaturated = 0 then none
      else some { s with unsaturated := s.unsaturated - 1, loops := s.loops ++ [.top] }
  | .loop i =>
      match s.loops[i]? with
      | some p => some (s.initiateRequests i p)
      | none => none
  | .throw i =>
      if s.loops[i]? = some .working then some { s with loops := s.loops.eraseIdx i } else none

/-- The states that runs reach. -/
abbrev Runs : State → Prop := Reach next (fun _ _ => True) State.init

/-- Something is queued. -/
def State.waiting (s : State) : Prop := s.child.queued ≠ [] ∨ s.child.neededkeys ≠ []

/-- A loop is going to look at the queues, or the child store is saturated or is about to call
`uh_unsaturated`. -/
def State.busy (s : State) : Prop :=
  (∃ p ∈ s.loops, p ≠ .leaving) ∨ s.saturated = true ∨ 0 < s.unsaturated

/-- Someone will see to the queues: `m_notified` is set with a notification pending, or the child is
busy. -/
def State.awake (s : State) : Prop := (s.notified = true ∧ 0 < s.pending) ∨ s.busy

instance (s : State) : Decidable s.waiting :=
  inferInstanceAs (Decidable (s.child.queued ≠ [] ∨ s.child.neededkeys ≠ []))

instance (s : State) : Decidable s.busy :=
  inferInstanceAs (Decidable ((∃ p ∈ s.loops, p ≠ .leaving) ∨ s.saturated = true ∨ 0 < s.unsaturated))

instance (s : State) : Decidable s.awake :=
  inferInstanceAs (Decidable ((s.notified = true ∧ 0 < s.pending) ∨ s.busy))

/-- A step that leaves nothing behind.  A needed key is appended by an answer that comes inside an
`initiate`, or while `m_notified` is set or something else is queued.  The needed key that a loop takes
is not empty.  The child store does not call `uh_unsaturated` between the question of a loop whether it
is saturated and the loop's leaving, and it throws only while the flag is clear and nothing is
queued. -/
def Careful (s : State) : Label → Prop
  | .neededKeysAppend _ => .working ∈ s.loops ∨ s.notified = true ∨ s.waiting
  | .uhUnsaturated => .leaving ∉ s.loops
  | .loop i =>
      s.loops[i]? = some .examine → s.child.queued = [] → s.child.neededkeys.head? ≠ some []
  | .throw _ => s.notified = false ∧ ¬ s.waiting
  | _ => True

instance (s : State) : (x : Label) → Decidable (Careful s x)
  | .neededKeysAppend _ =>
      inferInstanceAs (Decidable (.working ∈ s.loops ∨ s.notified = true ∨ s.waiting))
  | .uhUnsaturated => inferInstanceAs (Decidable (.leaving ∉ s.loops))
  | .loop i => inferInstanceAs (Decidable
      (s.loops[i]? = some .examine → s.child.queued = [] → s.child.neededkeys.head? ≠ some []))
  | .throw _ => inferInstanceAs (Decidable (s.notified = false ∧ ¬ s.waiting))
  | .enqueue _ _ | .cancelGet _ | .handleException | .saturate | .unsaturate =>
      inferInstanceAs (Decidable True)

/-- **What the flag promises**: whenever something is queued, or the flag is set, someone will see to
the queues.  A loop that is about to leave has left this to the child store. -/
structure WakeOk (s : State) : Prop where
  waiting : s.waiting → s.awake
  notified : s.notified = true → s.awake
  leaving : .leaving ∈ s.loops → s.saturated = true ∨ 0 < s.unsaturated

/-! ### Steps that wake a child -/

theorem WakeOk.of_busy {s : State} (h : s.busy)
    (hleave : .leaving ∈ s.loops → s.saturated = true ∨ 0 < s.unsaturated) : WakeOk s :=
  ⟨fun _ => .inr h, fun _ => .inr h, hleave⟩

/-- A loop that is going to look at the queues. -/
theorem busy_of_mem {s : State} {p : Point} (hmem : p ∈ s.loops) (hp : p ≠ .leaving) : s.busy :=
  .inl ⟨p, hmem, hp⟩

theorem mem_set_self {ps : List Point} {i : ℕ} {p : Point} (h : ps[i]? = some p) (q : Point) :
    q ∈ ps.set i q := List.mem_set (List.getElem?_eq_some_iff.1 h).1 q

/-- A loop that goes on, and is not about to leave. -/
theorem WakeOk.of_set {s : State} (hok : WakeOk s) {i : ℕ} {p q : Point} (hi : s.loops[i]? = some p)
    (hq : q ≠ .leaving) (ch : Child) : WakeOk { s with child := ch, loops := s.loops.set i q } := by
  refine .of_busy (busy_of_mem (mem_set_self hi q) hq) fun hmem => hok.leaving ?_
  rcases List.mem_or_eq_of_mem_set hmem with h | h
  · exact h
  · exact absurd h.symm hq

/-- A child that picks nothing has nothing queued. -/
theorem not_waiting_of_pick {s : State} (h : s.child.pick = none) : ¬ s.waiting := by
  unfold Child.pick at h
  split at h
  · simp at h
  split at h
  · simp at h
  split at h
  · simp at h
  split at h
  · simp at h
  split at h
  · simp at h
  · simp [State.waiting, Child.queued, *]

/-- Needed keys come last. -/
theorem queued_of_needed {ch ch' : Child} {key : OctetSeq} (h : ch.pick = some (.needed key, ch')) :
    ch.queued = [] := by
  unfold Child.pick at h
  split at h
  · simp at h
  split at h
  · simp at h
  split at h
  · simp at h
  split at h
  · simp at h
  · simp [Child.queued, *]

/-- One step of a loop. -/
theorem wakeOk_initiateRequests {s : State} (hok : WakeOk s) {i : ℕ} {p : Point}
    (hi : s.loops[i]? = some p) (hx : Careful s (.loop i)) : WakeOk (s.initiateRequests i p) := by
  cases p with
  | top =>
      simp only [State.initiateRequests]
      split
      · rename_i hsat
        exact .of_busy (.inr (.inl hsat)) fun _ => .inl hsat
      · exact hok.of_set hi (by decide) s.child
  | examine =>
      simp only [State.initiateRequests]
      split
      · exact hok.of_set hi (by decide) _
      · rename_i key ch hpick
        split
        · rename_i hnil
          have hkeys := (pick_needed hpick).2.1
          rw [hnil] at hkeys
          exact absurd (by rw [hkeys]; rfl) (hx hi (queued_of_needed hpick))
        · exact hok.of_set hi (by decide) _
      · rename_i hpick
        exact ⟨fun hw => absurd hw (not_waiting_of_pick hpick), by simp,
          fun hmem => hok.leaving (List.mem_of_mem_eraseIdx hmem)⟩
  | working => exact hok.of_set hi (by decide) s.child
  | asking => exact hok.of_set hi (by decide) s.child
  | leaving =>
      have hstore : s.saturated = true ∨ 0 < s.unsaturated := hok.leaving (List.mem_of_getElem? hi)
      exact .of_busy (.inr hstore) fun _ => hstore

/-- What does not touch the loops, the flag and the notifications keeps a child awake. -/
theorem awake_congr {s s' : State} (hn : s'.notified = s.notified) (hp : s'.pending = s.pending)
    (hl : s'.loops = s.loops) (hs : s'.saturated = s.saturated)
    (hu : s'.unsaturated = s.unsaturated) : s'.awake ↔ s.awake := by
  simp only [State.awake, State.busy, hn, hp, hl, hs, hu]

theorem WakeOk.next {s s' : State} (hok : WakeOk s) {x : Label} (hx : Careful s x)
    (h : next s x = some s') : WakeOk s' := by
  cases x with
  | enqueue kind r =>
      obtain rfl : s.enqueue kind r = s' := by simpa [VBSChild.next] using h
      have hawake : (s.enqueue kind r).awake := by
        cases hn : s.notified with
        | false => exact .inl ⟨rfl, by simp [State.enqueue, hn]⟩
        | true =>
            have hcongr : (s.enqueue kind r).awake ↔ s.awake := awake_congr (by simp [State.enqueue, hn])
              (by simp [State.enqueue, hn]) rfl rfl rfl
            exact hcongr.2 (hok.notified hn)
      exact ⟨fun _ => hawake, fun _ => hawake, hok.leaving⟩
  | cancelGet r =>
      obtain rfl : { s with child := { s.child with getreqs := s.child.getreqs.erase r } } = s' := by
        simpa [VBSChild.next] using h
      refine ⟨fun hw => (awake_congr rfl rfl rfl rfl rfl).2 (hok.waiting ?_), hok.notified,
        hok.leaving⟩
      rcases hw with hw | hw
      · refine .inl fun hnil => hw ?_
        simp only [Child.queued, List.append_eq_nil_iff] at hnil ⊢
        obtain ⟨⟨⟨h₁, h₂⟩, h₃⟩, h₄⟩ := hnil
        exact ⟨⟨⟨h₁, h₂⟩, by simp [h₃]⟩, h₄⟩
      · exact .inr hw
  | neededKeysAppend key =>
      obtain rfl : { s with child := { s.child with neededkeys := s.child.neededkeys ++ [key] } } =
          s' := by simpa [VBSChild.next] using h
      have hawake : s.awake := by
        rcases hx with hsync | hn | hw
        · exact .inr (busy_of_mem hsync (by decide))
        · exact hok.notified hn
        · exact hok.waiting hw
      exact ⟨fun _ => hawake, fun _ => hawake, hok.leaving⟩
  | handleException =>
      simp only [VBSChild.next] at h
      split at h
      · simp at h
      · obtain rfl := Option.some.inj h
        exact .of_busy (busy_of_mem (p := .top) (by simp) (by decide))
          fun hmem => hok.leaving (by simpa using hmem)
  | saturate =>
      obtain rfl : { s with saturated := true } = s' := by simpa [VBSChild.next] using h
      exact .of_busy (.inr (.inl rfl)) fun _ => .inl rfl
  | unsaturate =>
      obtain rfl : { s with saturated := false, unsaturated := s.unsaturated + 1 } = s' := by
        simpa [VBSChild.next] using h
      exact .of_busy (.inr (.inr (Nat.succ_pos _))) fun _ => .inr (Nat.succ_pos _)
  | uhUnsaturated =>
      simp only [VBSChild.next] at h
      split at h
      · simp at h
      · obtain rfl := Option.some.inj h
        exact .of_busy (busy_of_mem (p := .top) (by simp) (by decide))
          fun hmem => absurd (by simpa using hmem) hx
  | loop i =>
      simp only [VBSChild.next] at h
      split at h
      · rename_i p hi
        obtain rfl := Option.some.inj h
        exact wakeOk_initiateRequests hok hi hx
      · simp at h
  | throw i =>
      simp only [VBSChild.next] at h
      split at h
      · obtain rfl := Option.some.inj h
        refine ⟨fun hw => absurd hw hx.2, fun hn => ?_,
          fun hmem => hok.leaving (List.mem_of_mem_eraseIdx hmem)⟩
        rw [hx.1] at hn
        cases hn
      · simp at h

/-- **What the flag promises is kept in runs of careful steps.** -/
theorem wakeOk_of_runs {s : State} (h : Reach next Careful State.init s) : WakeOk s :=
  h.inv (I := WakeOk)
    ⟨by simp [State.waiting, State.init, Child.queued], by simp [State.init], by simp [State.init]⟩
    fun _ _ _ hok hx hnext => hok.next hx hnext

/-- **No lost wakeup.**  In runs of careful steps, whenever one of the queues is not empty,
`m_notified` is set with a notification pending, or a loop is going to look at the queues, or the child
store is saturated or about to call `uh_unsaturated`. -/
theorem awake_of_waiting {s : State} (h : Reach next Careful State.init s) (hw : s.waiting) :
    s.awake :=
  (wakeOk_of_runs h).waiting hw

/-- A needed key appended by a completion inside the loop.  The child store was saturated before, and a
second loop is at work because it has called `uh_unsaturated`. -/
theorem awake_of_needed : ∃ s : State, Reach next Careful State.init s ∧ s.waiting ∧
    s.notified = true ∧ s.pending = 0 ∧ s.awake := by
  obtain ⟨s, hruns, hval⟩ : ∃ s : State, Reach next Careful State.init s ∧
      decide (s.waiting ∧ s.notified = true ∧ s.pending = 0) = true :=
    Reach.exists_of_play [.saturate, .enqueue (.get [1]) 0, .handleException, .loop 0, .loop 0,
      .unsaturate, .uhUnsaturated, .enqueue (.get [2]) 1, .handleException, .loop 0, .loop 0,
      .neededKeysAppend [1], .loop 0] (p := fun s x => decide (Careful s x))
      (fun _ _ hx => of_decide_eq_true hx) (by decide +kernel)
  obtain ⟨hw, hn, hp⟩ := of_decide_eq_true hval
  exact ⟨s, hruns, hw, hn, hp, awake_of_waiting hruns hw⟩

/-- **Lost wakeups.**  A child store that answers `NotFound` later, when the loop has found the queues
empty and left, strands the needed key.  An empty needed key makes the loop leave with the flag set,
and no later request is notified; so does a child store that throws.  A loop that has found the child
store saturated clears the flag for a notification that was made since. -/
theorem lost_wakeups :
    (∃ s : State, Runs s ∧ s.child.neededkeys = [[1]] ∧ s.pending = 0 ∧ s.loops = [] ∧
      s.saturated = false ∧ s.waiting ∧ ¬ s.awake) ∧
    (∃ s : State, Runs s ∧ s.child.getreqs = [1] ∧ s.pending = 0 ∧ s.loops = [] ∧
      s.notified = true ∧ ¬ s.awake) ∧
    (∃ s : State, Runs s ∧ s.child.getreqs = [1] ∧ s.pending = 1 ∧ s.loops = [] ∧
      s.notified = false ∧ ¬ s.awake) ∧
    ∃ s : State, Runs s ∧ s.child.refreqs = [1] ∧ s.pending = 0 ∧ s.loops = [] ∧
      s.notified = true ∧ ¬ s.awake := by
  refine ⟨?_, ?_, ?_, ?_⟩
  · obtain ⟨s, hruns, hval⟩ : ∃ s : State, Runs s ∧ decide (s.child.neededkeys = [[1]] ∧
        s.pending = 0 ∧ s.loops = [] ∧ s.saturated = false ∧ s.waiting ∧ ¬ s.awake) = true :=
      Reach.exists_of_play [.enqueue (.get [1]) 0, .handleException, .loop 0, .loop 0, .loop 0,
        .loop 0, .loop 0, .neededKeysAppend [1]] (p := fun _ _ => true) (fun _ _ _ => trivial)
        (by decide +kernel)
    exact ⟨s, hruns, of_decide_eq_true hval⟩
  · obtain ⟨s, hruns, hval⟩ : ∃ s : State, Runs s ∧ decide (s.child.getreqs = [1] ∧ s.pending = 0 ∧
        s.loops = [] ∧ s.notified = true ∧ ¬ s.awake) = true :=
      Reach.exists_of_play [.enqueue (.get []) 0, .handleException, .loop 0, .loop 0,
        .neededKeysAppend [], .loop 0, .loop 0, .loop 0, .enqueue (.get [1]) 1]
        (p := fun _ _ => true) (fun _ _ _ => trivial) (by decide +kernel)
    exact ⟨s, hruns, of_decide_eq_true hval⟩
  · obtain ⟨s, hruns, hval⟩ : ∃ s : State, Runs s ∧ decide (s.child.getreqs = [1] ∧ s.pending = 1 ∧
        s.loops = [] ∧ s.notified = false ∧ ¬ s.awake) = true :=
      Reach.exists_of_play [.enqueue (.get [1]) 0, .handleException, .saturate, .loop 0, .unsaturate,
        .uhUnsaturated, .loop 1, .loop 1, .loop 1, .loop 1, .loop 1, .enqueue (.get [1]) 1, .loop 0]
        (p := fun _ _ => true) (fun _ _ _ => trivial) (by decide +kernel)
    exact ⟨s, hruns, of_decide_eq_true hval⟩
  · obtain ⟨s, hruns, hval⟩ : ∃ s : State, Runs s ∧ decide (s.child.refreqs = [1] ∧ s.pending = 0 ∧
        s.loops = [] ∧ s.notified = true ∧ ¬ s.awake) = true :=
      Reach.exists_of_play [.enqueue (.refreshBlock 7 [1]) 0, .handleException, .loop 0, .loop 0,
        .throw 0, .enqueue (.refreshBlock 7 [1]) 1]
        (p := fun _ _ => true) (fun _ _ _ => trivial) (by decide +kernel)
    exact ⟨s, hruns, of_decide_eq_true hval⟩

end VBSChild

end Utopfs
