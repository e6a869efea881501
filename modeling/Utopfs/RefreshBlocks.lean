/-
**Waiting for a refresh of several blocks.**

`BlockStore::bs_refresh_blocks` of `libutp/src/BlockStore.cpp` issues a request for each key and then
waits on a completion that counts the answers down.  The answers may come while requests are still being
issued, in any order and from any thread.  Only an answer can end the wait, so a list without keys is
waited for for ever; and the index of the loop has 32 bits, so a list of `2 ^ 32` keys is never issued
to its end.

Main definitions:

* `RefreshBlocks.State`, `RefreshBlocks.next` — the caller, the completion and the requests;
* `RefreshBlocks.Completes` — the completion is complete when all keys are answered and not before.

Main results:

* `RefreshBlocks.Inv.next` — what the counter and the requests have to do with each other;
* `RefreshBlocks.completes_iff` — for which lists of keys the call completes.
-/

import Mathlib.Tactic
import Utopfs.FileNode
import Utopfs.Interleave

set_option relaxedAutoImplicit false
set_option autoImplicit false

namespace Utopfs

namespace RefreshBlocks

open Interleave

/-! ### The call -/

/-- Where the request for a key stands.  A callback counts down with the lock held, and calls `done()`
after that if it was the last. -/
inductive Progress
  | waiting
  | last (missing : Bool)
  | answered (missing : Bool)
  deriving DecidableEq

/-- A request that has been issued. -/
structure Request (K : Type) where
  key : K
  progress : Progress

/-- Where `bs_refresh_blocks` is: in its loop, at `wait()`, or done. -/
inductive Caller
  | issuing (i : ℕ)
  | waiting
  | returned
  deriving DecidableEq

/-- The state of a call: the members of the `BSRefreshBlocksCompletion`, and the requests in the order
in which they have been issued. -/
structure State (K : Type) where
  caller : Caller
  count : ℕ
  missing : List K
  complete : Bool
  requests : List (Request K)

/-- The steps. -/
inductive Label
  | caller
  | answer (j : ℕ) (missing : Bool)
  | finish (j : ℕ)

variable {K : Type}

/-- The call of `bs_refresh_blocks`, with what `o_missing` has before it. -/
def init (keys before : List K) : State K where
  caller := .issuing 0
  count := keys.length % 2 ^ 64
  missing := before
  complete := false
  requests := []

/-- One step.  An answer that comes from within `bs_refresh_block_async` is one that comes before the next
step of the caller. -/
def next (keys : List K) (s : State K) : Label → Option (State K)
  | .caller =>
      match s.caller with
      | .issuing i =>
          match keys[i]? with
          -- `unsigned i`
          | some k => some { s with
              caller := .issuing ((i + 1) % 2 ^ 32)
              requests := s.requests ++ [⟨k, .waiting⟩] }
          | none => some { s with caller := .waiting }
      | .waiting => if s.complete then some { s with caller := .returned } else none
      | .returned => none
  -- `rb_complete` and `rb_missing`, up to the end of the guarded block
  | .answer j missing =>
      match s.requests[j]? with
      | some ⟨k, .waiting⟩ =>
          let count := (s.count + (2 ^ 64 - 1)) % 2 ^ 64
          some { s with
            count := count
            missing := if missing then s.missing ++ [k] else s.missing
            requests := s.requests.set j ⟨k, if count = 0 then .last missing else .answered missing⟩ }
      | _ => none
  -- `done()`
  | .finish j =>
      match s.requests[j]? with
      | some ⟨k, .last missing⟩ => some { s with
          complete := true
          requests := s.requests.set j ⟨k, .answered missing⟩ }
      | _ => none

/-- The states of a call, in any order of the steps. -/
def Reached (keys before : List K) : State K → Prop :=
  Reach (next keys) (fun _ _ => True) (init keys before)

/-- The key of a request that has been answered as missing. -/
def Request.missingKey (r : Request K) : Option K :=
  match r.progress with
  | .waiting => none
  | .last missing | .answered missing => if missing then some r.key else none

@[simp] theorem missingKey_waiting (k : K) : (⟨k, .waiting⟩ : Request K).missingKey = none := rfl

/-- Every key has been issued, and the callback of each request has returned. -/
def State.AllAnswered (s : State K) (keys : List K) : Prop :=
  ∀ i < keys.length, ∃ k missing, s.requests[i]? = some ⟨k, .answered missing⟩

/-- **The call completes**: the completion is complete exactly if all keys have been answered,
`o_missing` then has exactly the keys answered as missing, and every run comes to the return. -/
structure Completes (keys before : List K) : Prop where
  complete_iff : ∀ s, Reached keys before s → (s.complete = true ↔ s.AllAnswered keys)
  missing : ∀ s, Reached keys before s → s.complete = true →
    s.missing.Perm (s.requests.filterMap Request.missingKey)
  ends : Ends (next keys) (fun _ _ => True) (init keys before)
  returned : ∀ s, Reached keys before s → (∀ x, next keys s x = none) → s.caller = .returned

/-! ### The steps -/

/-- What a step does. -/
inductive Step (keys : List K) (s : State K) : Label → State K → Prop
  | issue {i : ℕ} {k : K} : s.caller = .issuing i → keys[i]? = some k →
      Step keys s .caller { s with
        caller := .issuing ((i + 1) % 2 ^ 32), requests := s.requests ++ [⟨k, .waiting⟩] }
  | wait {i : ℕ} : s.caller = .issuing i → keys[i]? = none →
      Step keys s .caller { s with caller := .waiting }
  | ret : s.caller = .waiting → s.complete = true →
      Step keys s .caller { s with caller := .returned }
  | answer {j : ℕ} {k : K} {missing : Bool} {count : ℕ} {p : Progress} :
      s.requests[j]? = some ⟨k, .waiting⟩ → count = (s.count + (2 ^ 64 - 1)) % 2 ^ 64 →
      p = (if count = 0 then .last missing else .answered missing) →
      Step keys s (.answer j missing) { s with
        count := count, missing := if missing then s.missing ++ [k] else s.missing,
        requests := s.requests.set j ⟨k, p⟩ }
  | finish {j : ℕ} {k : K} {missing : Bool} : s.requests[j]? = some ⟨k, .last missing⟩ →
      Step keys s (.finish j) { s with
        complete := true, requests := s.requests.set j ⟨k, .answered missing⟩ }

theorem step_of_next {keys : List K} {s s' : State K} {x : Label} (h : next keys s x = some s') :
    Step keys s x s' := by
  cases x with
  | caller =>
      simp only [next] at h
      split at h
      · split at h
        · obtain rfl := Option.some.inj h
          exact .issue ‹_› ‹_›
        · obtain rfl := Option.some.inj h
          exact .wait ‹_› ‹_›
      · split at h
        · obtain rfl := Option.some.inj h
          exact .ret ‹_› ‹_›
        · simp at h
      · simp at h
  | answer j missing =>
      simp only [next] at h
      split at h
      · obtain rfl := Option.some.inj h
        exact .answer ‹_› rfl rfl
      · simp at h
  | finish j =>
      simp only [next] at h
      split at h
      · obtain rfl := Option.some.inj h
        exact .finish ‹_›
      · simp at h

/-! ### The counter -/

/-- The request has been counted. -/
def Request.counted (r : Request K) : Bool := r.progress ≠ .waiting

/-- The callback that is about to call `done()`. -/
def Request.isLast (r : Request K) : Bool :=
  match r.progress with
  | .last _ => true
  | _ => false

/-- What holds in every state of a call with at least one key, and fewer than `2 ^ 32`. -/
structure Inv (keys before : List K) (s : State K) : Prop where
  issued : s.requests.map Request.key = keys.take s.requests.length
  length_le : s.requests.length ≤ keys.length
  issuing : ∀ i, s.caller = .issuing i → i = s.requests.length
  all : (∀ i, s.caller ≠ .issuing i) → s.requests.length = keys.length
  count : s.count + s.requests.countP Request.counted = keys.length
  done : s.requests.countP Request.isLast + s.complete.toNat = if s.count = 0 then 1 else 0
  missing : s.missing.Perm (before ++ s.requests.filterMap Request.missingKey)
  returned : s.caller = .returned → s.complete = true

variable {keys before : List K} {s s' : State K}

theorem Inv.init (h₀ : 0 < keys.length) (h₁ : keys.length < 2 ^ 32) :
    Inv keys before (init keys before) := by
  have hcount : keys.length % 2 ^ 64 = keys.length := Nat.mod_eq_of_lt (by omega)
  constructor
  case issuing => exact fun i hi => (Caller.issuing.inj hi).symm
  case all => exact fun h => absurd rfl (h 0)
  case count => exact hcount
  case done =>
    have hne : keys.length % 2 ^ 64 ≠ 0 := by omega
    exact (if_neg hne).symm
  case missing => simp [RefreshBlocks.init]
  case returned => exact fun h => by simp [RefreshBlocks.init] at h
  all_goals simp [RefreshBlocks.init]

/-- A request that has moved on keeps its key. -/
theorem map_key_set {j : ℕ} {k : K} {p q : Progress} {l : List (Request K)}
    (h : l[j]? = some ⟨k, p⟩) : (l.set j ⟨k, q⟩).map Request.key = l.map Request.key := by
  have hkey : (l.map Request.key)[j]? = some k := by simp [h]
  obtain ⟨hj, hk⟩ := List.getElem?_eq_some_iff.1 hkey
  have hset := List.set_getElem_self hj
  rw [hk] at hset
  rw [List.map_set, hset]

/-- The requests without the one that moves on. -/
theorem exists_others {j : ℕ} {r : Request K} {l : List (Request K)} (h : l[j]? = some r) :
    ∃ others, l.Perm (r :: others) ∧ ∀ r', (l.set j r').Perm (r' :: others) := by
  obtain ⟨hj, rfl⟩ := List.getElem?_eq_some_iff.1 h
  exact ⟨l.eraseIdx j, (List.getElem_cons_eraseIdx_perm hj).symm, List.set_perm_cons_eraseIdx hj⟩

/-- **Every step keeps the invariant.** -/
theorem Inv.next (h : Inv keys before s) (h₁ : keys.length < 2 ^ 32) {x : Label}
    (hnext : next keys s x = some s') : Inv keys before s' := by
  cases step_of_next hnext with
  | @issue i k hcaller hk =>
      obtain rfl := h.issuing i hcaller
      have hlt : s.requests.length < keys.length := (List.getElem?_eq_some_iff.1 hk).1
      constructor
      case issued =>
        rw [List.map_append, h.issued, List.length_append, List.length_singleton, List.take_add_one, hk]
        rfl
      case length_le =>
        rw [List.length_append]
        exact hlt
      case issuing =>
        intro i hi
        rw [List.length_append, List.length_singleton, ← Caller.issuing.inj hi]
        exact Nat.mod_eq_of_lt (by omega)
      case all => exact fun hno => absurd rfl (hno _)
      case count => simpa [Request.counted] using h.count
      case done => simpa [Request.isLast] using h.done
      case missing =>
        rw [List.filterMap_append, List.filterMap_cons_none (missingKey_waiting k)]
        simpa using h.missing
      case returned => exact fun hret => by simp at hret
  | @wait i hcaller hk =>
      obtain rfl := h.issuing i hcaller
      have hge := List.getElem?_eq_none_iff.1 hk
      have hle := h.length_le
      exact { h with
        issuing := fun i hi => by simp at hi
        all := fun _ => le_antisymm hle hge
        returned := fun hret => by simp at hret }
  | ret hcaller hcomplete =>
      exact { h with
        issuing := fun i hi => by simp at hi
        all := fun _ => h.all fun i hi => by simp [hcaller] at hi
        returned := fun _ => hcomplete }
  | @answer j k missing count p hj hcount hp =>
      obtain ⟨others, hold, hnew⟩ := exists_others hj
      have hc := h.count
      rw [hold.countP_eq, List.countP_cons_of_neg (by simp [Request.counted])] at hc
      have hle : others.countP Request.counted ≤ others.length := List.countP_le_length
      have hlen : s.requests.length = others.length + 1 := hold.length_eq
      have hlen' := h.length_le
      have hpos : s.count ≠ 0 := by omega
      have hpred : count + 1 = s.count := by omega
      have hcounted : Request.counted (⟨k, p⟩ : Request K) = true := by
        rw [hp]
        split <;> rfl
      have hkey : Request.missingKey ⟨k, p⟩ = if missing then some k else none := by
        rw [hp]
        split <;> rfl
      constructor
      case issued =>
        rw [map_key_set hj, List.length_set]
        exact h.issued
      case length_le => rwa [List.length_set]
      case issuing => simpa using h.issuing
      case all => simpa using h.all
      case count =>
        rw [(hnew _).countP_eq, List.countP_cons_of_pos hcounted, ← hc, ← hpred]
        exact Nat.add_right_comm count _ 1
      case done =>
        have hd := h.done
        rw [hold.countP_eq, List.countP_cons_of_neg (by simp [Request.isLast]), if_neg hpos] at hd
        rw [(hnew _).countP_eq]
        split at hp
        case isTrue hz =>
          rw [hp, List.countP_cons_of_pos (by rfl), if_pos hz, Nat.add_right_comm, hd]
        case isFalse hz =>
          rw [hp, List.countP_cons_of_neg (by simp [Request.isLast]), if_neg hz, hd]
      case missing =>
        have hm := h.missing.trans ((hold.filterMap Request.missingKey).append_left before)
        refine List.Perm.trans ?_ (((hnew _).filterMap Request.missingKey).append_left before).symm
        rw [List.filterMap_cons_none rfl] at hm
        cases missing with
        | false => rwa [List.filterMap_cons_none (by simpa using hkey)]
        | true =>
            rw [List.filterMap_cons_some (by simpa using hkey)]
            exact (List.perm_append_singleton _ _).trans ((hm.cons k).trans List.perm_middle.symm)
      case returned => exact h.returned
  | @finish j k missing hj =>
      obtain ⟨others, hold, hnew⟩ := exists_others hj
      constructor
      case issued =>
        rw [map_key_set hj, List.length_set]
        exact h.issued
      case length_le => simpa using h.length_le
      case issuing => simpa using h.issuing
      case all => simpa using h.all
      case count =>
        have hc := h.count
        rw [hold.countP_eq, List.countP_cons_of_pos (by rfl)] at hc
        rw [(hnew _).countP_eq, List.countP_cons_of_pos (by rfl)]
        exact hc
      case done =>
        have hd := h.done
        rw [hold.countP_eq, List.countP_cons_of_pos (by rfl)] at hd
        rw [(hnew _).countP_eq, List.countP_cons_of_neg (by simp [Request.isLast]), Bool.toNat_true]
        by_cases hz : s.count = 0
        · rw [if_pos hz] at hd ⊢
          omega
        · rw [if_neg hz] at hd
          omega
      case missing =>
        have hsame : List.filterMap Request.missingKey (⟨k, .answered missing⟩ :: others) =
            List.filterMap Request.missingKey (⟨k, .last missing⟩ :: others) := rfl
        refine (h.missing.trans ((hold.filterMap Request.missingKey).append_left before)).trans ?_
        rw [← hsame]
        exact (((hnew _).filterMap Request.missingKey).append_left before).symm
      case returned => exact fun _ => rfl

/-! ### The end of a call -/

/-- The steps that a request still takes. -/
def Request.todo (r : Request K) : ℕ :=
  match r.progress with
  | .waiting => 2
  | .last _ => 1
  | .answered _ => 0

/-- The steps that the caller still takes after its loop. -/
def Caller.todo : Caller → ℕ
  | .issuing _ => 2
  | .waiting => 1
  | .returned => 0

/-- A bound for the steps to come. -/
def State.todo (keys : List K) (s : State K) : ℕ :=
  3 * (keys.length - s.requests.length) + s.caller.todo + (s.requests.map Request.todo).sum

theorem todo_lt (h : Inv keys before s) {x : Label} (hnext : RefreshBlocks.next keys s x = some s') :
    s'.todo keys < s.todo keys := by
  cases step_of_next hnext with
  | @issue i k hcaller hk =>
      obtain rfl := h.issuing i hcaller
      have hlt : s.requests.length < keys.length := (List.getElem?_eq_some_iff.1 hk).1
      simp only [State.todo, hcaller, Caller.todo, List.length_append, List.map_append, List.sum_append,
        List.length_singleton, List.map_singleton, List.sum_singleton, Request.todo]
      omega
  | @wait i hcaller hk =>
      simp only [State.todo, hcaller, Caller.todo]
      omega
  | ret hcaller hcomplete =>
      simp only [State.todo, hcaller, Caller.todo]
      omega
  | @answer j k missing count p hj hcount hp =>
      obtain ⟨others, hold, hnew⟩ := exists_others hj
      have hp' : Request.todo (⟨k, p⟩ : Request K) < 2 := by
        rw [hp]
        split
        · exact Nat.one_lt_two
        · exact Nat.two_pos
      simp only [State.todo, List.length_set, ((hnew _).map Request.todo).sum_eq,
        (hold.map Request.todo).sum_eq, List.map_cons, List.sum_cons]
      have hw : Request.todo (⟨k, .waiting⟩ : Request K) = 2 := rfl
      omega
  | @finish j k missing hj =>
      obtain ⟨others, hold, hnew⟩ := exists_others hj
      simp only [State.todo, List.length_set, ((hnew _).map Request.todo).sum_eq,
        (hold.map Request.todo).sum_eq, List.map_cons, List.sum_cons, Request.todo]
      omega

/-- The counter is at zero with `done()` called exactly if every key has been answered. -/
theorem Inv.complete_iff (h : Inv keys before s) (h₀ : 0 < keys.length) :
    s.complete = true ↔ s.AllAnswered keys := by
  constructor
  · intro hcomplete i hi
    have hd := h.done
    rw [hcomplete, Bool.toNat_true] at hd
    have hz : s.count = 0 := by
      by_contra hne
      rw [if_neg hne] at hd
      omega
    rw [if_pos hz] at hd
    have hc := h.count
    have hle := h.length_le
    have hcounted : s.requests.countP Request.counted = s.requests.length := by
      have := List.countP_le_length (p := Request.counted) (l := s.requests)
      omega
    have hlt : i < s.requests.length := by omega
    have hmem : s.requests[i] ∈ s.requests := List.getElem_mem hlt
    have hno : Request.isLast s.requests[i] = false := by
      have hzero : s.requests.countP Request.isLast = 0 := by omega
      simpa using List.countP_eq_zero.1 hzero _ hmem
    have hyes := List.countP_eq_length.1 hcounted _ hmem
    rcases hr : s.requests[i] with ⟨k, p⟩
    rw [hr] at hno hyes
    cases p with
    | waiting => simp [Request.counted] at hyes
    | last missing => simp [Request.isLast] at hno
    | answered missing => exact ⟨k, missing, by rw [List.getElem?_eq_getElem hlt, hr]⟩
  · intro hall
    have hanswered : ∀ r ∈ s.requests, ∃ missing, r.progress = .answered missing := by
      intro r hr
      obtain ⟨i, hi, rfl⟩ := List.mem_iff_getElem.1 hr
      obtain ⟨k, missing, hk⟩ := hall i (hi.trans_le h.length_le)
      obtain ⟨_, hk⟩ := List.getElem?_eq_some_iff.1 hk
      exact ⟨missing, by rw [hk]⟩
    have hlen : s.requests.length = keys.length := by
      refine le_antisymm h.length_le ?_
      obtain ⟨k, missing, hk⟩ := hall (keys.length - 1) (by omega)
      have := (List.getElem?_eq_some_iff.1 hk).1
      omega
    have hcounted : s.requests.countP Request.counted = s.requests.length := by
      refine List.countP_eq_length.2 fun r hr => ?_
      obtain ⟨missing, hm⟩ := hanswered r hr
      simp [Request.counted, hm]
    have hzero : s.requests.countP Request.isLast = 0 := by
      refine List.countP_eq_zero.2 fun r hr => ?_
      obtain ⟨missing, hm⟩ := hanswered r hr
      simp [Request.isLast, hm]
    have hc := h.count
    have hd := h.done
    rw [if_pos (by omega), hzero] at hd
    cases hcomplete : s.complete with
    | true => rfl
    | false =>
        rw [hcomplete] at hd
        simp at hd

/-- Where no step is left the call has returned. -/
theorem Inv.returned_of_stuck (h : Inv keys before s) (h₀ : 0 < keys.length)
    (hstuck : ∀ x, RefreshBlocks.next keys s x = none) : s.caller = .returned := by
  have hcaller := hstuck .caller
  have hissued : ∀ i, s.caller ≠ .issuing i := by
    intro i hi
    simp only [RefreshBlocks.next, hi] at hcaller
    split at hcaller <;> simp at hcaller
  have hall : s.AllAnswered keys := by
    intro i hi
    have hlt : i < s.requests.length := by rwa [h.all hissued]
    rcases hr : s.requests[i] with ⟨k, p⟩
    have hget : s.requests[i]? = some ⟨k, p⟩ := by rw [List.getElem?_eq_getElem hlt, hr]
    cases p with
    | waiting =>
        have := hstuck (.answer i false)
        simp [RefreshBlocks.next, hget] at this
    | last missing =>
        have := hstuck (.finish i)
        simp [RefreshBlocks.next, hget] at this
    | answered missing => exact ⟨k, missing, hget⟩
  have hcomplete := (h.complete_iff h₀).2 hall
  cases hc : s.caller with
  | issuing i => exact absurd hc (hissued i)
  | waiting =>
      simp only [RefreshBlocks.next, hc, hcomplete, if_true] at hcaller
      simp at hcaller
  | returned => rfl

theorem Inv.of_reach {P : State K → Label → Prop} (h₀ : 0 < keys.length) (h₁ : keys.length < 2 ^ 32)
    (h : Reach (RefreshBlocks.next keys) P (RefreshBlocks.init keys before) s) : Inv keys before s :=
  h.inv (Inv.init h₀ h₁) fun _ _ _ hi _ hnext => hi.next h₁ hnext

/-- The loop over `2 ^ 32` keys or more. -/
theorem not_ends_issuing (h : 2 ^ 32 ≤ keys.length) :
    ¬ Ends (RefreshBlocks.next keys) (fun _ _ => True) (RefreshBlocks.init keys before) := by
  refine not_ends_of_play (p := fun _ _ => true) (fun _ _ _ => trivial)
    (S := fun s => ∃ i < 2 ^ 32, s.caller = .issuing i) ?_ ⟨0, by norm_num, rfl⟩
  rintro s ⟨i, hi, hcaller⟩
  have hlt : i < keys.length := hi.trans_le h
  have hnext : RefreshBlocks.next keys s .caller = some { s with
      caller := .issuing ((i + 1) % 2 ^ 32)
      requests := s.requests ++ [⟨keys[i], .waiting⟩] } := by
    simp only [RefreshBlocks.next, hcaller, List.getElem?_eq_getElem hlt]
  exact ⟨.caller, [], _, play_cons rfl hnext [], (i + 1) % 2 ^ 32, Nat.mod_lt _ (by norm_num), rfl⟩

theorem Inv.complete_of_stuck (h : Inv keys before s) (h₀ : 0 < keys.length)
    (hstuck : ∀ x, RefreshBlocks.next keys s x = none) : s.complete = true :=
  h.returned (h.returned_of_stuck h₀ hstuck)

/-- **When a refresh of several blocks completes.**  In every order of the requests and answers the
completion is complete exactly when all keys have been answered, `o_missing` then has the missing ones
and the call returns, exactly for a list of at least one key and fewer than `2 ^ 32`, and an `o_missing`
that is empty at the call. -/
theorem completes_iff (keys before : List K) :
    Completes keys before ↔ 0 < keys.length ∧ keys.length < 2 ^ 32 ∧ before = [] := by
  constructor
  · intro h
    have h₀ : 0 < keys.length := by
      by_contra hempty
      have hall : (RefreshBlocks.init keys before).AllAnswered keys := fun i hi => absurd hi (by omega)
      have hcomplete := (h.complete_iff _ .init).2 hall
      simp [RefreshBlocks.init] at hcomplete
    have h₁ : keys.length < 2 ^ 32 := by
      by_contra hge
      exact not_ends_issuing (not_lt.1 hge) h.ends
    refine ⟨h₀, h₁, ?_⟩
    -- At the end of a run `o_missing` has what it had before as well.
    obtain ⟨s, hs, hstuck⟩ := h.ends.exists_stuck .init
    have hinv := Inv.of_reach h₀ h₁ hs
    have hperm := h.missing s hs (hinv.complete_of_stuck h₀ fun x => hstuck x trivial)
    have hlen := (hperm.symm.trans hinv.missing).length_eq
    rw [List.length_append] at hlen
    exact List.length_eq_zero_iff.1 (by omega)
  · rintro ⟨h₀, h₁, rfl⟩
    exact {
      complete_iff := fun s hs => (Inv.of_reach h₀ h₁ hs).complete_iff h₀
      missing := fun s hs _ => (Inv.of_reach h₀ h₁ hs).missing
      ends := ends_of_lt (I := Inv keys []) (m := State.todo keys)
        (fun _ _ _ hi _ hnext => ⟨hi.next h₁ hnext, todo_lt hi hnext⟩) (Inv.init h₀ h₁)
      returned := fun s hs hstuck => (Inv.of_reach h₀ h₁ hs).returned_of_stuck h₀ hstuck }

/-! ### No keys -/

/-- What holds in every state of a call without keys. -/
structure Idle (s : State K) : Prop where
  requests : s.requests = []
  complete : s.complete = false
  caller : s.caller ≠ .returned

theorem Idle.next (h : Idle s) {x : Label} (hnext : RefreshBlocks.next [] s x = some s') : Idle s' := by
  cases step_of_next hnext with
  | issue hcaller hk => simp at hk
  | wait => exact ⟨h.requests, h.complete, by simp⟩
  | ret hcaller hcomplete => simp [h.complete] at hcomplete
  | answer hj => simp [h.requests] at hj
  | finish hj => simp [h.requests] at hj

/-- Nobody calls `done()` when there are no keys. -/
theorem Idle.of_reach {P : State K → Label → Prop}
    (h : Reach (RefreshBlocks.next []) P (RefreshBlocks.init [] before) s) : Idle s :=
  h.inv ⟨rfl, rfl, by simp [RefreshBlocks.init]⟩ fun _ _ _ hi _ hnext => hi.next hnext

/-- The caller waits for ever for the answers to no requests, as `rb_refresh` of an indirect node without
references does. -/
theorem not_completes_no_keys : ¬ Completes ([] : List UTFS.BlockRef) [] ∧
    (∀ s, Reached ([] : List UTFS.BlockRef) [] s → s.caller ≠ .returned) ∧
    ∃ s, Reached ([] : List UTFS.BlockRef) [] s ∧ s.caller = .waiting ∧
      ∀ x, RefreshBlocks.next [] s x = none := by
  refine ⟨fun h => ?_, fun s hs => (Idle.of_reach hs).caller, ?_⟩
  · have hcomplete := (h.complete_iff _ .init).2 fun i hi => absurd hi (Nat.not_lt_zero i)
    simp [RefreshBlocks.init] at hcomplete
  · refine ⟨_, .step .caller .init trivial rfl, rfl, fun x => ?_⟩
    cases x <;> rfl

end RefreshBlocks

end Utopfs
