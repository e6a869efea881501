/-
**The books of a block store over several children.**

Most of what `Utopfs/VBlockStore.lean` says about a request does not depend on which queue it is in,
which thread holds it or who is being cancelled.  This module abstracts a state to the books kept on
each request: for each child, whether it still owes an answer; what has been answered, in order; what
the client is about to be told and has been told; whether the request is about to be removed and has
been.  A child owes an answer from the moment the request is made for it until the completion routine
is entered for it, be it by the child or by a cancellation.

Every step of the store either leaves the books alone or makes one of five entries.

Main definitions:

* `VBS.State.owes`, `VBS.State.responses`, `VBS.Tally`, `VBS.State.tally` — the books;
* `VBS.Entry` — the entries: a new request, its insertion into `m_requests`, an answer, an upcall and
  a removal;
* `VBS.TallyOk` — the books balance.

Main results:

* `VBS.respond_closing` — what the completion routines do next;
* `VBS.tally_next` — a step of the store makes an entry.

`Utopfs/VBlockStoreBalance.lean` shows that the entries keep the books balanced.
-/

import Mathlib.Data.List.Count
import Mathlib.Tactic
import Utopfs.VBlockStore

set_option relaxedAutoImplicit false
set_option autoImplicit false

namespace Utopfs

namespace VBS

open Interleave

variable {n : ℕ}

/-! ### The books -/

/-- The answers that an action stands for: those of the children that the request is being enqueued
on, or whose queued request has been taken away. -/
def owing (r : ℕ) (c : Fin n) : Act n → ℕ
  | .enqueue r' c' => if r' = r ∧ c' = c then 1 else 0
  | .canceled r' c' => if r' = r ∧ c' = c then 1 else 0
  | .cancel _ _ _ found => found.count (c, r)
  | _ => 0

/-- The insertion of a request into `m_requests`. -/
def inserting (r : ℕ) : Act n → ℕ
  | .insert r' _ => if r' = r then 1 else 0
  | _ => 0

/-- The children that a request is to be enqueued on once it is in `m_requests`. -/
def unsending (r : ℕ) (c : Fin n) : Act n → ℕ
  | .insert r' cs => if r' = r then cs.count c else 0
  | _ => 0

/-- The removal of a request. -/
def removing (r : ℕ) (c : Fin n) : Act n → ℕ
  | .done r' c' => if r' = r ∧ c' = c then 1 else 0
  | _ => 0

/-- Whether an answer is a success. -/
def Answer.isGood : Answer → Bool
  | .good _ => true
  | .bad _ => false

/-- The upcall to the client. -/
def telling (r : ℕ) (c : Fin n) (good : Bool) : Act n → ℕ
  | .upcall r' c' a => if r' = r ∧ c' = c ∧ a.isGood = good then 1 else 0
  | _ => 0

/-- The requests in the queues of a child. -/
def Child.queued (ch : Child) : List ℕ := ch.refreqs ++ ch.shereqs ++ ch.getreqs ++ ch.putreqs

/-- The answers that the child `c` owes to the request `r`. -/
def State.owes (s : State n) (r : ℕ) (c : Fin n) : ℕ :=
  weight (owing r c) s.threads + (s.child c).queued.count r + (s.child c).inflight.count r

/-- An answer in the history of a request. -/
def response (r : ℕ) : Event n → Option (Fin n × Bool)
  | .answered r' c a => if r' = r then some (c, a.isGood) else none
  | .canceled r' c => if r' = r then some (c, false) else none
  | _ => none

/-- An upcall in the history of a request. -/
def told (r : ℕ) : Event n → Option (Fin n × Bool)
  | .upcall r' c a => if r' = r then some (c, a.isGood) else none
  | _ => none

/-- A removal in the history of a request. -/
def gone (r : ℕ) : Event n → Option (Fin n)
  | .removed r' c => if r' = r then some c else none
  | _ => none

/-- The answers to a request, in their order: the child, and whether it succeeded. -/
def State.responses (s : State n) (r : ℕ) : List (Fin n × Bool) := s.log.filterMap (response r)

/-- What the client has been told about a request: the child whose completion did it, and whether it
was a success. -/
def State.upcalls (s : State n) (r : ℕ) : List (Fin n × Bool) := s.log.filterMap (told r)

/-- The removals of a request: the children whose completions did it. -/
def State.removals (s : State n) (r : ℕ) : List (Fin n) := s.log.filterMap (gone r)

/-- How a request comes about: a client makes it for all children, a child needs a key, or a block is
put for the children that needed it. -/
inductive Made (q : Request n) : Prop
  | client (hcmpl : q.cmpl = true) (hissued : q.issued = n) (htargets : q.targets = List.finRange n)
  | needyGet (key : OctetSeq) (c : Fin n) (hkind : q.kind = .get key) (hcmpl : q.cmpl = false)
      (hissued : q.issued = 1) (htargets : q.targets = others c) (hne : others c ≠ [])
  | needyPut (key blk : OctetSeq) (hkind : q.kind = .put key blk) (hcmpl : q.cmpl = false)
      (hissued : q.issued = q.targets.length)

/-- The books. -/
@[ext] structure Tally (n : ℕ) where
  reqs : ℕ → Request n
  nreq : ℕ
  requests : Finset ℕ
  owes : ℕ → Fin n → ℕ
  inserting : ℕ → ℕ
  unsent : ℕ → Fin n → ℕ
  removing : ℕ → Fin n → ℕ
  telling : ℕ → Fin n → Bool → ℕ
  responses : ℕ → List (Fin n × Bool)
  upcalls : ℕ → List (Fin n × Bool)
  removals : ℕ → List (Fin n)

/-- The books of a state. -/
def State.tally (s : State n) : Tally n where
  reqs := s.reqs
  nreq := s.nreq
  requests := s.requests
  owes := s.owes
  inserting := fun r => weight (inserting r) s.threads
  unsent := fun r c => weight (unsending r c) s.threads
  removing := fun r c => weight (removing r c) s.threads
  telling := fun r c b => weight (telling r c b) s.threads
  responses := s.responses
  upcalls := s.upcalls
  removals := s.removals

/-- The entry of a new request, with nothing answered yet. -/
structure NewReq (t t' : Tally n) (q : Request n) : Prop where
  made : Made q
  succeeded : q.succeeded = false
  outstanding : q.outstanding = q.issued
  eq : t' = { t with
    reqs := Function.update t.reqs t.nreq q
    nreq := t.nreq + 1
    inserting := fun r => t.inserting r + if t.nreq = r then 1 else 0
    unsent := fun r c => t.unsent r c + if t.nreq = r then q.targets.count c else 0 }

/-- The entry of an insertion into `m_requests`, after which the request is enqueued on the children
`cs`. -/
structure Inserts (t t' : Tally n) (r : ℕ) (cs : List (Fin n)) : Prop where
  eq : t' = { t with
    requests := insert r t.requests
    owes := fun r' c => t.owes r' c + if r = r' then cs.count c else 0
    inserting := t'.inserting
    unsent := t'.unsent }
  inserting : ∀ r', t.inserting r' = t'.inserting r' + if r = r' then 1 else 0
  unsent : ∀ r' c, t.unsent r' c = t'.unsent r' c + if r = r' then cs.count c else 0
  last : t'.inserting r = 0 → ∀ c, t'.unsent r c = 0

/-- The entry of an answer, which enters the completion routine. -/
structure Responds (t t' : Tally n) (r : ℕ) (c : Fin n) (a : Answer) : Prop where
  eq : t' = { t with
    reqs := Function.update t.reqs r (respond r c (t.reqs r) a).1
    owes := t'.owes
    removing := fun r' c' =>
      t.removing r' c' + weigh (VBS.removing r' c') (respond r c (t.reqs r) a).2
    telling := fun r' c' b =>
      t.telling r' c' b + weigh (VBS.telling r' c' b) (respond r c (t.reqs r) a).2
    responses := fun r' => t.responses r' ++ if r = r' then [(c, a.isGood)] else [] }
  owes : ∀ r' c', t.owes r' c' = t'.owes r' c' + if r = r' ∧ c = c' then 1 else 0

/-- The entry of an upcall. -/
structure Tells (t t' : Tally n) (r : ℕ) (c : Fin n) (b : Bool) : Prop where
  eq : t' = { t with
    telling := t'.telling
    upcalls := fun r' => t.upcalls r' ++ if r = r' then [(c, b)] else [] }
  telling : ∀ r' c' b', t.telling r' c' b' =
    t'.telling r' c' b' + if r = r' ∧ c = c' ∧ b = b' then 1 else 0

/-- The entry of a removal. -/
structure Removes (t t' : Tally n) (r : ℕ) (c : Fin n) : Prop where
  eq : t' = { t with
    requests := t.requests.erase r
    removing := t'.removing
    removals := fun r' => t.removals r' ++ if r = r' then [c] else [] }
  removing : ∀ r' c', t.removing r' c' = t'.removing r' c' + if r = r' ∧ c = c' then 1 else 0

/-- **The entries that a step can make.** -/
inductive Entry (t t' : Tally n) : Prop
  | quiet (h : t' = t)
  | new (q : Request n) (h : NewReq t t' q)
  | insert (r : ℕ) (cs : List (Fin n)) (h : Inserts t t' r cs)
  | respond (r : ℕ) (c : Fin n) (a : Answer) (h : Responds t t' r c a)
  | tell (r : ℕ) (c : Fin n) (b : Bool) (h : Tells t t' r c b)
  | remove (r : ℕ) (c : Fin n) (h : Removes t t' r c)

/-- **The books balance.**  Every child that a request is made for owes an answer or has given it;
the count of the request is what it was made with less the answers; the request is removed in the
completion routine that brings the count to zero; and it is in `m_requests` from its insertion until
then. -/
structure TallyOk (t : Tally n) : Prop where
  fresh : ∀ r, t.nreq ≤ r →
    (t.reqs r).targets = [] ∧ (t.reqs r).issued = 0 ∧ t.inserting r = 0
  made : ∀ r < t.nreq, Made (t.reqs r)
  once : ∀ r, t.inserting r ≤ 1
  unsent : ∀ r c, t.unsent r c = t.inserting r * (t.reqs r).targets.count c
  owes : ∀ r c, t.unsent r c + t.owes r c + ((t.responses r).map Prod.fst).count c =
    (t.reqs r).targets.count c
  outstanding : ∀ r, (t.reqs r).outstanding + (t.responses r).length = (t.reqs r).issued
  succeeded : ∀ r, (t.reqs r).succeeded = (t.responses r).any Prod.snd
  removed : ∀ r c, (t.removals r).count c + t.removing r c =
    if 0 < (t.reqs r).issued ∧
      ((t.responses r).map Prod.fst)[(t.reqs r).issued.toNat - 1]? = some c then 1 else 0
  member : ∀ r, r ∈ t.requests ↔ r < t.nreq ∧ t.inserting r = 0 ∧ t.removals r = []

/-! ### What the completion routines do to the books -/

/-- What a completion routine may do outside the mutex: upcalls, then what concerns other requests,
with a put for the needy children if there are any, then the removal if this was the last answer. -/
def Closing (r : ℕ) (c : Fin n) (last : Bool) (needy : List (Fin n)) (k : List (Act n)) : Prop :=
  ∃ up mid, k = up ++ mid ++ (if last then [.done r c] else []) ∧
    (∀ x ∈ up, ∃ a, x = .upcall r c a) ∧
    ∀ x ∈ mid, (∃ key, x = .cancel c key (List.finRange n) []) ∨
      (∃ key blk, x = .needyPut key blk needy ∧ needy ≠ []) ∨ ∃ key, x = .neededKey c key

/-- Routines that only tell the client. -/
theorem closing_plain (r : ℕ) (c : Fin n) (last b : Bool) (needy : List (Fin n)) (a : Answer) :
    Closing r c last needy ((if b then [.upcall r c a] else []) ++ if last then [.done r c] else []) := by
  refine ⟨if b then [.upcall r c a] else [], [], by simp, fun x hx => ?_, by simp⟩
  split at hx
  · exact ⟨a, by simpa using hx⟩
  · simp at hx

/-- Routines that tell the client with the last answer. -/
theorem closing_last (r : ℕ) (c : Fin n) (last : Bool) (needy : List (Fin n)) (a : Answer) :
    Closing r c last needy (if last then [.upcall r c a, .done r c] else []) := by
  have h := closing_plain r c last last needy a
  cases last <;> exact h

/-- Routines that also note a needed key. -/
theorem closing_needed (r : ℕ) (c : Fin n) (last b b' : Bool) (needy : List (Fin n)) (a : Answer)
    (key : OctetSeq) : Closing r c last needy
      ((if b then [.upcall r c a] else []) ++ (if b' then [.neededKey c key] else []) ++
      if last then [.done r c] else []) := by
  refine ⟨if b then [.upcall r c a] else [], if b' then [.neededKey c key] else [], rfl,
    fun x hx => ?_, fun x hx => ?_⟩
  · split at hx
    · exact ⟨a, by simpa using hx⟩
    · simp at hx
  · split at hx
    · exact .inr (.inr ⟨key, by simpa using hx⟩)
    · simp at hx

/-- The success of a get: the cancellation comes with the upcall, before the put for the needy
children. -/
theorem closing_got (r : ℕ) (c : Fin n) (last b : Bool) (key blk : OctetSeq) (needy : List (Fin n)) :
    Closing r c last needy ((if b then [.upcall r c (.good blk), .cancel c key (List.finRange n) []]
      else []) ++ (if needy = [] then [] else [.needyPut key blk needy]) ++
      if last then [.done r c] else []) := by
  refine ⟨if b then [.upcall r c (.good blk)] else [],
    (if b then [.cancel c key (List.finRange n) []] else []) ++
      if needy = [] then [] else [.needyPut key blk needy], ?_, fun x hx => ?_, fun x hx => ?_⟩
  · cases b <;> simp
  · split at hx
    · exact ⟨_, by simpa using hx⟩
    · simp at hx
  · rcases List.mem_append.1 hx with hx | hx
    · split at hx
      · exact .inl ⟨key, by simpa using hx⟩
      · simp at hx
    · split at hx
      · simp at hx
      · rename_i hne
        exact .inr (.inl ⟨key, blk, by simpa using hx, hne⟩)

/-- **What the completion routines do outside the mutex.** -/
theorem respond_closing (r : ℕ) (c : Fin n) (q : Request n) (a : Answer) :
    Closing r c (q.outstanding - 1 = 0) (if q.succeeded then [] else q.needy)
      (respond r c q a).2 := by
  generalize hneedy : (if q.succeeded then [] else q.needy) = needy
  unfold respond
  split
  case h_1 =>
    rw [← hneedy]
    exact closing_got ..
  case h_2 => exact closing_needed ..
  case h_5 => simpa [rsComplete] using closing_last r c (q.outstanding - 1 = 0) _ (.good [])
  case h_8 => exact closing_needed r c _ _ true ..
  case h_13 => simpa [het] using closing_last r c (q.outstanding - 1 = 0) _ (.good [])
  case h_14 =>
    simpa [het] using closing_last r c (q.outstanding - 1 = 0) _
      (if q.succeeded then .good [] else .bad (.notFoundError "no starting seed found"))
  all_goals exact closing_plain ..

/-- The actions of a completion routine, one by one. -/
theorem mem_respond {r : ℕ} {c : Fin n} {q : Request n} {a : Answer} {b : Act n}
    (h : b ∈ (respond r c q a).2) : (∃ a', b = .upcall r c a') ∨
      (∃ key, b = .cancel c key (List.finRange n) []) ∨ (∃ key blk, b = .needyPut key blk q.needy) ∨
      (∃ key, b = .neededKey c key) ∨ b = .done r c := by
  obtain ⟨up, mid, hk, hup, hmid⟩ := respond_closing r c q a
  rw [hk, List.mem_append, List.mem_append] at h
  rcases h with (h | h) | h
  · exact .inl (hup b h)
  · rcases hmid b h with hb | ⟨key, blk, rfl, hne⟩ | hb
    · exact .inr (.inl hb)
    · refine .inr (.inr (.inl ⟨key, blk, ?_⟩))
      split at hne
      · exact absurd rfl hne
      · rename_i hs
        rw [if_neg hs]
    · exact .inr (.inr (.inr (.inl hb)))
  · split at h
    · exact .inr (.inr (.inr (.inr (by simpa using h))))
    · simp at h

/-- The completion routines make no new debts and no new requests. -/
theorem Closing.weigh_eq_zero {r : ℕ} {c : Fin n} {last : Bool} {needy : List (Fin n)}
    {k : List (Act n)} (h : Closing r c last needy k) {w : Act n → ℕ} (hup : ∀ a, w (.upcall r c a) = 0)
    (hcancel : ∀ key left, w (.cancel c key left []) = 0)
    (hput : ∀ key blk needy, w (.needyPut key blk needy) = 0)
    (hkey : ∀ key, w (.neededKey c key) = 0) :
    weigh w k = if last then w (.done r c) else 0 := by
  obtain ⟨up, mid, rfl, hups, hmids⟩ := h
  have h₁ : weigh w up = 0 := Interleave.weigh_eq_zero fun x hx => by
    obtain ⟨a, rfl⟩ := hups x hx
    exact hup a
  have h₂ : weigh w mid = 0 := Interleave.weigh_eq_zero fun x hx => by
    rcases hmids x hx with ⟨key, rfl⟩ | ⟨key, blk, rfl, -⟩ | ⟨key, rfl⟩
    · exact hcancel ..
    · exact hput ..
    · exact hkey key
  rw [weigh_append, weigh_append, h₁, h₂]
  split <;> simp

theorem weigh_owing_respond (r : ℕ) (c : Fin n) (q : Request n) (a : Answer) (r' : ℕ) (c' : Fin n) :
    weigh (owing r' c') (respond r c q a).2 = 0 := by
  have h := (respond_closing r c q a).weigh_eq_zero (w := owing r' c') (by simp [owing])
    (by simp [owing]) (by simp [owing]) (by simp [owing])
  rw [h]
  simp [owing]

theorem weigh_inserting_respond (r : ℕ) (c : Fin n) (q : Request n) (a : Answer) (r' : ℕ) :
    weigh (inserting r') (respond r c q a).2 = 0 := by
  have h := (respond_closing r c q a).weigh_eq_zero (w := inserting r') (by simp [inserting])
    (by simp [inserting]) (by simp [inserting]) (by simp [inserting])
  rw [h]
  simp [inserting]

theorem weigh_unsending_respond (r : ℕ) (c : Fin n) (q : Request n) (a : Answer) (r' : ℕ)
    (c' : Fin n) : weigh (unsending r' c') (respond r c q a).2 = 0 := by
  have h := (respond_closing r c q a).weigh_eq_zero (w := unsending r' c') (by simp [unsending])
    (by simp [unsending]) (by simp [unsending]) (by simp [unsending])
  rw [h]
  simp [unsending]

/-- The routine that brings the count to zero removes the request. -/
theorem weigh_removing_respond (r : ℕ) (c : Fin n) (q : Request n) (a : Answer) (r' : ℕ)
    (c' : Fin n) : weigh (removing r' c') (respond r c q a).2 =
      if q.outstanding - 1 = 0 ∧ r = r' ∧ c = c' then 1 else 0 := by
  have h := (respond_closing r c q a).weigh_eq_zero (w := removing r' c') (by simp [removing])
    (by simp [removing]) (by simp [removing]) (by simp [removing])
  rw [h]
  by_cases hz : q.outstanding - 1 = 0 <;> simp [removing, hz]

/-- The fields that the routines leave alone or change in one way only. -/
theorem respond_fields (r : ℕ) (c : Fin n) (q : Request n) (a : Answer) :
    (respond r c q a).1.kind = q.kind ∧ (respond r c q a).1.cmpl = q.cmpl ∧
      (respond r c q a).1.issued = q.issued ∧ (respond r c q a).1.targets = q.targets ∧
      (respond r c q a).1.outstanding = q.outstanding - 1 ∧
      (respond r c q a).1.succeeded = (q.succeeded || a.isGood) := by
  unfold respond
  split <;> rename_i hk <;>
    simp [bgComplete, bgError, bpComplete, bpError, rsComplete, rsError, rbComplete, rbMissing,
      rfComplete, rfError, heiComplete, heiError, het, complete, error, Request.complete,
      Request.error, Answer.isGood, hk]

/-- The needy children are handed over with the first success. -/
theorem respond_needy (r : ℕ) (c : Fin n) (q : Request n) (a : Answer) :
    (respond r c q a).1.needy = q.needy ∨ (respond r c q a).1.needy = [] := by
  unfold respond
  split
  case h_1 =>
    cases hs : q.succeeded with
    | true => exact .inl (by simp [bgComplete, hs])
    | false => exact .inr (by simp [bgComplete, hs])
  all_goals exact .inl rfl

/-- A request is answered as what it was made. -/
theorem Made.respond {q : Request n} (h : Made q) (r : ℕ) (c : Fin n) (a : Answer) :
    Made (respond r c q a).1 := by
  obtain ⟨hkind, hcmpl, hissued, htargets, -, -⟩ := respond_fields r c q a
  cases h with
  | client h₁ h₂ h₃ => exact .client (by rw [hcmpl, h₁]) (by rw [hissued, h₂]) (by rw [htargets, h₃])
  | needyGet key c' h₁ h₂ h₃ h₄ hne =>
      exact .needyGet key c' (by rw [hkind, h₁]) (by rw [hcmpl, h₂]) (by rw [hissued, h₃])
        (by rw [htargets, h₄]) hne
  | needyPut key blk h₁ h₂ h₃ =>
      exact .needyPut key blk (by rw [hkind, h₁]) (by rw [hcmpl, h₂]) (by rw [hissued, htargets, h₃])

/-! ### Every step makes an entry -/

/-- An event that is no part of the books. -/
theorem enqueued_log (s : State n) (r : ℕ) (c : Fin n) (r' : ℕ) :
    (s.log ++ [Event.enqueued r c]).filterMap (response r') = s.log.filterMap (response r') ∧
      (s.log ++ [Event.enqueued r c]).filterMap (told r') = s.log.filterMap (told r') ∧
      (s.log ++ [Event.enqueued r c]).filterMap (gone r') = s.log.filterMap (gone r') := by
  simp [response, told, gone]

/-- Taking the next request from the queues. -/
theorem pick_request {ch ch' : Child} {r : ℕ} (h : ch.pick = some (.request r, ch')) :
    ch'.inflight = ch.inflight ∧ ch'.neededkeys = ch.neededkeys ∧
      ∀ r', ch.queued.count r' = ch'.queued.count r' + if r = r' then 1 else 0 := by
  unfold Child.pick at h
  split at h
  · simp only [Option.some.injEq, Prod.mk.injEq, Work.request.injEq] at h
    obtain ⟨rfl, rfl⟩ := h
    refine ⟨rfl, rfl, fun r' => ?_⟩
    simp only [Child.queued, *, List.count_append, List.count_cons, beq_iff_eq]
    omega
  split at h
  · simp only [Option.some.injEq, Prod.mk.injEq, Work.request.injEq] at h
    obtain ⟨rfl, rfl⟩ := h
    refine ⟨rfl, rfl, fun r' => ?_⟩
    simp only [Child.queued, *, List.count_append, List.count_cons, beq_iff_eq]
    omega
  split at h
  · simp only [Option.some.injEq, Prod.mk.injEq, Work.request.injEq] at h
    obtain ⟨rfl, rfl⟩ := h
    refine ⟨rfl, rfl, fun r' => ?_⟩
    simp only [Child.queued, *, List.count_append, List.count_cons, beq_iff_eq]
    omega
  split at h
  · simp only [Option.some.injEq, Prod.mk.injEq, Work.request.injEq] at h
    obtain ⟨rfl, rfl⟩ := h
    refine ⟨rfl, rfl, fun r' => ?_⟩
    simp only [Child.queued, *, List.count_append, List.count_cons, beq_iff_eq]
    omega
  split at h <;> simp at h

theorem length_pick {ch ch' : Child} {r : ℕ} (h : ch.pick = some (.request r, ch')) :
    ch.queued.length = ch'.queued.length + 1 := by
  have hperm : ch.queued.Perm (r :: ch'.queued) := List.perm_iff_count.2 fun r' => by
    rw [(pick_request h).2.2 r', List.count_cons]
    simp only [beq_iff_eq]
  exact hperm.length_eq

/-- Taking the next needed key. -/
theorem pick_needed {ch ch' : Child} {key : OctetSeq} (h : ch.pick = some (.needed key, ch')) :
    ch'.inflight = ch.inflight ∧ ch.neededkeys = key :: ch'.neededkeys ∧ ch'.queued = ch.queued := by
  unfold Child.pick at h
  split at h
  · simp at h
  split at h
  · simp at h
  split at h
  · simp at h
  split at h
  · simp at h
  split at h
  · simp only [Option.some.injEq, Prod.mk.injEq, Work.needed.injEq] at h
    obtain ⟨rfl, rfl⟩ := h
    exact ⟨rfl, by assumption, rfl⟩
  · simp at h

/-- A change of one child that keeps what it has of each request. -/
theorem tally_setChild (s : State n) {c : Fin n} {ch : Child}
    (h : ∀ r, ch.queued.count r + ch.inflight.count r =
      (s.child c).queued.count r + (s.child c).inflight.count r) :
    (s.setChild c ch).tally = s.tally := by
  refine Tally.ext rfl rfl rfl ?_ rfl rfl rfl rfl rfl rfl rfl
  funext r c'
  by_cases hc : c' = c
  · subst hc
    have := h r
    simp only [State.tally, State.owes, State.setChild, Function.update_self]
    omega
  · simp [State.tally, State.owes, State.setChild, Function.update_of_ne hc]

/-- A new request with the thread that inserts it. -/
theorem entry_issue (s : State n) {q : Request n} (hmade : Made q) (hsucc : q.succeeded = false)
    (hout : q.outstanding = q.issued) :
    NewReq s.tally ((s.alloc q).spawn [.insert s.nreq q.targets]).tally q := by
  refine ⟨hmade, hsucc, hout, Tally.ext rfl rfl rfl ?_ ?_ ?_ ?_ ?_ rfl rfl rfl⟩
  · funext r c
    simp [State.tally, State.owes, State.alloc, State.spawn, owing]
  · funext r
    simp [State.tally, State.alloc, State.spawn, inserting]
    rfl
  · funext r c
    simp [State.tally, State.alloc, State.spawn, unsending]
    rfl
  · funext r c
    simp [State.tally, State.alloc, State.spawn, removing]
  · funext r c b
    simp [State.tally, State.alloc, State.spawn, telling]

/-- A request that a child takes from its queue stays with the child. -/
theorem tally_drain_request (s : State n) {c : Fin n} {r : ℕ} {ch : Child}
    (hp : (s.child c).pick = some (.request r, ch)) :
    (s.setChild c { ch with inflight := ch.inflight ++ [r] }).tally = s.tally := by
  obtain ⟨hin, -, hq⟩ := pick_request hp
  refine tally_setChild s fun r' => ?_
  have := hq r'
  change ch.queued.count r' + (ch.inflight ++ [r]).count r' = _
  rw [hin, List.count_append, List.count_singleton]
  simp only [beq_iff_eq]
  omega

theorem tally_drain_needed (s : State n) {c : Fin n} {key : OctetSeq} {ch : Child}
    (hp : (s.child c).pick = some (.needed key, ch)) : (s.setChild c ch).tally = s.tally := by
  obtain ⟨hin, -, hq⟩ := pick_needed hp
  exact tally_setChild s fun r' => by rw [hin, hq]

theorem entry_drain {s s' : State n} {c : Fin n} (h : next s (.drain c) = some s') :
    Entry s.tally s'.tally := by
  rcases next_drain h with ⟨r, ch, hp, rfl⟩ | ⟨key, ch, hp, rfl⟩
  · exact .quiet (tally_drain_request s hp)
  · have hsame := tally_drain_needed s hp
    split
    · exact .quiet hsame
    · rw [← hsame]
      unfold State.needyGet
      split
      · exact .quiet rfl
      · rename_i hne
        exact .new _ (entry_issue (s.setChild c ch)
          (q := ⟨.get key, false, 1, false, [c], 1, others c⟩)
          (.needyGet key c rfl rfl rfl rfl hne) rfl rfl)

/-- An answer takes one debt away and enters the completion routine. -/
theorem entry_answer {s s' : State n} {c : Fin n} {r : ℕ} {a : Answer}
    (h : next s (.answer c r a) = some s') : Responds s.tally s'.tally r c a := by
  obtain ⟨hmem, rfl⟩ := next_answer h
  refine ⟨Tally.ext rfl rfl rfl rfl ?_ ?_ ?_ ?_ ?_ ?_ ?_, ?_⟩
  · funext r'
    simp [State.tally, State.spawn, State.note, State.setReq, State.setChild,
      weigh_inserting_respond]
  · funext r' c'
    simp [State.tally, State.spawn, State.note, State.setReq, State.setChild,
      weigh_unsending_respond]
  · funext r' c'
    simp [State.tally, State.spawn, State.note, State.setReq, State.setChild]
  · funext r' c' b
    simp [State.tally, State.spawn, State.note, State.setReq, State.setChild]
  · funext r'
    simp only [State.tally, State.responses, State.spawn, State.note, State.setReq, State.setChild,
      List.filterMap_append]
    by_cases hr : r = r' <;> simp [response, hr]
  · funext r'
    simp [State.tally, State.upcalls, State.spawn, State.note, State.setReq, State.setChild, told]
  · funext r'
    simp [State.tally, State.removals, State.spawn, State.note, State.setReq, State.setChild, gone]
  · intro r' c'
    simp only [State.tally, State.owes, State.spawn, State.note, State.setReq, State.setChild,
      weight_concat, weigh_owing_respond, Nat.add_zero]
    by_cases hc : c' = c
    · subst hc
      rw [Function.update_self]
      change _ = _ + (s.child c').queued.count r' + ((s.child c').inflight.erase r).count r' + _
      rw [List.count_erase]
      by_cases hr : r = r'
      · subst hr
        have hpos : 0 < (s.child c').inflight.count r := List.count_pos_iff.2 hmem
        simp only [beq_self_eq_true, if_true, and_self]
        omega
      · simp [hr]
    · simp [Function.update_of_ne hc, Ne.symm hc]

/-- The actions that enqueue a request owe one answer for each child. -/
theorem weigh_owing_map_enqueue (r : ℕ) (cs : List (Fin n)) (r' : ℕ) (c : Fin n) :
    weigh (owing r' c) (cs.map (Act.enqueue r)) = if r = r' then cs.count c else 0 := by
  induction cs with
  | nil => simp
  | cons c' cs ih =>
      rw [List.map_cons, weigh_cons, ih, List.count_cons]
      by_cases hr : r = r'
      · simp [owing, hr, Nat.add_comm]
      · simp [owing, hr]

/-- The cancellations owe one answer for each request found. -/
theorem weigh_owing_map_canceled (found : List (Fin n × ℕ)) (r : ℕ) (c : Fin n) :
    weigh (owing r c) (found.map fun x => Act.canceled x.2 x.1) = found.count (c, r) := by
  induction found with
  | nil => simp
  | cons x found ih =>
      obtain ⟨c', r'⟩ := x
      rw [List.map_cons, weigh_cons, ih, List.count_cons]
      by_cases hr : r' = r
      · simp [owing, hr, Nat.add_comm]
      · simp [owing, hr]

/-- What a child holds of a request, in its queues or in flight. -/
def Child.holds (ch : Child) (r : ℕ) : ℕ := ch.queued.count r + ch.inflight.count r

/-- A step of a thread that leaves the books alone: its action is replaced by actions of the same
weights, up to what has gone to or come from a child. -/
theorem tally_thread {s s₁ : State n} {i : ℕ} {a : Act n} {k m : List (Act n)}
    (hi : s.threads[i]? = some (a :: k))
    (hsame : s₁.reqs = s.reqs ∧ s₁.nreq = s.nreq ∧ s₁.requests = s.requests)
    (hlog : ∀ r, s₁.responses r = s.responses r ∧ s₁.upcalls r = s.upcalls r ∧
      s₁.removals r = s.removals r)
    (howes : ∀ r c, (s.child c).holds r + owing r c a =
      (s₁.child c).holds r + weigh (owing r c) m)
    (hins : ∀ r, inserting r a = weigh (inserting r) m)
    (hquiet : ∀ r c b, unsending r c a = weigh (unsending r c) m ∧
      removing r c a = weigh (removing r c) m ∧ telling r c b a = weigh (telling r c b) m) :
    { s₁ with threads := s.threads.set i (m ++ k) }.tally = s.tally := by
  obtain ⟨hreqs, hnreq, hrequests⟩ := hsame
  refine Tally.ext hreqs hnreq hrequests ?_ ?_ ?_ ?_ ?_ ?_ ?_ ?_
  · funext r c
    have h := weight_run (owing r c) hi m
    have h' := howes r c
    simp only [State.tally, State.owes, Child.holds] at h' ⊢
    omega
  · funext r
    have h := weight_run (inserting r) hi m
    have h' := hins r
    simp only [State.tally]
    omega
  · funext r c
    have h := weight_run (unsending r c) hi m
    have h' := (hquiet r c true).1
    simp only [State.tally]
    omega
  · funext r c
    have h := weight_run (removing r c) hi m
    have h' := (hquiet r c true).2.1
    simp only [State.tally]
    omega
  · funext r c b
    have h := weight_run (telling r c b) hi m
    have h' := (hquiet r c b).2.2
    simp only [State.tally]
    omega
  · funext r
    exact (hlog r).1
  · funext r
    exact (hlog r).2.1
  · funext r
    exact (hlog r).2.2

/-- Enqueueing a request adds it to one queue. -/
theorem holds_enqueue (ch : Child) (kind : Kind) (r r' : ℕ) :
    (ch.enqueue kind r).holds r' = ch.holds r' + if r = r' then 1 else 0 := by
  unfold Child.enqueue Child.holds
  split <;>
    · simp only [Child.queued, List.count_append, List.count_singleton, beq_iff_eq]
      omega

/-- A request that is taken out of the queue of gets. -/
theorem holds_erase {ch : Child} {r : ℕ} (hmem : r ∈ ch.getreqs) (r' : ℕ) :
    ch.holds r' = ({ ch with getreqs := ch.getreqs.erase r } : Child).holds r' +
      if r = r' then 1 else 0 := by
  simp only [Child.holds, Child.queued, List.count_append, List.count_erase, beq_iff_eq]
  by_cases hr : r = r'
  · subst hr
    have hpos : 0 < ch.getreqs.count r := List.count_pos_iff.2 hmem
    simp only [if_true]
    omega
  · simp [hr]

/-- A request found by a cancellation is a queued get for the key. -/
theorem scan_some {s : State n} {c : Fin n} {key : OctetSeq} {r : ℕ} (h : s.scan c key = some r) :
    r ∈ (s.child c).getreqs ∧ (s.reqs r).kind = .get key :=
  ⟨List.mem_of_find?_eq_some h, by simpa using List.find?_some h⟩

theorem holds_setChild (s : State n) (c : Fin n) (ch : Child) (c' : Fin n) (r : ℕ) :
    ((s.setChild c ch).child c').holds r = if c' = c then ch.holds r else (s.child c').holds r := by
  by_cases hc : c' = c
  · subst hc
    simp [State.setChild]
  · simp [State.setChild, hc]

section run

variable {s : State n} {i : ℕ} {k : List (Act n)}

theorem entry_insert {r : ℕ} {cs : List (Fin n)} (hi : s.threads[i]? = some (.insert r cs :: k)) :
    Inserts s.tally
      { s with
        requests := insert r s.requests
        threads := s.threads.set i (cs.map (Act.enqueue r) ++ k) }.tally r cs := by
  have hquiet {w : Act n → ℕ} (hw : ∀ c, w (.enqueue r c) = 0) : weigh w (cs.map (Act.enqueue r)) = 0 :=
    weigh_eq_zero fun a ha => by
      obtain ⟨c, -, rfl⟩ := List.mem_map.1 ha
      exact hw c
  refine ⟨Tally.ext rfl rfl rfl ?_ rfl rfl ?_ ?_ rfl rfl rfl, fun r' => ?_, fun r' c => ?_, ?_⟩
  · funext r' c
    have h := weight_run (owing r' c) hi (cs.map (Act.enqueue r))
    rw [weigh_owing_map_enqueue] at h
    simp only [State.tally, State.owes, owing] at h ⊢
    omega
  · funext r' c
    exact weight_run_eq hi rfl (hquiet fun _ => rfl)
  · funext r' c b
    exact weight_run_eq hi rfl (hquiet fun _ => rfl)
  · have h := weight_run (inserting r') hi (cs.map (Act.enqueue r))
    rw [hquiet fun _ => rfl] at h
    simp only [State.tally, inserting] at h ⊢
    omega
  · have h := weight_run (unsending r' c) hi (cs.map (Act.enqueue r))
    rw [hquiet fun _ => rfl] at h
    simp only [State.tally, unsending] at h ⊢
    omega
  · intro hz c
    refine weight_eq_zero_of (fun a ha => ?_) hz
    cases a with
    | insert r' cs' =>
        simp only [inserting, ite_eq_right_iff, one_ne_zero, imp_false] at ha
        simp [unsending, ha]
    | _ => rfl

theorem entry_enqueue {r : ℕ} {c : Fin n} (hi : s.threads[i]? = some (.enqueue r c :: k)) :
    { (s.setChild c ((s.child c).enqueue (s.reqs r).kind r)).note (.enqueued r c) with
      threads := s.threads.set i k }.tally = s.tally := by
  refine tally_thread (m := []) hi ⟨rfl, rfl, rfl⟩ (fun r' => enqueued_log s r c r') (fun r' c' => ?_)
    (fun _ => rfl) fun _ _ _ => ⟨rfl, rfl, rfl⟩
  have h := holds_setChild s c ((s.child c).enqueue (s.reqs r).kind r) c' r'
  rw [holds_enqueue] at h
  have h' : (((s.setChild c ((s.child c).enqueue (s.reqs r).kind r)).note
    (.enqueued r c)).child c').holds r' = _ := h
  rw [h']
  by_cases hc : c' = c
  · subst hc
    simp [owing]
  · simp [owing, hc, Ne.symm hc]

theorem entry_upcall {r : ℕ} {c : Fin n} {a : Answer}
    (hi : s.threads[i]? = some (.upcall r c a :: k)) :
    Tells s.tally { s.note (.upcall r c a) with threads := s.threads.set i k }.tally r c
      a.isGood := by
  refine ⟨Tally.ext rfl rfl rfl ?_ ?_ ?_ ?_ rfl ?_ ?_ ?_, fun r' c' b => ?_⟩
  · funext r' c'
    have h := weight_run (owing r' c') hi []
    simpa [State.tally, State.owes, State.note, owing] using h
  · funext r'
    exact weight_run_eq hi (m := []) rfl rfl
  · funext r' c'
    exact weight_run_eq hi (m := []) rfl rfl
  · funext r' c'
    exact weight_run_eq hi (m := []) rfl rfl
  · funext r'
    simp [State.tally, State.responses, State.note, response]
  · funext r'
    simp only [State.tally, State.upcalls, State.note, List.filterMap_append]
    by_cases hr : r = r' <;> simp [told, hr]
  · funext r'
    simp [State.tally, State.removals, State.note, gone]
  · have h := weight_run (telling r' c' b) hi []
    simp only [List.nil_append, weigh_nil, telling] at h
    simp only [State.tally]
    omega

/-- A cancelled request is answered by the thread that cancels it. -/
theorem entry_canceled {r : ℕ} {c : Fin n} (hi : s.threads[i]? = some (.canceled r c :: k)) :
    Responds s.tally
      { (s.setReq r (respond r c (s.reqs r) (.bad (.internalError "canceled"))).1).note
          (.canceled r c) with
        threads := s.threads.set i
          ((respond r c (s.reqs r) (.bad (.internalError "canceled"))).2 ++ k) }.tally r c
      (.bad (.internalError "canceled")) := by
  refine ⟨Tally.ext rfl rfl rfl rfl ?_ ?_ ?_ ?_ ?_ ?_ ?_, fun r' c' => ?_⟩
  · funext r'
    exact weight_run_eq hi rfl (weigh_inserting_respond ..)
  · funext r' c'
    exact weight_run_eq hi rfl (weigh_unsending_respond ..)
  · funext r' c'
    exact weight_run (removing r' c') hi _
  · funext r' c' b
    exact weight_run (telling r' c' b) hi _
  · funext r'
    simp only [State.tally, State.responses, State.note, State.setReq, List.filterMap_append]
    by_cases hr : r = r' <;> simp [response, hr, Answer.isGood]
  · funext r'
    simp [State.tally, State.upcalls, State.note, State.setReq, told]
  · funext r'
    simp [State.tally, State.removals, State.note, State.setReq, gone]
  · have h := weight_run (owing r' c') hi
      (respond r c (s.reqs r) (.bad (.internalError "canceled"))).2
    rw [weigh_owing_respond] at h
    simp only [owing] at h
    simp only [State.tally, State.owes, State.note, State.setReq]
    omega

theorem entry_needyPut {key blk : OctetSeq} {needy : List (Fin n)}
    (hi : s.threads[i]? = some (.needyPut key blk needy :: k)) :
    NewReq s.tally
      { s.alloc ⟨.put key blk, false, needy.length, false, [], needy.length, needy⟩ with
        threads := s.threads.set i (.insert s.nreq needy :: k) }.tally
      ⟨.put key blk, false, needy.length, false, [], needy.length, needy⟩ := by
  refine ⟨.needyPut key blk rfl rfl rfl, rfl, rfl, Tally.ext rfl rfl rfl ?_ ?_ ?_ ?_ ?_ rfl rfl rfl⟩
  · funext r c
    have h := weight_run_eq (w := owing r c) hi (m := [.insert s.nreq needy]) rfl rfl
    simp only [List.singleton_append] at h
    simp [State.tally, State.owes, State.alloc, h]
  · funext r
    exact weight_run (inserting r) hi [.insert s.nreq needy]
  · funext r c
    exact weight_run (unsending r c) hi [.insert s.nreq needy]
  · funext r c
    exact weight_run_eq hi (m := [.insert s.nreq needy]) rfl rfl
  · funext r c b
    exact weight_run_eq hi (m := [.insert s.nreq needy]) rfl rfl

theorem entry_done {r : ℕ} {c : Fin n} (hi : s.threads[i]? = some (.done r c :: k)) :
    Removes s.tally
      { { s with requests := s.requests.erase r }.note (.removed r c) with
        threads := s.threads.set i k }.tally r c := by
  refine ⟨Tally.ext rfl rfl rfl ?_ ?_ ?_ rfl ?_ ?_ ?_ ?_, fun r' c' => ?_⟩
  · funext r' c'
    have h := weight_run (owing r' c') hi []
    simpa [State.tally, State.owes, State.note, owing] using h
  · funext r'
    exact weight_run_eq hi (m := []) rfl rfl
  · funext r' c'
    exact weight_run_eq hi (m := []) rfl rfl
  · funext r' c' b
    exact weight_run_eq hi (m := []) rfl rfl
  · funext r'
    simp [State.tally, State.responses, State.note, response]
  · funext r'
    simp [State.tally, State.upcalls, State.note, told]
  · funext r'
    simp only [State.tally, State.removals, State.note, List.filterMap_append]
    by_cases hr : r = r' <;> simp [gone, hr]
  · have h := weight_run (removing r' c') hi []
    simp only [List.nil_append, weigh_nil, removing] at h
    simp only [State.tally]
    omega

/-- A cancellation moves requests from the queues to the list of those found, and from there to the
actions that answer them. -/
theorem entry_cancel {hadit : Fin n} {key : OctetSeq} {left : List (Fin n)}
    {found : List (Fin n × ℕ)} (hi : s.threads[i]? = some (.cancel hadit key left found :: k)) :
    { (exec s (.cancel hadit key left found) k).1 with
      threads := s.threads.set i (exec s (.cancel hadit key left found) k).2 }.tally = s.tally := by
  cases left with
  | nil =>
      have hquiet {w : Act n → ℕ} (hw : ∀ r c, w (.canceled r c) = 0) :
          weigh w (found.map fun x => Act.canceled x.2 x.1) = 0 := weigh_eq_zero fun a ha => by
        obtain ⟨x, -, rfl⟩ := List.mem_map.1 ha
        exact hw x.2 x.1
      refine tally_thread hi ⟨rfl, rfl, rfl⟩ (fun _ => ⟨rfl, rfl, rfl⟩) (fun r c => ?_)
        (fun _ => (hquiet fun _ _ => rfl).symm) fun _ _ _ => ⟨(hquiet fun _ _ => rfl).symm,
          (hquiet fun _ _ => rfl).symm, (hquiet fun _ _ => rfl).symm⟩
      rw [weigh_owing_map_canceled]
      rfl
  | cons c left =>
      have hskip : { s with threads := s.threads.set i (.cancel hadit key left found :: k) }.tally =
          s.tally :=
        tally_thread (m := [.cancel hadit key left found]) hi ⟨rfl, rfl, rfl⟩
          (fun _ => ⟨rfl, rfl, rfl⟩) (fun _ _ => rfl) (fun _ => rfl) fun _ _ _ => ⟨rfl, rfl, rfl⟩
      rcases exec_cancel_cons s hadit key c left found k with hexec | ⟨r, -, hscan, hexec⟩
      · rw [hexec]
        exact hskip
      · rw [hexec]
        obtain ⟨hmem, -⟩ := scan_some hscan
        refine tally_thread (m := [.cancel hadit key left (found ++ [(c, r)])]) hi ⟨rfl, rfl, rfl⟩
          (fun _ => ⟨rfl, rfl, rfl⟩) (fun r' c' => ?_) (fun _ => rfl) fun _ _ _ => ⟨rfl, rfl, rfl⟩
        rw [holds_setChild]
        by_cases hc : c' = c
        · subst hc
          have h := holds_erase hmem r'
          simp only [if_true, weigh_cons, weigh_nil, owing, List.count_append,
            List.count_singleton, beq_iff_eq, Prod.mk.injEq, true_and]
          omega
        · simp [owing, hc, Ne.symm hc]

theorem entry_neededKey {c : Fin n} {key : OctetSeq}
    (hi : s.threads[i]? = some (.neededKey c key :: k)) :
    { s.setChild c { s.child c with neededkeys := (s.child c).neededkeys ++ [key] } with
      threads := s.threads.set i k }.tally = s.tally := by
  refine tally_thread (m := []) hi ⟨rfl, rfl, rfl⟩ (fun _ => ⟨rfl, rfl, rfl⟩) (fun r c' => ?_)
    (fun _ => rfl) fun _ _ _ => ⟨rfl, rfl, rfl⟩
  rw [holds_setChild]
  by_cases hc : c' = c
  · subst hc
    rw [if_pos rfl]
    rfl
  · simp [hc, owing]

end run

/-- An answered request has been inserted. -/
theorem TallyOk.inserting_eq_zero {t : Tally n} (h : TallyOk t) {r : ℕ} {c : Fin n}
    (hmem : c ∈ (t.responses r).map Prod.fst) : t.inserting r = 0 := by
  have h₁ := h.once r
  have h₂ := h.unsent r c
  have h₃ := h.owes r c
  have h₄ : 0 < ((t.responses r).map Prod.fst).count c := List.count_pos_iff.2 hmem
  interval_cases t.inserting r
  · rfl
  · omega

/-- A removal, done or to come, is that of the answer that brought the count to zero. -/
theorem TallyOk.closed {t : Tally n} (h : TallyOk t) {r : ℕ} {c : Fin n}
    (hc : 0 < (t.removals r).count c + t.removing r c) :
    0 < (t.reqs r).issued ∧
      ((t.responses r).map Prod.fst)[(t.reqs r).issued.toNat - 1]? = some c := by
  rw [h.removed r c] at hc
  by_contra hno
  rw [if_neg hno] at hc
  omega

/-- A request that is about to be removed is in `m_requests`. -/
theorem TallyOk.mem_of_removing {t : Tally n} (h : TallyOk t) {r : ℕ} {c : Fin n}
    (hc : 0 < t.removing r c) : r ∈ t.requests := by
  obtain ⟨hpos, hlast⟩ := h.closed (r := r) (c := c) (by omega)
  refine (h.member r).2 ⟨?_, h.inserting_eq_zero (List.mem_of_getElem? hlast), ?_⟩
  · by_contra hge
    have := (h.fresh r (by omega)).2.1
    omega
  · -- an earlier removal would be by the same child, and there is but one
    refine List.eq_nil_iff_forall_not_mem.2 fun c' hc' => ?_
    have hcount : 0 < (t.removals r).count c' := List.count_pos_iff.2 hc'
    obtain ⟨-, hlast'⟩ := h.closed (r := r) (c := c') (by omega)
    obtain rfl : c = c' := by simpa [hlast] using hlast'
    have := h.removed r c
    rw [if_pos ⟨hpos, hlast⟩] at this
    omega

/-- The step of a thread. -/
theorem entry_run {s s' : State n} (hok : TallyOk s.tally) {i : ℕ}
    (h : next s (.run i) = some s') : Entry s.tally s'.tally := by
  obtain ⟨a, k, hi, rfl⟩ := next_run h
  cases a with
  | insert r cs => exact .insert r cs (entry_insert hi)
  | enqueue r c => exact .quiet (entry_enqueue hi)
  | upcall r c a => exact .tell r c _ (entry_upcall hi)
  | cancel hadit key left found => exact .quiet (entry_cancel hi)
  | canceled r c => exact .respond r c _ (entry_canceled hi)
  | needyPut key blk needy => exact .new _ (entry_needyPut hi)
  | neededKey c key => exact .quiet (entry_neededKey hi)
  | done r c =>
      have hpos : 0 < s.tally.removing r c := weight_pos hi (by simp [removing])
      have hmem : r ∈ s.requests := hok.mem_of_removing hpos
      have hexec : exec s (.done r c) k =
          ({ s with requests := s.requests.erase r }.note (.removed r c), k) := if_pos hmem
      rw [hexec]
      exact .remove r c (entry_done hi)

/-- **A step of the store makes an entry.** -/
theorem tally_next {s s' : State n} (hok : TallyOk s.tally) {x : Label n}
    (h : next s x = some s') : Entry s.tally s'.tally := by
  cases x with
  | client kind =>
      obtain rfl : s.issue kind = s' := by simpa [next] using h
      exact .new _ (entry_issue s (q := ⟨kind, false, n, true, [], n, List.finRange n⟩)
        (.client rfl rfl rfl) rfl rfl)
  | drain c => exact entry_drain h
  | answer c r a => exact .respond r c a (entry_answer h)
  | run i => exact entry_run hok h

/-- **What a step does to the request objects**: it enters a completion routine with one of them, or
makes a new one. -/
theorem reqs_next {s s' : State n} {x : Label n} (h : next s x = some s') :
    (s'.nreq = s.nreq ∧ (s'.reqs = s.reqs ∨
      ∃ r c a, s'.reqs = Function.update s.reqs r (respond r c (s.reqs r) a).1)) ∨
    ∃ q, s'.nreq = s.nreq + 1 ∧ s'.reqs = Function.update s.reqs s.nreq q ∧
      ((∃ kind, x = .client kind ∧ q = ⟨kind, false, n, true, [], n, List.finRange n⟩) ∨
      (∃ c key ch, x = .drain c ∧ (s.child c).pick = some (.needed key, ch) ∧ key ≠ [] ∧
        others c ≠ [] ∧ q = ⟨.get key, false, 1, false, [c], 1, others c⟩) ∨
      ∃ i key blk needy k, x = .run i ∧ s.threads[i]? = some (.needyPut key blk needy :: k) ∧
        q = ⟨.put key blk, false, needy.length, false, [], needy.length, needy⟩) := by
  cases x with
  | client kind =>
      obtain rfl : s.issue kind = s' := by simpa [next] using h
      exact .inr ⟨_, rfl, rfl, .inl ⟨kind, rfl, rfl⟩⟩
  | drain c =>
      rcases next_drain h with ⟨r, ch, -, rfl⟩ | ⟨key, ch, hp, rfl⟩
      · exact .inl ⟨rfl, .inl rfl⟩
      · split
        · exact .inl ⟨rfl, .inl rfl⟩
        · rename_i hkey
          unfold State.needyGet
          split
          · exact .inl ⟨rfl, .inl rfl⟩
          · rename_i hne
            exact .inr ⟨_, rfl, rfl, .inr (.inl ⟨c, key, ch, rfl, hp, hkey, hne, rfl⟩)⟩
  | answer c r a =>
      obtain ⟨-, rfl⟩ := next_answer h
      exact .inl ⟨rfl, .inr ⟨r, c, a, rfl⟩⟩
  | run i =>
      obtain ⟨act, k, hi, rfl⟩ := next_run h
      cases act with
      | canceled r c => exact .inl ⟨rfl, .inr ⟨r, c, _, rfl⟩⟩
      | needyPut key blk needy =>
          exact .inr ⟨_, rfl, rfl, .inr (.inr ⟨i, key, blk, needy, k, rfl, hi, rfl⟩)⟩
      | cancel hadit key left found =>
          cases left with
          | nil => exact .inl ⟨rfl, .inl rfl⟩
          | cons c left =>
              rcases exec_cancel_cons s hadit key c left found k with hexec | ⟨r, -, -, hexec⟩
              · rw [hexec]
                exact .inl ⟨rfl, .inl rfl⟩
              · rw [hexec]
                exact .inl ⟨rfl, .inl rfl⟩
      | done r c =>
          by_cases hmem : r ∈ s.requests
          · rw [show exec s (.done r c) k = _ from if_pos hmem]
            exact .inl ⟨rfl, .inl rfl⟩
          · rw [show exec s (.done r c) k = _ from if_neg hmem]
            exact .inl ⟨rfl, .inl rfl⟩
      | _ => exact .inl ⟨rfl, .inl rfl⟩

end VBS

end Utopfs
