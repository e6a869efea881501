/-
**Cancelled gets.**

When a get succeeds, `cancel_get` takes the first queued get for the same key from each of the other
children and calls its `bg_error`.  The request that it finds need not be the one that succeeded:
another client may want the same block.  As long as that other get has succeeded already nothing is
lost.  If not, the cancelled child counts as one that failed, and when all its children are cancelled
in this way the client is told of an error although no child has been asked.

Main definitions:

* `VBS.State.answers` — what the children themselves have answered to a request;
* `VBS.SparesGets` — the steps that cancel no client's get that has not succeeded;
* `VBS.SparedOk` — what has been cancelled, or is about to be, had succeeded or was no client's.

Main results:

* `VBS.sparedOk_of_runs` — this holds in runs of such steps;
* `VBS.told_bad_of_runs` — then the client of a get is told of an error only if every child has
  answered it with one;
* `VBS.told_bad_canceled` — otherwise the client may be told of an error that no child gave.
-/

import Mathlib.Tactic
import Utopfs.VBlockStoreFanOut

set_option relaxedAutoImplicit false
set_option autoImplicit false

namespace Utopfs

namespace VBS

open Interleave

variable {n : ℕ}

/-- An answer given by a child itself. -/
def answer (r : ℕ) : Event n → Option (Fin n × Bool)
  | .answered r' c a => if r' = r then some (c, a.isGood) else none
  | _ => none

/-- What the children themselves have answered to a request. -/
def State.answers (s : State n) (r : ℕ) : List (Fin n × Bool) := s.log.filterMap (answer r)

/-- A request that may be cancelled without harm: no client waits for it, or not any longer. -/
def State.spared (s : State n) (r : ℕ) : Prop :=
  r < s.nreq ∧ ((s.reqs r).cmpl = false ∨ (s.reqs r).succeeded = true)

/-- A step that cancels no client's get that has not succeeded: when the scan of `cancel_get` comes to
a child, the first get for the key in its queue is spared. -/
def SparesGets (s : State n) : Label n → Prop
  | .run i => ∀ hadit key c left found k r,
      s.threads[i]? = some (.cancel hadit key (c :: left) found :: k) → c ≠ hadit →
      s.scan c key = some r → (s.reqs r).cmpl = false ∨ (s.reqs r).succeeded = true
  | _ => True

/-- **What has been cancelled, or is about to be, had succeeded or was no client's.** -/
structure SparedOk (s : State n) : Prop where
  log : ∀ r c, .canceled r c ∈ s.log → s.spared r
  canceled : ∀ k ∈ s.threads, ∀ r c, .canceled r c ∈ k → s.spared r
  found : ∀ k ∈ s.threads, ∀ hadit key left found, .cancel hadit key left found ∈ k →
    ∀ c r, (c, r) ∈ found → s.spared r

/-- A request that succeeded has succeeded. -/
theorem spared_next {s s' : State n} {x : Label n} (h : next s x = some s') {r : ℕ}
    (hr : s.spared r) : s'.spared r := by
  obtain ⟨hlt, hr⟩ := hr
  rcases reqs_next h with ⟨hnreq, hreqs | ⟨r', c, a, hreqs⟩⟩ | ⟨q, hnreq, hreqs, -⟩
  · exact ⟨by omega, by rwa [hreqs]⟩
  · refine ⟨by omega, ?_⟩
    rw [hreqs]
    by_cases hne : r = r'
    · subst hne
      obtain ⟨-, hcmpl, -, -, -, hsucc⟩ := respond_fields r c (s.reqs r) a
      rw [Function.update_self, hcmpl, hsucc]
      rcases hr with hr | hr
      · exact .inl hr
      · exact .inr (by rw [hr, Bool.true_or])
    · rwa [Function.update_of_ne hne]
  · refine ⟨by omega, ?_⟩
    have hne : r ≠ s.nreq := by omega
    rwa [hreqs, Function.update_of_ne hne]

/-- A cancellation in the history is of a thread that was about to do it. -/
theorem canceled_of_next {s s' : State n} {x : Label n} (h : next s x = some s') {r : ℕ} {c : Fin n}
    (hmem : .canceled r c ∈ s'.log) :
    .canceled r c ∈ s.log ∨ ∃ k ∈ s.threads, .canceled r c ∈ k := by
  cases x with
  | client kind =>
      obtain rfl : s.issue kind = s' := by simpa [next] using h
      exact .inl hmem
  | drain c' =>
      rcases next_drain h with ⟨r', ch, -, rfl⟩ | ⟨key, ch, -, rfl⟩
      · exact .inl hmem
      · split at hmem
        · exact .inl hmem
        · unfold State.needyGet at hmem
          split at hmem <;> exact .inl hmem
  | answer c' r' a =>
      obtain ⟨-, rfl⟩ := next_answer h
      exact .inl (by simpa [State.spawn, State.note, State.setReq, State.setChild] using hmem)
  | run i =>
      obtain ⟨b, k, hi, rfl⟩ := next_run h
      cases b with
      | enqueue r' c' => exact .inl (by simpa [exec, State.note, State.setChild] using hmem)
      | upcall r' c' a => exact .inl (by simpa [exec, State.note] using hmem)
      | cancel hadit key left found =>
          cases left with
          | nil => exact .inl hmem
          | cons c' left =>
              rcases exec_cancel_cons s hadit key c' left found k with hexec | ⟨r', -, -, hexec⟩
              · rw [hexec] at hmem
                exact .inl hmem
              · rw [hexec] at hmem
                exact .inl hmem
      | canceled r' c' =>
          rcases List.mem_append.1 hmem with hold | hnew
          · exact .inl hold
          · refine .inr ⟨_, List.mem_of_getElem? hi, ?_⟩
            simp only [List.mem_singleton, Event.canceled.injEq] at hnew
            obtain ⟨rfl, rfl⟩ := hnew
            exact List.mem_cons_self ..
      | done r' c' =>
          by_cases hin : r' ∈ s.requests
          · exact .inl (by simpa [exec, hin, State.note] using hmem)
          · exact .inl (by simpa [exec, hin] using hmem)
      | _ => exact .inl hmem

/-- What is in a queue has been made. -/
theorem TallyOk.lt_of_queued {s : State n} (h : TallyOk s.tally) {r : ℕ} {c : Fin n}
    (hmem : r ∈ (s.child c).queued) : r < s.nreq := by
  by_contra hge
  have hzero : s.owes r c = 0 := (h.blank (by simpa [State.tally] using hge)).2.1 c
  have hpos : 0 < (s.child c).queued.count r := List.count_pos_iff.2 hmem
  simp only [State.owes] at hzero
  omega

theorem SparedOk.next {s s' : State n} (hok : SparedOk s) (htally : TallyOk s.tally) {x : Label n}
    (hx : SparesGets s x) (h : next s x = some s') : SparedOk s' := by
  constructor
  case log =>
    intro r c hmem
    rcases canceled_of_next h hmem with hold | ⟨k, hk, hmem⟩
    · exact spared_next h (hok.log r c hold)
    · exact spared_next h (hok.canceled k hk r c hmem)
  case canceled =>
    intro k' hk' r c hmem
    rcases born_of_next h hk' hmem with ⟨k, hk, hold⟩ | hborn
    · exact spared_next h (hok.canceled k hk r c hold)
    · cases hborn with
      | respond r' c' a hb => simpa using mem_respond hb
      | canceled hx hi hmem =>
          exact spared_next h
            (hok.found _ (List.mem_of_getElem? hi) _ _ _ _ (List.mem_cons_self ..) c r hmem)
  case found =>
    intro k' hk' hadit key left found hmem c r hfound
    rcases born_of_next h hk' hmem with ⟨k, hk, hold⟩ | hborn
    · exact spared_next h (hok.found k hk hadit key left found hold c r hfound)
    · cases hborn with
      | respond r' c' a hb =>
          -- a completion routine starts its scan with nothing found
          obtain rfl : found = [] := by
            have := mem_respond hb
            simp only [Act.cancel.injEq, reduceCtorEq, exists_false, false_or, or_false] at this
            obtain ⟨_, -, -, -, hnil⟩ := this
            exact hnil
          simp at hfound
      | skipped hx hi =>
          exact spared_next h
            (hok.found _ (List.mem_of_getElem? hi) _ _ _ _ (List.mem_cons_self ..) c r hfound)
      | found hxi hi hc hscan =>
          rcases List.mem_append.1 hfound with hold | hnew
          · exact spared_next h
              (hok.found _ (List.mem_of_getElem? hi) _ _ _ _ (List.mem_cons_self ..) c r hold)
          · simp only [List.mem_singleton, Prod.mk.injEq] at hnew
            obtain ⟨rfl, rfl⟩ := hnew
            rw [hxi] at hx
            refine spared_next h ⟨?_, hx _ _ _ _ _ _ _ hi hc hscan⟩
            exact htally.lt_of_queued (List.mem_append_left _ (List.mem_append_right _ (scan_some hscan).1))

/-- **This holds in runs of such steps.** -/
theorem sparedOk_of_runs {s : State n} (h : RunsWith SparesGets s) : SparedOk s := by
  have hboth : TallyOk s.tally ∧ SparedOk s :=
    h.inv (I := fun s => TallyOk s.tally ∧ SparedOk s)
      ⟨tallyOk_init, by simp [State.init], by simp [State.init], by simp [State.init]⟩
      fun _ _ _ ⟨htally, hok⟩ hx hnext =>
        ⟨htally.entry (tally_next htally hnext), hok.next htally hx hnext⟩
  exact hboth.2

/-- A response is the child's own answer, or a cancellation. -/
theorem mem_answers {s : State n} {r : ℕ} {x : Fin n × Bool} (h : x ∈ s.responses r) :
    x ∈ s.answers r ∨ .canceled r x.1 ∈ s.log := by
  obtain ⟨e, he, hx⟩ := List.mem_filterMap.1 h
  cases e with
  | answered r' c a => exact .inl (List.mem_filterMap.2 ⟨_, he, hx⟩)
  | canceled r' c =>
      simp only [response, Option.ite_none_right_eq_some, Option.some.injEq] at hx
      obtain ⟨rfl, rfl⟩ := hx
      exact .inr he
  | _ => simp [response] at hx

/-- What the client is told when it is told of a failure: all children have answered, and none with
success. -/
theorem TellOk.all_bad {s : State n} (htally : TallyOk s.tally) (htell : TellOk s.tally) {r : ℕ}
    (hr : r < s.nreq) (hcmpl : (s.reqs r).cmpl = true) (hk : (s.reqs r).kind.fansOut = true)
    {c : Fin n} (hup : (c, false) ∈ s.upcalls r) :
    (∀ x ∈ s.responses r, x.2 = false) ∧ ∀ c', c' ∈ (s.responses r).map Prod.fst := by
  have hout : outcome (s.reqs r).issued (s.responses r) = some (c, false) := by
    have h₁ : (s.upcalls r).count (c, false) + weight (telling r c false) s.threads =
        if outcome (s.reqs r).issued (s.responses r) = some (c, false) then 1 else 0 :=
      htell.told r hr hcmpl hk c false
    have h₂ : 0 < (s.upcalls r).count (c, false) := List.count_pos_iff.2 hup
    by_contra hno
    rw [if_neg hno] at h₁
    omega
  unfold outcome at hout
  split at hout
  · rename_i y hfind
    have hy : y.2 = true := List.find?_some hfind
    simp only [Option.some.injEq] at hout
    simp [hout] at hy
  · rename_i hfind
    refine ⟨fun x hx => by simpa using List.find?_eq_none.1 hfind x hx, fun c' => ?_⟩
    rw [Option.ite_none_right_eq_some] at hout
    obtain ⟨hpos, hsome⟩ := hout
    have hlt : (s.reqs r).issued.toNat - 1 < (s.responses r).length := by
      by_contra hge
      rw [List.getElem?_eq_none (by omega)] at hsome
      simp at hsome
    by_contra hno
    -- a child that has not answered would still owe its answer
    have hmade : (s.reqs r).issued = n ∧ (s.reqs r).targets = List.finRange n := by
      cases htally.made r hr with
      | client _ h₁ h₂ => exact ⟨h₁, h₂⟩
      | needyGet _ _ _ hc => exact absurd (hcmpl.symm.trans hc) (by decide)
      | needyPut _ _ _ hc => exact absurd (hcmpl.symm.trans hc) (by decide)
    have h₁ : _ + _ + _ = _ := htally.owes r c'
    have h₂ : _ + _ = _ := htally.sum_owes r
    have h₃ := Finset.single_le_sum (f := fun c => s.tally.unsent r c + s.tally.owes r c)
      (fun _ _ => Nat.zero_le _) (Finset.mem_univ c')
    have h₄ : ((s.responses r).map Prod.fst).count c' = 0 := List.count_eq_zero.2 hno
    have h₅ : (s.tally.reqs r).targets.count c' = 1 := by
      simp [State.tally, hmade.2, List.count_eq_one_of_mem (List.nodup_finRange n)]
    have h₆ : (s.tally.reqs r).targets.length = n := by simp [State.tally, hmade.2]
    have h₇ : s.tally.responses r = s.responses r := rfl
    rw [h₇] at h₁ h₂
    rw [hmade.1] at hlt hpos
    omega

/-- **A get fails only where every child has failed.**  In runs that cancel no client's get that has
not succeeded, the client of a get is told of an error only if every child has itself answered the
request with an error. -/
theorem told_bad_of_runs {s : State n} (h : RunsWith SparesGets s) {r : ℕ} (hr : r < s.nreq)
    {key : OctetSeq} (hkind : (s.reqs r).kind = .get key) (hcmpl : (s.reqs r).cmpl = true)
    {c : Fin n} (hup : (c, false) ∈ s.upcalls r) : ∀ c', (c', false) ∈ s.answers r := by
  have htally := tallyOk_of_runs h
  obtain ⟨hbad, hall⟩ := TellOk.all_bad htally (tellOk_of_runs h) hr hcmpl
    (by rw [hkind]; rfl) hup
  intro c'
  obtain ⟨⟨_, b⟩, hmem, rfl⟩ := List.mem_map.1 (hall c')
  obtain rfl : b = false := hbad _ hmem
  rcases mem_answers hmem with hans | hcanceled
  · exact hans
  · -- a cancelled get had succeeded
    exfalso
    obtain ⟨-, hno | hsucc⟩ := (sparedOk_of_runs h).log r _ hcanceled
    · simp [hcmpl] at hno
    · have hany : (s.reqs r).succeeded = (s.responses r).any Prod.snd := htally.succeeded r
      rw [hsucc] at hany
      obtain ⟨x, hx, hgood⟩ := List.any_eq_true.1 hany.symm
      simp [hbad x hx] at hgood

/-- The test of `SparesGets`. -/
def sparesGets (s : State n) : Label n → Bool
  | .run i =>
      match s.threads[i]? with
      | some (.cancel hadit key (c :: _) _ :: _) =>
          c = hadit || (s.scan c key).all fun r => !(s.reqs r).cmpl || (s.reqs r).succeeded
      | _ => true
  | _ => true

theorem sparesGets_of_test {s : State n} {x : Label n} (hx : sparesGets s x = true) : SparesGets s x := by
  cases x with
  | run i =>
      intro hadit key c left found k r hi hne hscan
      simpa [sparesGets, hi, hne, hscan] using hx
  | _ => trivial

/-- Two gets of one block.  The success of the first takes its own get from the queue of the other child, where
that of the second is waiting, too; the second is answered with an error by both. -/
theorem told_bad_both : ∃ s : State 2, RunsWith SparesGets s ∧ s.answers 0 = [(0, true)] ∧
    (1, false) ∈ s.responses 0 ∧ (1, false) ∈ s.upcalls 1 ∧ ∀ c, (c, false) ∈ s.answers 1 := by
  obtain ⟨s, hruns, hval⟩ : ∃ s : State 2, RunsWith SparesGets s ∧
      decide (s.answers 0 = [(0, true)] ∧ (1, false) ∈ s.responses 0 ∧ (s.reqs 1).kind = .get [1] ∧
        (s.reqs 1).cmpl = true ∧ 1 < s.nreq ∧ (1, false) ∈ s.upcalls 1) = true :=
    Reach.exists_of_play [.client (.get [1]), .client (.get [1]), .run 0, .run 0, .run 0, .run 1, .run 1,
      .run 1, .drain 0, .answer 0 0 (.good [7]), .run 2, .run 2, .run 2, .run 2, .run 2, .run 2, .drain 0, .drain 1,
      .answer 0 1 (.bad (.notFoundError "no block")), .answer 1 1 (.bad (.internalError "down")), .run 4]
      (p := sparesGets) (fun _ _ => sparesGets_of_test) (by decide +kernel)
  obtain ⟨hans, hcanceled, hkind, hcmpl, hlt, hup⟩ := of_decide_eq_true hval
  exact ⟨s, hruns, hans, hcanceled, hup, told_bad_of_runs hruns hlt hkind hcmpl hup⟩

/-- **A get that fails although no child has failed it.**  Three clients want one block, which both
children have.  The first child has queued the gets in the order 0, 1, 2 and the second in the order
2, 1, 0.  The first child answers get 0 and the second get 2; each success takes get 1 from the queue
of the other child, and the client of get 1 is told of an error. -/
theorem told_bad_canceled : ∃ s : State 2, Runs s ∧ (s.reqs 1).kind = .get [1] ∧
    (s.reqs 1).cmpl = true ∧ (0, false) ∈ s.upcalls 1 ∧ s.answers 1 = [] ∧
    (0, true) ∈ s.answers 0 ∧ (1, true) ∈ s.answers 2 := by
  obtain ⟨s, hruns, hval⟩ : ∃ s : State 2, Runs s ∧ decide ((s.reqs 1).kind = .get [1] ∧
      (s.reqs 1).cmpl = true ∧ (0, false) ∈ s.upcalls 1 ∧ s.answers 1 = [] ∧
      (0, true) ∈ s.answers 0 ∧ (1, true) ∈ s.answers 2) = true :=
    Reach.exists_of_play [.client (.get [1]), .client (.get [1]), .client (.get [1]), .run 0, .run 0,
      .run 1, .run 1, .run 2, .run 2, .run 2, .run 1, .run 0, .drain 0, .drain 1,
      .answer 0 0 (.good [7]), .answer 1 2 (.good [7]), .run 3, .run 3, .run 3, .run 3, .run 3, .run 4,
      .run 4, .run 4, .run 4, .run 4, .run 4] (p := fun _ _ => true) (fun _ _ _ => trivial)
      (by decide +kernel)
  exact ⟨s, hruns, of_decide_eq_true hval⟩

end VBS

end Utopfs
